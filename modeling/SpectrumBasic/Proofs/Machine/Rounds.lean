import SpectrumBasic.Proofs.Machine.Records

/-! The rounds of a loop. Between a `FOR` and its `NEXT` there may be any statements that fall through
and leave the loop alone. They are executed once for each value of the variable, from the first one
on, until the next value would be past the target; the program then goes on behind the `NEXT`. -/

namespace SpectrumBasic

open Attempt (outcome outcome_bind)
open Float.Model (UnpackedFloat)

/-! ### Values of the variable -/

/-- A value has passed the target in the direction of the step. -/
def HasPassed (target step x : Float) : Prop := (0.0 < step ∧ target < x) ∨ (step < 0.0 ∧ x < target)

instance (target step x : Float) : Decidable (HasPassed target step x) :=
  inferInstanceAs (Decidable ((0.0 < step ∧ target < x) ∨ (step < 0.0 ∧ x < target)))

theorem ForLoop.isPast_iff (record : ForLoop) (x : Float) :
    record.isPast x = true ↔ HasPassed record.target record.step x := by
  simp [isPast, HasPassed]

/-- The values that a variable goes through if it begins with `first` and `step` is added to it again
and again. -/
def counter (first step : Float) : Nat → Float
  | 0 => first
  | k + 1 => counter first step k + step

/-- Zero of either sign is neither above zero nor below it. -/
theorem not_lt_of_beq_zero {x : Float} (h : (x == 0.0) = true) : ¬ 0.0 < x ∧ ¬ x < 0.0 := by
  have hbeq : x.toModel.unpack.beq (.zero .positive) = true := h
  have hup (hlt : 0.0 < x) : (UnpackedFloat.zero .positive).lt x.toModel.unpack = true :=
    of_decide_eq_true hlt
  have hdown (hlt : x < 0.0) : x.toModel.unpack.lt (.zero .positive) = true := of_decide_eq_true hlt
  generalize x.toModel.unpack = u at hbeq hup hdown
  cases u with
  | notANumber => cases hbeq
  | infinity sign => cases sign <;> cases hbeq
  | zero sign =>
    refine ⟨fun hlt => ?_, fun hlt => ?_⟩
    · cases hup hlt
    · cases hdown hlt
  | finite sign mantissa exponent hpos => cases sign <;> cases hbeq

theorem not_hasPassed_of_beq_zero {target step : Float} (h : (step == 0.0) = true) (x : Float) :
    ¬ HasPassed target step x := by
  obtain ⟨hup, hdown⟩ := not_lt_of_beq_zero h
  rintro (⟨hlt, _⟩ | ⟨hlt, _⟩)
  · exact hup hlt
  · exact hdown hlt

/-! ### The two statements -/

/-- The arguments of a `FOR` over `name`, with the values of its expressions. The step is one if it is
left out. -/
inductive LoopArguments (name : String) (first target : Float) : Float → Arguments → Prop
  | byOne : LoopArguments name first target 1.0 [.name name, .mark, .number first, .mark, .number target]
  | byStep (step : Float) : LoopArguments name first target step
      [.name name, .mark, .number first, .mark, .number target, .mark, .number step]

namespace Statement

theorem outcome_perform_forTo {name : String} {first target step : Float} {args : Arguments}
    (h : LoopArguments name first target step args) (nested : Text → Action Flow) (c : Context) :
    outcome (perform nested .forTo args) c =
      match c.vars.store name first with
      | .ok vars => (.ok (.loop { variableName := name, step, target }), { c with vars })
      | .error f => (.error f, c) := by
  have hperform : perform nested .forTo args = Action.store name first >>= fun _ =>
      pure (.loop { variableName := name, step, target }) := by
    cases h <;> rfl
  rw [hperform, outcome_bind, Action.outcome_store]
  cases c.vars.store name first <;> rfl

/-- A `NEXT` and a name need no binding. -/
theorem comesTo_next {text : Text} {name : String} {span span' : Span}
    (h : Token.lex text = [⟨span, .name "NEXT"⟩, ⟨span', .name name⟩]) (c : Context) :
    ComesTo text c .next [.name name] c :=
  .own ⟨span, _, h, rfl⟩ nofun

end Statement

namespace Machine

open Program (boundary firstStatement)
open Statement (ComesTo)

/-- The start of the `j`-th statement behind the one at an offset, in the order of the text. -/
def following (source : Text) (offset : Nat) : Nat → Nat
  | 0 => (boundary source offset).stop + 1
  | j + 1 => (boundary source (following source offset j)).stop + 1

theorem following_lt (source : Text) (offset j : Nat) :
    following source offset j < following source offset (j + 1) :=
  Nat.lt_succ_of_le (Program.le_boundary_stop source _)

theorem following_le {source : Text} {offset j n : Nat} (h : j ≤ n) :
    following source offset j ≤ following source offset n := by
  induction h with
  | refl => exact Nat.le_refl _
  | step _ ih => exact Nat.le_trans ih (Nat.le_of_lt (following_lt source offset _))

/-- The next statement falls through: the program goes on with the one behind it, and neither the
variable nor the record of its loop is changed. -/
def FallsThrough (name : String) (m : Machine) : Prop :=
  ∃ c, outcome (m.statementAt m.place) m.context = (.ok .next, c) ∧
    c.vars.fetch name = m.context.vars.fetch name ∧ c.loops[name]? = m.context.loops[name]?

/-- The loop has had its record ever since the `FOR`, for `i` steps now. -/
def Lasts (name : String) (m : Machine) (i : Nat) : Prop :=
  ∀ i' ≤ i, ((m.steps i').2.context.loops[name]?).isSome = true

/-- The machine `m` executes a `FOR` over `name`, which leads to `m₁`. Behind it there are `n` statements
that fall through as long as the loop lasts, and then the `NEXT`. -/
structure ForNext (m : Machine) (name : String) (first target step : Float) (n : Nat) (m₁ : Machine) :
    Prop where
  lt : m.place < Text.byteLength m.source
  arguments : ∃ args c, ComesTo m.statement m.context .forTo args c ∧
    LoopArguments name first target step args
  starts : m.step = (none, m₁)
  body : ∀ i, Lasts name m₁ i → ∀ j < n,
    (m₁.steps i).2.offset = following m.source m.place j → FallsThrough name (m₁.steps i).2
  next_lt : following m.source m.place n < Text.byteLength m.source
  next : ∃ span span',
    Token.lex (firstStatement (Text.dropBytes (following m.source m.place n) m.source)) =
      [⟨span, .name "NEXT"⟩, ⟨span', .name name⟩]

/-! ### One step of a loop -/

/-- The machine is in the loop with this record, in front of the statement at `offset`, and `x` is the
value of the variable. -/
structure InLoop (source : Text) (name : String) (record : ForLoop) (offset : Nat) (x : Float)
    (m : Machine) : Prop where
  source_eq : m.source = source
  running : m.status = .running
  offset_eq : m.offset = offset
  value : m.context.vars.fetch name = x
  record_eq : m.context.loops[name]? = some record
  stored : m.context.vars.table.contains name = true

/-- The loop is over: the machine goes on at `offset`, the variable has kept the value `x`, and there is
no record. -/
structure Ended (name : String) (offset : Nat) (x : Float) (m : Machine) : Prop where
  running : m.status = .running
  offset_eq : m.offset = offset
  value : m.context.vars.fetch name = x
  record_none : m.context.loops[name]? = none

namespace InLoop

variable {source : Text} {name : String} {record : ForLoop} {offset : Nat} {x : Float} {m : Machine}

theorem place_eq (h : InLoop source name record offset x m) : m.place = offset := by
  unfold place
  rw [h.running]
  exact h.offset_eq

theorem isRunning (h : InLoop source name record offset x m) : m.isRunning = true := by
  unfold Machine.isRunning
  rw [h.running]

/-- A statement that falls through leads to the next one, in the same round. -/
theorem step_of_fallsThrough (h : InLoop source name record offset x m)
    (hlt : offset < Text.byteLength source) (hfalls : FallsThrough name m) :
    ∃ m', m.step = (none, m') ∧ InLoop source name record ((boundary source offset).stop + 1) x m' := by
  obtain ⟨c, hflow, hvalue, hrecord⟩ := hfalls
  have hplace := h.place_eq
  have hsource := h.source_eq
  have hkeeps : Keeps (fun c => c.vars.table.contains name = true) (m.statementAt m.place)
      Flow.Declared :=
    .inStatement _ ((Statement.closed_keeps (Context.lasting_contains name)).execute _)
  have hstored := hkeeps m.context h.stored
  rw [hflow] at hstored
  have hlt' : m.place < Text.byteLength m.source := by rwa [hplace, hsource]
  refine ⟨_, step_followAt_ok hlt' hflow rfl, hsource, rfl, ?_, ?_, ?_, hstored.1⟩
  · show (boundary m.source m.place).stop + 1 = _
    rw [hplace, hsource]
  · exact hvalue.trans h.value
  · exact hrecord.trans h.record_eq

section Next

variable {span span' : Span} (h : InLoop source name record offset x m)
  (hlt : offset < Text.byteLength source)
  (hlex : Token.lex (firstStatement (Text.dropBytes offset source)) =
    [⟨span, .name "NEXT"⟩, ⟨span', .name name⟩])
include h hlt hlex

theorem comesTo_next :
    m.place < Text.byteLength m.source ∧ ComesTo m.statement m.context .next [.name name] m.context := by
  have hstatement : m.statement = firstStatement (Text.dropBytes offset source) := by
    rw [statement, h.place_eq, h.source_eq]
  rw [← hstatement] at hlex
  rw [h.place_eq, h.source_eq]
  exact ⟨hlt, Statement.comesTo_next hlex m.context⟩

/-- A `NEXT` whose next value is not past the target goes back to the body. -/
theorem step_of_next (hpast : ¬ HasPassed record.target record.step (x + record.step)) :
    ∃ m', m.step = (none, m') ∧ InLoop source name record record.resume (x + record.step) m' := by
  obtain ⟨hlt', hcomes⟩ := h.comesTo_next hlt hlex
  have hloop := Statement.outcome_continueLoop name m.context
  have hroom : m.context.vars.HasRoom name := .inr h.stored
  rw [← record.isPast_iff] at hpast
  simp only [h.record_eq, h.value, hpast, Variables.store_of_hasRoom hroom] at hloop
  refine ⟨_, step_followAt_ok hlt' (outcome_statementAt_ok (hcomes.outcome_ok hloop)) rfl,
    h.source_eq, rfl, rfl, Variables.fetch_assign_self _ _ _, h.record_eq, ?_⟩
  exact Variables.contains_assign.mpr (.inl rfl)

/-- A `NEXT` whose next value is past the target ends the loop. -/
theorem step_of_last_next (hpast : HasPassed record.target record.step (x + record.step)) :
    ∃ m', m.step = (none, m') ∧ Ended name ((boundary source offset).stop + 1) x m' := by
  obtain ⟨hlt', hcomes⟩ := h.comesTo_next hlt hlex
  have hloop := Statement.outcome_continueLoop name m.context
  rw [← record.isPast_iff] at hpast
  simp only [h.record_eq, h.value, hpast, if_true] at hloop
  refine ⟨_, step_of_perform_next hlt' hcomes hloop, rfl, ?_, h.value, Std.TreeMap.getElem?_erase_self⟩
  show (boundary m.source m.place).stop + 1 = _
  rw [h.place_eq, h.source_eq]

end Next

end InLoop

/-! ### All steps of a loop -/

/-- One more step of a batch. -/
theorem steps_succ_of_step {m x x' : Machine} {i : Nat} (hx : (m.steps i).2 = x)
    (hrunning : x.isRunning = true) (hs : x.step = (none, x')) : (m.steps (i + 1)).2 = x' := by
  subst hx
  rw [steps_add, if_pos ((isRunning_steps i m).mp hrunning)]
  simp [steps, hrunning, hs]

namespace ForNext

variable {m m₁ : Machine} {name : String} {first target step : Float} {n : Nat}

/-- The record that the loop has. -/
def record (m : Machine) (name : String) (target step : Float) : ForLoop :=
  { variableName := name, step, target, resume := following m.source m.place 0 }

/-- After `i` steps the machine is in the loop, as it has been all the time. -/
def Holds (m : Machine) (name : String) (target step : Float) (m₁ : Machine) (j : Nat) (x : Float)
    (i : Nat) : Prop :=
  Lasts name m₁ i ∧
    InLoop m.source name (record m name target step) (following m.source m.place j) x (m₁.steps i).2

variable (h : ForNext m name first target step n m₁)
include h

/-- The `FOR` leads into the first round. -/
theorem inLoop_start :
    InLoop m.source name (record m name target step) (following m.source m.place 0) first m₁ := by
  obtain ⟨args, c, hcomes, hargs⟩ := h.arguments
  have hfor := Statement.outcome_perform_forTo hargs Statement.execute c
  cases hstore : c.vars.store name first with
  | error f =>
    simp only [hstore] at hfor
    obtain ⟨f', _, _, hstep⟩ := step_of_perform_error h.lt hcomes hfor
    rw [h.starts] at hstep
    cases hstep
  | ok vars =>
    simp only [hstore] at hfor
    have hstep := step_followAt_ok h.lt (outcome_statementAt_ok (hcomes.outcome_ok hfor)) rfl
    rw [h.starts] at hstep
    cases hstep
    obtain rfl := Variables.eq_assign_of_store hstore
    exact ⟨rfl, rfl, rfl, Variables.fetch_assign_self _ _ _, Std.TreeMap.getElem?_insert_self,
      Variables.contains_assign.mpr (.inl rfl)⟩

theorem holds_start : Holds m name target step m₁ 0 first 0 := by
  refine ⟨fun i hi => ?_, h.inLoop_start⟩
  obtain rfl := Nat.le_zero.mp hi
  have hrecord := h.inLoop_start.record_eq
  show (m₁.context.loops[name]?).isSome = true
  rw [hrecord]
  rfl

omit h in
/-- A step that stays in the loop. -/
theorem Holds.succ {i j j' : Nat} {x y : Float} {m' : Machine} (h : Holds m name target step m₁ j x i)
    (hs : (m₁.steps i).2.step = (none, m'))
    (hm' : InLoop m.source name (record m name target step) (following m.source m.place j') y m') :
    Holds m name target step m₁ j' y (i + 1) := by
  have hnext := steps_succ_of_step rfl h.2.isRunning hs
  refine ⟨fun i' hi' => ?_, by rwa [hnext]⟩
  obtain hlt | rfl := Nat.lt_or_eq_of_le hi'
  · exact h.1 i' (Nat.le_of_lt_succ hlt)
  · rw [hnext, hm'.record_eq]
    rfl

/-- The body is executed from its first statement up to the `NEXT`. -/
theorem holds_body {i : Nat} {x : Float} (hstart : Holds m name target step m₁ 0 x i) {j : Nat}
    (hj : j ≤ n) : Holds m name target step m₁ j x (i + j) := by
  induction j with
  | zero => exact hstart
  | succ j ih =>
    have hj' := ih (Nat.le_of_succ_le hj)
    have hlt : following m.source m.place j < Text.byteLength m.source :=
      Nat.lt_of_le_of_lt (following_le (Nat.le_of_succ_le hj)) h.next_lt
    obtain ⟨m', hs, hm'⟩ :=
      hj'.2.step_of_fallsThrough hlt (h.body (i + j) hj'.1 j hj hj'.2.offset_eq)
    exact hj'.succ hs hm'

/-- As long as no value has passed the target there is another round. -/
theorem holds_round {k : Nat}
    (hk : ∀ i, 1 ≤ i → i ≤ k → ¬ HasPassed target step (counter first step i)) :
    Holds m name target step m₁ 0 (counter first step k) (k * (n + 1)) := by
  obtain ⟨span, span', hlex⟩ := h.next
  induction k with
  | zero => simpa [counter] using h.holds_start
  | succ k ih =>
    have hround := ih fun i h1 hi => hk i h1 (Nat.le_succ_of_le hi)
    have hnext := h.holds_body hround (Nat.le_refl n)
    have hpast := hk (k + 1) (Nat.succ_le_succ (Nat.zero_le k)) (Nat.le_refl _)
    obtain ⟨m', hs, hm'⟩ := hnext.2.step_of_next h.next_lt hlex hpast
    rw [Nat.succ_mul]
    exact hnext.succ hs hm'

end ForNext

/-- The body of a loop is executed for each value of the variable up to the first one whose successor is
past the target, at least once. Behind the `NEXT` the variable has that value and there is no record.
With a step of zero the loop never ends. -/
theorem rounds_of_forNext {m m₁ : Machine} {name : String} {first target step : Float} {n : Nat}
    (h : ForNext m name first target step n m₁) :
    (∀ k, (∀ i, 1 ≤ i → i ≤ k → ¬ HasPassed target step (counter first step i)) →
      (∀ j ≤ n, InLoop m.source name (ForNext.record m name target step)
        (following m.source m.place j) (counter first step k) (m₁.steps (k * (n + 1) + j)).2) ∧
      (HasPassed target step (counter first step (k + 1)) →
        Ended name (following m.source m.place (n + 1)) (counter first step k)
          (m₁.steps ((k + 1) * (n + 1))).2)) ∧
    (∀ j ≤ n, InLoop m.source name (ForNext.record m name target step)
      (following m.source m.place j) first (m₁.steps j).2) ∧
    ((step == 0.0) = true → ∀ k, ∀ j ≤ n,
      InLoop m.source name (ForNext.record m name target step) (following m.source m.place j)
        (counter first step k) (m₁.steps (k * (n + 1) + j)).2) := by
  have hround {k : Nat} (hk : ∀ i, 1 ≤ i → i ≤ k → ¬ HasPassed target step (counter first step i))
      {j : Nat} (hj : j ≤ n) := h.holds_body (h.holds_round hk) hj
  refine ⟨fun k hk => ⟨fun j hj => (hround hk hj).2, fun hpast => ?_⟩, fun j hj => ?_,
    fun hzero k j hj => ?_⟩
  · obtain ⟨span, span', hlex⟩ := h.next
    have hnext := (hround hk (Nat.le_refl n)).2
    obtain ⟨m', hs, hm'⟩ := hnext.step_of_last_next h.next_lt hlex hpast
    rw [Nat.succ_mul, ← Nat.add_assoc, steps_succ_of_step rfl hnext.isRunning hs]
    exact hm'
  · have hfirst := (h.holds_body h.holds_start hj).2
    rwa [Nat.zero_add] at hfirst
  · exact (hround (fun i _ _ => not_hasPassed_of_beq_zero hzero _) hj).2

/-- A loop of two rounds whose `NEXT` stands on the next line, and what is left of it behind that. -/
theorem rounds_of_short_loop :
    let source := "10 FOR I=1 TO 2: PLOT I,I\n20 NEXT I: STOP".toList
    let m := load source .clear (.ofSeed 1)
    ∃ first target m₁, ForNext m "I" first target 1.0 1 m₁ ∧
      HasPassed target 1.0 (counter first 1.0 2) ∧
      Ended "I" 36 (counter first 1.0 1) (m₁.steps 4).2 := by
  intro source m
  have hplot (x : Machine) (hx : x.statement = "PLOT I,I".toList) : FallsThrough "I" x := by
    have hcomes : ∃ args c, ComesTo x.statement x.context .plot args c := by
      rw [hx]
      exact ⟨_, _, .own ⟨⟨0, 4⟩,
        [⟨⟨5, 6⟩, .name "I"⟩, ⟨⟨6, 7⟩, .separator .comma⟩, ⟨⟨7, 8⟩, .name "I"⟩],
        by decide +kernel, rfl⟩ nofun⟩
    obtain ⟨args, c, hcomes⟩ := hcomes
    obtain ⟨n, rfl⟩ := hcomes.draws
    exact ⟨_, outcome_statementAt_ok (hcomes.outcome_ok rfl), rfl, rfl⟩
  have hcomes : ∃ first target c, ComesTo m.statement m.context .forTo
      [.name "I", .mark, .number first, .mark, .number target] c ∧
        HasPassed target 1.0 (counter first 1.0 2) ∧ ¬ HasPassed target 1.0 (counter first 1.0 1) :=
    ⟨_, _, _, .own ⟨⟨3, 6⟩,
      [⟨⟨7, 8⟩, .name "I"⟩, ⟨⟨8, 9⟩, .operator .equal⟩, ⟨⟨9, 10⟩, .number ['1']⟩,
        ⟨⟨11, 13⟩, .word .upTo⟩, ⟨⟨14, 15⟩, .number ['2']⟩], by decide +kernel, rfl⟩ nofun,
      by decide +kernel, by decide +kernel⟩
  obtain ⟨first, target, c, hcomes, hpast, hstill⟩ := hcomes
  have hloop : ForNext m "I" first target 1.0 1 m.step.2 := by
    refine
      { lt := by decide +kernel
        arguments := ⟨_, c, hcomes, .byOne⟩
        starts := Prod.ext (show m.step.1 = none by decide +kernel) rfl
        body := fun i hlasts j hj hoffset => ?_
        next_lt := by decide +kernel
        next := ⟨⟨3, 7⟩, ⟨8, 9⟩, by decide +kernel⟩ }
    obtain rfl : j = 0 := by omega
    have hfour : ((m.step.2.steps 4).2.context.loops["I"]?).isSome = false := by decide +kernel
    have hi : i < 4 := by
      by_contra hle
      rw [hlasts 4 (Nat.le_of_not_lt hle)] at hfour
      cases hfour
    have hstatement : ∀ i < 4, (m.step.2.steps i).2.offset = following m.source m.place 0 →
        (m.step.2.steps i).2.statement = "PLOT I,I".toList := by decide +kernel
    exact hplot _ (hstatement i hi hoffset)
  refine ⟨first, target, m.step.2, hloop, hpast, ?_⟩
  have hk (i : Nat) (h1 : 1 ≤ i) (hi : i ≤ 1) : ¬ HasPassed target 1.0 (counter first 1.0 i) := by
    obtain rfl : i = 1 := by omega
    exact hstill
  have hplace : following m.source m.place 2 = 36 := by decide +kernel
  have hended := ((rounds_of_forNext hloop).1 1 hk).2 hpast
  rwa [hplace] at hended

end Machine

end SpectrumBasic
