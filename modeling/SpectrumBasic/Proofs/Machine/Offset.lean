import SpectrumBasic.Proofs.Machine.Run
import SpectrumBasic.Proofs.Program.Segment

/-! The places that a machine knows. Its offset, the places that its loops resume at and those that it
returns to are starts of statements at every moment, so no character of the program is ever cut in
two, however many bytes it takes. -/

namespace SpectrumBasic

open Attempt (outcome Triple)

/-- Taking the latest place off a stack leaves the others. -/
theorem ReturnStack.offsets_of_pop? {s returns : ReturnStack} {offset : Nat}
    (h : s.pop? = some (offset, returns)) : s.offsets = offset :: returns.offsets := by
  unfold pop? at h
  split at h
  · cases h
  · rename_i hs
    cases h
    exact hs

theorem ReturnStack.offsets_of_push {s s' : ReturnStack} {offset : Nat}
    (h : s.push offset = .ok s') : s'.offsets = offset :: s.offsets := by
  unfold push at h
  split at h
  · cases h
  · cases h
    rfl

/-! ### What statements do to places -/

/-- The action leaves loops and returns alone, whether it succeeds or not. -/
def Unmoved {α : Type} (a : Action α) : Prop :=
  ∀ c, (outcome a c).2.loops = c.loops ∧ (outcome a c).2.returns = c.returns

namespace Unmoved

variable {α β : Type}

theorem pure (x : α) : Unmoved (pure x) := fun _ => ⟨rfl, rfl⟩

theorem bind {a : Action α} {k : α → Action β} (ha : Unmoved a) (hk : ∀ x, Unmoved (k x)) :
    Unmoved (a >>= k) := by
  intro c
  have hc := ha c
  rw [Attempt.outcome_bind]
  cases ho : outcome a c with
  | mk result c' =>
    rw [ho] at hc
    cases result with
    | ok x => exact ⟨(hk x c').1.trans hc.1, (hk x c').2.trans hc.2⟩
    | error f => exact hc

theorem liftExcept (r : Except Fault α) : Unmoved (liftExcept r) := fun c => by
  rw [Attempt.outcome_liftExcept]
  exact ⟨rfl, rfl⟩

theorem ofDraw (draw : Variables → Expression.Draw α) : Unmoved (Action.ofDraw draw) := fun c => by
  rw [Action.outcome_ofDraw]
  exact ⟨rfl, rfl⟩

theorem store (name : String) (x : Float) : Unmoved (Action.store name x) := fun c => by
  rw [Action.outcome_store]
  split <;> exact ⟨rfl, rfl⟩

theorem readData : Unmoved Action.readData := fun c => by
  rw [Action.outcome_readData]
  split <;> exact ⟨rfl, rfl⟩

theorem restoreData : Unmoved Action.restoreData := fun c => by
  rw [Action.outcome_restoreData]
  split <;> exact ⟨rfl, rfl⟩

theorem readInto (names : List String) : Unmoved (Statement.readInto names) := by
  induction names with
  | nil => exact pure ()
  | cons name names ih => exact bind readData fun x => bind (store name x) fun _ => ih

theorem onDisplay (f : Screen.Display → Screen.Display) : Unmoved (Action.onDisplay f) :=
  fun _ => ⟨rfl, rfl⟩

end Unmoved

/-- All places in the context are in `S`. -/
structure Context.Anchored (S : Nat → Prop) (c : Context) : Prop where
  resume : ∀ (name : String) (record : ForLoop), c.loops[name]? = some record → S record.resume
  returns : ∀ offset ∈ c.returns.offsets, S offset

theorem Context.Anchored.mono {S S' : Nat → Prop} {c : Context} (h : c.Anchored S)
    (hS : ∀ p, S p → S' p) : c.Anchored S' :=
  ⟨fun name record hr => hS _ (h.resume name record hr), fun offset ho => hS _ (h.returns offset ho)⟩

/-- A jump goes to a place in `S`. -/
def Flow.Within (S : Nat → Prop) : Flow → Prop
  | .jump offset => S offset
  | _ => True

/-- The action keeps all places in `S`, whether it succeeds or not, and its result has `Q`. -/
def Anchors {α : Type} (S : Nat → Prop) (a : Action α) (Q : α → Prop) : Prop :=
  Triple (Context.Anchored S) a (fun x c => c.Anchored S ∧ Q x) fun _ c => c.Anchored S

namespace Anchors

variable {α β : Type} {S : Nat → Prop} {Q : α → Prop} {R : β → Prop}

theorem pure {x : α} (h : Q x) : Anchors S (pure x) Q := Triple.pure fun _ hc => ⟨hc, h⟩

theorem throw (f : Fault) : Anchors S (throw f) Q := Triple.throw fun _ hc => hc

theorem bind {a : Action α} {k : α → Action β} (ha : Anchors S a Q)
    (hk : ∀ x, Q x → Anchors S (k x) R) : Anchors S (a >>= k) R :=
  Triple.bind ha fun x c hc => hk x hc.2 c hc.1

theorem inStatement (text : Text) {a : Action α} (ha : Anchors S a Q) :
    Anchors S (Action.inStatement text a) Q := by
  intro c hc
  have h := ha c hc
  rw [Action.outcome_inStatement]
  cases ho : outcome a c with
  | mk result c' =>
    rw [ho] at h
    cases result <;> exact h

/-- An action that leaves loops and returns alone keeps their places. -/
theorem of_unmoved {a : Action α} (h : Unmoved a) : Anchors S a fun _ => True := by
  intro c hc
  obtain ⟨hloops, hreturns⟩ := h c
  have hc' : (outcome a c).2.Anchored S :=
    ⟨by rw [hloops]; exact hc.resume, by rw [hreturns]; exact hc.returns⟩
  cases ho : outcome a c with
  | mk result c' =>
    rw [ho] at hc'
    cases result with
    | ok x => exact ⟨hc', trivial⟩
    | error f => exact hc'

/-- The place that a return goes to is one of those that were stored. -/
theorem popReturn : Anchors S Action.popReturn S := by
  intro c hc
  rw [Action.outcome_popReturn]
  cases hp : c.returns.pop? with
  | none => exact hc
  | some popped =>
    obtain ⟨offset, returns⟩ := popped
    have hr := hc.returns
    rw [ReturnStack.offsets_of_pop? hp, List.forall_mem_cons] at hr
    exact ⟨⟨hc.resume, hr.2⟩, hr.1⟩

theorem continueLoop (name : String) : Anchors S (Statement.continueLoop name) (Flow.Within S) := by
  intro c hc
  rw [Statement.outcome_continueLoop]
  cases hl : c.loops[name]? with
  | none => exact hc
  | some record =>
    by_cases hpast : record.isPast (c.vars.fetch name + record.step)
    · simp only [hpast, if_true]
      refine ⟨⟨fun name' record' h => ?_, hc.returns⟩, trivial⟩
      rw [Std.TreeMap.getElem?_erase] at h
      split at h
      · cases h
      · exact hc.resume name' record' h
    · simp only [hpast]
      cases c.vars.store name (c.vars.fetch name + record.step) with
      | error f => exact hc
      | ok vars => exact ⟨⟨hc.resume, hc.returns⟩, hc.resume name record hl⟩

theorem perform (nested : Text → Action Flow) (c : Command) (args : Arguments) (hc : c ≠ .ifThen) :
    Anchors S (Statement.perform nested c args) (Flow.Within S) := by
  have unmoved {α : Type} {a : Action α} (h : Unmoved a) {flow : Flow} (hflow : flow.Within S) :
      Anchors S (do let _ ← a; return flow) (Flow.Within S) :=
    bind (of_unmoved h) fun _ _ => pure hflow
  have named {k : String → Action Flow} (h : ∀ name, Anchors S (k name) (Flow.Within S)) :
      Anchors S (liftExcept (args.name 0) >>= k) (Flow.Within S) :=
    bind (of_unmoved (.liftExcept _)) fun name _ => h name
  cases c with
  | ifThen => exact absurd rfl hc
  | assign => exact named fun name => unmoved (.store name _) trivial
  | forTo => exact named fun name => unmoved (.store name _) trivial
  | next => exact named continueLoop
  | comeBack => exact bind popReturn fun _ h => pure h
  | read => exact unmoved (.readInto _) trivial
  | restore => exact unmoved .restoreData trivial
  | randomize =>
    simp only [Statement.perform]
    split <;> exact unmoved (fun _ => ⟨rfl, rfl⟩) trivial
  | goto | gosub | data | remark | stop => exact pure trivial
  | _ => exact unmoved (.onDisplay _) trivial

end Anchors

theorem Statement.closed_anchors (S : Nat → Prop) :
    Statement.Closed fun a => Anchors S a (Flow.Within S) where
  idle := .pure trivial
  throw := .throw
  draw d _ hk := .bind (.of_unmoved (.ofDraw d)) fun args _ => hk args
  inStatement text _ ha := .inStatement text ha
  perform := .perform

/-! ### What steps do to places -/

namespace Machine

open Program (IsStart IsCut boundary)

/-- The offsets at which a step reads the program: the one at which the machine stands and, while it
seeks a line, the one of the line behind each that is not what it seeks. -/
inductive Inspects (m : Machine) : Nat → Prop
  | here : m.Inspects m.offset
  | skip {goal offset : Nat} (hstatus : m.status = .seeking goal) (h : m.Inspects offset)
      (hlt : offset < Text.byteLength m.source)
      (hnumber : ¬ (Program.lineNumber?
        (Program.firstStatement (Text.dropBytes offset m.source))).any (goal ≤ ·)) :
      m.Inspects ((boundary m.source offset).newline + 1)

/-! Places of any kind. A step that goes on at one of them, and whose statement and line end in front of
others, leads to others. -/

section Within

variable {S : Nat → Prop} {m : Machine}

theorem within_of_inspects (hoffset : S m.offset)
    (hline : ∀ p, S p → p < Text.byteLength m.source → S ((boundary m.source p).newline + 1))
    {p : Nat} (hp : m.Inspects p) : S p := by
  induction hp with
  | here => exact hoffset
  | skip _ _ hlt _ ih => exact hline _ ih hlt

/-- A statement leads to the top, behind itself, behind its line, or to a place that is stored. -/
theorem within_of_follow {m' : Machine} {text : Text} {ends : Program.Boundary} {flow : Flow}
    (hc : m.context.Anchored S) (htop : S 0) (hstop : flow ≠ .endOfLine → S (ends.stop + 1))
    (hline : S (ends.newline + 1)) (hflow : flow.Within S) (hm' : m.follow text ends flow = .ok m') :
    m'.source = m.source ∧ S m'.offset ∧ m'.context.Anchored S := by
  cases flow with
  | next =>
    cases hm'
    exact ⟨rfl, hstop nofun, hc⟩
  | goto line =>
    cases hm'
    exact ⟨rfl, htop, hc⟩
  | gosub line =>
    rw [follow_gosub] at hm'
    split at hm'
    · rename_i returns hpush
      cases hm'
      refine ⟨rfl, htop, hc.resume, ?_⟩
      show ∀ o ∈ returns.offsets, S o
      rw [ReturnStack.offsets_of_push hpush, List.forall_mem_cons]
      exact ⟨hstop nofun, hc.returns⟩
    · cases hm'
  | jump offset =>
    cases hm'
    exact ⟨rfl, hflow, hc⟩
  | loop record =>
    cases hm'
    refine ⟨rfl, hstop nofun, fun name record' hr => ?_, hc.returns⟩
    rw [Std.TreeMap.getElem?_insert] at hr
    split at hr
    · cases hr
      exact hstop nofun
    · exact hc.resume name record' hr
  | endOfLine =>
    cases hm'
    exact ⟨rfl, hline, hc⟩

theorem within_of_step (hplace : S m.place) (hc : m.context.Anchored S) (htop : S 0)
    (hstop : ∀ flow c, m.place < Text.byteLength m.source →
      outcome (m.statementAt m.place) m.context = (.ok flow, c) → flow ≠ .endOfLine →
        S ((boundary m.source m.place).stop + 1))
    (hline : m.place < Text.byteLength m.source → S ((boundary m.source m.place).newline + 1)) :
    m.step.2.source = m.source ∧ S m.step.2.offset ∧ m.step.2.context.Anchored S := by
  have ha : Anchors S (m.statementAt m.place) (Flow.Within S) :=
    .inStatement _ ((Statement.closed_anchors _).execute _)
  have hafter := ha m.context hc
  obtain ⟨_, hs⟩ | ⟨hlt, c, ⟨f, ho, hs⟩ | ⟨flow, ho, hnext⟩⟩ := m.step_cases
  · rw [hs]
    exact ⟨rfl, hplace, hc⟩
  · rw [ho] at hafter
    rw [hs]
    exact ⟨rfl, hplace, hafter⟩
  · rw [ho] at hafter
    obtain ⟨f, _, hs⟩ | ⟨m', hf, hs⟩ := hnext
    · rw [hs]
      exact ⟨rfl, hplace, hafter.1⟩
    · rw [hs]
      exact within_of_follow (m := m.standing m.place c) hafter.1 htop (hstop flow c hlt ho) (hline hlt)
        hafter.2 hf

end Within

/-- All places that the machine knows are starts of statements of `source`, its program. -/
structure Sited (source : Text) (m : Machine) : Prop where
  source_eq : m.source = source
  offset : IsStart source m.offset
  context : m.context.Anchored (IsStart source)

namespace Sited

variable {source : Text} {m : Machine}

/-- Seeking a line goes from start to start. -/
theorem isStart_of_inspects (h : Sited source m) {offset : Nat} (hi : m.Inspects offset) :
    IsStart source offset := by
  obtain rfl := h.source_eq
  exact within_of_inspects h.offset (fun p hp hlt => (hp.isCut (Nat.le_of_lt hlt)).isStart_newline) hi

theorem inspects_seekFrom (h : Sited source m) {goal : Nat} (hstatus : m.status = .seeking goal)
    (offset : Nat) (t : Text) (ht : t = Text.dropBytes offset m.source) (hi : m.Inspects offset) :
    m.Inspects (Program.seekFrom goal offset t) := by
  fun_induction Program.seekFrom goal offset t with
  | case1 => exact hi
  | case2 offset t hgo line ih =>
    subst ht
    obtain ⟨hne, hnumber⟩ := not_or.mp hgo
    have hlt : offset < Text.byteLength m.source := by
      apply Nat.lt_of_not_le
      intro hle
      exact hne (Text.dropBytes_of_byteLength_le hle)
    have hcut : IsCut m.source offset := by
      have hstart := h.isStart_of_inspects hi
      rw [← h.source_eq] at hstart
      exact hstart.isCut (Nat.le_of_lt hlt)
    exact ih hcut.dropBytes_newline.symm (.skip hstatus hi hlt hnumber)

theorem inspects_place (h : Sited source m) : m.Inspects m.place := by
  unfold place
  split
  · rename_i hstatus
    exact h.inspects_seekFrom hstatus _ _ rfl .here
  · exact .here

theorem step (h : Sited source m) : Sited source m.step.2 := by
  obtain rfl := h.source_eq
  have hstart := h.isStart_of_inspects h.inspects_place
  obtain ⟨hsource, hoffset, hcontext⟩ := within_of_step hstart h.context (.inl rfl)
    (fun _ _ hlt _ _ => (hstart.isCut (Nat.le_of_lt hlt)).isStart_stop)
    fun hlt => (hstart.isCut (Nat.le_of_lt hlt)).isStart_newline
  exact ⟨hsource, hoffset, hcontext⟩

end Sited

theorem invariant_sited (source : Text) : Invariant source (Sited source) where
  load _ _ := ⟨rfl, .inl rfl, by simp [load, Context.start], by simp [load, Context.start]⟩
  step _ _ h := h.step
  halt _ h := ⟨h.source_eq, h.offset, h.context⟩
  flag _ _ h := ⟨h.source_eq, h.offset, h.context⟩
  seed _ _ h := ⟨h.source_eq, h.offset, h.context.resume, h.context.returns⟩
  display _ _ h := ⟨h.source_eq, h.offset, h.context.resume, h.context.returns⟩

/-- At every moment the machine stands, resumes and returns at starts of statements. Such a start is no
place inside a character, so wherever the steps of the next batch read the program they read whole
characters. -/
theorem starts_of_reachable {source : Text} {m : Machine} (h : Reachable source m) :
    m.source = source ∧ IsStart source m.offset ∧
      (∀ (name : String) (record : ForLoop), m.context.loops[name]? = some record →
        IsStart source record.resume) ∧
      (∀ offset ∈ m.context.returns.offsets, IsStart source offset) ∧
      (∀ offset, IsStart source offset → Text.byteLength source ≤ offset ∨ IsCut source offset) ∧
      ∀ n, (m.steps n).2.Inspects (m.steps n).2.place ∧
        ∀ offset, (m.steps n).2.Inspects offset → offset < Text.byteLength source →
          IsCut source offset ∧ IsCut source (boundary source offset).stop ∧
            offset ≤ (boundary source offset).stop := by
  have hI := invariant_sited source
  have hm : Sited source m := hI.of_reachable h
  refine ⟨hm.source_eq, hm.offset, hm.context.resume, hm.context.returns, ?_, ?_⟩
  · intro offset hstart
    by_cases hle : Text.byteLength source ≤ offset
    · exact .inl hle
    · exact .inr (hstart.isCut (by omega))
  · intro n
    have hn : Sited source (m.steps n).2 := steps_keeps hI.step hI.halt n m hm
    refine ⟨hn.inspects_place, fun offset hi hlt => ?_⟩
    have hcut := (hn.isStart_of_inspects hi).isCut (Nat.le_of_lt hlt)
    exact ⟨hcut, hcut.boundary_stop, Program.le_boundary_stop source offset⟩

/-- A program with characters of two and four bytes, after a call from between them. -/
theorem starts_of_letters :
    let source := "10 REM äöü: 🎲\n20 GOSUB 40: REM é\n30 STOP\n40 RETURN".toList
    let m := (Call.execute 2).run (load source .clear (.ofSeed 1))
    Reachable source m ∧ IsStart source m.offset ∧
      ∀ offset ∈ m.context.returns.offsets, IsStart source offset := by
  intro source m
  have h : Reachable source m := .call (.execute 2) (.load .clear (.ofSeed 1))
  obtain ⟨_, hoffset, _, hreturns, _⟩ := starts_of_reachable h
  exact ⟨h, hoffset, hreturns⟩

end Machine

end SpectrumBasic
