import SpectrumBasic.Proofs.Statement.Nesting

/-! What a statement that fails leaves behind. Every command but `READ` either does all of its work or
none of it, so a failure leaves the context as it was, random numbers apart. A `READ` stops at the
name that it fails at, and the names in front of it keep the values that they were given. -/

namespace SpectrumBasic

open Attempt (outcome outcome_bind outcome_bind_ok outcome_liftExcept)

/-- The variables after some values are stored, one after another. -/
def Variables.assign (v : Variables) (values : List (String × Float)) : Variables :=
  ⟨values.foldl (fun table p => table.insert p.1 p.2) v.table⟩

theorem Variables.assign_cons (v : Variables) (p : String × Float) (values : List (String × Float)) :
    v.assign (p :: values) = (v.assign [p]).assign values := rfl

theorem Variables.eq_assign_of_store {v v' : Variables} {name : String} {x : Float}
    (h : v.store name x = .ok v') : v' = v.assign [(name, x)] := by
  unfold store at h
  split at h
  · cases h
  · cases h
    rfl

namespace Context

/-- The values of the `DATA` that are still to be read. There are none if the `DATA` has a fault. -/
def unread (c : Context) : List Float :=
  match c.data with
  | .ok cursor => cursor.values.toList.drop cursor.taken
  | .error _ => []

/-- The context with the cursor moved on over `n` values. -/
def advance (c : Context) (n : Nat) : Context :=
  { c with data := c.data.map fun cursor => { cursor with taken := cursor.taken + n } }

theorem advance_zero (c : Context) : c.advance 0 = c := by
  obtain ⟨_, _, _, data, _, _, _⟩ := c
  cases data <;> rfl

theorem advance_advance (c : Context) (m n : Nat) : (c.advance m).advance n = c.advance (m + n) := by
  obtain ⟨_, _, _, data, _, _, _⟩ := c
  cases data with
  | error f => rfl
  | ok cursor => simp [advance, Except.map, Nat.add_assoc]

theorem unread_advance (c : Context) (n : Nat) : (c.advance n).unread = c.unread.drop n := by
  obtain ⟨_, _, _, data, _, _, _⟩ := c
  cases data with
  | error f => simp [unread, advance, Except.map]
  | ok cursor => simp [unread, advance, Except.map]

/-- A value that is read is the first of those that were still to be read. -/
theorem of_read {c : Context} {x : Float} {cursor : DataCursor}
    (h : c.data >>= DataCursor.read = .ok (x, cursor)) :
    c.unread = x :: c.unread.drop 1 ∧ { c with data := .ok cursor } = c.advance 1 := by
  obtain ⟨_, _, _, data, _, _, _⟩ := c
  cases data with
  | error f => cases h
  | ok start =>
    change start.read = _ at h
    unfold DataCursor.read at h
    split at h
    · rename_i hx
      cases h
      rw [← Array.getElem?_toList] at hx
      obtain ⟨hlt, rfl⟩ := List.getElem?_eq_some_iff.mp hx
      refine ⟨?_, rfl⟩
      simp only [unread]
      rw [List.drop_drop, ← List.drop_eq_getElem_cons hlt]
    · cases h

end Context

/-! ### Commands that fail -/

/-- A failure of the action leaves the context as it was. -/
def AllOrNothing {α : Type} (a : Action α) : Prop :=
  ∀ c f c', outcome a c = (.error f, c') → c' = c

/-- The action cannot fail. -/
def Succeeds {α : Type} (a : Action α) : Prop := ∀ c, ∃ x c', outcome a c = (.ok x, c')

namespace AllOrNothing

variable {α β : Type}

theorem of_succeeds {a : Action α} (h : Succeeds a) : AllOrNothing a := by
  intro c f c' he
  obtain ⟨x, c₁, hok⟩ := h c
  rw [hok] at he
  cases he

/-- What comes first may fail if what follows cannot. -/
theorem bind {a : Action α} {k : α → Action β} (ha : AllOrNothing a) (hk : ∀ x, Succeeds (k x)) :
    AllOrNothing (a >>= k) := by
  intro c f c' he
  rw [outcome_bind] at he
  split at he
  · rename_i x c₁ _
    exact absurd he (by
      obtain ⟨y, c₂, hok⟩ := hk x c₁
      rw [hok]
      simp)
  · rename_i f' c₁ hfirst
    cases he
    exact ha c f c' hfirst

/-- What comes first changes nothing, so what follows decides. -/
theorem liftExcept_bind {r : Except Fault α} {k : α → Action β} (hk : ∀ x, AllOrNothing (k x)) :
    AllOrNothing (liftExcept r >>= k) := by
  intro c f c' he
  rw [outcome_bind, outcome_liftExcept] at he
  cases r with
  | ok x => exact hk x c f c' he
  | error f' =>
    cases he
    rfl

theorem store (name : String) (x : Float) : AllOrNothing (Action.store name x) := by
  intro c f c' he
  rw [Action.outcome_store] at he
  split at he <;> cases he
  rfl

theorem restoreData : AllOrNothing Action.restoreData := by
  intro c f c' he
  rw [Action.outcome_restoreData] at he
  split at he <;> cases he
  rfl

theorem popReturn : AllOrNothing Action.popReturn := by
  intro c f c' he
  rw [Action.outcome_popReturn] at he
  split at he <;> cases he
  rfl

theorem continueLoop (name : String) : AllOrNothing (Statement.continueLoop name) := by
  intro c f c' he
  rw [Statement.outcome_continueLoop] at he
  split at he
  · cases he
    rfl
  · split at he
    · cases he
    · split at he <;> cases he
      rfl

/-- Every command but `READ` does all of its work or none of it. -/
theorem perform {nested : Text → Action Flow} {command : Command} {args : Arguments}
    (hread : command ≠ .read) (hif : command = .ifThen → (args.number 0 == 0.0) = true) :
    AllOrNothing (Statement.perform nested command args) := by
  have hpure (flow : Flow) : Succeeds (pure flow : Action Flow) := fun c => ⟨flow, c, rfl⟩
  cases command with
  | read => exact absurd rfl hread
  | assign => exact liftExcept_bind fun name => bind (store name _) fun _ => hpure _
  | forTo => exact liftExcept_bind fun name => bind (store name _) fun _ => hpure _
  | next => exact liftExcept_bind continueLoop
  | comeBack => exact bind popReturn fun _ => hpure _
  | restore => exact bind restoreData fun _ => hpure _
  | ifThen =>
    unfold Statement.perform
    dsimp only
    rw [if_pos (hif rfl)]
    exact of_succeeds (hpure _)
  | randomize =>
    unfold Statement.perform
    dsimp only
    split <;> exact of_succeeds fun c => ⟨_, _, rfl⟩
  | _ => exact of_succeeds fun c => ⟨_, _, rfl⟩

end AllOrNothing

/-! ### Reading data -/

namespace Statement

/-- What reading one value into a variable does: it fails, perhaps after it has taken the value, or it
takes the next value and stores it. -/
theorem readInto_cons_cases (name : String) (c : Context) :
    (∃ f j, j ≤ 1 ∧ ∀ names, outcome (readInto (name :: names)) c = (.error f, c.advance j)) ∨
    ∃ x, c.unread = x :: c.unread.drop 1 ∧ ∀ names, outcome (readInto (name :: names)) c =
      outcome (readInto names) { c.advance 1 with vars := c.vars.assign [(name, x)] } := by
  have hcons (names : List String) : outcome (readInto (name :: names)) c =
      outcome (Action.readData >>= fun x => Action.store name x >>= fun _ => readInto names) c := rfl
  cases hread : c.data >>= DataCursor.read with
  | error f =>
    refine .inl ⟨f, 0, by decide, fun names => ?_⟩
    rw [hcons, outcome_bind, Action.outcome_readData, hread, c.advance_zero]
  | ok taken =>
    obtain ⟨x, cursor⟩ := taken
    have hc := Context.of_read hread
    have hdata (names : List String) : outcome (readInto (name :: names)) c =
        outcome (Action.store name x >>= fun _ => readInto names) (c.advance 1) := by
      rw [hcons, outcome_bind, Action.outcome_readData, hread, ← hc.2]
    cases hstore : c.vars.store name x with
    | error f =>
      refine .inl ⟨f, 1, by decide, fun names => ?_⟩
      rw [hdata, outcome_bind, Action.outcome_store]
      simp only [Context.advance, hstore]
    | ok vars =>
      refine .inr ⟨x, hc.1, fun names => ?_⟩
      rw [hdata, outcome_bind, Action.outcome_store, ← Variables.eq_assign_of_store hstore]
      simp only [Context.advance, hstore]

/-- A `READ` that fails has given the next values of the `DATA` to the names in front of the one that
it fails at. -/
theorem outcome_readInto_error {names : List String} {c c' : Context} {f : Fault}
    (h : outcome (readInto names) c = (.error f, c')) :
    ∃ done name rest j, names = done ++ name :: rest ∧
      (∃ c₁, outcome (readInto done) c = (.ok (), c₁) ∧
        outcome (readInto [name]) c₁ = (.error f, c')) ∧
      done.length ≤ c.unread.length ∧ j ≤ 1 ∧
      c' = { c.advance (done.length + j) with vars := c.vars.assign (done.zip c.unread) } := by
  induction names generalizing c with
  | nil => cases h
  | cons name names ih =>
    obtain ⟨f', j, hj, hfail⟩ | ⟨x, hunread, hgo⟩ := readInto_cons_cases name c
    · rw [hfail] at h
      cases h
      exact ⟨[], name, names, j, rfl, ⟨c, rfl, hfail []⟩, Nat.zero_le _, hj,
        by simp [Context.advance, Variables.assign]⟩
    -- The first name is read, and the failure is that of the names behind it.
    · rw [hgo] at h
      obtain ⟨done, name', rest, j, hnames, ⟨c₁, hdone, hname⟩, hlength, hj, hc'⟩ := ih h
      have hrest : ({ c.advance 1 with vars := c.vars.assign [(name, x)] } : Context).unread =
          c.unread.drop 1 := c.unread_advance 1
      have hvars : (c.vars.assign [(name, x)]).assign (done.zip (c.unread.drop 1)) =
          c.vars.assign ((name :: done).zip c.unread) := by
        rw [← Variables.assign_cons, ← List.zip_cons_cons, ← hunread]
      refine ⟨name :: done, name', rest, j, by rw [hnames]; rfl, ⟨c₁, ?_, hname⟩, ?_, hj, ?_⟩
      · rw [hgo, hdone]
      · rw [hrest] at hlength
        rw [hunread, List.length_cons, List.length_cons]
        omega
      · rw [hc', hrest, ← hvars]
        have hadvance : (c.advance 1).advance (done.length + j) =
            c.advance ((name :: done).length + j) := by
          rw [c.advance_advance, List.length_cons]
          congr 1
          omega
        rw [← hadvance]
        rfl

theorem readInto_error_of_perform {nested : Text → Action Flow} {args : Arguments} {c c' : Context}
    {f : Fault} (h : outcome (perform nested .read args) c = (.error f, c')) :
    outcome (readInto args.names) c = (.error f, c') := by
  change outcome (readInto args.names >>= fun _ => pure Flow.next) c = _ at h
  rw [outcome_bind] at h
  split at h
  · cases h
  · rename_i hread
    cases h
    exact hread

/-- A statement that fails leaves the context as it was, but for numbers drawn, unless it comes down to
a `READ`. That has given the next values of the `DATA` to all names in front of the one that it
fails at, and done nothing else but move on over the values it has taken. -/
theorem context_of_execute_error {text : Text} {c c' : Context} {f : Fault}
    (h : outcome (execute text) c = (.error f, c')) :
    ((¬ ∃ args c₁, ComesTo text c .read args c₁) →
      ∃ n, c' = { c with random := c.random.skip n }) ∧
    ∀ args c₁, ComesTo text c .read args c₁ →
      ∃ done name rest n taken, args.names = done ++ name :: rest ∧
        (∃ c₂ f', outcome (readInto done) c₁ = (.ok (), c₂) ∧
          outcome (readInto [name]) c₂ = (.error f', c')) ∧
        done.length ≤ c.unread.length ∧ done.length ≤ taken ∧ taken ≤ done.length + 1 ∧
        c' =
          { c with
            random := c.random.skip n
            vars := c.vars.assign (done.zip c.unread)
            data := c.data.map fun cursor => { cursor with taken := cursor.taken + taken } } := by
  constructor
  · intro hread
    obtain ⟨n, hok⟩ | ⟨f', n, herror⟩ | ⟨command, args, c₁, hcomes⟩ := execute_cases text c
    · rw [hok] at h
      cases h
    · rw [herror] at h
      cases h
      exact ⟨n, rfl⟩
    · have hcommand : command ≠ .read := by
        rintro rfl
        exact hread ⟨args, c₁, hcomes⟩
      obtain ⟨n, hn⟩ := hcomes.draws
      obtain ⟨f', hp⟩ := hcomes.perform_error h
      have hsame : c' = c₁ := AllOrNothing.perform hcommand hcomes.number_zero c₁ f' c' hp
      exact ⟨n, hsame.trans hn⟩
  · intro args c₁ hcomes
    obtain ⟨n, hn⟩ := hcomes.draws
    obtain ⟨f', hp⟩ := hcomes.perform_error h
    obtain ⟨done, name, rest, j, hnames, ⟨c₂, hdone, hname⟩, hlength, hj, hc'⟩ :=
      outcome_readInto_error (readInto_error_of_perform hp)
    subst hn
    exact ⟨done, name, rest, n, done.length + j, hnames, ⟨c₂, f', hdone, hname⟩, hlength,
      by omega, by omega, hc'⟩

/-- Two of three names get a value before the data run out. -/
theorem context_of_read_error :
    let c := Context.start "10 DATA 5,6".toList .clear (.ofSeed 1)
    let text := "IF 1 THEN READ A,B,C".toList
    ∃ f c' args c₁, outcome (execute text) c = (.error f, c') ∧ ComesTo text c .read args c₁ ∧
      (c'.vars.fetch "B" == 6.0) = true ∧
      ∃ done name rest, args.names = done ++ name :: rest ∧
        c'.vars = c.vars.assign (done.zip c.unread) := by
  intro c text
  have hcomes : ∃ args c₁, ComesTo text c .read args c₁ :=
    ⟨_, _, .behindThen ⟨⟨0, 2⟩,
        [⟨⟨3, 4⟩, .number ['1']⟩, ⟨⟨5, 9⟩, .word .thenDo⟩, ⟨⟨10, 14⟩, .name "READ"⟩,
          ⟨⟨15, 16⟩, .name "A"⟩, ⟨⟨16, 17⟩, .separator .comma⟩, ⟨⟨17, 18⟩, .name "B"⟩,
          ⟨⟨18, 19⟩, .separator .comma⟩, ⟨⟨19, 20⟩, .name "C"⟩], by decide +kernel, rfl⟩
      (by decide +kernel)
      (.own ⟨⟨0, 4⟩,
        [⟨⟨5, 6⟩, .name "A"⟩, ⟨⟨6, 7⟩, .separator .comma⟩, ⟨⟨7, 8⟩, .name "B"⟩,
          ⟨⟨8, 9⟩, .separator .comma⟩, ⟨⟨9, 10⟩, .name "C"⟩], by decide +kernel, rfl⟩ nofun)⟩
  obtain ⟨args, c₁, hcomes⟩ := hcomes
  have hfails : (match (outcome (execute text) c).1 with
      | .ok _ => false
      | .error _ => true) = true := by decide +kernel
  have hfetch : ((outcome (execute text) c).2.vars.fetch "B" == 6.0) = true := by decide +kernel
  cases ho : outcome (execute text) c with
  | mk result c' =>
    rw [ho] at hfails hfetch
    cases result with
    | ok flow => cases hfails
    | error f =>
      obtain ⟨done, name, rest, n, taken, hnames, _, _, _, _, hc'⟩ :=
        (context_of_execute_error ho).2 args c₁ hcomes
      exact ⟨f, c', args, c₁, rfl, hcomes, hfetch, done, name, rest, hnames, congrArg Context.vars hc'⟩

end Statement

end SpectrumBasic
