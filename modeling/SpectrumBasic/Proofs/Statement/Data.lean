import SpectrumBasic.Proofs.Statement.Failure

/-! Reading the `DATA` of a program. A `READ` hands the values that are still to be read to its names,
one after another, until a value or the room for a name is missing. A `RESTORE` makes all values
unread again. No other statement touches the data. -/

namespace SpectrumBasic

open Attempt (outcome outcome_bind outcome_bind_ok outcome_liftExcept)

/-! ### Storing -/

namespace Variables

/-- The name is stored already, or there is room for another one. -/
def HasRoom (v : Variables) (name : String) : Prop :=
  v.table.size < capacity ∨ v.table.contains name = true

theorem store_of_hasRoom {v : Variables} {name : String} (h : v.HasRoom name) (x : Float) :
    v.store name x = .ok (v.assign [(name, x)]) := by
  have hgo : ¬ (capacity ≤ v.table.size ∧ ¬ v.table.contains name = true) := by
    rintro ⟨hfull, hnew⟩
    exact h.elim (Nat.not_lt.mpr hfull) hnew
  rw [store, if_neg hgo]
  rfl

theorem store_of_not_hasRoom {v : Variables} {name : String} (h : ¬ v.HasRoom name) (x : Float) :
    v.store name x = .error { kind := .outOfMemory, reason := .tooManyVariables } := by
  have hfull : capacity ≤ v.table.size ∧ ¬ v.table.contains name = true :=
    ⟨Nat.le_of_not_lt fun hlt => h (.inl hlt), fun hold => h (.inr hold)⟩
  rw [store, if_pos hfull]

@[simp] theorem fetch_assign_self (v : Variables) (name : String) (x : Float) :
    (v.assign [(name, x)]).fetch name = x := by
  simp [fetch, assign]

end Variables

/-! ### Values still to be read -/

namespace Context

end Context

namespace Statement

/-- Reading takes a value, stores it and goes on with the other names. -/
theorem outcome_readInto_cons (name : String) (names : List String) (c : Context) :
    outcome (readInto (name :: names)) c =
      match c.data >>= DataCursor.read with
      | .error f => (.error f, c)
      | .ok (x, cursor) =>
        match c.vars.store name x with
        | .error f => (.error f, { c with data := .ok cursor })
        | .ok vars => outcome (readInto names) { c with data := .ok cursor, vars } := by
  have hcons : readInto (name :: names) =
      Action.readData >>= fun x => Action.store name x >>= fun _ => readInto names := rfl
  rw [hcons, outcome_bind, Action.outcome_readData]
  cases c.data >>= DataCursor.read with
  | error f => rfl
  | ok taken =>
    obtain ⟨x, cursor⟩ := taken
    dsimp only
    rw [outcome_bind, Action.outcome_store]
    cases c.vars.store name x <;> rfl

/-- The values that a `READ` with these names gives to variables, in order: each is what its variable
holds right after it is read. -/
def valuesRead : List String → Context → List Float
  | [], _ => []
  | name :: names, c =>
    match outcome (readInto [name]) c with
    | (.ok _, c') => c'.vars.fetch name :: valuesRead names c'
    | (.error _, _) => []

/-- What is read comes from the front of what is still to be read. -/
theorem valuesRead_isPrefix (names : List String) (c : Context) : valuesRead names c <+: c.unread := by
  induction names generalizing c with
  | nil => exact List.nil_prefix
  | cons name names ih =>
    obtain ⟨f, j, _, hfail⟩ | ⟨x, hunread, hgo⟩ := readInto_cons_cases name c
    · rw [valuesRead, hfail]
      exact List.nil_prefix
    · have hone : outcome (readInto [name]) c =
          (.ok (), { c.advance 1 with vars := c.vars.assign [(name, x)] }) := hgo []
      have hrest := ih { c.advance 1 with vars := c.vars.assign [(name, x)] }
      rw [valuesRead, hone, hunread]
      simp only [Variables.fetch_assign_self]
      exact List.cons_prefix_cons.mpr ⟨rfl, (c.unread_advance 1) ▸ hrest⟩

/-- A `READ` that succeeds takes one value for each of its names. -/
theorem outcome_readInto_ok {names : List String} {c c' : Context}
    (h : outcome (readInto names) c = (.ok (), c')) :
    (valuesRead names c).length = names.length ∧
      c' = { c.advance names.length with vars := c.vars.assign (names.zip c.unread) } := by
  induction names generalizing c with
  | nil =>
    cases h
    refine ⟨rfl, ?_⟩
    rw [List.length_nil, Context.advance_zero]
    rfl
  | cons name names ih =>
    obtain ⟨f, j, _, hfail⟩ | ⟨x, hunread, hgo⟩ := readInto_cons_cases name c
    · rw [hfail] at h
      cases h
    · have hone : outcome (readInto [name]) c =
          (.ok (), { c.advance 1 with vars := c.vars.assign [(name, x)] }) := hgo []
      rw [hgo] at h
      obtain ⟨hlength, hc'⟩ := ih h
      have hrest : ({ c.advance 1 with vars := c.vars.assign [(name, x)] } : Context).unread =
          c.unread.drop 1 := c.unread_advance 1
      have hvars : (c.vars.assign [(name, x)]).assign (names.zip (c.unread.drop 1)) =
          c.vars.assign ((name :: names).zip c.unread) := by
        rw [← Variables.assign_cons, ← List.zip_cons_cons, ← hunread]
      have hadvance : (c.advance 1).advance names.length = c.advance (name :: names).length := by
        rw [c.advance_advance, Nat.add_comm, List.length_cons]
      refine ⟨?_, ?_⟩
      · rw [valuesRead, hone]
        simp only [List.length_cons, hlength]
      · rw [hc', hrest, ← hvars, ← hadvance]
        rfl

theorem outcome_perform_read (nested : Text → Action Flow) (args : Arguments) (c : Context) :
    outcome (perform nested .read args) c =
      match outcome (readInto args.names) c with
      | (.ok _, c') => (.ok .next, c')
      | (.error f, c') => (.error f, c') := by
  change outcome (readInto args.names >>= fun _ => pure Flow.next) c = _
  rw [outcome_bind]
  obtain ⟨result, c'⟩ := outcome (readInto args.names) c
  cases result <;> rfl

theorem outcome_perform_restore (nested : Text → Action Flow) (args : Arguments) (c : Context) :
    outcome (perform nested .restore args) c =
      match c.data with
      | .ok cursor => (.ok .next, { c with data := .ok cursor.restore })
      | .error f => (.error f, c) := by
  change outcome (Action.restoreData >>= fun _ => pure Flow.next) c = _
  rw [outcome_bind, Action.outcome_restoreData]
  cases c.data <;> rfl

/-- Reading moves the cursor on over the values that it gives to variables, and perhaps over one more
if it fails. -/
theorem data_readInto (names : List String) (c : Context) :
    ∃ n, (outcome (readInto names) c).2.data = (c.advance n).data ∧
      ((outcome (readInto names) c).1 = .ok () → n = (valuesRead names c).length) := by
  cases ho : outcome (readInto names) c with
  | mk result c' =>
    cases result with
    | ok u =>
      obtain ⟨hlength, rfl⟩ := outcome_readInto_ok ho
      exact ⟨names.length, rfl, fun _ => hlength.symm⟩
    | error f =>
      obtain ⟨done, name, rest, j, _, _, _, _, rfl⟩ := outcome_readInto_error ho
      exact ⟨done.length + j, rfl, nofun⟩

end Statement

/-! ### Statements that leave the data alone -/

/-- The action leaves a part of the context as it is, whether it succeeds or not. -/
def Leaves {α β : Type} (part : Context → β) (a : Action α) : Prop :=
  ∀ c, part (outcome a c).2 = part c

namespace Leaves

variable {α β γ : Type} {part : Context → γ}

theorem pure (x : α) : Leaves part (pure x) := fun _ => rfl

theorem bind {a : Action α} {k : α → Action β} (ha : Leaves part a) (hk : ∀ x, Leaves part (k x)) :
    Leaves part (a >>= k) := by
  intro c
  have hc := ha c
  rw [outcome_bind]
  cases ho : outcome a c with
  | mk result c' =>
    rw [ho] at hc
    cases result with
    | ok x => exact (hk x c').trans hc
    | error f => exact hc

theorem liftExcept (r : Except Fault α) : Leaves part (liftExcept r) := fun c => by
  rw [outcome_liftExcept]

/-! Each primitive leaves what is not its own part of the context. -/

theorem ofDraw (hpart : ∀ c random, part { c with random } = part c)
    (draw : Variables → Expression.Draw α) : Leaves part (Action.ofDraw draw) := fun c => by
  rw [Action.outcome_ofDraw]
  exact hpart c _

theorem store (hpart : ∀ c vars, part { c with vars } = part c) (name : String) (x : Float) :
    Leaves part (Action.store name x) := fun c => by
  rw [Action.outcome_store]
  split
  · exact hpart c _
  · rfl

theorem readData (hpart : ∀ c data, part { c with data } = part c) :
    Leaves part Action.readData := fun c => by
  rw [Action.outcome_readData]
  split
  · exact hpart c _
  · rfl

theorem restoreData (hpart : ∀ c data, part { c with data } = part c) :
    Leaves part Action.restoreData := fun c => by
  rw [Action.outcome_restoreData]
  split
  · exact hpart c _
  · rfl

theorem popReturn (hpart : ∀ c returns, part { c with returns } = part c) :
    Leaves part Action.popReturn := fun c => by
  rw [Action.outcome_popReturn]
  split
  · exact hpart c _
  · rfl

theorem onDisplay (hpart : ∀ c display, part { c with display } = part c)
    (f : Screen.Display → Screen.Display) : Leaves part (Action.onDisplay f) := fun c => hpart c _

end Leaves

namespace Statement

theorem leaves_data_continueLoop (name : String) : Leaves Context.data (continueLoop name) := by
  intro c
  rw [outcome_continueLoop]
  split
  · rfl
  · split
    · rfl
    · split <;> rfl

theorem leaves_data_perform {nested : Text → Action Flow} {command : Command} {args : Arguments}
    (hread : command ≠ .read) (hrestore : command ≠ .restore)
    (hif : command = .ifThen → (args.number 0 == 0.0) = true) :
    Leaves Context.data (perform nested command args) := by
  have store_next (name : String) (x : Float) (flow : Flow) :
      Leaves Context.data (do Action.store name x; return flow) :=
    .bind (.store (fun _ _ => rfl) name x) fun _ => .pure _
  cases command with
  | read => exact absurd rfl hread
  | restore => exact absurd rfl hrestore
  | ifThen =>
    unfold perform
    dsimp only
    rw [if_pos (hif rfl)]
    exact .pure _
  | assign => exact .bind (.liftExcept _) fun name => store_next name _ _
  | forTo => exact .bind (.liftExcept _) fun name => store_next name _ _
  | next => exact .bind (.liftExcept _) leaves_data_continueLoop
  | comeBack => exact .bind (.popReturn fun _ _ => rfl) fun _ => .pure _
  | randomize =>
    unfold perform
    dsimp only
    split <;> exact fun _ => rfl
  | goto | gosub | data | remark | stop => exact .pure _
  | _ => exact .bind (.onDisplay (fun _ _ => rfl) _) fun _ => .pure _

/-- Only a statement that comes down to a `READ` or a `RESTORE` touches the data. -/
theorem data_execute {text : Text} {c : Context} (hread : ∀ args c', ¬ ComesTo text c .read args c')
    (hrestore : ∀ args c', ¬ ComesTo text c .restore args c') :
    (outcome (execute text) c).2.data = c.data := by
  obtain ⟨n, hok⟩ | ⟨f, n, herror⟩ | ⟨command, args, c', hcomes⟩ := execute_cases text c
  · rw [hok]
  · rw [herror]
  · have hleaves : Leaves Context.data (perform execute command args) :=
      leaves_data_perform (fun h => hread args c' (h ▸ hcomes))
        (fun h => hrestore args c' (h ▸ hcomes)) hcomes.number_zero
    have hdata := hleaves c'
    obtain ⟨n, rfl⟩ := hcomes.draws
    cases hp : outcome (perform execute command args) _ with
    | mk result c'' =>
      rw [hp] at hdata
      cases result with
      | ok flow =>
        rw [hcomes.outcome_ok hp]
        exact hdata
      | error f =>
        obtain ⟨statement, herror⟩ := hcomes.outcome_error hp
        rw [herror]
        exact hdata

end Statement

end SpectrumBasic
