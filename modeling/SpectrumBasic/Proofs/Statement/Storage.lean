import SpectrumBasic.Proofs.Statement.Data

/-! What statements do to variables and loops. A statement may store variables, within the room that
there is, and end a loop; it drops no variable. So what these two changes keep every statement keeps,
and a `FOR` hands on a record only for a variable that it has stored. -/

namespace SpectrumBasic

open Attempt (outcome Triple)

namespace Variables

theorem contains_assign {v : Variables} {name other : String} {x : Float} :
    (v.assign [(name, x)]).table.contains other = true ↔
      name = other ∨ v.table.contains other = true := by
  simp [assign, Std.TreeMap.contains_insert]

/-- Only a name that there is room for is stored. -/
theorem hasRoom_of_store {v v' : Variables} {name : String} {x : Float}
    (h : v.store name x = .ok v') : v.HasRoom name := by
  by_contra hfull
  rw [store_of_not_hasRoom hfull] at h
  cases h

theorem size_of_store {v v' : Variables} {name : String} {x : Float} (h : v.store name x = .ok v')
    (hv : v.table.size ≤ capacity) : v'.table.size ≤ capacity := by
  have hroom := hasRoom_of_store h
  rw [eq_assign_of_store h]
  show (v.table.insert name x).size ≤ capacity
  rw [Std.TreeMap.size_insert]
  split
  · exact hv
  · rename_i hnew
    exact hroom.resolve_right hnew

end Variables

/-- A property of variables and loops that lasts while variables are stored and loops end. -/
structure Context.Lasting (P : Context → Prop) : Prop where
  same : ∀ c c', c'.vars = c.vars → c'.loops = c.loops → P c → P c'
  store : ∀ c name x vars, c.vars.store name x = .ok vars → P c → P { c with vars }
  erase : ∀ c name, P c → P { c with loops := c.loops.erase name }

/-- What statements keep is about these parts of a context. -/
def Context.storage (c : Context) : Variables × Std.TreeMap String ForLoop := (c.vars, c.loops)

/-- The variable of a loop that the flow starts is stored. -/
def Flow.Declared (flow : Flow) (c : Context) : Prop :=
  ∀ record, flow = .loop record → c.vars.table.contains record.variableName = true

/-- The action keeps `P`, whether it succeeds or not, and its result has `Q`. -/
def Keeps {α : Type} (P : Context → Prop) (a : Action α) (Q : α → Context → Prop) : Prop :=
  Triple P a (fun x c => P c ∧ Q x c) fun _ c => P c

namespace Keeps

variable {α β : Type} {P : Context → Prop} {Q : α → Context → Prop} {R : β → Context → Prop}

theorem pure {x : α} (h : ∀ c, Q x c) : Keeps P (pure x) Q := Triple.pure fun c hc => ⟨hc, h c⟩

theorem throw (f : Fault) : Keeps P (throw f) Q := Triple.throw fun _ hc => hc

theorem bind {a : Action α} {k : α → Action β} (ha : Keeps P a fun _ _ => True)
    (hk : ∀ x, Keeps P (k x) R) : Keeps P (a >>= k) R :=
  Triple.bind ha fun x c hc => hk x c hc.1

theorem inStatement (text : Text) {a : Action Flow} (ha : Keeps P a Flow.Declared) :
    Keeps P (Action.inStatement text a) Flow.Declared := by
  intro c hc
  have h := ha c hc
  rw [Action.outcome_inStatement]
  cases ho : outcome a c with
  | mk result c' =>
    rw [ho] at h
    cases result <;> exact h

section Lasting

variable (hP : Context.Lasting P)
include hP

theorem of_leaves {a : Action α} (h : Leaves Context.storage a) : Keeps P a fun _ _ => True := by
  intro c hc
  have hc' := hP.same c _ (congrArg Prod.fst (h c)) (congrArg Prod.snd (h c)) hc
  cases ho : outcome a c with
  | mk result c' =>
    rw [ho] at hc'
    cases result with
    | ok x => exact ⟨hc', trivial⟩
    | error f => exact hc'

/-- What is stored is there. -/
theorem store (name : String) (x : Float) :
    Keeps P (Action.store name x) fun _ c => c.vars.table.contains name = true := by
  intro c hc
  rw [Action.outcome_store]
  cases hstore : c.vars.store name x with
  | error f => exact hc
  | ok vars =>
    refine ⟨hP.store c name x vars hstore hc, ?_⟩
    rw [Variables.eq_assign_of_store hstore]
    exact Variables.contains_assign.mpr (.inl rfl)

theorem store_flow (name : String) (x : Float) {flow : Flow}
    (hflow : ∀ c : Context, c.vars.table.contains name = true → flow.Declared c) :
    Keeps P (do Action.store name x; return flow) Flow.Declared :=
  Triple.bind (store hP name x) fun _ => Triple.pure fun c hc => ⟨hc.1, hflow c hc.2⟩

theorem readInto (names : List String) : Keeps P (Statement.readInto names) fun _ _ => True := by
  induction names with
  | nil => exact pure fun _ => trivial
  | cons name names ih =>
    refine bind (of_leaves hP (.readData fun _ _ => rfl)) fun x => ?_
    exact Triple.bind (store hP name x) fun _ c hc => ih c hc.1

theorem continueLoop (name : String) : Keeps P (Statement.continueLoop name) Flow.Declared := by
  intro c hc
  rw [Statement.outcome_continueLoop]
  cases hl : c.loops[name]? with
  | none => exact hc
  | some record =>
    by_cases hpast : record.isPast (c.vars.fetch name + record.step)
    · simp only [hpast, if_true]
      exact ⟨hP.erase c name hc, nofun⟩
    · simp only [hpast]
      cases hstore : c.vars.store name (c.vars.fetch name + record.step) with
      | error f => exact hc
      | ok vars => exact ⟨hP.store c name _ vars hstore hc, nofun⟩

theorem perform (nested : Text → Action Flow) (command : Command) (args : Arguments)
    (hif : command ≠ .ifThen) : Keeps P (Statement.perform nested command args) Flow.Declared := by
  have leaves {α : Type} {a : Action α} (h : Leaves Context.storage a) {flow : Flow}
      (hflow : ∀ c, flow.Declared c) : Keeps P (do let _ ← a; return flow) Flow.Declared :=
    bind (of_leaves hP h) fun _ => pure hflow
  have named {k : String → Action Flow} (h : ∀ name, Keeps P (k name) Flow.Declared) :
      Keeps P (liftExcept (args.name 0) >>= k) Flow.Declared :=
    bind (of_leaves hP (.liftExcept _)) h
  cases command with
  | ifThen => exact absurd rfl hif
  | assign => exact named fun name => store_flow hP name _ fun _ _ => nofun
  | forTo =>
    refine named fun name => store_flow hP name _ fun c hc record hrecord => ?_
    cases hrecord
    exact hc
  | next => exact named (continueLoop hP)
  | comeBack => exact bind (of_leaves hP (.popReturn fun _ _ => rfl)) fun _ => pure fun _ => nofun
  | read => exact bind (readInto hP _) fun _ => pure fun _ => nofun
  | restore => exact leaves (.restoreData fun _ _ => rfl) fun _ => nofun
  | randomize =>
    simp only [Statement.perform]
    split <;> exact leaves (fun _ => rfl) fun _ => nofun
  | goto | gosub | data | remark | stop => exact pure fun _ => nofun
  | _ => exact leaves (.onDisplay (fun _ _ => rfl) _) fun _ => nofun

end Lasting

end Keeps

/-- What lasts every statement keeps. -/
theorem Statement.closed_keeps {P : Context → Prop} (hP : Context.Lasting P) :
    Statement.Closed fun a => Keeps P a Flow.Declared where
  idle := .pure fun _ => nofun
  throw := .throw
  draw d _ hk := .bind (.of_leaves hP (.ofDraw (fun _ _ => rfl) d)) hk
  inStatement text _ ha := .inStatement text ha
  perform := .perform hP

/-- No statement drops a variable. -/
theorem Context.lasting_contains (name : String) :
    Lasting fun c => c.vars.table.contains name = true where
  same c c' hvars _ h := by rw [hvars]; exact h
  store c name' x vars hstore h := by
    rw [Variables.eq_assign_of_store hstore]
    exact Variables.contains_assign.mpr (.inr h)
  erase _ _ h := h

/-- Every loop has its record under the name of its own variable, which is stored, and no more variables
are stored than there is room for. -/
structure Context.Recorded (c : Context) : Prop where
  own : ∀ (name : String) (record : ForLoop), c.loops[name]? = some record →
    record.variableName = name
  stored : ∀ (name : String) (record : ForLoop), c.loops[name]? = some record →
    c.vars.table.contains name = true
  room : c.vars.table.size ≤ Variables.capacity

theorem Context.lasting_recorded : Lasting Recorded where
  same c c' hvars hloops h := by
    refine ⟨?_, ?_, ?_⟩
    · rw [hloops]
      exact h.own
    · rw [hloops, hvars]
      exact h.stored
    · rw [hvars]
      exact h.room
  store c name x vars hstore h := by
    refine ⟨h.own, fun other record hrecord => ?_, Variables.size_of_store hstore h.room⟩
    exact (lasting_contains other).store c name x vars hstore (h.stored other record hrecord)
  erase c name h := by
    have hold (other : String) (record : ForLoop) (hrecord : (c.loops.erase name)[other]? = some record) :
        c.loops[other]? = some record := by
      rw [Std.TreeMap.getElem?_erase] at hrecord
      split at hrecord
      · cases hrecord
      · exact hrecord
    exact ⟨fun other record hrecord => h.own other record (hold other record hrecord),
      fun other record hrecord => h.stored other record (hold other record hrecord), h.room⟩

end SpectrumBasic
