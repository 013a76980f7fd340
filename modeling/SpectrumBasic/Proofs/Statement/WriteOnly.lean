import SpectrumBasic.Proofs.Screen.Operation
import SpectrumBasic.Proofs.Statement.Execution

/-! Statements only write to the display. What a statement returns and does to the rest of its context
is the same for every display, and to the display it applies operations that do not depend on what
is there. -/

namespace SpectrumBasic

open Attempt (outcome outcome_bind_ok outcome_bind_error)
open Screen (Display Operation)

/-- The context with another display. -/
def Context.withDisplay (c : Context) (d : Display) : Context := { c with display := d }

/-- The action applies the same operations to whatever display there is, and does not look at it
otherwise. -/
def WritesOnly {α : Type} (a : Action α) : Prop :=
  ∀ c, ∃ ops : List Operation, ∀ d,
    outcome a (c.withDisplay d) =
      ((outcome a c).1, (outcome a c).2.withDisplay (Operation.runAll ops d))

/-- The action leaves the display alone and does not look at it. -/
def IgnoresDisplay {α : Type} (a : Action α) : Prop :=
  ∀ c d, outcome a (c.withDisplay d) = ((outcome a c).1, (outcome a c).2.withDisplay d)

theorem IgnoresDisplay.writesOnly {α : Type} {a : Action α} (h : IgnoresDisplay a) : WritesOnly a :=
  fun c => ⟨[], h c⟩

theorem IgnoresDisplay.ofDraw {α : Type} (draw : Variables → Expression.Draw α) :
    IgnoresDisplay (Action.ofDraw draw) := by
  intro c d
  rw [Action.outcome_ofDraw, Action.outcome_ofDraw]
  rfl

namespace WritesOnly

variable {α β : Type}

theorem pure (x : α) : WritesOnly (pure x) := fun _ => ⟨[], fun _ => rfl⟩

theorem throw (f : Fault) : WritesOnly (throw f : Action α) := fun _ => ⟨[], fun _ => rfl⟩

theorem liftExcept (r : Except Fault α) : WritesOnly (liftExcept r : Action α) := by
  intro c
  refine ⟨[], fun d => ?_⟩
  rw [Attempt.outcome_liftExcept, Attempt.outcome_liftExcept]
  rfl

theorem bind {a : Action α} {k : α → Action β} (ha : WritesOnly a) (hk : ∀ x, WritesOnly (k x)) :
    WritesOnly (a >>= k) := by
  intro c
  obtain ⟨ops, hops⟩ := ha c
  cases h : outcome a c with
  | mk result c' =>
    simp only [h] at hops
    cases result with
    | error f =>
      refine ⟨ops, fun d => ?_⟩
      rw [outcome_bind_error (hops d), outcome_bind_error h]
    | ok x =>
      obtain ⟨ops', hops'⟩ := hk x c'
      refine ⟨ops ++ ops', fun d => ?_⟩
      rw [outcome_bind_ok (hops d), outcome_bind_ok h, hops', Operation.runAll_append]

theorem inStatement (text : Text) {a : Action α} (ha : WritesOnly a) :
    WritesOnly (Action.inStatement text a) := by
  intro c
  obtain ⟨ops, hops⟩ := ha c
  refine ⟨ops, fun d => ?_⟩
  rw [Action.outcome_inStatement, Action.outcome_inStatement, hops d]

theorem onDisplay (ops : List Operation) (f : Display → Display)
    (h : ∀ d, f d = Operation.runAll ops d) : WritesOnly (Action.onDisplay f) := by
  intro c
  refine ⟨ops, fun d => ?_⟩
  rw [← h d]
  rfl

/-! ### The pieces of a statement -/

theorem ofDraw (draw : Variables → Expression.Draw α) : WritesOnly (Action.ofDraw draw) :=
  (IgnoresDisplay.ofDraw draw).writesOnly

theorem store (name : String) (x : Float) : WritesOnly (Action.store name x) := by
  apply IgnoresDisplay.writesOnly
  intro c d
  rw [Action.outcome_store, Action.outcome_store, Context.withDisplay]
  cases c.vars.store name x <;> rfl

theorem readData : WritesOnly Action.readData := by
  apply IgnoresDisplay.writesOnly
  intro c d
  rw [Action.outcome_readData, Action.outcome_readData, Context.withDisplay]
  cases c.data >>= DataCursor.read <;> rfl

theorem restoreData : WritesOnly Action.restoreData := by
  apply IgnoresDisplay.writesOnly
  intro c d
  rw [Action.outcome_restoreData, Action.outcome_restoreData]
  obtain ⟨_, _, _, data, _, _, _⟩ := c
  cases data <;> rfl

theorem popReturn : WritesOnly Action.popReturn := by
  apply IgnoresDisplay.writesOnly
  intro c d
  rw [Action.outcome_popReturn, Action.outcome_popReturn, Context.withDisplay]
  cases c.returns.pop? <;> rfl

theorem continueLoop (name : String) : WritesOnly (Statement.continueLoop name) := by
  apply IgnoresDisplay.writesOnly
  intro c d
  rw [Statement.outcome_continueLoop, Statement.outcome_continueLoop, Context.withDisplay]
  cases c.loops[name]? with
  | none => rfl
  | some record =>
    dsimp only
    split
    · rfl
    · cases c.vars.store name (c.vars.fetch name + record.step) <;> rfl

theorem readInto (names : List String) : WritesOnly (Statement.readInto names) := by
  induction names with
  | nil => exact pure ()
  | cons name names ih => exact bind readData fun x => bind (store name x) fun _ => ih

/-- A circle is a list of lines. -/
theorem exists_polygon (corners : List Screen.Point) :
    ∃ ops, ∀ d : Display, d.polygon corners = Operation.runAll ops d := by
  induction corners with
  | nil => exact ⟨[], fun _ => rfl⟩
  | cons p corners ih =>
    cases corners with
    | nil => exact ⟨[], fun _ => rfl⟩
    | cons q corners =>
      obtain ⟨ops, hops⟩ := ih
      exact ⟨.line p q :: ops, fun d => hops (d.line p q)⟩

theorem exists_circle (x y r : Float) :
    ∃ ops, ∀ d : Display, d.circle x y r = Operation.runAll ops d := by
  unfold Display.circle
  split
  · exact exists_polygon _
  · exact ⟨[], fun _ => rfl⟩

theorem perform (nested : Text → Action Flow) (c : Command) (args : Arguments) (hc : c ≠ .ifThen) :
    WritesOnly (Statement.perform nested c args) := by
  have operation (o : Operation) :
      WritesOnly (do Action.onDisplay o.run; return Flow.next) :=
    bind (onDisplay [o] o.run fun _ => rfl) fun _ => pure _
  cases c with
  | ifThen => exact absurd rfl hc
  | assign => exact bind (liftExcept _) fun name => bind (store name _) fun _ => pure _
  | forTo => exact bind (liftExcept _) fun name => bind (store name _) fun _ => pure _
  | next => exact bind (liftExcept _) continueLoop
  | comeBack => exact bind popReturn fun _ => pure _
  | read => exact bind (readInto _) fun _ => pure _
  | restore => exact bind restoreData fun _ => pure _
  | randomize =>
    apply IgnoresDisplay.writesOnly
    intro c d
    simp only [Statement.perform]
    split <;> rfl
  | plot => exact operation (.plot _)
  | draw => exact operation (.draw _ _)
  | circle =>
    obtain ⟨ops, hops⟩ := exists_circle (args.number 0) (args.number 2) (args.number 4)
    exact bind (onDisplay ops _ hops) fun _ => pure _
  | ink => exact operation (.ink _)
  | paper => exact operation (.paper _)
  | bright => exact operation (.bright _)
  | flash => exact operation (.flash _)
  | overprint => exact operation (.setOver _)
  | inverse => exact operation (.setInverse _)
  | poke => exact operation (.poke _ _)
  | cls => exact operation .cls
  | goto | gosub | data | remark | stop => exact pure _

end WritesOnly

theorem Statement.closed_writesOnly : Statement.Closed WritesOnly where
  idle := .pure _
  throw := .throw
  draw d _ hk := .bind (.ofDraw d) hk
  inStatement text _ ha := .inStatement text ha
  perform := .perform

end SpectrumBasic
