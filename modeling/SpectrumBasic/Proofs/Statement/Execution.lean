import SpectrumBasic.Proofs.Attempt
import SpectrumBasic.Statement

/-! What holds of every statement. A statement binds its arguments, which only draws random numbers,
and carries out a command; an `IF` hands over to the statement behind its `THEN`. So a property of
actions that these pieces have is one of every statement, however deep its `IF`s are nested. -/

namespace SpectrumBasic

open Attempt (outcome outcome_bind outcome_bind_ok outcome_get outcome_liftExcept)
open Expression (Draw)

namespace Action

variable {α : Type}

/-- Only the generator moves when random numbers are drawn. -/
theorem outcome_ofDraw (draw : Variables → Draw α) (c : Context) :
    outcome (ofDraw draw) c =
      ((outcome (draw c.vars) c.random).1,
        { c with random := (outcome (draw c.vars) c.random).2 }) := by
  unfold ofDraw
  rw [outcome_bind_ok (outcome_get c)]
  unfold outcome
  cases (draw c.vars).run.run c.random with
  | mk result random => cases result <;> rfl

theorem outcome_inStatement (text : Text) (a : Action α) (c : Context) :
    outcome (inStatement text a) c =
      ((outcome a c).1.mapError (·.inStatement text), (outcome a c).2) := by
  unfold inStatement outcome
  cases h : a.run.run c with
  | mk result c' =>
    simp only [ExceptT.run_adapt, StateT.run_map, h]
    rfl

theorem outcome_store (name : String) (x : Float) (c : Context) :
    outcome (store name x) c =
      match c.vars.store name x with
      | .ok vars => (.ok (), { c with vars })
      | .error f => (.error f, c) := by
  unfold store
  rw [outcome_bind_ok (outcome_get c), outcome_bind, outcome_liftExcept]
  cases c.vars.store name x <;> rfl

theorem outcome_readData (c : Context) :
    outcome readData c =
      match c.data >>= DataCursor.read with
      | .ok (x, cursor) => (.ok x, { c with data := .ok cursor })
      | .error f => (.error f, c) := by
  unfold readData
  rw [outcome_bind_ok (outcome_get c), outcome_bind, outcome_liftExcept]
  cases c.data >>= DataCursor.read <;> rfl

theorem outcome_restoreData (c : Context) :
    outcome restoreData c =
      match c.data with
      | .ok cursor => (.ok (), { c with data := .ok cursor.restore })
      | .error f => (.error f, c) := by
  unfold restoreData
  rw [outcome_bind_ok (outcome_get c), outcome_bind, outcome_liftExcept]
  cases c.data <;> rfl

theorem outcome_popReturn (c : Context) :
    outcome popReturn c =
      match c.returns.pop? with
      | some (offset, returns) => (.ok offset, { c with returns })
      | none => (.error { kind := .returnWithoutGosub }, c) := by
  unfold popReturn
  rw [outcome_bind_ok (outcome_get c)]
  cases c.returns.pop? <;> rfl

end Action

namespace Statement

theorem outcome_continueLoop (name : String) (c : Context) :
    outcome (continueLoop name) c =
      match c.loops[name]? with
      | none => (.error { kind := .nextWithoutFor }, c)
      | some record =>
        if record.isPast (c.vars.fetch name + record.step) then
          (.ok .next, { c with loops := c.loops.erase name })
        else
          match c.vars.store name (c.vars.fetch name + record.step) with
          | .ok vars => (.ok (.jump record.resume), { c with vars })
          | .error f => (.error f, c) := by
  unfold continueLoop
  rw [outcome_bind_ok (outcome_get c)]
  cases c.loops[name]? with
  | none => rfl
  | some record =>
    dsimp only
    split
    · rfl
    · rw [outcome_bind, Action.outcome_store]
      cases c.vars.store name (c.vars.fetch name + record.step) <;> rfl

/-- A property that the pieces of every statement have. -/
structure Closed (P : Action Flow → Prop) : Prop where
  idle : P (pure .next)
  throw : ∀ f, P (throw f)
  draw : ∀ (draw : Variables → Draw Arguments) (k : Arguments → Action Flow),
    (∀ args, P (k args)) → P (Action.ofDraw draw >>= k)
  inStatement : ∀ text a, P a → P (Action.inStatement text a)
  perform : ∀ nested c args, c ≠ .ifThen → P (perform nested c args)

namespace Closed

variable {P : Action Flow → Prop}

/-- If the statement behind `THEN` has the property then so has every command. -/
theorem perform_nested (hP : Closed P) {nested : Text → Action Flow} (h : ∀ text, P (nested text))
    (c : Command) (args : Arguments) : P (Statement.perform nested c args) := by
  by_cases hc : c = .ifThen
  · subst hc
    unfold Statement.perform
    dsimp only
    split
    · exact hP.idle
    · exact hP.inStatement _ _ (h _)
  · exact hP.perform nested c args hc

theorem executeWithin (hP : Closed P) (depth : Nat) (text : Text) :
    P (Statement.executeWithin depth text) := by
  induction depth generalizing text with
  | zero => exact hP.idle
  | succ depth ih =>
    unfold Statement.executeWithin
    split
    · exact hP.idle
    · split
      · exact hP.draw _ _ fun args => hP.perform_nested ih _ args
      · exact hP.throw _
    · exact hP.throw _

theorem execute (hP : Closed P) (text : Text) : P (Statement.execute text) :=
  hP.executeWithin _ text

end Closed

end Statement

end SpectrumBasic
