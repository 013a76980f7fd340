import SpectrumBasic.Proofs.Machine.Trace
import SpectrumBasic.Proofs.Statement.Blame

/-! What the statement at the place of a machine makes of its next step: the step fails as the
statement does, and otherwise goes where the statement says. -/

namespace SpectrumBasic.Machine

open Attempt (outcome)
open Program (firstStatement boundary)
open Statement (ComesTo perform)

/-- The statement that the next step executes, without the blanks around it. -/
def statement (m : Machine) : Text := firstStatement (Text.dropBytes m.place m.source)

variable {m : Machine}

theorem outcome_statementAt_place (m : Machine) :
    outcome (m.statementAt m.place) m.context =
      ((outcome (Statement.execute m.statement) m.context).1.mapError (·.inStatement m.statement),
        (outcome (Statement.execute m.statement) m.context).2) :=
  Action.outcome_inStatement m.statement _ m.context

theorem execute_of_statementAt_ok {flow : Flow} {c : Context}
    (h : outcome (m.statementAt m.place) m.context = (.ok flow, c)) :
    outcome (Statement.execute m.statement) m.context = (.ok flow, c) := by
  rw [outcome_statementAt_place] at h
  cases ho : outcome (Statement.execute m.statement) m.context with
  | mk result c' =>
    rw [ho] at h
    cases result <;> cases h
    rfl

theorem execute_of_statementAt_error {f : Fault} {c : Context}
    (h : outcome (m.statementAt m.place) m.context = (.error f, c)) :
    ∃ f₀, outcome (Statement.execute m.statement) m.context = (.error f₀, c) ∧
      f = f₀.inStatement m.statement := by
  rw [outcome_statementAt_place] at h
  cases ho : outcome (Statement.execute m.statement) m.context with
  | mk result c' =>
    rw [ho] at h
    cases result <;> cases h
    exact ⟨_, rfl, rfl⟩

section Execute

variable {f : Fault} {c c' : Context} {command : Command} {args : Arguments}
  (hlt : m.place < Text.byteLength m.source)
include hlt

/-- A statement that fails makes the step fail. A fault that has a text attached comes out as it is. -/
theorem step_of_execute_error
    (h : outcome (Statement.execute m.statement) m.context = (.error f, c')) :
    ∃ f', f'.kind = f.kind ∧ (f.statement ≠ none → f' = f) ∧
      m.step = (some f', m.standing m.place c') := by
  have hfails : outcome (m.statementAt m.place) m.context =
      (.error (f.inStatement m.statement), c') := by
    rw [outcome_statementAt_place, h]
    rfl
  exact ⟨_, f.kind_inStatement _, fun hf => Fault.inStatement_of_ne_none hf _, step_error hlt hfails⟩

theorem step_of_perform_error (hcomes : ComesTo m.statement m.context command args c)
    (hp : outcome (perform Statement.execute command args) c = (.error f, c')) :
    ∃ f', f'.kind = f.kind ∧ (f.statement ≠ none → f' = f) ∧
      m.step = (some f', m.standing m.place c') := by
  by_cases hf : f.statement = none
  · obtain ⟨statement, herror⟩ := hcomes.outcome_error hp
    obtain ⟨f', hkind, _, hstep⟩ := step_of_execute_error hlt herror
    exact ⟨f', hkind, fun hattached => absurd hf hattached, hstep⟩
  · exact step_of_execute_error hlt (hcomes.outcome_attached hp hf)

theorem step_of_perform_next (hcomes : ComesTo m.statement m.context command args c)
    (hp : outcome (perform Statement.execute command args) c = (.ok .next, c')) :
    m.step =
      (none, { m.standing m.place c' with offset := (boundary m.source m.place).stop + 1 }) :=
  step_followAt_ok hlt (outcome_statementAt_ok (hcomes.outcome_ok hp)) rfl

end Execute

/-! ### Steps of a batch -/

/-- A step of a running machine. After a fault the machine no longer runs. -/
theorem steps_one (hrunning : m.isRunning = true) :
    (m.steps 1).2.context = m.step.2.context ∧
      ((m.steps 1).2.isRunning = true → m.step.1 = none) := by
  cases hs : m.step with
  | mk fault m' =>
    cases fault with
    | none => simp [steps, hrunning, hs]
    | some f =>
      have hsteps : (m.steps 1).2 = { m' with status := .halted } := by
        simp only [steps, hrunning, if_true, hs]
      rw [hsteps]
      exact ⟨rfl, fun hstill => absurd hstill (by simp [isRunning])⟩

/-- A batch fails with the fault of one of its steps. -/
theorem exists_of_steps_failed {n : Nat} {f : Fault} (h : (m.steps n).1 = .failed f) :
    ∃ x ∈ stepped n m, x.step.1 = some f := by
  induction n generalizing m with
  | zero =>
    rw [steps] at h
    split at h <;> cases h
  | succ n ih =>
    unfold steps at h
    unfold stepped
    split at h
    · rename_i hrunning
      rw [if_pos hrunning]
      cases hs : m.step with
      | mk fault m' =>
        rw [hs] at h
        cases fault with
        | none =>
          obtain ⟨x, hx, hxf⟩ := ih h
          exact ⟨x, List.mem_cons_of_mem m hx, hxf⟩
        | some f' =>
          cases h
          exact ⟨m, List.mem_singleton_self m, by rw [hs]⟩
    · cases h

end SpectrumBasic.Machine
