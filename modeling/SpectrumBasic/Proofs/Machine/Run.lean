import SpectrumBasic.Machine
import SpectrumBasic.Proofs.Statement.WriteOnly

/-! Runs of a machine: a batch cut in two is two batches, what every step keeps a run keeps, and the
display has no influence on what a machine does. The machines that a host can come to are those that
its calls lead to from a loaded program. -/

namespace SpectrumBasic

open Attempt (outcome)
open Screen (Display Operation)

namespace Machine

/-- The statement at an offset, with its text attached to its faults. -/
def statementAt (m : Machine) (offset : Nat) : Action Flow :=
  let text := Program.firstStatement (Text.dropBytes offset m.source)
  Action.inStatement text (Statement.execute text)

/-- The machine behind the statement at an offset, before it goes anywhere. -/
def standing (m : Machine) (offset : Nat) (c : Context) : Machine :=
  { m with offset, status := .running, context := c }

/-- Goes where the statement at an offset says. -/
def followAt (m : Machine) (offset : Nat) (c : Context) (flow : Flow) : Except Fault Machine :=
  (m.standing offset c).follow (Program.firstStatement (Text.dropBytes offset m.source))
    (Program.boundary m.source offset) flow

section ExecuteAt

variable {m m' : Machine} {offset : Nat} {f : Fault} {flow : Flow} {c : Context}

theorem outcome_statementAt_ok {c' : Context}
    (h : outcome (Statement.execute (Program.firstStatement (Text.dropBytes offset m.source))) c =
      (.ok flow, c')) : outcome (m.statementAt offset) c = (.ok flow, c') := by
  unfold statementAt
  dsimp only
  rw [Action.outcome_inStatement, h]
  rfl

theorem outcome_statementAt_error {c' : Context}
    (h : outcome (Statement.execute (Program.firstStatement (Text.dropBytes offset m.source))) c =
      (.error f, c')) :
    ∃ f', f'.kind = f.kind ∧ outcome (m.statementAt offset) c = (.error f', c') := by
  unfold statementAt
  dsimp only
  rw [Action.outcome_inStatement, h]
  exact ⟨_, f.kind_inStatement _, rfl⟩

theorem executeAt_error (h : outcome (m.statementAt offset) m.context = (.error f, c)) :
    m.executeAt offset = (some f, m.standing offset c) := by
  unfold executeAt
  change (m.statementAt offset).run.run m.context = _ at h
  unfold statementAt at h
  simp only [h, standing]

theorem executeAt_followAt_error (h : outcome (m.statementAt offset) m.context = (.ok flow, c))
    (hf : m.followAt offset c flow = .error f) :
    m.executeAt offset = (some f, m.standing offset c) := by
  unfold executeAt
  change (m.statementAt offset).run.run m.context = _ at h
  unfold statementAt at h
  unfold followAt standing at hf
  simp only [h, hf, standing]

theorem executeAt_followAt_ok (h : outcome (m.statementAt offset) m.context = (.ok flow, c))
    (hf : m.followAt offset c flow = .ok m') : m.executeAt offset = (none, m') := by
  unfold executeAt
  change (m.statementAt offset).run.run m.context = _ at h
  unfold statementAt at h
  unfold followAt standing at hf
  simp only [h, hf]

/-! The same for a step that executes a statement. -/

theorem step_error (hlt : m.place < Text.byteLength m.source)
    (h : outcome (m.statementAt m.place) m.context = (.error f, c)) :
    m.step = (some f, m.standing m.place c) := by
  rw [step, if_pos hlt, executeAt_error h]

theorem step_followAt_error (hlt : m.place < Text.byteLength m.source)
    (h : outcome (m.statementAt m.place) m.context = (.ok flow, c))
    (hf : m.followAt m.place c flow = .error f) : m.step = (some f, m.standing m.place c) := by
  rw [step, if_pos hlt, executeAt_followAt_error h hf]

theorem step_followAt_ok (hlt : m.place < Text.byteLength m.source)
    (h : outcome (m.statementAt m.place) m.context = (.ok flow, c))
    (hf : m.followAt m.place c flow = .ok m') : m.step = (none, m') := by
  rw [step, if_pos hlt, executeAt_followAt_ok h hf]

end ExecuteAt

/-- What a step can do: stop behind the end, fail in a statement, fail to go where a statement says, or
go there. -/
theorem step_cases (m : Machine) :
    (Text.byteLength m.source ≤ m.place ∧
      m.step = (none, { m with offset := m.place, status := .stopped })) ∨
    (m.place < Text.byteLength m.source ∧ ∃ c,
      (∃ f, outcome (m.statementAt m.place) m.context = (.error f, c) ∧
        m.step = (some f, m.standing m.place c)) ∨
      ∃ flow, outcome (m.statementAt m.place) m.context = (.ok flow, c) ∧
        ((∃ f, m.followAt m.place c flow = .error f ∧ m.step = (some f, m.standing m.place c)) ∨
          ∃ m', m.followAt m.place c flow = .ok m' ∧ m.step = (none, m'))) := by
  by_cases hlt : m.place < Text.byteLength m.source
  · right
    cases ho : outcome (m.statementAt m.place) m.context with
    | mk result c =>
      refine ⟨hlt, c, ?_⟩
      cases result with
      | error f => exact .inl ⟨f, rfl, step_error hlt ho⟩
      | ok flow =>
        refine .inr ⟨flow, rfl, ?_⟩
        cases hf : m.followAt m.place c flow with
        | error f => exact .inl ⟨f, rfl, step_followAt_error hlt ho hf⟩
        | ok m' => exact .inr ⟨m', rfl, step_followAt_ok hlt ho hf⟩
  · left
    rw [step, if_neg hlt]
    exact ⟨Nat.le_of_not_lt hlt, rfl⟩

theorem follow_gosub (m : Machine) (text : Text) (ends : Program.Boundary) (line : Nat) :
    m.follow text ends (.gosub line) =
      match m.context.returns.push (ends.stop + 1) with
      | .ok returns => .ok ({ m with context := { m.context with returns } }.goto line)
      | .error f => .error (f.inStatement text) := by
  simp only [follow]
  cases m.context.returns.push (ends.stop + 1) <;> rfl

theorem followAt_gosub (m : Machine) (offset : Nat) (c : Context) (line : Nat) :
    m.followAt offset c (.gosub line) =
      match c.returns.push ((Program.boundary m.source offset).stop + 1) with
      | .ok returns => .ok ((m.standing offset { c with returns }).goto line)
      | .error f => .error (f.inStatement (Program.firstStatement (Text.dropBytes offset m.source))) := by
  rw [followAt, follow_gosub, standing]
  rfl

/-- Behind a statement only a call can fail, for want of room on the stack. -/
theorem exists_of_followAt_error {m : Machine} {offset : Nat} {c : Context} {flow : Flow} {f : Fault}
    (h : m.followAt offset c flow = .error f) :
    ∃ line, flow = .gosub line ∧
      f = { kind := .outOfMemory, reason := c.returns.overflow,
            statement := some (Program.firstStatement (Text.dropBytes offset m.source)) } := by
  cases flow with
  | gosub line =>
    rw [followAt_gosub, ReturnStack.push] at h
    split at h
    · cases h
    · rename_i f₀ hpush
      split at hpush
      · cases hpush
        cases h
        exact ⟨line, rfl, rfl⟩
      · cases hpush
  | _ => cases h

/-! ### Batches -/

theorem steps_of_not_isRunning {m : Machine} (h : m.isRunning = false) (n : Nat) :
    m.steps n = (.stopped, m) := by
  cases n <;> simp [steps, h]

/-- After an event other than `running` the machine no longer runs. -/
theorem isRunning_steps (n : Nat) (m : Machine) :
    (m.steps n).2.isRunning = true ↔ (m.steps n).1 = .running := by
  fun_induction steps n m with
  | case1 m => by_cases h : m.isRunning <;> simp [h]
  | case2 n m h m' hs ih => exact ih
  | case3 n m h f m' hs => simp [isRunning]
  | case4 n m h => simpa using h

/-- A batch can be cut anywhere. -/
theorem steps_add (a b : Nat) (m : Machine) :
    m.steps (a + b) = if (m.steps a).1 = .running then (m.steps a).2.steps b else m.steps a := by
  induction a generalizing m with
  | zero =>
    by_cases h : m.isRunning
    · simp [steps, h]
    · simp [steps, h, steps_of_not_isRunning]
  | succ a ih =>
    rw [Nat.succ_add]
    by_cases h : m.isRunning
    · simp only [steps, h, if_true]
      cases hs : m.step with
      | mk fault m' =>
        cases fault with
        | none => exact ih m'
        | some f => simp
    · simp [steps, h]

/-- What every step of a running machine keeps, and the halt after a fault, a batch keeps. -/
theorem steps_keeps {P : Machine → Prop} (step : ∀ m, m.isRunning = true → P m → P m.step.2)
    (halt : ∀ m, P m → P { m with status := .halted }) (n : Nat) (m : Machine) (h : P m) :
    P (m.steps n).2 := by
  induction n generalizing m with
  | zero => exact h
  | succ n ih =>
    unfold steps
    split
    · rename_i hrunning
      have hm := step m hrunning h
      cases hs : m.step with
      | mk fault m' =>
        rw [hs] at hm
        cases fault with
        | none => exact ih m' hm
        | some f => exact halt m' hm
    · exact h

theorem interrupted_follow {m m' : Machine} {text : Text} {ends : Program.Boundary} {flow : Flow}
    (h : m.follow text ends flow = .ok m') : m'.interrupted = m.interrupted := by
  cases flow with
  | gosub line =>
    rw [follow_gosub] at h
    split at h
    · cases h
      rfl
    · cases h
  | _ =>
    cases h
    rfl

/-- Only the host asks for a break. -/
theorem interrupted_step (m : Machine) : m.step.2.interrupted = m.interrupted := by
  obtain ⟨_, hs⟩ | ⟨_, c, ⟨f, _, hs⟩ | ⟨flow, _, ⟨f, _, hs⟩ | ⟨m', hf, hs⟩⟩⟩ := m.step_cases
  · rw [hs]
  · rw [hs, standing]
  · rw [hs, standing]
  · rw [hs, interrupted_follow hf, standing]

theorem interrupted_steps (n : Nat) (m : Machine) : (m.steps n).2.interrupted = m.interrupted :=
  steps_keeps (P := fun m' => m'.interrupted = m.interrupted)
    (fun m' _ h => (interrupted_step m').trans h) (fun _ h => h) n m rfl

/-! ### The display -/

def withDisplay (m : Machine) (d : Display) : Machine :=
  { m with context := m.context.withDisplay d }

theorem follow_withDisplay (m : Machine) (text : Text) (ends : Program.Boundary) (flow : Flow)
    (d : Display) :
    (m.withDisplay d).follow text ends flow = (m.follow text ends flow).map (·.withDisplay d) := by
  cases flow with
  | gosub line =>
    rw [follow_gosub, follow_gosub, withDisplay, Context.withDisplay]
    cases m.context.returns.push (ends.stop + 1) <;> rfl
  | _ => rfl

theorem followAt_withDisplay (m : Machine) (offset : Nat) (c : Context) (flow : Flow)
    (d d' : Display) :
    (m.withDisplay d).followAt offset (c.withDisplay d') flow =
      (m.followAt offset c flow).map (·.withDisplay d') :=
  follow_withDisplay (m.standing offset c) _ _ flow d'

theorem executeAt_withDisplay (m : Machine) (offset : Nat) :
    ∃ ops, ∀ d, (m.withDisplay d).executeAt offset =
      ((m.executeAt offset).1, (m.executeAt offset).2.withDisplay (Operation.runAll ops d)) := by
  have hw : WritesOnly (m.statementAt offset) :=
    .inStatement _ (Statement.closed_writesOnly.execute _)
  obtain ⟨ops, hops⟩ := hw m.context
  refine ⟨ops, fun d => ?_⟩
  have hd : outcome ((m.withDisplay d).statementAt offset) (m.withDisplay d).context = _ := hops d
  cases ho : outcome (m.statementAt offset) m.context with
  | mk result c =>
    rw [ho] at hd
    cases result with
    | error f =>
      rw [executeAt_error ho, executeAt_error hd]
      rfl
    | ok flow =>
      have hf := m.followAt_withDisplay offset c flow d (Operation.runAll ops d)
      cases hm : m.followAt offset c flow with
      | error f =>
        rw [hm] at hf
        rw [executeAt_followAt_error ho hm, executeAt_followAt_error hd hf]
        rfl
      | ok m' =>
        rw [hm] at hf
        rw [executeAt_followAt_ok ho hm, executeAt_followAt_ok hd hf]

/-- A step does the same to the machine whatever its display is, and to the display some operations
that do not depend on it. -/
theorem step_withDisplay (m : Machine) :
    ∃ ops, ∀ d,
      (m.withDisplay d).step = (m.step.1, m.step.2.withDisplay (Operation.runAll ops d)) := by
  by_cases h : m.place < Text.byteLength m.source
  · obtain ⟨ops, hops⟩ := m.executeAt_withDisplay m.place
    refine ⟨ops, fun d => ?_⟩
    have hd : (m.withDisplay d).place < Text.byteLength (m.withDisplay d).source := h
    rw [step, if_pos hd, step, if_pos h]
    exact hops d
  · refine ⟨[], fun d => ?_⟩
    have hd : ¬ (m.withDisplay d).place < Text.byteLength (m.withDisplay d).source := h
    rw [step, if_neg hd, step, if_neg h]
    rfl

theorem steps_withDisplay (n : Nat) (m : Machine) :
    ∃ ops, ∀ d, (m.withDisplay d).steps n =
      ((m.steps n).1, (m.steps n).2.withDisplay (Operation.runAll ops d)) := by
  have hrunning (m : Machine) (d : Display) : (m.withDisplay d).isRunning = m.isRunning := rfl
  induction n generalizing m with
  | zero => exact ⟨[], fun _ => rfl⟩
  | succ n ih =>
    by_cases h : m.isRunning
    · obtain ⟨ops, hops⟩ := m.step_withDisplay
      cases hs : m.step with
      | mk fault m' =>
        rw [hs] at hops
        cases fault with
        | some f =>
          refine ⟨ops, fun d => ?_⟩
          simp only [steps, hrunning, h, if_true, hops, hs]
          rfl
        | none =>
          obtain ⟨ops', hops'⟩ := ih m'
          refine ⟨ops ++ ops', fun d => ?_⟩
          simp only [steps, hrunning, h, if_true, hops, hs, hops', Operation.runAll_append]
    · refine ⟨[], fun d => ?_⟩
      simp only [steps, hrunning, h]
      rfl

/-! ### Calls of the host -/

/-- What a host may do with a machine. It may do anything with the display. -/
inductive Call
  | execute (n : Nat)
  | interrupt
  | seed (n : UInt64)
  | display (f : Display → Display)

def Call.run : Call → Machine → Machine
  | .execute n, m => (m.execute n).2
  | .interrupt, m => m.interrupt
  | .seed n, m => m.seed n
  | .display f, m => m.onDisplay f

/-- The machines that calls lead to from the start of a program. -/
inductive Reachable (source : Text) : Machine → Prop
  | load (display : Display) (entropy : Generator) : Reachable source (load source display entropy)
  | call (c : Call) {m : Machine} (h : Reachable source m) : Reachable source (c.run m)

/-- A property of machines with the program `source` that neither steps nor hosts break. -/
structure Invariant (source : Text) (P : Machine → Prop) : Prop where
  load : ∀ display entropy, P (load source display entropy)
  step : ∀ m, m.isRunning = true → P m → P m.step.2
  halt : ∀ m, P m → P { m with status := .halted }
  flag : ∀ m on, P m → P { m with interrupted := on }
  seed : ∀ m n, P m → P (m.seed n)
  display : ∀ m f, P m → P (m.onDisplay f)

namespace Invariant

variable {source : Text} {P : Machine → Prop}

theorem execute (hP : Invariant source P) (n : Nat) (m : Machine) (h : P m) : P (m.execute n).2 := by
  have hm := hP.flag m false h
  unfold Machine.execute
  dsimp only
  split
  · exact hP.halt _ hm
  · exact steps_keeps hP.step hP.halt _ _ hm

theorem call (hP : Invariant source P) (c : Call) (m : Machine) (h : P m) : P (c.run m) := by
  cases c with
  | execute n => exact hP.execute n m h
  | interrupt => exact hP.flag m true h
  | seed n => exact hP.seed m n h
  | display f => exact hP.display m f h

theorem of_reachable (hP : Invariant source P) {m : Machine} (h : Reachable source m) : P m := by
  induction h with
  | load display entropy => exact hP.load display entropy
  | call c _ ih => exact hP.call c _ ih

end Invariant

end Machine

end SpectrumBasic
