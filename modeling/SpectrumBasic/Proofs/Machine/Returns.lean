import SpectrumBasic.Proofs.Machine.Offset
import SpectrumBasic.Proofs.Statement.Nesting

/-! Calls and returns. The stack of a machine holds the places behind the calls that no return has
answered yet, and nothing but a call or a return changes it. So a return comes back behind the call
that it is nested with, wherever the program went in between. -/

namespace SpectrumBasic

open Attempt (outcome outcome_bind outcome_bind_ok)

/-! ### The stack -/

namespace ReturnStack

theorem push_cases (s : ReturnStack) (offset : Nat) :
    (s.offsets.length < capacity ∧ ∃ s', s.push offset = .ok s') ∨
    (capacity ≤ s.offsets.length ∧ ∃ f, s.push offset = .error f ∧ f.kind = .outOfMemory) := by
  rw [← s.depth_eq, push]
  split
  · rename_i hfull
    exact .inr ⟨hfull, _, rfl, rfl⟩
  · rename_i hroom
    exact .inl ⟨Nat.lt_of_not_le hroom, _, rfl⟩

theorem pop?_cases (s : ReturnStack) :
    (s.offsets = [] ∧ s.pop? = none) ∨ ∃ offset s', s.pop? = some (offset, s') := by
  unfold pop?
  split
  · rename_i hs
    exact .inl ⟨hs, rfl⟩
  · exact .inr ⟨_, _, rfl⟩

end ReturnStack

/-! ### Commands that neither call nor return -/

def Flow.IsCall : Flow → Prop
  | .gosub _ => True
  | _ => False

/-- The action leaves the stack of the context alone, whether it succeeds or not, and does not end in a
call. -/
def Spares (a : Action Flow) (c : Context) : Prop :=
  (outcome a c).2.returns = c.returns ∧ ∀ flow, (outcome a c).1 = .ok flow → ¬ flow.IsCall

namespace Spares

variable {α : Type} {c c' : Context}

theorem of_ok {a : Action Flow} {flow : Flow} (h : outcome a c = (.ok flow, c'))
    (hreturns : c'.returns = c.returns) (hflow : ¬ flow.IsCall) : Spares a c := by
  unfold Spares
  rw [h]
  refine ⟨hreturns, fun flow' hok => ?_⟩
  cases hok
  exact hflow

theorem of_error {a : Action Flow} {f : Fault} (h : outcome a c = (.error f, c'))
    (hreturns : c'.returns = c.returns) : Spares a c := by
  unfold Spares
  rw [h]
  exact ⟨hreturns, nofun⟩

theorem pure {flow : Flow} (h : ¬ flow.IsCall) : Spares (pure flow) c := of_ok rfl rfl h

theorem bind {a : Action α} {k : α → Action Flow} (ha : Unmoved a) (hk : ∀ x c, Spares (k x) c) :
    Spares (a >>= k) c := by
  have hc := (ha c).2
  unfold Spares
  rw [outcome_bind]
  cases ho : outcome a c with
  | mk result c' =>
    rw [ho] at hc
    cases result with
    | ok x => exact ⟨(hk x c').1.trans hc, (hk x c').2⟩
    | error f => exact ⟨hc, nofun⟩

theorem inStatement (text : Text) {a : Action Flow} (h : Spares a c) :
    Spares (Action.inStatement text a) c := by
  unfold Spares
  rw [Action.outcome_inStatement]
  refine ⟨h.1, fun flow hok => h.2 flow ?_⟩
  cases hresult : (outcome a c).1 with
  | ok flow' =>
    rw [hresult] at hok
    exact hok
  | error f =>
    rw [hresult] at hok
    cases hok

theorem continueLoop (name : String) : Spares (Statement.continueLoop name) c := by
  have hloop := Statement.outcome_continueLoop name c
  split at hloop
  · exact of_error hloop rfl
  · split at hloop
    · exact of_ok hloop rfl id
    · split at hloop
      · exact of_ok hloop rfl id
      · exact of_error hloop rfl

theorem perform {nested : Text → Action Flow} {command : Command} {args : Arguments}
    (hgosub : command ≠ .gosub) (hreturn : command ≠ .comeBack)
    (hif : command = .ifThen → (args.number 0 == 0.0) = true) :
    Spares (Statement.perform nested command args) c := by
  have unmoved {α : Type} {a : Action α} (h : Unmoved a) {flow : Flow} (hflow : ¬ flow.IsCall)
      {c : Context} : Spares (do let _ ← a; return flow) c :=
    bind h fun _ _ => pure hflow
  cases command with
  | gosub => exact absurd rfl hgosub
  | comeBack => exact absurd rfl hreturn
  | ifThen =>
    unfold Statement.perform
    dsimp only
    rw [if_pos (hif rfl)]
    exact pure id
  | assign => exact bind (.liftExcept _) fun name _ => unmoved (.store name _) id
  | forTo => exact bind (.liftExcept _) fun name _ => unmoved (.store name _) id
  | next => exact bind (.liftExcept _) fun name _ => continueLoop name
  | read => exact unmoved (.readInto _) id
  | restore => exact unmoved .restoreData id
  | randomize =>
    unfold Statement.perform
    dsimp only
    split <;> exact unmoved (fun _ => ⟨rfl, rfl⟩) id
  | goto | data | remark | stop => exact pure id
  | _ => exact unmoved (.onDisplay _) id

/-- A statement that comes down to neither a call nor a return leaves the stack alone. -/
theorem execute {text : Text}
    (hgosub : ∀ args c', ¬ Statement.ComesTo text c .gosub args c')
    (hreturn : ∀ args c', ¬ Statement.ComesTo text c .comeBack args c') :
    Spares (Statement.execute text) c := by
  obtain ⟨n, hok⟩ | ⟨f, n, herror⟩ | ⟨command, args, c', hcomes⟩ := Statement.execute_cases text c
  · exact of_ok hok rfl id
  · exact of_error herror rfl
  · have hc' : Spares (Statement.perform Statement.execute command args) c' :=
      perform (fun h => hgosub args c' (h ▸ hcomes)) (fun h => hreturn args c' (h ▸ hcomes))
        hcomes.number_zero
    obtain ⟨n, rfl⟩ := hcomes.draws
    unfold Spares at hc'
    cases hp : outcome (Statement.perform Statement.execute command args) _ with
    | mk result c'' =>
      rw [hp] at hc'
      cases result with
      | ok flow => exact of_ok (hcomes.outcome_ok hp) hc'.1 (hc'.2 flow rfl)
      | error f =>
        obtain ⟨statement, herror⟩ := hcomes.outcome_error hp
        exact of_error herror hc'.1

end Spares

theorem Statement.outcome_perform_comeBack (nested : Text → Action Flow) (args : Arguments)
    (c : Context) :
    outcome (perform nested .comeBack args) c =
      match c.returns.pop? with
      | some (offset, returns) => (.ok (.jump offset), { c with returns })
      | none => (.error { kind := .returnWithoutGosub }, c) := by
  have hperform : perform nested .comeBack args = Action.popReturn >>= fun o => pure (.jump o) := rfl
  rw [hperform, outcome_bind, Action.outcome_popReturn]
  cases c.returns.pop? <;> rfl

namespace Machine

open Program (IsStatement boundary firstStatement)

/-! ### What a step does to the stack -/

/-- The next step executes a statement that comes down to the command, behind any number of `IF`s
whose conditions hold. -/
def Executes (m : Machine) (command : Command) : Prop :=
  m.place < Text.byteLength m.source ∧ ∃ args c,
    Statement.ComesTo (firstStatement (Text.dropBytes m.place m.source)) m.context command args c

section Step

variable {m m' : Machine}

/-- A call puts the place behind its statement on the stack and goes to a line. With no room on the
stack it fails, and nothing but random numbers is used up. -/
theorem step_of_gosub (h : m.Executes .gosub) :
    ∃ n, let c := { m.context with random := m.context.random.skip n }
      (m.context.returns.offsets.length < ReturnStack.capacity ∧ ∃ returns line,
        returns.offsets = ((boundary m.source m.place).stop + 1) :: m.context.returns.offsets ∧
        m.step = (none, (m.standing m.place { c with returns }).goto line)) ∨
      (ReturnStack.capacity ≤ m.context.returns.offsets.length ∧ ∃ f, f.kind = .outOfMemory ∧
        m.step = (some f, m.standing m.place c)) := by
  obtain ⟨hlt, args, c, hcomes⟩ := h
  have hflow : outcome (m.statementAt m.place) m.context =
      (.ok (.gosub (Statement.lineTarget (args.number 0))), c) :=
    outcome_statementAt_ok (hcomes.outcome_ok rfl)
  have hfollow := m.followAt_gosub m.place c (Statement.lineTarget (args.number 0))
  obtain ⟨n, rfl⟩ := hcomes.draws
  refine ⟨n, ?_⟩
  obtain ⟨hroom, returns, hpush⟩ | ⟨hfull, f, hpush, hkind⟩ :=
    m.context.returns.push_cases ((boundary m.source m.place).stop + 1)
  · simp only [hpush] at hfollow
    exact .inl ⟨hroom, returns, _, ReturnStack.offsets_of_push hpush,
      step_followAt_ok hlt hflow hfollow⟩
  · simp only [hpush] at hfollow
    refine .inr ⟨hfull, _, ?_, step_followAt_error hlt hflow hfollow⟩
    rw [Fault.kind_inStatement, hkind]

/-- A return takes the latest place off the stack and goes there. If there is none it fails. -/
theorem step_of_comeBack (h : m.Executes .comeBack) :
    ∃ n, let c := { m.context with random := m.context.random.skip n }
      (m.context.returns.offsets = [] ∧ ∃ f, f.kind = .returnWithoutGosub ∧
        m.step = (some f, m.standing m.place c)) ∨
      ∃ offset returns, m.context.returns.offsets = offset :: returns.offsets ∧
        m.step = (none, m.standing offset { c with returns }) := by
  obtain ⟨hlt, args, c, hcomes⟩ := h
  have hpop := Statement.outcome_perform_comeBack Statement.execute args c
  obtain ⟨n, rfl⟩ := hcomes.draws
  refine ⟨n, ?_⟩
  obtain ⟨hempty, hnone⟩ | ⟨offset, returns, hsome⟩ := m.context.returns.pop?_cases
  · simp only [hnone] at hpop
    obtain ⟨statement, herror⟩ := hcomes.outcome_error hpop
    obtain ⟨f, hkind, hfails⟩ := outcome_statementAt_error herror
    exact .inl ⟨hempty, f, hkind, step_error hlt hfails⟩
  · simp only [hsome] at hpop
    have hflow := outcome_statementAt_ok (hcomes.outcome_ok hpop)
    exact .inr ⟨offset, returns, ReturnStack.offsets_of_pop? hsome, step_followAt_ok hlt hflow rfl⟩

theorem step_comeBack_fails_iff (h : m.Executes .comeBack) :
    (∃ f, m.step.1 = some f ∧ f.kind = .returnWithoutGosub) ↔ m.context.returns.offsets = [] := by
  obtain ⟨n, ⟨hempty, f, hkind, hstep⟩ | ⟨offset, returns, hoffsets, hstep⟩⟩ := step_of_comeBack h
  · rw [hstep]
    exact ⟨fun _ => hempty, fun _ => ⟨f, rfl, hkind⟩⟩
  · rw [hstep, hoffsets]
    exact ⟨nofun, nofun⟩

theorem step_gosub_fails_iff (h : m.Executes .gosub) :
    (∃ f, m.step.1 = some f ∧ f.kind = .outOfMemory) ↔
      ReturnStack.capacity ≤ m.context.returns.offsets.length := by
  obtain ⟨n, ⟨hroom, returns, line, _, hstep⟩ | ⟨hfull, f, hkind, hstep⟩⟩ := step_of_gosub h
  · rw [hstep]
    exact ⟨nofun, fun hfull => absurd hroom (Nat.not_lt.mpr hfull)⟩
  · rw [hstep]
    exact ⟨fun _ => hfull, fun _ => ⟨f, rfl, hkind⟩⟩

/-- A call that fails has changed nothing. -/
theorem step_gosub_some {f : Fault} (h : m.Executes .gosub) (hf : m.step.1 = some f) :
    f.kind = .outOfMemory ∧ m.step.2.context.returns = m.context.returns ∧
      m.step.2.offset = m.place := by
  obtain ⟨n, ⟨_, returns, line, _, hstep⟩ | ⟨_, f', hkind, hstep⟩⟩ := step_of_gosub h
  · rw [hstep] at hf
    cases hf
  · rw [hstep] at hf
    cases hf
    rw [hstep]
    exact ⟨hkind, rfl, rfl⟩

theorem returns_follow {text : Text} {ends : Program.Boundary} {flow : Flow} (hflow : ¬ flow.IsCall)
    (h : m.follow text ends flow = .ok m') : m'.context.returns = m.context.returns := by
  cases flow with
  | gosub line => exact absurd trivial hflow
  | _ =>
    cases h
    rfl

/-- A step that neither calls nor returns leaves the stack alone. -/
theorem returns_step (hgosub : ¬ m.Executes .gosub) (hreturn : ¬ m.Executes .comeBack) :
    m.step.2.context.returns = m.context.returns := by
  obtain ⟨_, hs⟩ | ⟨hlt, c, hs⟩ := m.step_cases
  · rw [hs]
  · have hspares : Spares (m.statementAt m.place) m.context :=
      .inStatement _ (.execute (fun args c' h => hgosub ⟨hlt, args, c', h⟩)
        fun args c' h => hreturn ⟨hlt, args, c', h⟩)
    unfold Spares at hspares
    obtain ⟨f, ho, hs⟩ | ⟨flow, ho, ⟨f, _, hs⟩ | ⟨m', hf, hs⟩⟩ := hs
    · rw [ho] at hspares
      rw [hs]
      exact hspares.1
    · rw [ho] at hspares
      rw [hs]
      exact hspares.1
    · rw [ho] at hspares
      rw [hs, returns_follow (hspares.2 flow rfl) hf]
      exact hspares.1

end Step

/-! ### Calls and returns of a run -/

/-- What a log says of a run: a call, with the place behind its statement, or a return. -/
inductive Deed
  | call (resume : Nat)
  | comeBack

/-- Each call in the log, whose latest entry is the first, is answered by a return and each return
answers a call. -/
inductive Matched : List Deed → Prop
  | nil : Matched []
  | nest {inner outer : List Deed} {resume : Nat} (hinner : Matched inner) (houter : Matched outer) :
    Matched (.comeBack :: (inner ++ .call resume :: outer))

/-- The calls in the log that are not answered yet are those with these places, the latest first. What
lies between them matches. -/
inductive Pending : List Deed → List Nat → Prop
  | none {log : List Deed} (h : Matched log) : Pending log []
  | call {body before : List Deed} {resume : Nat} {offsets : List Nat} (hbody : Matched body)
      (hbefore : Pending before offsets) : Pending (body ++ .call resume :: before) (resume :: offsets)

/-- The places of the calls that are still open after `n` further returns. -/
def openCalls : Nat → List Deed → List Nat
  | _, [] => []
  | n, .comeBack :: log => openCalls (n + 1) log
  | 0, .call resume :: log => resume :: openCalls 0 log
  | n + 1, .call _ :: log => openCalls n log

theorem Matched.openCalls_append {body : List Deed} (h : Matched body) (n : Nat) (log : List Deed) :
    openCalls n (body ++ log) = openCalls n log := by
  induction h generalizing n log with
  | nil => rfl
  | nest _ _ hinner houter =>
    rw [List.cons_append, List.append_assoc, openCalls, hinner, List.cons_append, openCalls, houter]

theorem Pending.openCalls_eq {log : List Deed} {offsets : List Nat} (h : Pending log offsets) :
    openCalls 0 log = offsets := by
  induction h with
  | none h => simpa [openCalls] using h.openCalls_append 0 []
  | call hbody _ ih => rw [hbody.openCalls_append, openCalls, ih]

theorem Pending.unique {log : List Deed} {offsets offsets' : List Nat} (h : Pending log offsets)
    (h' : Pending log offsets') : offsets = offsets' :=
  h.openCalls_eq.symm.trans h'.openCalls_eq

/-- A return answers the latest call. -/
theorem Pending.comeBack {log : List Deed} {resume : Nat} {offsets : List Nat}
    (h : Pending log (resume :: offsets)) : Pending (.comeBack :: log) offsets := by
  cases h with
  | @call inner _ _ _ hinner hbefore =>
    cases hbefore with
    | none houter => exact .none (.nest hinner houter)
    -- What lies in front of the answered call, back to the one before it, now matches as well.
    | @call outer before resume' offsets houter hbefore =>
      have happend : .comeBack :: (inner ++ .call resume :: (outer ++ .call resume' :: before)) =
          (.comeBack :: (inner ++ .call resume :: outer)) ++ .call resume' :: before := by simp
      rw [happend]
      exact .call (.nest hinner houter) hbefore

/-- What the next step adds to the log. A call or a return that fails adds nothing. -/
inductive Adds (m : Machine) : List Deed → Prop
  | call {statement : Text} (h : m.Executes .gosub) (hs : m.step.1 = none)
      (hstatement : IsStatement m.source m.place statement) :
    Adds m [.call (m.place + Text.byteLength statement + 1)]
  | comeBack (h : m.Executes .comeBack) (hs : m.step.1 = none) : Adds m [.comeBack]
  | nothing (h : m.step.1 = none → ¬ m.Executes .gosub ∧ ¬ m.Executes .comeBack) : Adds m []

/-- The log of a run that has come to the machine, the latest entry first. The host may do what it
likes in between. -/
inductive Past (source : Text) : List Deed → Machine → Prop
  | load (display : Screen.Display) (entropy : Generator) : Past source [] (load source display entropy)
  | step {log deeds : List Deed} {m : Machine} (h : Past source log m) (hrunning : m.isRunning = true)
      (hadds : m.Adds deeds) : Past source (deeds ++ log) m.step.2
  | halt {log : List Deed} {m : Machine} (h : Past source log m) :
    Past source log { m with status := .halted }
  | flag {log : List Deed} {m : Machine} (on : Bool) (h : Past source log m) :
    Past source log { m with interrupted := on }
  | seed {log : List Deed} {m : Machine} (n : UInt64) (h : Past source log m) :
    Past source log (m.seed n)
  | display {log : List Deed} {m : Machine} (f : Screen.Display → Screen.Display)
      (h : Past source log m) : Past source log (m.onDisplay f)

/-- The stack holds the places of the calls that are pending in the log, and there is room for them. -/
structure Accounts (log : List Deed) (m : Machine) : Prop where
  pending : Pending log m.context.returns.offsets
  room : m.context.returns.offsets.length ≤ ReturnStack.capacity

/-- A statement that fails leaves the stack alone. -/
theorem returns_of_step_some {m : Machine} {f : Fault} (h : m.step.1 = some f) :
    m.step.2.context.returns = m.context.returns := by
  by_cases hgosub : m.Executes .gosub
  · exact (step_gosub_some hgosub h).2.1
  · by_cases hreturn : m.Executes .comeBack
    · obtain ⟨n, ⟨_, _, _, hstep⟩ | ⟨_, _, _, hstep⟩⟩ := step_of_comeBack hreturn
      · rw [hstep, standing]
      · rw [hstep] at h
        cases h
    · exact returns_step hgosub hreturn

theorem Accounts.step {log deeds : List Deed} {m : Machine} (h : Accounts log m)
    (hadds : m.Adds deeds) : Accounts (deeds ++ log) m.step.2 := by
  obtain ⟨hpending, hroom⟩ := h
  cases hadds with
  | call hgosub hs hstatement =>
    obtain ⟨n, ⟨hlt, returns, line, hoffsets, hstep⟩ | ⟨_, _, _, hstep⟩⟩ := step_of_gosub hgosub
    · rw [hstatement.boundary_stop] at hoffsets
      rw [hstep]
      refine ⟨?_, ?_⟩
      · show Pending _ returns.offsets
        rw [hoffsets]
        exact .call .nil hpending
      · show returns.offsets.length ≤ _
        rw [hoffsets]
        exact hlt
    · rw [hstep] at hs
      cases hs
  | comeBack hreturn hs =>
    obtain ⟨n, ⟨_, _, _, hstep⟩ | ⟨offset, returns, hoffsets, hstep⟩⟩ := step_of_comeBack hreturn
    · rw [hstep] at hs
      cases hs
    · rw [hoffsets] at hpending hroom
      rw [hstep]
      exact ⟨hpending.comeBack, Nat.le_of_succ_le hroom⟩
  | nothing hother =>
    -- Either the step fails, or it neither calls nor returns.
    have hreturns : m.step.2.context.returns = m.context.returns := by
      cases hs : m.step.1 with
      | some f => exact returns_of_step_some hs
      | none => exact returns_step (hother hs).1 (hother hs).2
    rw [List.nil_append]
    exact ⟨by rw [hreturns]; exact hpending, by rw [hreturns]; exact hroom⟩

theorem Past.accounts {source : Text} {log : List Deed} {m : Machine} (h : Past source log m) :
    Accounts log m := by
  induction h with
  | load display entropy => exact ⟨.none .nil, Nat.zero_le _⟩
  | step _ _ hadds ih => exact ih.step hadds
  | halt _ ih => exact ⟨ih.pending, ih.room⟩
  | flag _ _ ih => exact ⟨ih.pending, ih.room⟩
  | seed _ _ ih => exact ⟨ih.pending, ih.room⟩
  | display _ _ ih => exact ⟨ih.pending, ih.room⟩

theorem Sited.exists_adds {source : Text} {m : Machine} (h : Sited source m) :
    ∃ deeds, m.Adds deeds := by
  cases hs : m.step.1 with
  | some f => exact ⟨[], .nothing fun hnone => by rw [hs] at hnone; cases hnone⟩
  | none =>
    by_cases hgosub : m.Executes .gosub
    · have hstart := h.isStart_of_inspects h.inspects_place
      rw [← h.source_eq] at hstart
      have hcut := hstart.isCut (Nat.le_of_lt hgosub.1)
      obtain ⟨statement, hstatement⟩ := hcut.exists_isStatement
      exact ⟨_, .call hgosub hs hstatement⟩
    · by_cases hreturn : m.Executes .comeBack
      · exact ⟨_, .comeBack hreturn hs⟩
      · exact ⟨_, .nothing fun _ => ⟨hgosub, hreturn⟩⟩

/-- Every run has a log. -/
theorem invariant_past (source : Text) :
    Invariant source fun m => Sited source m ∧ ∃ log, Past source log m where
  load display entropy := ⟨(invariant_sited source).load display entropy, [], .load display entropy⟩
  step m hrunning h := by
    obtain ⟨hsited, log, hpast⟩ := h
    obtain ⟨deeds, hadds⟩ := hsited.exists_adds
    exact ⟨hsited.step, _, hpast.step hrunning hadds⟩
  halt m h := ⟨(invariant_sited source).halt m h.1, h.2.imp fun _ => .halt⟩
  flag m on h := ⟨(invariant_sited source).flag m on h.1, h.2.imp fun _ => .flag on⟩
  seed m n h := ⟨(invariant_sited source).seed m n h.1, h.2.imp fun _ => .seed n⟩
  display m f h := ⟨(invariant_sited source).display m f h.1, h.2.imp fun _ => .display f⟩

/-- The stack of a machine after the run in the log, with calls pending that lead back to `offsets`,
and what the next statement does to it. -/
structure Returns (log : List Deed) (offsets : List Nat) (m : Machine) : Prop where
  stack : m.context.returns.offsets = offsets
  /-- A return goes behind the call that it is nested with. -/
  resumes : m.Executes .comeBack → ∀ body resume before, log = body ++ .call resume :: before →
    Matched body → m.step.1 = none ∧ m.step.2.offset = resume ∧ m.step.2.status = .running
  return_fails : m.Executes .comeBack →
    ((∃ f, m.step.1 = some f ∧ f.kind = .returnWithoutGosub) ↔ offsets = [])
  call_fails : m.Executes .gosub →
    ((∃ f, m.step.1 = some f ∧ f.kind = .outOfMemory) ↔ offsets.length = 65535)
  /-- A call cannot fail otherwise, and one that fails leaves the machine in front of it. -/
  call_keeps : m.Executes .gosub → ∀ f, m.step.1 = some f → f.kind = .outOfMemory ∧
    m.step.2.context.returns = m.context.returns ∧ m.step.2.offset = m.place
  /-- No other statement changes the stack. -/
  other_keeps : ¬ m.Executes .gosub → ¬ m.Executes .comeBack →
    m.step.2.context.returns = m.context.returns

theorem Accounts.step_of_nested {log body before : List Deed} {resume : Nat} {m : Machine}
    (h : Accounts log m) (hreturn : m.Executes .comeBack)
    (hlog : log = body ++ .call resume :: before) (hbody : Matched body) :
    m.step.1 = none ∧ m.step.2.offset = resume ∧ m.step.2.status = .running := by
  have hopen := h.pending.openCalls_eq
  rw [hlog, hbody.openCalls_append, openCalls] at hopen
  obtain ⟨n, ⟨hempty, _⟩ | ⟨offset, returns, hoffsets, hstep⟩⟩ := step_of_comeBack hreturn
  · rw [hempty] at hopen
    cases hopen
  · rw [hoffsets] at hopen
    obtain ⟨rfl, _⟩ := List.cons.inj hopen
    rw [hstep]
    exact ⟨rfl, rfl, rfl⟩

/-- At every moment of a run, that is after any number of steps, the stack holds the places behind the
calls that are pending in the log of the run, the latest first. -/
theorem stack_of_past {source : Text} {m : Machine} (h : Reachable source m) :
    (∃ log, Past source log m) ∧ ∀ log, Past source log m →
      ∃ offsets, (∀ offsets', Pending log offsets' ↔ offsets' = offsets) ∧ Returns log offsets m := by
  refine ⟨((invariant_past source).of_reachable h).2, fun log hpast => ?_⟩
  have haccounts := hpast.accounts
  refine ⟨m.context.returns.offsets, fun offsets' => ⟨fun h' => h'.unique haccounts.pending, ?_⟩, ?_⟩
  · rintro rfl
    exact haccounts.pending
  · refine
      { stack := rfl
        resumes := fun hreturn _ _ _ => haccounts.step_of_nested hreturn
        return_fails := step_comeBack_fails_iff
        call_fails := fun hgosub => ?_
        call_keeps := fun hgosub _ => step_gosub_some hgosub
        other_keeps := returns_step }
    rw [step_gosub_fails_iff hgosub]
    exact ⟨Nat.le_antisymm haccounts.room, Nat.le_of_eq ∘ Eq.symm⟩

/-- A call behind a `THEN`, and the return to the statement behind the whole `IF`. -/
theorem stack_of_nested_call :
    let source := "10 IF 1 THEN GOSUB 20: STOP\n20 RETURN".toList
    let m := (Call.execute 1).run (load source .clear (.ofSeed 1))
    Reachable source m ∧ Past source [.call 22] m ∧ m.Executes .comeBack ∧ m.step.2.offset = 22 := by
  intro source m
  let start := load source .clear (.ofSeed 1)
  have hreachable : Reachable source m := .call (.execute 1) (.load .clear (.ofSeed 1))
  have hgosub : start.Executes .gosub :=
    ⟨by decide +kernel, _, _, .behindThen ⟨⟨3, 5⟩,
        [⟨⟨6, 7⟩, .number ['1']⟩, ⟨⟨8, 12⟩, .word .thenDo⟩, ⟨⟨13, 18⟩, .name "GOSUB"⟩,
          ⟨⟨19, 21⟩, .number ['2', '0']⟩], by decide +kernel, rfl⟩
      (by decide +kernel)
      (.own ⟨⟨0, 5⟩, [⟨⟨6, 8⟩, .number ['2', '0']⟩], by decide +kernel, rfl⟩ (by simp))⟩
  have hstatement : IsStatement source start.place "10 IF 1 THEN GOSUB 20".toList := by
    have hnone : "10 IF 1 THEN GOSUB 20".toList.all (!Program.endsStatement ·) = true := by
      decide +kernel
    refine ⟨[], ':' :: " STOP\n20 RETURN".toList, by decide +kernel, rfl, ?_, by rintro c ⟨⟩; rfl⟩
    simpa only [List.all_eq_true, Bool.not_eq_true'] using hnone
  have hstep : start.step.1 = none := by decide +kernel
  have hm : m = start.step.2 := by
    show (start.steps 1).2 = _
    cases hs : start.step with
    | mk fault m' =>
      rw [hs] at hstep
      subst hstep
      simp only [steps, hs]
      rfl
  have hpast : Past source [.call 22] m := by
    rw [hm]
    exact .step (.load .clear (.ofSeed 1)) rfl (.call hgosub hstep hstatement)
  have hreturn : m.Executes .comeBack :=
    ⟨by decide +kernel, _, _, .own ⟨⟨3, 9⟩, [], by decide +kernel, rfl⟩ (by simp)⟩
  obtain ⟨offsets, _, hreturns⟩ := (stack_of_past hreachable).2 _ hpast
  exact ⟨hreachable, hpast, hreturn, (hreturns.resumes hreturn [] 22 [] rfl .nil).2.1⟩

end Machine

end SpectrumBasic
