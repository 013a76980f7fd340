import SpectrumBasic.Proofs.Machine.Offset
import SpectrumBasic.Proofs.Machine.Statement
import SpectrumBasic.Proofs.Program.Starts

/-! Remarks, as a machine comes to them and as the harvest of `DATA` finds them. A machine leaves out
the rest of a line where a statement comes down to `REM`, which may stand behind any number of `THEN`s.
The harvest looks for `REM` only where a statement begins. So a machine never stands where the harvest
does not look, but the harvest may find `DATA` that the machine passes over. -/

namespace SpectrumBasic

open Attempt (outcome Triple)
open Program (IsStart Visible beginsWith beginsWith_iff boundary starts textAt)

deriving instance DecidableEq for ForLoop, Flow

/-! ### Statements that end their line -/

namespace Statement

variable {text : Text} {c c' : Context} {command : Command} {args : Arguments} {flow : Flow}

/-- No other command than a remark ends its line. -/
theorem perform_ne_endOfLine (nested : Text → Action Flow) (hremark : command ≠ .remark)
    (hif : command = .ifThen → (args.number 0 == 0.0) = true) :
    Triple (fun _ => True) (perform nested command args) (fun flow _ => flow ≠ .endOfLine)
      fun _ _ => True := by
  have any {α : Type} (a : Action α) : Triple (fun _ => True) a (fun _ _ => True) fun _ _ => True := by
    intro c _
    split <;> trivial
  have returns {α : Type} (a : Action α) {flow : α → Flow} (h : ∀ x, flow x ≠ .endOfLine) :
      Triple (fun _ => True) (do return flow (← a)) (fun flow _ => flow ≠ .endOfLine)
        fun _ _ => True :=
    .bind (any a) fun x => .pure fun _ _ => h x
  cases command with
  | remark => exact absurd rfl hremark
  | ifThen =>
    unfold perform
    dsimp only
    rw [if_pos (hif rfl)]
    exact .pure fun _ _ => nofun
  | assign => exact .bind (any _) fun name => returns _ fun _ => nofun
  | forTo => exact .bind (any _) fun name => returns _ fun _ => nofun
  | next =>
    refine .bind (any _) fun name c _ => ?_
    rw [outcome_continueLoop]
    cases c.loops[name]? with
    | none => trivial
    | some record =>
      by_cases hpast : record.isPast (c.vars.fetch name + record.step)
      · simp [hpast]
      · simp only [hpast]
        cases c.vars.store name (c.vars.fetch name + record.step) <;> simp
  | comeBack => exact returns _ fun _ => nofun
  | randomize =>
    unfold perform
    dsimp only
    split <;> exact returns _ fun _ => nofun
  | goto | gosub | data | stop => exact .pure fun _ _ => nofun
  | _ => exact returns _ fun _ => nofun

/-- A statement ends its line if it comes down to a remark. -/
theorem comesTo_of_endOfLine (h : (outcome (execute text) c).1 = .ok .endOfLine) :
    ∃ args c', ComesTo text c .remark args c' := by
  obtain ⟨n, hok⟩ | ⟨f, n, herror⟩ | ⟨command, args, c', hcomes⟩ := execute_cases text c
  · rw [hok] at h
    cases h
  · rw [herror] at h
    cases h
  · by_cases hremark : command = .remark
    · subst hremark
      exact ⟨args, c', hcomes⟩
    · have hperform := perform_ne_endOfLine execute hremark hcomes.number_zero c' trivial
      cases hp : outcome (perform execute command args) c' with
      | mk result c₁ =>
        rw [hp] at hperform
        cases result with
        | ok flow =>
          rw [hcomes.outcome_ok hp] at h
          cases h
          exact absurd rfl hperform
        | error f =>
          obtain ⟨statement, herror⟩ := hcomes.outcome_error hp
          rw [herror] at h
          cases h

/-- A statement begins with the command that it comes down to, or with an `IF`. -/
theorem ComesTo.beginsWith (h : ComesTo text c command args c') :
    Program.beginsWith command.name text = true ∨ Program.beginsWith "IF" text = true := by
  cases h with
  | own h _ =>
    obtain ⟨span, tokens, hlex, _⟩ := h
    exact .inl (beginsWith_iff.mpr ⟨span, tokens, hlex⟩)
  | behindThen h _ _ =>
    obtain ⟨span, tokens, hlex, _⟩ := h
    exact .inr (beginsWith_iff.mpr ⟨span, tokens, hlex⟩)

theorem flow_of_remark (h : beginsWith "REM" text = true)
    (ho : outcome (execute text) c = (.ok flow, c')) : flow = .endOfLine := by
  obtain ⟨span, tokens, hlex⟩ := beginsWith_iff.mp h
  have hremark : Token.lex text = ⟨span, .name Command.remark.name⟩ :: tokens := hlex
  rw [execute, executeWithin_command hremark] at ho
  obtain ⟨args, c₁, _, hperform⟩ := Attempt.exists_of_outcome_bind_ok ho
  cases hperform
  rfl

end Statement

/-! ### Machines -/

namespace Machine

/-- None of the places that the machine knows is in a remark. -/
structure InView (source : Text) (m : Machine) : Prop where
  source_eq : m.source = source
  offset : Visible source m.offset
  context : m.context.Anchored (Visible source)

namespace InView

variable {source : Text} {m : Machine}

theorem sited (h : InView source m) : Sited source m :=
  ⟨h.source_eq, h.offset.1, h.context.mono fun _ hp => hp.1⟩

/-- A search for a line ends at one, or behind the last. -/
theorem place (h : InView source m) : Visible source m.place := by
  have hinspects := h.sited.inspects_place
  obtain rfl := h.source_eq
  exact within_of_inspects h.offset
    (fun p hp hlt => (hp.1.isCut (Nat.le_of_lt hlt)).visible_newline) hinspects

theorem step (h : InView source m) : InView source m.step.2 := by
  have hplace := h.place
  obtain rfl := h.source_eq
  have hstop (flow : Flow) (c : Context) (hlt : m.place < Text.byteLength m.source)
      (ho : outcome (m.statementAt m.place) m.context = (.ok flow, c)) (hflow : flow ≠ .endOfLine) :
      Visible m.source ((boundary m.source m.place).stop + 1) := by
    refine hplace.stop (Nat.le_of_lt hlt) ?_
    by_contra hremark
    rw [Bool.not_eq_false] at hremark
    exact hflow (Statement.flow_of_remark hremark (execute_of_statementAt_ok ho))
  obtain ⟨hsource, hoffset, hcontext⟩ := within_of_step hplace h.context (Program.visible_zero _) hstop
    fun hlt => (hplace.1.isCut (Nat.le_of_lt hlt)).visible_newline
  exact ⟨hsource, hoffset, hcontext⟩

end InView

theorem invariant_inView (source : Text) : Invariant source (InView source) where
  load _ _ :=
    ⟨rfl, Program.visible_zero source, by simp [load, Context.start], by simp [load, Context.start]⟩
  step _ _ h := h.step
  halt _ h := ⟨h.source_eq, h.offset, h.context⟩
  flag _ _ h := ⟨h.source_eq, h.offset, h.context⟩
  seed _ _ h := ⟨h.source_eq, h.offset, h.context.resume, h.context.returns⟩
  display _ _ h := ⟨h.source_eq, h.offset, h.context.resume, h.context.returns⟩

/-- Where a statement makes the machine leave out the rest of its line, the harvest leaves it out if the
statement itself begins with `REM`. If the `REM` stands behind a `THEN` then the harvest goes on along
the line, up to a statement that begins with `REM`. -/
theorem data_behind_remark {source : Text} {m : Machine} (h : Reachable source m)
    (hlt : m.place < Text.byteLength source)
    (hend : (outcome (Statement.execute m.statement) m.context).1 = .ok .endOfLine) :
    m.step.1 = none ∧ m.step.2.offset = (boundary source m.place).newline + 1 ∧
      (∀ cursor, DataCursor.harvest source = .ok cursor →
        cursor.values.toList =
          (starts source).flatMap fun q => DataCursor.numbers (textAt source q)) ∧
      (starts source).Pairwise (· < ·) ∧ m.place ∈ starts source ∧
      (beginsWith "REM" m.statement = true ∧
          (∀ q ∈ starts source, m.place < q → (boundary source m.place).newline < q) ∨
        beginsWith "IF" m.statement = true ∧
          ∀ q, IsStart source q → m.place < q → q ≤ (boundary source m.place).newline →
            q < Text.byteLength source →
              (q ∈ starts source ↔ ∀ r, IsStart source r → m.place < r → r < q →
                beginsWith "REM" (textAt source r) = false)) := by
  have hview := (invariant_inView source).of_reachable h
  have hplace := hview.place
  obtain rfl := hview.source_eq
  obtain ⟨args, c, hcomes⟩ := Statement.comesTo_of_endOfLine hend
  have hstep := step_followAt_ok hlt (outcome_statementAt_ok (hcomes.outcome_ok rfl)) rfl
  refine ⟨by rw [hstep], by rw [hstep], fun _ => DataCursor.values_of_harvest,
    Program.pairwise_starts _, Program.mem_starts_iff.mpr ⟨hplace, hlt⟩, ?_⟩
  by_cases hremark : beginsWith "REM" m.statement = true
  · exact .inl ⟨hremark, fun q => Program.newline_lt_of_mem_starts hplace.1 hremark⟩
  · exact .inr ⟨hcomes.beginsWith.resolve_left hremark, fun q => hplace.mem_starts_line_iff hremark⟩

/-- A remark behind `THEN` between two `DATA`, and one of its own behind them. -/
theorem data_behind_nested_remark :
    let source := "10 DATA 3: IF 1 THEN REM x: DATA 5: REM: DATA 6\n20 READ A".toList
    let m := (Call.execute 1).run (load source .clear (.ofSeed 1))
    Reachable source m ∧ m.place < Text.byteLength source ∧
      (outcome (Statement.execute m.statement) m.context).1 = .ok .endOfLine ∧
      m.step.1 = none ∧ m.step.2.offset = (boundary source m.place).newline + 1 ∧
      beginsWith "IF" m.statement = true ∧
      ∀ q, IsStart source q → m.place < q → q ≤ (boundary source m.place).newline →
        q < Text.byteLength source →
          (q ∈ starts source ↔ ∀ r, IsStart source r → m.place < r → r < q →
            beginsWith "REM" (textAt source r) = false) := by
  intro source m
  have h : Reachable source m := .call (.execute 1) (.load .clear (.ofSeed 1))
  have hlt : m.place < Text.byteLength source := by decide +kernel
  have hend : (outcome (Statement.execute m.statement) m.context).1 = .ok .endOfLine := by
    decide +kernel
  have hremark : beginsWith "REM" m.statement = false := by decide +kernel
  obtain ⟨hfault, hoffset, _, _, _, hline⟩ := data_behind_remark h hlt hend
  refine ⟨h, hlt, hend, hfault, hoffset, hline.resolve_left fun hleft => ?_⟩
  rw [hremark] at hleft
  cases hleft.1

/-- `DATA` that a machine leaves out with the rest of a line may be read all the same. -/
theorem not_hidden_behind_then :
    ¬ (∀ (source : Text) (m : Machine), Reachable source m → m.place < Text.byteLength source →
        (outcome (Statement.execute m.statement) m.context).1 = .ok .endOfLine →
          ∀ q ∈ starts source, m.place < q → q ≤ (boundary source m.place).newline →
            DataCursor.numbers (textAt source q) = []) ∧
      (DataCursor.harvest "IF 1 THEN REM: DATA 5".toList).toOption.map (·.values) = some #[5.0] := by
  refine ⟨fun hall => ?_, by decide +kernel⟩
  have hnone := hall "IF 1 THEN REM: DATA 5".toList _ (.load .clear (.ofSeed 1)) (by decide +kernel)
    (by decide +kernel) 14 (by decide +kernel) (by decide +kernel) (by decide +kernel)
  revert hnone
  decide +kernel

end Machine

end SpectrumBasic
