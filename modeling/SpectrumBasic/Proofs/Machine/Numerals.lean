import SpectrumBasic.Proofs.Machine.Report
import SpectrumBasic.Proofs.Token.Literal

/-! Numerals that cannot be read. The lexer makes a number only of what the pattern of numerals matches,
and all of that has a value. So the fault for a numeral without a value never arises, neither where an
expression is evaluated nor where the `DATA` of a program are gathered, and no machine reports it. -/

namespace SpectrumBasic

open Attempt (outcome FailsWith)
open DataCursor (harvest)
open Expression (evaluate)
open Token (lex scan)

/-- The tokens of a statement are evaluated without a fault in a numeral. -/
theorem Expression.reason_of_evaluate {s : Text} {ts : List Token} (h : ts ⊆ lex s) (vars : Variables) :
    FailsWith (fun f => f.reason ≠ .invalidNumber) (evaluate vars ts) := by
  have hcovers : ∀ t ∈ ts, Token.Covers (lex s) t.span := fun t ht => (Token.placed_lex s).covers (h ht)
  have hlegible : Token.Legible ts := fun t ht => Token.legible_lex s t (h ht)
  intro g f g' hf
  exact (failsWith_evaluate vars hcovers hlegible g f g' hf).reason

theorem DataCursor.reason_of_harvest_error {source : Text} {f : Fault} (h : harvest source = .error f) :
    f.reason ≠ .invalidNumber := by
  obtain ⟨text, t, -, rfl⟩ := exists_of_harvest_error h
  simp

/-! ### Steps -/

theorem ReturnStack.overflow_of_push {s s' : ReturnStack} {offset : Nat}
    (h : s.push offset = .ok s') : s'.overflow = s.overflow := by
  unfold push at h
  split at h
  · cases h
  · cases h
    rfl

theorem ReturnStack.overflow_of_pop? {s returns : ReturnStack} {offset : Nat}
    (h : s.pop? = some (offset, returns)) : returns.overflow = s.overflow := by
  unfold pop? at h
  split at h
  · cases h
  · cases h
    rfl

namespace Machine

variable {source : Text} {m : Machine} {f : Fault}

/-- What a full stack gives for a reason is not for a step to change. -/
theorem overflow_step (m : Machine) :
    m.step.2.context.returns.overflow = m.context.returns.overflow := by
  by_cases hgosub : m.Executes .gosub
  · obtain ⟨hlt, args, c, hcomes⟩ := hgosub
    have hflow : outcome (m.statementAt m.place) m.context =
        (.ok (.gosub (Statement.lineTarget (args.number 0))), c) :=
      outcome_statementAt_ok (hcomes.outcome_ok rfl)
    have hfollow := m.followAt_gosub m.place c (Statement.lineTarget (args.number 0))
    obtain ⟨n, rfl⟩ := hcomes.draws
    cases hpush : m.context.returns.push ((Program.boundary m.source m.place).stop + 1) with
    | ok returns =>
      simp only [hpush] at hfollow
      rw [step_followAt_ok hlt hflow hfollow]
      exact ReturnStack.overflow_of_push hpush
    | error f =>
      simp only [hpush] at hfollow
      rw [step_followAt_error hlt hflow hfollow]
      rfl
  · by_cases hreturn : m.Executes .comeBack
    · obtain ⟨hlt, args, c, hcomes⟩ := hreturn
      have hperform := Statement.outcome_perform_comeBack Statement.execute args c
      obtain ⟨n, rfl⟩ := hcomes.draws
      cases hpop : m.context.returns.pop? with
      | none =>
        simp only [hpop] at hperform
        obtain ⟨statement, herror⟩ := hcomes.outcome_error hperform
        obtain ⟨f, -, hfails⟩ := outcome_statementAt_error herror
        rw [step_error hlt hfails]
        rfl
      | some popped =>
        obtain ⟨offset, returns⟩ := popped
        simp only [hpop] at hperform
        rw [step_followAt_ok hlt (outcome_statementAt_ok (hcomes.outcome_ok hperform)) rfl]
        exact ReturnStack.overflow_of_pop? hpop
    · rw [returns_step hgosub hreturn]

theorem invariant_overflow (source : Text) :
    Invariant source fun m => m.context.returns.overflow = .returnStackFull where
  load _ _ := rfl
  step m _ h := (overflow_step m).trans h
  halt _ h := h
  flag _ _ h := h
  seed _ _ h := h
  display _ _ h := h

theorem reason_of_statementAt_error {c : Context} (hdata : HoldsData source m)
    (h : outcome (m.statementAt m.place) m.context = (.error f, c)) : f.reason ≠ .invalidNumber := by
  obtain ⟨f₀, ho, rfl⟩ := execute_of_statementAt_error h
  rw [Fault.reason_inStatement]
  obtain herror | ⟨inner, -, -, -, hreason⟩ := Statement.fault_of_execute (fun _ => hdata.attached) ho
  · exact DataCursor.reason_of_harvest_error ((hdata.error_iff f₀).mp herror)
  · exact hreason

/-- No step fails for a numeral. -/
theorem reason_of_step (hdata : HoldsData source m)
    (hoverflow : m.context.returns.overflow = .returnStackFull) (hf : m.step.1 = some f) :
    f.reason ≠ .invalidNumber := by
  obtain ⟨_, hs⟩ | ⟨hlt, c, ⟨f', ho, hs⟩ | ⟨flow, ho, ⟨f', hfollow, hs⟩ | ⟨m', _, hs⟩⟩⟩ := m.step_cases
  · rw [hs] at hf
    cases hf
  · rw [hs] at hf
    cases hf
    exact reason_of_statementAt_error hdata ho
  · -- only a call can fail behind its statement, for the reason that the stack gives
    have hreturns := m.overflow_step
    rw [hs] at hf hreturns
    cases hf
    have hfull : c.returns.overflow = .returnStackFull := hreturns.trans hoverflow
    obtain ⟨line, -, rfl⟩ := exists_of_followAt_error hfollow
    simp [hfull]
  · rw [hs] at hf
    cases hf

theorem reason_of_execute {n : Nat} (h : Reachable source m) (hf : (m.execute n).1 = .failed f) :
    f.reason ≠ .invalidNumber := by
  obtain ⟨_, hexecute⟩ | ⟨-, hexecute⟩ := m.execute_cases n
  · rw [hexecute] at hf
    cases hf
    simp
  · have kept {P : Machine → Prop} (hP : Invariant source P) (i : Nat) :
        P ({ m with interrupted := false }.steps i).2 :=
      steps_keeps hP.step hP.halt i _ (hP.flag m false (hP.of_reachable h))
    rw [hexecute] at hf
    obtain ⟨x, hx, hxf⟩ := exists_of_steps_failed hf
    obtain ⟨-, i, -, rfl⟩ := (mem_stepped_iff _ _ x).mp hx
    exact reason_of_step (kept (invariant_holdsData source) i) (kept (invariant_overflow source) i) hxf

end Machine

/-- Every number token of a text, that of a line number in front included, is the longest match of the
pattern at its place, and every match has a value. So no numeral is to blame for a fault: not if tokens
of the text are evaluated, nor if the text is a program, when its `DATA` are gathered or a machine runs
it. -/
theorem numerals_longest_and_legible (text : Text) :
    (∀ t, t ∈ lex text ∨ scan text = t :: lex text → ∀ numeral, t.kind = .number numeral →
      Token.IsLongestNumeral text t.span numeral) ∧
    (∀ w ∈ (Number.pattern ['e', 'E']).matches', (Number.read? w).isSome = true) ∧
    (∀ vars ts, ts ⊆ lex text → FailsWith (fun f => f.reason ≠ .invalidNumber) (evaluate vars ts)) ∧
    (∀ f, harvest text = .error f → f.reason ≠ .invalidNumber) ∧
    ∀ m, Machine.Reachable text m → ∀ n f, (m.execute n).1 = .failed f → f.reason ≠ .invalidNumber := by
  refine ⟨fun t ht numeral hkind => ?_, fun w => Number.isSome_read_of_mem_pattern,
    fun vars ts hts => Expression.reason_of_evaluate hts vars,
    fun f => DataCursor.reason_of_harvest_error, fun m hm n f => Machine.reason_of_execute hm⟩
  have hscan : t ∈ scan text := by
    rcases ht with hlex | hnumber
    · exact (Token.lex_sublist_scan text).subset hlex
    · rw [hnumber]
      exact List.mem_cons_self
  exact Token.isLongestNumeral_of_mem_scan hscan hkind

end SpectrumBasic
