import SpectrumBasic.Proofs.Machine.Reads

/-! What a machine reports when it fails. Every fault but a break names a text, which is a part of the
program: the statement that was executed, what stands behind the innermost `THEN` that it had come to,
or the `DATA` statement that is at fault. If the fault has columns then they are those of tokens of
the text that it names, not of any text around it. -/

namespace SpectrumBasic

open Attempt (outcome)
open DataCursor (harvest FirstOffence)
open Program (IsCut firstStatement beginsWith walk)
open Token (Covers)

theorem Token.isCut_of_covers {t : Text} {span : Span} (h : Covers (lex t) span) :
    IsCut t span.start ∧ IsCut t span.stop := by
  obtain ⟨⟨u, hu, hstart⟩, ⟨v, hv, hstop⟩, _⟩ := h
  rw [hstart, hstop]
  exact ⟨(placed_lex t).start u hu, (placed_lex t).stop v hv⟩

/-- The statement at an offset is a part of the program, without blanks around it. -/
theorem Program.statement_trimmed (source : Text) (offset : Nat) :
    firstStatement (Text.dropBytes offset source) <:+: source ∧
      Text.trim (firstStatement (Text.dropBytes offset source)) =
        firstStatement (Text.dropBytes offset source) := by
  have hpart : firstStatement (Text.dropBytes offset source) <:+: Text.dropBytes offset source :=
    (Text.trim_isInfix _).trans (List.takeWhile_prefix _).isInfix
  exact ⟨hpart.trans (Text.dropBytes_isSuffix offset source).isInfix, Text.trim_trim _⟩

/-- The token that may not stand in a `DATA` statement is one of its tokens. -/
theorem DataCursor.covers_of_firstOffence {texts : List Text} {text : Text} {t : Token}
    (h : FirstOffence texts text t) :
    text ∈ texts ∧ beginsWith "DATA" text = true ∧ Covers (Token.lex text) t.span := by
  obtain ⟨before, after, front, back, rfl, _, htokens, _, _⟩ := h
  unfold dataTokens at htokens
  split at htokens
  · rename_i hdata
    have hmem : t ∈ Token.lex text := List.mem_of_mem_tail (by simp [htokens])
    exact ⟨by simp, hdata, (Token.placed_lex text).covers hmem⟩
  · simp at htokens

namespace Machine

/-- Where the text comes from that a fault of the next step names. -/
inductive Origin (source : Text) (m : Machine) (f : Fault) : Text → Prop
  /-- It is what was being executed: the statement, or what stands behind its innermost `THEN`. -/
  | executed {t : Text} (h : Statement.Innermost m.statement m.context t) : Origin source m f t
  /-- A call that there is no room for is put down to the whole statement. -/
  | call {line : Nat} {c : Context}
      (h : outcome (m.statementAt m.place) m.context = (.ok (.gosub line), c)) :
    Origin source m f m.statement
  /-- It is the first `DATA` statement with something wrong in it. -/
  | data {t : Text} (h : harvest source = .error f) (hmem : t ∈ walk source)
      (hdata : beginsWith "DATA" t = true) : Origin source m f t

/-- The fault of the next step names the text `t`, and its columns, if it has any, are those of tokens
of `t`. -/
structure Reports (source : Text) (m : Machine) (f : Fault) (t : Text) : Prop where
  statement : f.statement = some t
  origin : Origin source m f t
  trimmed : Text.trim t = t
  part : t <:+: source
  columns : f.span ≠ .nowhere →
    Covers (Token.lex t) f.span ∧ IsCut t f.span.start ∧ IsCut t f.span.stop

section Step

variable {source : Text} {m : Machine} {f : Fault} {c : Context}

theorem HoldsData.attached (h : HoldsData source m) (hf : m.context.data = .error f) :
    f.statement ≠ none := by
  obtain ⟨text, t, _, rfl⟩ := DataCursor.exists_of_harvest_error ((h.error_iff f).mp hf)
  simp

/-- A fault in the data names the `DATA` statement that it is in. -/
theorem reports_of_data_error (h : HoldsData source m) (hf : m.context.data = .error f) :
    ∃ t, Reports source m f t := by
  have hharvest := (h.error_iff f).mp hf
  obtain ⟨text, t, hfirst, rfl⟩ := DataCursor.exists_of_harvest_error hharvest
  obtain ⟨hmem, hdata, hcovers⟩ := DataCursor.covers_of_firstOffence hfirst
  obtain ⟨start, hstart⟩ := Program.exists_of_mem_walkFrom hmem
  obtain ⟨hpart, htrim⟩ := Program.statement_trimmed source start
  rw [← hstart] at hpart htrim
  exact ⟨text, rfl, .data hharvest hmem hdata, htrim, hpart,
    fun _ => ⟨hcovers, Token.isCut_of_covers hcovers⟩⟩

theorem reports_of_statementAt_error (hsource : m.source = source) (hdata : HoldsData source m)
    (h : outcome (m.statementAt m.place) m.context = (.error f, c)) : ∃ t, Reports source m f t := by
  subst hsource
  obtain ⟨f₀, ho, rfl⟩ := execute_of_statementAt_error h
  obtain herror | ⟨inner, hinner, hstatement, hspan, -⟩ :=
    Statement.fault_of_execute (fun _ => hdata.attached) ho
  · rw [Fault.inStatement_of_ne_none (hdata.attached herror)]
    exact reports_of_data_error hdata herror
  · obtain ⟨hpart, htrim⟩ := Program.statement_trimmed m.source m.place
    obtain ⟨hinside, htrimmed⟩ := hinner.trimmed htrim
    refine ⟨inner, hstatement, .executed hinner, htrimmed, hinside.trans hpart, fun hcolumns => ?_⟩
    rw [Fault.span_inStatement] at hcolumns ⊢
    have hcovers := hspan.resolve_left hcolumns
    exact ⟨hcovers, Token.isCut_of_covers hcovers⟩

theorem reports_of_followAt_error {flow : Flow} (hsource : m.source = source)
    (h : outcome (m.statementAt m.place) m.context = (.ok flow, c))
    (hf : m.followAt m.place c flow = .error f) : ∃ t, Reports source m f t := by
  subst hsource
  obtain ⟨line, rfl, rfl⟩ := exists_of_followAt_error hf
  obtain ⟨hpart, htrim⟩ := Program.statement_trimmed m.source m.place
  exact ⟨m.statement, rfl, .call h, htrim, hpart, fun hcolumns => absurd rfl hcolumns⟩

theorem reports_of_step (hsource : m.source = source) (hdata : HoldsData source m)
    (hf : m.step.1 = some f) : ∃ t, Reports source m f t := by
  obtain ⟨_, hs⟩ | ⟨hlt, c, ⟨f', ho, hs⟩ | ⟨flow, ho, ⟨f', hfollow, hs⟩ | ⟨m', _, hs⟩⟩⟩ := m.step_cases
  · rw [hs] at hf
    cases hf
  · rw [hs] at hf
    cases hf
    exact reports_of_statementAt_error hsource hdata ho
  · rw [hs] at hf
    cases hf
    exact reports_of_followAt_error hsource ho hfollow
  · rw [hs] at hf
    cases hf

end Step

/-- Every fault that a batch ends with, a break apart, is that of one of its steps. It names a part of
the program that this step had to do with, and its columns are columns of just that part. -/
theorem reports_of_execute {source : Text} {m : Machine} {n : Nat} {f : Fault}
    (h : Reachable source m) (hf : (m.execute n).1 = .failed f) (hbreak : f.kind ≠ .interrupted) :
    ∃ x ∈ (Call.execute n).stepped m, x.step.1 = some f ∧ ∃ t, Reports source x f t := by
  obtain ⟨_, hexecute⟩ | ⟨hgo, hexecute⟩ := m.execute_cases n
  · rw [hexecute] at hf
    cases hf
    exact absurd rfl hbreak
  · have hsited := invariant_sited source
    have hholds := invariant_holdsData source
    rw [hexecute] at hf
    obtain ⟨x, hx, hxf⟩ := exists_of_steps_failed hf
    obtain ⟨_, i, _, hi⟩ := (mem_stepped_iff _ _ x).mp hx
    have hsource : x.source = source := by
      have hm := hsited.flag m false (hsited.of_reachable h)
      rw [hi]
      exact (steps_keeps hsited.step hsited.halt i _ hm).source_eq
    have hdata : HoldsData source x := by
      have hm := hholds.flag m false (hholds.of_reachable h)
      rw [hi]
      exact steps_keeps hholds.step hholds.halt i _ hm
    refine ⟨x, ?_, hxf, reports_of_step hsource hdata hxf⟩
    rw [Call.stepped, if_neg (by simp [hgo])]
    exact hx

/-- A fault behind two `THEN`s, at a character of two bytes. -/
theorem reports_of_nested_statement :
    let source := "10 REM ü: é\n20 IF 1 THEN IF 1 THEN PLOT 1, ß".toList
    let m := load source .clear (.ofSeed 1)
    let f : Fault :=
      { kind := .syntaxError, statement := some "PLOT 1, ß".toList, span := ⟨8, 10⟩,
        reason := .unexpectedToken }
    Reachable source m ∧ (m.execute 9).1 = .failed f ∧
      ∃ x ∈ (Call.execute 9).stepped m, x.step.1 = some f ∧ ∃ t, Reports source x f t := by
  intro source m f
  have hreachable : Reachable source m := .load .clear (.ofSeed 1)
  have hfailed : (m.execute 9).1 = .failed f := by decide +kernel
  exact ⟨hreachable, hfailed, reports_of_execute hreachable hfailed (by decide)⟩

end Machine

end SpectrumBasic
