import SpectrumBasic.Proofs.Machine.Returns
import SpectrumBasic.Proofs.Machine.Statement
import SpectrumBasic.Proofs.Program.Walk
import SpectrumBasic.Proofs.Statement.Slots
import SpectrumBasic.Proofs.Statement.Storage

/-! The records of loops. A `FOR` stores its variable and the step that follows it files the record, so
at every moment each record belongs to a variable that is stored. A `NEXT` with a record can
therefore always store the next value: it fails only for want of a record. -/

namespace SpectrumBasic.Machine

open Attempt (outcome)
open Program (beginsWith)
open Statement (ComesTo Innermost perform)

variable {m : Machine}

/-- The record of a loop is filed under the name of its variable. -/
theorem recorded_follow {m' : Machine} {text : Text} {ends : Program.Boundary} {flow : Flow}
    (h : m.context.Recorded) (hflow : flow.Declared m.context)
    (hm' : m.follow text ends flow = .ok m') : m'.context.Recorded := by
  cases flow with
  | gosub line =>
    rw [follow_gosub] at hm'
    split at hm'
    · cases hm'
      exact ⟨h.own, h.stored, h.room⟩
    · cases hm'
  | loop record =>
    cases hm'
    have hdeclared := hflow record rfl
    refine ⟨fun name record' hrecord' => ?_, fun name record' hrecord' => ?_, h.room⟩
    · rw [Std.TreeMap.getElem?_insert] at hrecord'
      split at hrecord'
      · rename_i hname
        cases hrecord'
        exact Std.LawfulEqOrd.eq_of_compare hname
      · exact h.own name record' hrecord'
    · rw [Std.TreeMap.getElem?_insert] at hrecord'
      split at hrecord'
      · rename_i hname
        rw [← Std.LawfulEqOrd.eq_of_compare hname]
        exact hdeclared
      · exact h.stored name record' hrecord'
  | _ =>
    cases hm'
    exact ⟨h.own, h.stored, h.room⟩

theorem recorded_step (h : m.context.Recorded) : m.step.2.context.Recorded := by
  have hkeeps : Keeps Context.Recorded (m.statementAt m.place) Flow.Declared :=
    .inStatement _ ((Statement.closed_keeps Context.lasting_recorded).execute _)
  have hc := hkeeps m.context h
  obtain ⟨_, hs⟩ | ⟨_, c, ⟨f, ho, hs⟩ | ⟨flow, ho, ⟨f, _, hs⟩ | ⟨m', hf, hs⟩⟩⟩ := m.step_cases
  · rw [hs]
    exact h
  · rw [ho] at hc
    rw [hs]
    exact hc
  · rw [ho] at hc
    rw [hs]
    exact hc.1
  · rw [ho] at hc
    rw [hs]
    exact recorded_follow hc.1 hc.2 hf

theorem invariant_recorded (source : Text) : Invariant source fun m => m.context.Recorded where
  load _ _ := ⟨by simp [load, Context.start], by simp [load, Context.start], Nat.zero_le _⟩
  step _ _ h := recorded_step h
  halt _ h := h
  flag _ _ h := h
  seed _ _ h := ⟨h.own, h.stored, h.room⟩
  display _ _ h := ⟨h.own, h.stored, h.room⟩

theorem Reachable.returns_le {source : Text} (h : Reachable source m) :
    m.context.returns.offsets.length ≤ ReturnStack.capacity := by
  obtain ⟨_, log, hpast⟩ := (invariant_past source).of_reachable h
  exact hpast.accounts.room

/-! ### Steps that continue a loop -/

section Next

variable {name : String} {c : Context} (hlt : m.place < Text.byteLength m.source)
  (h : ComesTo m.statement m.context .next [.name name] c)
include hlt h

/-- Without a record a `NEXT` fails. -/
theorem step_of_next_none (hnone : m.context.loops[name]? = none) :
    ∃ f, f.kind = .nextWithoutFor ∧ m.step.1 = some f := by
  have hloop := Statement.outcome_continueLoop name c
  obtain ⟨n, rfl⟩ := h.draws
  simp only [hnone] at hloop
  obtain ⟨f, hkind, _, hstep⟩ := step_of_perform_error hlt h hloop
  rw [hstep]
  exact ⟨f, hkind, rfl⟩

/-- With a record it ends the loop or goes back to its body. -/
theorem step_of_next_some (hrecorded : m.context.Recorded) {record : ForLoop}
    (hrecord : m.context.loops[name]? = some record) : m.step.1 = none := by
  have hloop := Statement.outcome_continueLoop name c
  obtain ⟨n, rfl⟩ := h.draws
  have hroom : m.context.vars.HasRoom name := .inr (hrecorded.stored name record hrecord)
  simp only [hrecord, Variables.store_of_hasRoom hroom] at hloop
  split at hloop
  · rw [step_of_perform_next hlt h hloop]
  · rw [step_followAt_ok hlt (outcome_statementAt_ok (h.outcome_ok hloop)) rfl]

end Next

/-- A `NEXT`, on its own or behind `THEN`s, fails for want of arguments or of a record only. -/
theorem next_fails_iff {inner : Text} (hrecorded : m.context.Recorded)
    (hlt : m.place < Text.byteLength m.source) (hinner : Innermost m.statement m.context inner)
    (hnext : beginsWith "NEXT" inner = true) :
    ((∃ f, m.step.1 = some f) ↔
      (∀ args c, ¬ ComesTo m.statement m.context .next args c) ∨
        ∃ name c, ComesTo m.statement m.context .next [.name name] c ∧
          m.context.loops[name]? = none) ∧
      ∀ f, m.step.1 = some f → f.kind = .syntaxError ∨ f.kind = .nextWithoutFor := by
  obtain ⟨span, tokens, hlex⟩ :
      ∃ span tokens, Token.lex inner = ⟨span, .name Command.next.name⟩ :: tokens :=
    Program.beginsWith_iff.mp hnext
  by_cases hcomes : ∃ args c, ComesTo m.statement m.context .next args c
  · obtain ⟨args, c, hcomes⟩ := hcomes
    obtain ⟨name, rfl⟩ := hcomes.next_args
    cases hrecord : m.context.loops[name]? with
    | none =>
      obtain ⟨f, hkind, hstep⟩ := step_of_next_none hlt hcomes hrecord
      refine ⟨⟨fun _ => .inr ⟨name, c, hcomes, hrecord⟩, fun _ => ⟨f, hstep⟩⟩, fun f' hf' => ?_⟩
      rw [hstep] at hf'
      cases hf'
      exact .inr hkind
    | some record =>
      have hstep := step_of_next_some hlt hcomes hrecorded hrecord
      refine ⟨⟨fun hfails => ?_, fun hwhy => ?_⟩, fun f hf => ?_⟩
      · rw [hstep] at hfails
        simp at hfails
      · obtain hnone | ⟨name', c', hcomes', hnone⟩ := hwhy
        · exact absurd hcomes (hnone _ c)
        · obtain ⟨f, _, hfails⟩ := step_of_next_none hlt hcomes' hnone
          exact ⟨f, hfails⟩
      · rw [hstep] at hf
        cases hf
  · obtain hbinds | ⟨f, c, herror, hkind⟩ := hinner.comesTo_or_fails hlex
    · exact absurd hbinds hcomes
    · obtain ⟨f', hkind', _, hstep⟩ := step_of_execute_error hlt herror
      rw [hstep]
      refine ⟨⟨fun _ => .inl fun args c h => hcomes ⟨args, c, h⟩, fun _ => ⟨f', rfl⟩⟩, ?_⟩
      rintro _ ⟨⟩
      exact .inl (hkind'.trans hkind)

/-- In every machine that a host can come to, each loop has its record under the name of its own
variable, which is stored, there are at most 65536 variables, and at most 65535 returns are pending.
So a variable that is stored can always be assigned, and a `NEXT` never fails for want of room. -/
theorem records_of_reachable {source : Text} (h : Reachable source m) :
    (∀ (name : String) (record : ForLoop), m.context.loops[name]? = some record →
      record.variableName = name ∧ m.context.vars.table.contains name = true) ∧
    m.context.vars.table.size ≤ 65536 ∧ m.context.returns.offsets.length ≤ 65535 ∧
    (∀ name x, m.context.vars.table.contains name = true →
      ∃ vars, m.context.vars.store name x = .ok vars ∧ vars.fetch name = x) ∧
    ∀ inner, m.place < Text.byteLength m.source → Innermost m.statement m.context inner →
      beginsWith "NEXT" inner = true →
      ((∃ f, m.step.1 = some f) ↔
        (∀ args c, ¬ ComesTo m.statement m.context .next args c) ∨
          ∃ name c, ComesTo m.statement m.context .next [.name name] c ∧
            m.context.loops[name]? = none) ∧
        ∀ f, m.step.1 = some f → f.kind ≠ .outOfMemory := by
  have hrecorded := (invariant_recorded source).of_reachable h
  refine ⟨fun name record hr => ⟨hrecorded.own name record hr, hrecorded.stored name record hr⟩,
    hrecorded.room, h.returns_le, fun name x hold => ?_, fun inner hlt hinner hnext => ?_⟩
  · exact ⟨_, Variables.store_of_hasRoom (.inr hold) x, Variables.fetch_assign_self _ name x⟩
  · obtain ⟨hiff, hkind⟩ := next_fails_iff hrecorded hlt hinner hnext
    refine ⟨hiff, fun f hf hmemory => ?_⟩
    obtain hsyntax | hwithout := hkind f hf
    · rw [hmemory] at hsyntax
      cases hsyntax
    · rw [hmemory] at hwithout
      cases hwithout

/-- A loop that a `NEXT` behind a `THEN` is about to continue. -/
theorem records_of_nested_next :
    let source := "10 FOR I=1 TO 3\n20 IF 1 THEN NEXT I".toList
    let m := (Call.execute 1).run (load source .clear (.ofSeed 1))
    Reachable source m ∧ (∃ record, m.context.loops["I"]? = some record) ∧
      m.context.vars.table.contains "I" = true ∧
      (∃ inner, Innermost m.statement m.context inner ∧ beginsWith "NEXT" inner = true) ∧
      ∀ f, m.step.1 = some f → f.kind ≠ .outOfMemory := by
  intro source m
  have hreachable : Reachable source m := .call (.execute 1) (.load .clear (.ofSeed 1))
  have hown {text : Text} (c : Context) (h : beginsWith "IF" text = false) : Innermost text c text := by
    refine .own fun args c' hbinds => ?_
    obtain ⟨span, tokens, hlex, _⟩ := hbinds
    have hif : beginsWith "IF" text = true := Program.beginsWith_iff.mpr ⟨span, tokens, hlex⟩
    rw [h] at hif
    cases hif
  have hinner : ∃ inner, Innermost m.statement m.context inner ∧ beginsWith "NEXT" inner = true :=
    ⟨_, .behindThen ⟨⟨3, 5⟩,
        [⟨⟨6, 7⟩, .number ['1']⟩, ⟨⟨8, 12⟩, .word .thenDo⟩, ⟨⟨13, 17⟩, .name "NEXT"⟩,
          ⟨⟨18, 19⟩, .name "I"⟩], by decide +kernel, rfl⟩
      (by decide +kernel) (hown _ (by decide +kernel)), by decide +kernel⟩
  have hrecord : (m.context.loops["I"]?).isSome = true := by decide +kernel
  obtain ⟨record, hrecord⟩ := Option.isSome_iff_exists.mp hrecord
  obtain ⟨inner, hinner, hnext⟩ := hinner
  obtain ⟨hrecords, _, _, _, hfails⟩ := records_of_reachable hreachable
  exact ⟨hreachable, ⟨record, hrecord⟩, (hrecords "I" record hrecord).2, ⟨inner, hinner, hnext⟩,
    (hfails inner (by decide +kernel) hinner hnext).2⟩

end SpectrumBasic.Machine
