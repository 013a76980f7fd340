import Mathlib.Data.List.TakeWhile
import SpectrumBasic.Proofs.Program.Line
import SpectrumBasic.Proofs.Statement.Nesting
import SpectrumBasic.Proofs.Token.Gap

/-! Statements behind conditions. The text behind a `THEN` is cut out of the statement by the place of
its first token and lexed anew, so a statement behind any number of `IF`s is executed as if it stood
alone, once their conditions have been evaluated one after another and none of them was zero. -/

namespace SpectrumBasic

open Attempt (outcome outcome_bind_ok outcome_bind_error outcome_bind)
open Expression (Draw evaluate)

namespace Fault

theorem exists_inStatement (f : Fault) (text : Text) :
    ∃ statement, f.inStatement text = { f with statement } := by
  unfold inStatement
  cases f.statement with
  | none => exact ⟨some text, rfl⟩
  | some _ => exact ⟨f.statement, rfl⟩

/-- Only the first statement that is attached counts. -/
theorem mapError_inStatement {α : Type} (result : Except Fault α) (text text' : Text) :
    (result.mapError (·.inStatement text)).mapError (·.inStatement text') =
      result.mapError (·.inStatement text) := by
  cases result with
  | ok a => rfl
  | error f =>
    apply congrArg Except.error
    cases hs : f.statement <;> simp [inStatement, hs]

end Fault

namespace Text

/-- A text is trimmed if it neither begins nor ends with a blank. -/
theorem trim_eq_self_iff {t : Text} :
    trim t = t ↔ (∀ c ∈ t.head?, isBlank c = false) ∧ ∀ c ∈ t.getLast?, isBlank c = false := by
  have hdrop (u : Text) : u.dropWhile isBlank = u ↔ ∀ c ∈ u.head?, isBlank c = false := by
    cases u <;> simp [List.dropWhile_eq_self_iff]
  have hend : trimEnd t = t ↔ ∀ c ∈ t.getLast?, isBlank c = false := by
    rw [← List.head?_reverse, ← hdrop, trimEnd, List.reverse_eq_iff]
  rw [← hdrop, ← hend]
  constructor
  · intro h
    have hstart : trimStart t = t := by rw [← h, trimStart_trim]
    exact ⟨hstart, by rwa [trim, hstart] at h⟩
  · rintro ⟨hstart, hend⟩
    rw [trim, trimStart, hstart, hend]

end Text

namespace Token

theorem next_word (phase : Phase) (w : Word) : phase.next (.word w) = .inside true := by
  cases phase <;> rfl

theorem scanFrom_thenDo (phase : Phase) (offset : Nat) :
    scanFrom phase offset "THEN".toList = [⟨⟨offset, offset + 4⟩, .word .thenDo⟩] := by
  have hlexeme : ∀ operand, firstLexeme operand 'T' "HEN".toList = ("THEN".toList, .word .thenDo) := by
    decide
  have hcons : "THEN".toList = 'T' :: "HEN".toList := rfl
  rw [hcons, scanFrom, if_neg (by decide), hlexeme]
  dsimp only
  rw [scanFrom.eq_def]
  rfl

/-- A text that does not begin with a gap has a token at its start. -/
theorem exists_scanFrom_cons {c : Char} (hc : isGap c = false) (phase : Phase) (offset : Nat) (s : Text) :
    ∃ t ts, scanFrom phase offset (c :: s) = t :: ts ∧ t.span.start = offset := by
  rw [scanFrom, if_neg (by simp [hc])]
  exact ⟨_, _, rfl, rfl⟩

end Token

namespace Phrase

/-- Tokens up to a divider are one expression. -/
theorem group_append_divider {first d : Token} {more us : List Token} (hd : d.isDivider = true)
    (h : ∀ t ∈ first :: more, t.isDivider = false) :
    group (first :: (more ++ d :: us)) = expression first more :: token d :: group us := by
  induction more generalizing first with
  | nil => simp [group, hd, h first]
  | cons second more ih =>
    have hrest := ih fun t ht => h t (List.mem_cons_of_mem _ ht)
    rw [List.cons_append, group, hrest]
    simp [h first]

theorem ofTokens_false (ts : List Token) : ofTokens false ts = group ts := rfl

/-- The first phrase starts where the first token does. -/
theorem exists_group_cons (t : Token) (ts : List Token) :
    ∃ p ps, group (t :: ts) = p :: ps ∧ p.span.start = t.span.start := by
  rw [group]
  split
  · exact ⟨_, _, rfl, rfl⟩
  · split
    · exact ⟨_, _, rfl, rfl⟩
    · exact ⟨_, _, rfl, rfl⟩

end Phrase

/-- The arguments of an `IF`: the condition is evaluated, and the statement behind `THEN` is taken as it
is. -/
theorem Arguments.outcome_ofPhrases_ifThen (vars : Variables) (text : Text) (first : Token)
    (more : List Token) (span : Span) (p : Phrase) (ps : List Phrase) (g : Generator) :
    outcome (ofPhrases vars .ifThen text
      (.expression first more :: .token ⟨span, .word .thenDo⟩ :: p :: ps)) g =
      match outcome (evaluate vars (first :: more)) g with
      | (.ok x, g) =>
        (.ok [.number x, .mark, .rest (Text.trim (Text.dropBytes p.span.start text))], g)
      | (.error f, g) => (.error f, g) := by
  cases hvalue : outcome (evaluate vars (first :: more)) g with
  | mk result g' =>
    cases result with
    | error f => exact outcome_bind_error (outcome_bind_error (outcome_bind_error hvalue))
    | ok x =>
      have hslot : outcome (fillSlot vars text .number (.expression first more)) g =
          (.ok (.number x), g') := outcome_bind_ok hvalue
      have hfill : outcome (fill vars text (Command.form .ifThen)
          (.expression first more :: .token ⟨span, .word .thenDo⟩ :: p :: ps)) g =
          (.ok [.number x, .mark, .rest (Text.trim (Text.dropBytes p.span.start text))], g') :=
        outcome_bind_ok hslot
      exact outcome_bind_ok hfill

namespace Statement

/-! ### One condition -/

/-- The statement `rest` behind the condition `cond`. -/
def guard (cond rest : Text) : Text := "IF ".toList ++ (cond ++ (" THEN ".toList ++ rest))

/-- The tokens of a condition where it stands, behind `IF` and a space. What follows behind a space
does not change them. -/
def conditionTokens (cond : Text) : List Token := (Token.lex ("IF ".toList ++ cond)).tail

/-- The tokens of the condition are some, and all of them belong to one expression. -/
def IsCondition (cond : Text) : Prop :=
  conditionTokens cond ≠ [] ∧ ∀ t ∈ conditionTokens cond, t.isDivider = false

/-- The place of the `THEN` behind a condition. -/
def thenPlace (cond : Text) : Nat := 3 + Text.byteLength cond + 1

theorem scan_if (s : Text) :
    Token.scan ("IF ".toList ++ s) = ⟨⟨0, 2⟩, .name "IF"⟩ :: Token.scanFrom (.inside true) 3 s := by
  have hif : Token.scanFrom .start 0 "IF".toList = [⟨⟨0, 2⟩, .name "IF"⟩] := by decide +kernel
  have hsplit : "IF ".toList ++ s = "IF".toList ++ ' ' :: s := rfl
  rw [Token.scan, hsplit, Token.scanFrom_append_gap rfl, hif]
  rfl

theorem lex_if (s : Text) :
    Token.lex ("IF ".toList ++ s) = ⟨⟨0, 2⟩, .name "IF"⟩ :: Token.scanFrom (.inside true) 3 s := by
  rw [Token.lex, scan_if]

/-- The tokens of a statement behind a condition. -/
theorem lex_guard (cond rest : Text) :
    Token.lex (guard cond rest) = ⟨⟨0, 2⟩, .name "IF"⟩ :: (conditionTokens cond ++
      ⟨⟨thenPlace cond, thenPlace cond + 4⟩, .word .thenDo⟩ ::
        Token.scanFrom (.inside true) (thenPlace cond + 5) rest) := by
  have hthen : " THEN ".toList ++ rest = ' ' :: ("THEN".toList ++ ' ' :: rest) := rfl
  rw [guard, hthen, lex_if, conditionTokens, lex_if, List.tail_cons,
    Token.scanFrom_append_gap rfl, Token.scanFrom_append_gap rfl, Token.scanFrom_thenDo]
  simp only [Token.Phase.after, List.foldl_cons, List.foldl_nil, Token.next_word]
  rfl

theorem outcome_perform_ifThen_zero {nested : Text → Action Flow} {args : Arguments} {c : Context}
    (hif : (args.number 0 == 0.0) = true) : outcome (perform nested .ifThen args) c = (.ok .next, c) := by
  unfold perform
  dsimp only
  rw [if_pos hif]
  rfl

section Guard

variable {cond rest : Text} (hcond : IsCondition cond) (htrim : Text.trim rest = rest) (hne : rest ≠ [])
include hcond htrim hne

/-- The phrases of a statement behind a condition: the condition, the `THEN`, and then some of which
the first starts where the statement does. -/
theorem exists_phrases_guard :
    ∃ first more p ps, conditionTokens cond = first :: more ∧
      Phrase.group (conditionTokens cond ++
        ⟨⟨thenPlace cond, thenPlace cond + 4⟩, .word .thenDo⟩ ::
          Token.scanFrom (.inside true) (thenPlace cond + 5) rest) =
        .expression first more ::
          .token ⟨⟨thenPlace cond, thenPlace cond + 4⟩, .word .thenDo⟩ :: p :: ps ∧
      p.span.start = thenPlace cond + 5 := by
  obtain ⟨c, r, rfl⟩ := List.exists_cons_of_ne_nil hne
  have hblank : Text.isBlank c = false := (Text.trim_eq_self_iff.mp htrim).1 c rfl
  have hgap : Token.isGap c = false := by
    by_contra hgap
    rw [Token.isBlank_of_isGap (by simpa using hgap)] at hblank
    cases hblank
  obtain ⟨hsome, hall⟩ := hcond
  obtain ⟨first, more, htokens⟩ := List.exists_cons_of_ne_nil hsome
  obtain ⟨t, ts, hscan, hstart⟩ :=
    Token.exists_scanFrom_cons hgap (.inside true) (thenPlace cond + 5) r
  obtain ⟨p, ps, hgroup, hp⟩ := Phrase.exists_group_cons t ts
  refine ⟨first, more, p, ps, htokens, ?_, hp.trans hstart⟩
  rw [htokens] at hall ⊢
  rw [hscan, ← hgroup]
  exact Phrase.group_append_divider rfl hall

/-- The arguments of a statement behind a condition are the value of the condition and the
statement. -/
theorem outcome_bindArguments_guard (c : Context) :
    outcome (bindArguments (guard cond rest) .ifThen (Token.lex (guard cond rest)).tail) c =
      match outcome (evaluate c.vars (conditionTokens cond)) c.random with
      | (.ok x, random) => (.ok [.number x, .mark, .rest rest], { c with random })
      | (.error f, random) => (.error f, { c with random }) := by
  obtain ⟨first, more, p, ps, htokens, hphrases, hstart⟩ := exists_phrases_guard hcond htrim hne
  have hrest : Text.trim (Text.dropBytes p.span.start (guard cond rest)) = rest := by
    have hsplit : guard cond rest = ("IF ".toList ++ (cond ++ " THEN ".toList)) ++ rest := by
      simp [guard]
    have hlength : p.span.start = Text.byteLength ("IF ".toList ++ (cond ++ " THEN ".toList)) := by
      rw [hstart, Text.byteLength_append, Text.byteLength_append]
      show 3 + Text.byteLength cond + 1 + 5 = 3 + (Text.byteLength cond + 6)
      omega
    rw [hsplit, hlength, Text.dropBytes_append, htrim]
  have hassigns : Command.assigns .ifThen = false := rfl
  rw [bindArguments, Action.outcome_ofDraw, lex_guard, List.tail_cons, hassigns,
    Phrase.ofTokens_false, hphrases, htokens, Arguments.outcome_ofPhrases_ifThen, hrest]
  cases outcome (evaluate c.vars (first :: more)) c.random with
  | mk result random => cases result <;> rfl

/-- A statement behind a condition is executed after the condition, unless that fails or is zero. -/
theorem outcome_execute_guard (c : Context) :
    outcome (execute (guard cond rest)) c =
      match outcome (evaluate c.vars (conditionTokens cond)) c.random with
      | (.error f, random) => (.error f, { c with random })
      | (.ok x, random) =>
        if x == 0.0 then (.ok .next, { c with random })
        else
          ((outcome (execute rest) { c with random }).1.mapError (·.inStatement rest),
            (outcome (execute rest) { c with random }).2) := by
  have hlex : Token.lex (guard cond rest) =
      ⟨⟨0, 2⟩, .name Command.ifThen.name⟩ :: (Token.lex (guard cond rest)).tail := by
    rw [lex_guard]
    rfl
  have hbind := outcome_bindArguments_guard hcond htrim hne c
  cases hvalue : outcome (evaluate c.vars (conditionTokens cond)) c.random with
  | mk result random =>
    rw [hvalue] at hbind
    cases result with
    | error f => rw [execute, executeWithin_command hlex, outcome_bind_error hbind]
    | ok x =>
      have hnumber : Arguments.number [.number x, .mark, .rest rest] 0 = x := rfl
      have hrest : Arguments.rest [.number x, .mark, .rest rest] 2 = rest := rfl
      rw [outcome_execute_of_binds ⟨_, _, hlex, hbind⟩]
      dsimp only
      split
      · next hx => exact outcome_perform_ifThen_zero (by rwa [hnumber])
      · next hx => rw [outcome_perform_ifThen (by rwa [hnumber, ← Bool.not_eq_true]), hrest]

end Guard

/-! ### Any number of conditions -/

/-- The statement `s` behind some conditions, the first of them outermost. -/
def guarded (conds : List Text) (s : Text) : Text := conds.foldr guard s

/-- Evaluates conditions in order up to the first that fails or is zero, and says whether none is. -/
def allHold (vars : Variables) : List Text → Draw Bool
  | [] => return true
  | cond :: conds => do
    let x ← evaluate vars (conditionTokens cond)
    if x == 0.0 then return false else allHold vars conds

theorem trim_guarded {s : Text} (htrim : Text.trim s = s) (hne : s ≠ []) (conds : List Text) :
    Text.trim (guarded conds s) = guarded conds s ∧ guarded conds s ≠ [] := by
  induction conds with
  | nil => exact ⟨htrim, hne⟩
  | cons cond conds ih =>
    obtain ⟨htrim, hne⟩ := ih
    refine ⟨Text.trim_eq_self_iff.mpr ⟨?_, ?_⟩, nofun⟩
    · rintro c ⟨⟩
      decide
    · have hlast : (guarded (cond :: conds) s).getLast? = (guarded conds s).getLast? := by
        show (guard cond (guarded conds s)).getLast? = _
        rw [guard, List.getLast?_append_of_ne_nil _ (by simp), List.getLast?_append_of_ne_nil _ (by simp),
          List.getLast?_append_of_ne_nil _ hne]
      rw [hlast]
      exact (Text.trim_eq_self_iff.mp htrim).2

theorem outcome_allHold_cons (vars : Variables) (cond : Text) (conds : List Text) (g : Generator) :
    outcome (allHold vars (cond :: conds)) g =
      match outcome (evaluate vars (conditionTokens cond)) g with
      | (.error f, g) => (.error f, g)
      | (.ok x, g) => if x == 0.0 then (.ok false, g) else outcome (allHold vars conds) g := by
  rw [allHold, outcome_bind]
  cases outcome (evaluate vars (conditionTokens cond)) g with
  | mk result g' =>
    cases result with
    | error f => rfl
    | ok x =>
      dsimp only
      split <;> rfl

/-- A statement behind conditions evaluates them in order. If one of them fails then the whole
statement does, and if one is zero then nothing else happens; only random numbers have been drawn.
Otherwise the statement is executed as if it stood alone. -/
theorem outcome_execute_guarded {conds : List Text} {s : Text} (hconds : ∀ cond ∈ conds, IsCondition cond)
    (hsome : conds ≠ []) (htrim : Text.trim s = s) (hne : s ≠ []) (c : Context) :
    match outcome (allHold c.vars conds) c.random with
    | (.error f, random) =>
      ∃ statement, outcome (execute (guarded conds s)) c = (.error { f with statement }, { c with random })
    | (.ok false, random) => outcome (execute (guarded conds s)) c = (.ok .next, { c with random })
    | (.ok true, random) =>
      outcome (execute (guarded conds s)) c =
        ((outcome (execute s) { c with random }).1.mapError (·.inStatement s),
          (outcome (execute s) { c with random }).2) := by
  induction conds generalizing c with
  | nil => exact absurd rfl hsome
  | cons cond conds ih =>
    obtain ⟨htrim', hne'⟩ := trim_guarded htrim hne conds
    have hstep := outcome_execute_guard (hconds cond List.mem_cons_self) htrim' hne' c
    rw [outcome_allHold_cons]
    cases hvalue : outcome (evaluate c.vars (conditionTokens cond)) c.random with
    | mk result random =>
      rw [hvalue] at hstep
      cases result with
      | error f => exact ⟨f.statement, hstep⟩
      | ok x =>
        dsimp only at hstep ⊢
        split at hstep
        · next hx => rwa [if_pos hx]
        · next hx =>
          rw [if_neg hx]
          cases conds with
          | nil => exact hstep
          | cons cond' conds =>
            have hrest := ih (fun cond hcond => hconds cond (List.mem_cons_of_mem _ hcond)) nofun
              { c with random }
            -- what the conditions behind this one come to decides what is attached here
            cases hall : outcome (allHold c.vars (cond' :: conds)) random with
            | mk result g =>
              rw [hall] at hrest
              rcases result with f | _ | _
              · obtain ⟨statement, hrest⟩ := hrest
                obtain ⟨statement', hattached⟩ :=
                  Fault.exists_inStatement { f with statement } (guarded (cond' :: conds) s)
                rw [hrest, Except.mapError, hattached] at hstep
                exact ⟨statement', hstep⟩
              · rw [hrest] at hstep
                exact hstep
              · rw [hrest, Fault.mapError_inStatement] at hstep
                exact hstep

/-- A `NEXT` without its `FOR`, behind two conditions that hold. -/
theorem outcome_execute_guarded_next :
    let conds := ["1".toList, "RND<A+2".toList]
    let c := Context.start [] .clear (.ofSeed 1)
    (∀ cond ∈ conds, IsCondition cond) ∧ Text.trim "NEXT I".toList = "NEXT I".toList ∧
      outcome (execute "IF 1 THEN IF RND<A+2 THEN NEXT I".toList) c =
        (.error { kind := .nextWithoutFor, statement := some "NEXT I".toList },
          { c with random := c.random.skip 1 }) := by
  intro conds c
  have hconds : ∀ cond ∈ conds, IsCondition cond := by
    unfold IsCondition
    decide +kernel
  have hall : outcome (allHold c.vars conds) c.random = (.ok true, c.random.skip 1) := by
    decide +kernel
  have hbinds : Binds "NEXT I".toList { c with random := c.random.skip 1 } .next [.name "I"]
      { c with random := c.random.skip 1 } :=
    ⟨⟨0, 4⟩, [⟨⟨5, 6⟩, .name "I"⟩], by decide +kernel, rfl⟩
  have hmain := outcome_execute_guarded hconds nofun (show Text.trim "NEXT I".toList = _ by decide) nofun c
  rw [hall] at hmain
  refine ⟨hconds, by decide, hmain.trans ?_⟩
  rw [outcome_execute_of_binds hbinds]
  rfl

end Statement

end SpectrumBasic
