import Mathlib.Data.List.Chain
import Mathlib.Logic.Function.Iterate
import SpectrumBasic.Proofs.Statement.Guard
import SpectrumBasic.Proofs.Statement.Matching
import SpectrumBasic.Proofs.Token.Words

/-! How deep statements are executed inside one another. An `IF` whose condition holds hands the text
from the first token behind its `THEN` on to be executed. That is a part of its own text with one `THEN`
less, so there are at most as many statements inside a statement as it has `THEN`s. -/

namespace SpectrumBasic

open Attempt (outcome outcome_bind_ok)
open Program (IsCut)
open Token (lex wordCount)

/-- The first token of a text stands behind the gaps in front. -/
theorem Token.exists_gap_of_scanFrom_cons {phase : Phase} {offset : Nat} {s : Text} {t : Token}
    {ts : List Token} (h : scanFrom phase offset s = t :: ts) :
    ∃ gap back, s = gap ++ back ∧ offset + Text.byteLength gap = t.span.start ∧
      scanFrom phase t.span.start back = t :: ts := by
  fun_induction scanFrom phase offset s with
  | case1 => cases h
  | case2 phase offset c s hgap ih =>
    obtain ⟨gap, back, rfl, hstart, hscan⟩ := ih h
    exact ⟨c :: gap, back, rfl, by rw [← hstart, Text.byteLength_cons, Nat.add_assoc], hscan⟩
  | case3 phase offset c s hgap lexeme kind hlexeme stop ih =>
    obtain ⟨rfl, -⟩ := List.cons.inj h
    refine ⟨[], c :: s, rfl, rfl, ?_⟩
    rw [scanFrom, if_neg hgap, hlexeme]
    exact h

namespace Phrase

/-- A phrase begins with a token. -/
theorem exists_tokens_cons (p : Phrase) : ∃ t ts, p.tokens = t :: ts ∧ p.span.start = t.span.start := by
  cases p with
  | token t => exact ⟨t, [], rfl, rfl⟩
  | expression first more => exact ⟨first, more, rfl, rfl⟩

/-- A phrase of a statement starts between two characters of it. -/
theorem isCut_of_mem_ofTokens {text : Text} {command : Token} {tokens : List Token}
    (hlex : lex text = command :: tokens) {assigns : Bool} {p : Phrase}
    (hp : p ∈ ofTokens assigns tokens) : IsCut text p.span.start := by
  obtain ⟨t, ht, hstart⟩ := exists_start_of_mem_ofTokens hp
  rw [hstart]
  exact (Token.placed_lex text).start t (by rw [hlex]; exact List.mem_cons_of_mem command ht)

end Phrase

namespace Statement

/-! ### The text behind `THEN` -/

/-- The text `rest` is that of the statement `text` from the first token behind its first `THEN` on,
trimmed: a shorter part of it, with one `THEN` less. -/
structure BehindThen (text rest : Text) : Prop where
  place : ∃ before thenDo next after front back,
    lex text = before ++ thenDo :: next :: after ∧ thenDo.kind = .word .thenDo ∧
      (∀ t ∈ before, t.kind ≠ .word .thenDo) ∧
      text = front ++ back ∧ Text.byteLength front = next.span.start ∧ rest = Text.trim back
  part : rest <:+: text
  shorter : rest.length < text.length
  fewer : wordCount .thenDo (lex text) = wordCount .thenDo (lex rest) + 1

section Binds

variable {text : Text} {c c' : Context} {args : Arguments}

/-- The phrases of an `IF` whose arguments can be bound: the condition, the `THEN`, and then some of
which the first begins the rest. -/
theorem Binds.exists_phrases (h : Binds text c .ifThen args c') :
    ∃ command tokens first more span p ps, lex text = command :: tokens ∧
      command.kind = .name Command.ifThen.name ∧
      Phrase.group tokens = .expression first more :: .token ⟨span, .word .thenDo⟩ :: p :: ps ∧
      args.rest 2 = Text.trim (Text.dropBytes p.span.start text) := by
  obtain ⟨span, tokens, hlex, hbind⟩ := h
  have htail : (lex text).tail = tokens := by rw [hlex, List.tail_cons]
  rw [← htail] at hbind
  obtain ⟨g, hmatch, harity, -⟩ := outcome_bindArguments_iff.mp hbind
  replace harity : args.length ∈ [3] := harity
  unfold Matches at hmatch
  rw [htail] at hmatch
  generalize hphrases : Phrase.ofTokens (Command.assigns .ifThen) tokens = phrases at hmatch
  -- there are three arguments, so the phrases do not end before the last slot
  cases hmatch with
  | done => simp at harity
  | next _ hnumber hmore =>
    cases hnumber
    cases hmore with
    | done => simp at harity
    | next _ hmark hmore =>
      cases hmark with
      | mark _ hmark =>
        obtain ⟨thenSpan, rfl⟩ := hmark
        cases hmore with
        | done => simp at harity
        | next hslot => exact absurd rfl hslot
        | rest hrest =>
          cases hrest
          exact ⟨⟨span, _⟩, tokens, _, _, thenSpan, _, _, hlex, rfl, hphrases, rfl⟩

/-- The tokens of an `IF` whose arguments can be bound. Its rest begins with the first token behind the
first `THEN`. -/
theorem Binds.exists_tokens (h : Binds text c .ifThen args c') :
    ∃ before thenDo next after, lex text = before ++ thenDo :: next :: after ∧
      thenDo.kind = .word .thenDo ∧ (∀ t ∈ before, t.kind ≠ .word .thenDo) ∧
      args.rest 2 = Text.trim (Text.dropBytes next.span.start text) := by
  obtain ⟨command, tokens, first, more, span, p, ps, hlex, hname, hgroup, hrest⟩ := h.exists_phrases
  obtain ⟨next, after, hp, hstart⟩ := p.exists_tokens_cons
  have htokens := Phrase.flatMap_tokens_group tokens
  rw [hgroup] at htokens
  refine ⟨command :: first :: more, ⟨span, .word .thenDo⟩, next, after ++ ps.flatMap Phrase.tokens,
    ?_, rfl, ?_, by rw [hrest, hstart]⟩
  · rw [List.flatMap_cons, List.flatMap_cons, List.flatMap_cons, hp] at htokens
    rw [hlex, ← htokens]
    rfl
  · have hcondition := Phrase.isDivider_of_mem_group (hgroup ▸ List.mem_cons_self)
    refine List.forall_mem_cons.mpr ⟨by simp [hname], fun t ht hthen => ?_⟩
    have hdivider := hcondition t ht
    simp [Token.isDivider, hthen] at hdivider

/-- An `IF` executes what stands behind its `THEN`. -/
theorem Binds.behindThen (h : Binds text c .ifThen args c') : BehindThen text (args.rest 2) := by
  obtain ⟨before, thenDo, next, after, hlex, hthen, hbefore, hrest⟩ := h.exists_tokens
  obtain ⟨phase, front, back, -, htext, hstop, hafter⟩ := Token.lex_behind hlex
  obtain ⟨gap, back, rfl, hstart, hscan⟩ := Token.exists_gap_of_scanFrom_cons hafter.symm
  have hsplit : text = (front ++ gap) ++ back := by rw [htext, List.append_assoc]
  have hplace : Text.byteLength (front ++ gap) = next.span.start := by
    rw [Text.byteLength_append, hstop, hstart]
  have hback : args.rest 2 = Text.trim back := by
    rw [hrest, ← hplace, hsplit, Text.dropBytes_append]
  refine ⟨⟨before, thenDo, next, after, front ++ gap, back, hlex, hthen, hbefore, hsplit, hplace, hback⟩,
    (h.rest_trimmed 2).1, h.length_rest_lt 2, ?_⟩
  have hsome : wordCount .thenDo (next :: after) = wordCount .thenDo (lex (args.rest 2)) := by
    rw [hback, Token.wordCount_lex, Token.wordCount_trim, ← hscan]
    exact Token.wordCount_scanFrom _ _ _ _ _ _
  rw [← hsome, hlex, Token.wordCount_append, Token.wordCount_eq_zero _ hbefore,
    Token.wordCount_cons_self _ hthen, Nat.zero_add]

end Binds

/-! ### The statement inside a statement -/

/-- The statement that an `IF` hands on to be executed, with the context it is executed in. There is
none unless the arguments of the `IF` can be bound and its condition is not zero. -/
def nested? (text : Text) (c : Context) : Option (Text × Context) :=
  match lex text with
  | ⟨_, .name word⟩ :: tokens =>
    if word = Command.ifThen.name then
      match outcome (bindArguments text .ifThen tokens) c with
      | (.ok args, c') => if args.number 0 == 0.0 then none else some (args.rest 2, c')
      | (.error _, _) => none
    else none
  | _ => none

theorem nested?_eq_some_iff {text rest : Text} {c c' : Context} :
    nested? text c = some (rest, c') ↔
      ∃ args, Binds text c .ifThen args c' ∧ (args.number 0 == 0.0) = false ∧ args.rest 2 = rest := by
  constructor
  · intro h
    unfold nested? at h
    split at h
    · next span word tokens hlex =>
      split at h
      · next hword =>
        subst hword
        split at h
        · next args c₁ hbind =>
          split at h
          · cases h
          · next hif =>
            cases h
            exact ⟨args, ⟨span, tokens, hlex, hbind⟩, by simpa using hif, rfl⟩
        · cases h
      · cases h
    · cases h
  · rintro ⟨args, ⟨span, tokens, hlex, hbind⟩, hif, rfl⟩
    rw [nested?, hlex]
    dsimp only
    rw [if_pos rfl, hbind]
    dsimp only
    rw [if_neg (by simp [hif])]

theorem behindThen_of_nested? {text rest : Text} {c c' : Context}
    (h : nested? text c = some (rest, c')) : BehindThen text rest := by
  obtain ⟨args, hbinds, -, rfl⟩ := nested?_eq_some_iff.mp h
  exact hbinds.behindThen

/-- What is executed inside a statement is handed on by it, and nothing else is. -/
theorem outcome_executeWith (nested : Text → Action Flow) (text : Text) (c : Context) :
    outcome (executeWith nested text) c =
      match nested? text c with
      | some (rest, c') => outcome (Action.inStatement rest (nested rest)) c'
      | none => outcome (executeWith (fun _ => return .next) text) c := by
  cases h : nested? text c with
  | some inner =>
    obtain ⟨args, hbinds, hif, hrest⟩ := nested?_eq_some_iff.mp h
    dsimp only
    rw [outcome_executeWith_of_binds hbinds, outcome_perform_ifThen hif, Action.outcome_inStatement,
      hrest]
  | none =>
    obtain ⟨result, n, -, hidle⟩ | ⟨command, args, c', hbinds⟩ := idles_or_binds text c
    · dsimp only
      rw [hidle, hidle]
    · dsimp only
      rw [outcome_executeWith_of_binds hbinds, outcome_executeWith_of_binds hbinds]
      cases command with
      | ifThen =>
        have hif : (args.number 0 == 0.0) = true := by
          by_contra hif
          rw [nested?_eq_some_iff.mpr ⟨args, hbinds, by simpa using hif, rfl⟩] at h
          cases h
        rw [outcome_perform_ifThen_zero hif, outcome_perform_ifThen_zero hif]
      | _ => rfl

/-! ### The depth -/

/-- The statements that are executed inside one another, the outermost first. -/
def calls (text : Text) (c : Context) : List Text :=
  match _h : nested? text c with
  | none => [text]
  | some (rest, c') => text :: calls rest c'
termination_by text.length
decreasing_by exact (behindThen_of_nested? _h).shorter

theorem head?_calls (text : Text) (c : Context) : (calls text c).head? = some text := by
  rw [calls]
  split <;> rfl

/-- Each statement stands behind the `THEN` of the one around it. -/
theorem isChain_calls (text : Text) (c : Context) : (calls text c).IsChain BehindThen := by
  fun_induction calls text c with
  | case1 text c h => exact List.isChain_singleton _
  | case2 text c rest c' h ih =>
    refine List.isChain_cons.mpr ⟨fun inner hinner => ?_, ih⟩
    rw [head?_calls] at hinner
    cases hinner
    exact behindThen_of_nested? h

theorem length_calls_le (text : Text) (c : Context) :
    (calls text c).length ≤ wordCount .thenDo (lex text) + 1 := by
  fun_induction calls text c with
  | case1 text c h => simp
  | case2 text c rest c' h ih =>
    rw [List.length_cons, (behindThen_of_nested? h).fewer]
    omega

/-- As many levels as there are statements inside one another decide what happens, whatever stands for
the levels below them. -/
theorem outcome_iterate_executeWith (bottom : Text → Action Flow) (text : Text) (c : Context)
    (depth : Nat) (h : (calls text c).length ≤ depth) :
    outcome (executeWith^[depth] bottom text) c = outcome (execute text) c := by
  fun_induction calls text c generalizing depth with
  | case1 text c hnone =>
    obtain ⟨k, rfl⟩ : ∃ k, depth = k + 1 := ⟨depth - 1, by simp at h; omega⟩
    rw [Function.iterate_succ_apply', outcome_execute, outcome_executeWith _ text,
      outcome_executeWith execute, hnone]
  | case2 text c rest c' hsome ih =>
    rw [List.length_cons] at h
    obtain ⟨k, rfl⟩ : ∃ k, depth = k + 1 := ⟨depth - 1, by omega⟩
    rw [Function.iterate_succ_apply', outcome_execute, outcome_executeWith _ text,
      outcome_executeWith execute, hsome]
    dsimp only
    rw [Action.outcome_inStatement, Action.outcome_inStatement, ih k (by omega)]

/-- Executing statements is the only thing that executes a statement in this way, with itself for the
statement inside. -/
theorem eq_execute_iff (run : Text → Action Flow) :
    (∀ text c, outcome (run text) c = outcome (executeWith run text) c) ↔
      ∀ text c, outcome (run text) c = outcome (execute text) c := by
  constructor
  · intro hrun text
    obtain ⟨n, hn⟩ : ∃ n, text.length = n := ⟨_, rfl⟩
    induction n using Nat.strongRecOn generalizing text with
    | ind n ih =>
      intro c
      rw [hrun, outcome_execute]
      exact outcome_executeWith_congr (fun rest hrest => ih _ (hn ▸ hrest) rest rfl) c
  · intro hrun text c
    rw [hrun, outcome_execute]
    exact outcome_executeWith_congr (fun rest _ c => (hrun rest c).symm) c

/-- To execute a statement is one step, with at most one other statement executed inside it: that of an
`IF` whose condition is not zero, which is the trimmed text from the first token behind its `THEN` on.
All phrases start between two characters, so that no text is cut off inside one. What is handed on is a
shorter part of the statement, so the steps come to an end, and they determine what executing a
statement does. The statements that are executed inside one another are at most one more than the
`THEN`s in the outermost one; nothing depends on what would happen on a deeper level. -/
theorem execute_descends (text : Text) (c : Context) :
    (∀ depth, executeWithin (depth + 1) text = executeWith (executeWithin depth) text) ∧
    (∀ nested, outcome (executeWith nested text) c =
      match nested? text c with
      | some (rest, c') => outcome (Action.inStatement rest (nested rest)) c'
      | none => outcome (executeWith (fun _ => return .next) text) c) ∧
    (∀ rest c', nested? text c = some (rest, c') → BehindThen text rest) ∧
    (∀ command tokens, lex text = command :: tokens → ∀ assigns, ∀ p ∈ Phrase.ofTokens assigns tokens,
      IsCut text p.span.start) ∧
    (∀ run : Text → Action Flow, (∀ text c, outcome (run text) c = outcome (executeWith run text) c) ↔
      ∀ text c, outcome (run text) c = outcome (execute text) c) ∧
    (calls text c).head? = some text ∧ (calls text c).IsChain BehindThen ∧
    (calls text c).length ≤ wordCount .thenDo (lex text) + 1 ∧
    ∀ bottom depth, wordCount .thenDo (lex text) + 1 ≤ depth →
      outcome (executeWith^[depth] bottom text) c = outcome (execute text) c := by
  refine ⟨fun depth => executeWithin_succ depth text, fun nested => outcome_executeWith nested text c,
    fun rest c' => behindThen_of_nested?, fun command tokens hlex assigns p => ?_, eq_execute_iff,
    head?_calls text c, isChain_calls text c, length_calls_le text c, fun bottom depth hdepth => ?_⟩
  · exact Phrase.isCut_of_mem_ofTokens hlex
  · exact outcome_iterate_executeWith bottom text c depth ((length_calls_le text c).trans hdepth)

end Statement

end SpectrumBasic
