import Mathlib.Data.List.TakeWhile
import SpectrumBasic.Proofs.Expression.Grammar
import SpectrumBasic.Proofs.Statement.Execution
import SpectrumBasic.Proofs.Token.Lexer

/-! Binding the arguments of a statement. It only moves the generator on, by one draw for each `RND`
that it meets, and what it takes from behind a `THEN` is shorter than the statement. -/

namespace SpectrumBasic

open Attempt (outcome outcome_bind_ok outcome_bind_error exists_of_outcome_bind_ok)
open Expression (Draw Tree)

theorem Generator.skip_add (g : Generator) (a b : Nat) : g.skip (a + b) = (g.skip a).skip b := by
  induction b with
  | zero => rfl
  | succ b ih => rw [← Nat.add_assoc, skip, ih, skip]

/-- The computation moves the generator on by some draws, whether it fails or not. -/
def Advances {α : Type} (x : Draw α) : Prop := ∀ g, ∃ n, (outcome x g).2 = g.skip n

namespace Advances

variable {α β : Type}

theorem pure (a : α) : Advances (pure a) := fun _ => ⟨0, rfl⟩

theorem throw (f : Fault) : Advances (throw f : Draw α) := fun _ => ⟨0, rfl⟩

theorem liftExcept (r : Except Fault α) : Advances (liftExcept r : Draw α) := by
  intro g
  rw [Attempt.outcome_liftExcept]
  exact ⟨0, rfl⟩

theorem bind {x : Draw α} {k : α → Draw β} (hx : Advances x) (hk : ∀ a, Advances (k a)) :
    Advances (x >>= k) := by
  intro g
  obtain ⟨n, hn⟩ := hx g
  cases ho : outcome x g with
  | mk result g' =>
    rw [ho] at hn
    subst hn
    cases result with
    | error f =>
      rw [outcome_bind_error ho]
      exact ⟨n, rfl⟩
    | ok a =>
      rw [outcome_bind_ok ho]
      obtain ⟨n', hn'⟩ := hk a (g.skip n)
      exact ⟨n + n', by rw [hn', Generator.skip_add]⟩

theorem drawUnit : Advances Expression.drawUnit := fun _ => ⟨1, rfl⟩

theorem throw_bind (f : Fault) (k : α → Draw β) : Advances (MonadExcept.throw f >>= k) :=
  fun _ => ⟨0, rfl⟩

theorem ite {p : Prop} [Decidable p] {x y : Draw α} (hx : Advances x) (hy : Advances y) :
    Advances (if p then x else y) := by
  split
  · exact hx
  · exact hy

/-- Each check of a node either passes or fails; its operands are evaluated from left to right. -/
theorem value (vars : Variables) (missing : Fault) (t : Tree) : Advances (t.value vars missing) := by
  induction t generalizing missing with
  | empty => exact throw missing
  | node left token isOpen right ihl ihr =>
    unfold Tree.value
    dsimp only
    split
    · refine ite (ite (ihr _) (throw_bind _ _)) (ite (ite ?_ (throw_bind _ _)) ?_)
      · exact bind (ihr _) fun x => liftExcept _
      · exact bind (ihl _) fun x => bind (ihr _) fun y => liftExcept _
    · refine ite ?_ (throw_bind _ _)
      split
      · exact pure _
      · exact throw _
    · exact ite (ite drawUnit (pure _)) (throw_bind _ _)
    · exact throw _

theorem evaluate (vars : Variables) (ts : List Token) : Advances (Expression.evaluate vars ts) :=
  bind (liftExcept _) fun t => value vars _ t

theorem fillSlot (vars : Variables) (text : Text) (slot : Slot) (p : Phrase) :
    Advances (Arguments.fillSlot vars text slot p) := by
  unfold Arguments.fillSlot
  cases slot with
  | number =>
    cases p with
    | token t => exact throw _
    | expression first more => exact bind (evaluate vars _) fun x => pure _
  | name =>
    dsimp only
    split
    · exact pure _
    · exact throw _
  | mark kind =>
    cases p with
    | token t => exact ite (pure _) (throw _)
    | expression first more => exact throw _
  | rest => exact pure _

theorem fill (vars : Variables) (text : Text) (slots : List Slot) (ps : List Phrase) :
    Advances (Arguments.fill vars text slots ps) := by
  induction slots generalizing ps with
  | nil =>
    cases ps with
    | nil => exact pure _
    | cons p ps => exact throw _
  | cons slot slots ih =>
    cases ps with
    | nil => exact pure _
    | cons p ps =>
      refine bind (fillSlot vars text slot p) fun argument => ite (pure _) ?_
      exact bind (ih ps) fun arguments => pure _

theorem ofPhrases (vars : Variables) (c : Command) (text : Text) (ps : List Phrase) :
    Advances (Arguments.ofPhrases vars c text ps) :=
  bind (fill vars text c.form ps) fun _ => ite (pure _) (throw _)

end Advances

/-! ### Where phrases and the rest of a statement start -/

namespace Phrase

theorem exists_start_of_mem_group {ts : List Token} {p : Phrase} (h : p ∈ group ts) :
    ∃ t ∈ ts, p.span.start = t.span.start := by
  fun_induction group ts with
  | case1 => cases h
  | case2 t ts hdivider ih =>
    obtain rfl | h := List.mem_cons.mp h
    · exact ⟨t, List.mem_cons_self, rfl⟩
    · obtain ⟨t', ht', hstart⟩ := ih h
      exact ⟨t', List.mem_cons_of_mem t ht', hstart⟩
  | case3 t ts hdivider first more ps hgroup ih =>
    obtain rfl | h := List.mem_cons.mp h
    · exact ⟨t, List.mem_cons_self, rfl⟩
    · rw [hgroup] at ih
      obtain ⟨t', ht', hstart⟩ := ih (List.mem_cons_of_mem _ h)
      exact ⟨t', List.mem_cons_of_mem t ht', hstart⟩
  | case4 t ts hdivider hgroup ih =>
    obtain rfl | h := List.mem_cons.mp h
    · exact ⟨t, List.mem_cons_self, rfl⟩
    · obtain ⟨t', ht', hstart⟩ := ih h
      exact ⟨t', List.mem_cons_of_mem t ht', hstart⟩

/-- A phrase starts where one of its tokens does. -/
theorem exists_start_of_mem_ofTokens {assigns : Bool} {ts : List Token} {p : Phrase}
    (h : p ∈ ofTokens assigns ts) : ∃ t ∈ ts, p.span.start = t.span.start := by
  have hgroup (front : List Token) {ts : List Token} (h : p ∈ group ts) :
      ∃ t ∈ front ++ ts, p.span.start = t.span.start := by
    obtain ⟨t, ht, hstart⟩ := exists_start_of_mem_group h
    exact ⟨t, List.mem_append_right front ht, hstart⟩
  unfold ofTokens at h
  split at h
  · rename_i s target s' rest
    simp only [List.mem_cons] at h
    obtain rfl | rfl | h := h
    · exact ⟨_, List.mem_cons_self, rfl⟩
    · exact ⟨_, List.mem_cons_of_mem _ List.mem_cons_self, rfl⟩
    · exact hgroup [⟨s, .name target⟩, ⟨s', .operator .equal⟩] h
  · rename_i s target rest _
    obtain rfl | h := List.mem_cons.mp h
    · exact ⟨_, List.mem_cons_self, rfl⟩
    · exact hgroup [⟨s, .name target⟩] h
  · exact exists_start_of_mem_group h

end Phrase

namespace Text

theorem length_trim_le (t : Text) : (trim t).length ≤ t.length := by
  have hstart := List.length_dropWhile_le isBlank t
  have hend := List.length_dropWhile_le isBlank (trimStart t).reverse
  rw [List.length_reverse] at hend
  unfold trim trimEnd
  rw [List.length_reverse]
  exact Nat.le_trans hend hstart

end Text

namespace Arguments

theorem eq_of_fillSlot_rest {vars : Variables} {text r : Text} {slot : Slot} {p : Phrase}
    {g g' : Generator} (h : outcome (fillSlot vars text slot p) g = (.ok (.rest r), g')) :
    r = Text.trim (Text.dropBytes p.span.start text) := by
  unfold fillSlot at h
  cases slot with
  | number =>
    cases p with
    | token t => cases h
    | expression first more =>
      obtain ⟨x, g₁, _, h⟩ := exists_of_outcome_bind_ok h
      cases h
  | name =>
    dsimp only at h
    split at h <;> cases h
  | mark kind =>
    cases p with
    | token t =>
      dsimp only at h
      split at h <;> cases h
    | expression first more => cases h
  | rest =>
    cases h
    rfl

/-- The rest of a statement that a command takes starts with one of its phrases. -/
theorem exists_of_rest_mem_fill {vars : Variables} {text r : Text} {slots : List Slot}
    {ps : List Phrase} {g g' : Generator} {args : Arguments}
    (h : outcome (fill vars text slots ps) g = (.ok args, g')) (hr : .rest r ∈ args) :
    ∃ p ∈ ps, r = Text.trim (Text.dropBytes p.span.start text) := by
  induction slots generalizing ps g g' args with
  | nil =>
    cases ps with
    | nil =>
      cases h
      cases hr
    | cons p ps => cases h
  | cons slot slots ih =>
    cases ps with
    | nil =>
      cases h
      cases hr
    | cons p ps =>
      obtain ⟨argument, g₁, hslot, h⟩ := exists_of_outcome_bind_ok h
      have hhere (hargument : Argument.rest r = argument) :
          ∃ q ∈ p :: ps, r = Text.trim (Text.dropBytes q.span.start text) := by
        subst hargument
        exact ⟨p, List.mem_cons_self, eq_of_fillSlot_rest hslot⟩
      split at h
      · cases h
        exact hhere (List.mem_singleton.mp hr)
      · obtain ⟨arguments, g₂, hfill, h⟩ := exists_of_outcome_bind_ok h
        cases h
        obtain hr | hr := List.mem_cons.mp hr
        · exact hhere hr
        · obtain ⟨q, hq, hrest⟩ := ih hfill hr
          exact ⟨q, List.mem_cons_of_mem p hq, hrest⟩

theorem outcome_fill_of_ofPhrases {vars : Variables} {c : Command} {text : Text} {ps : List Phrase}
    {g g' : Generator} {args : Arguments}
    (h : outcome (ofPhrases vars c text ps) g = (.ok args, g')) :
    outcome (fill vars text c.form ps) g = (.ok args, g') := by
  obtain ⟨filled, g₁, hfill, h⟩ := exists_of_outcome_bind_ok h
  split at h
  · cases h
    exact hfill
  · cases h

theorem rest_eq_nil_or_mem (args : Arguments) (i : Nat) :
    args.rest i = [] ∨ .rest (args.rest i) ∈ args := by
  unfold rest
  split
  · rename_i r hr
    exact .inr (List.mem_of_getElem? hr)
  · exact .inl rfl

end Arguments

/-! ### Commands with their arguments -/

namespace Statement

/-- Evaluates the arguments that the tokens of a statement give to its command. -/
def bindArguments (text : Text) (command : Command) (tokens : List Token) : Action Arguments :=
  Action.ofDraw fun vars =>
    Arguments.ofPhrases vars command text (Phrase.ofTokens command.assigns tokens)

/-- The statement `text` begins with the name of the command, whose arguments come out as `args`. The
context is `c` before that and `c'` after it. -/
def Binds (text : Text) (c : Context) (command : Command) (args : Arguments) (c' : Context) : Prop :=
  ∃ span tokens, Token.lex text = ⟨span, .name command.name⟩ :: tokens ∧
    outcome (bindArguments text command tokens) c = (.ok args, c')

theorem bindArguments_draws (text : Text) (command : Command) (tokens : List Token) (c : Context) :
    ∃ n, (outcome (bindArguments text command tokens) c).2 = { c with random := c.random.skip n } := by
  unfold bindArguments
  rw [Action.outcome_ofDraw]
  obtain ⟨n, hn⟩ := Advances.ofPhrases c.vars command text
    (Phrase.ofTokens command.assigns tokens) c.random
  exact ⟨n, by rw [hn]⟩

section Binds

variable {text : Text} {c c' : Context} {command : Command} {args : Arguments}

theorem Binds.draws (h : Binds text c command args c') :
    ∃ n, c' = { c with random := c.random.skip n } := by
  obtain ⟨span, tokens, _, hbind⟩ := h
  obtain ⟨n, hn⟩ := bindArguments_draws text command tokens c
  rw [hbind] at hn
  exact ⟨n, hn⟩

/-- The rest of a statement is cut off behind its command and trimmed. -/
theorem Binds.rest_cases (h : Binds text c command args c') (i : Nat) :
    args.rest i = [] ∨
      ∃ start, 0 < start ∧ args.rest i = Text.trim (Text.dropBytes start text) := by
  obtain ⟨span, tokens, hlex, hbind⟩ := h
  obtain hnil | hmem := args.rest_eq_nil_or_mem i
  · exact .inl hnil
  · rw [bindArguments, Action.outcome_ofDraw] at hbind
    have hargs : (outcome (Arguments.ofPhrases c.vars command text
        (Phrase.ofTokens command.assigns tokens)) c.random).1 = .ok args := congrArg Prod.fst hbind
    have hfill := Arguments.outcome_fill_of_ofPhrases (Prod.ext hargs rfl)
    obtain ⟨p, hp, hrest⟩ := Arguments.exists_of_rest_mem_fill hfill hmem
    obtain ⟨t, ht, hstart⟩ := Phrase.exists_start_of_mem_ofTokens hp
    have hpos : 0 < p.span.start := by
      rw [hstart]
      exact Token.start_pos_of_lex_eq_cons hlex ht
    exact .inr ⟨p.span.start, hpos, hrest⟩

/-- A statement inside another one is shorter. -/
theorem Binds.length_rest_lt (h : Binds text c command args c') (i : Nat) :
    (args.rest i).length < text.length := by
  have hne : text ≠ [] := by
    obtain ⟨span, tokens, hlex, _⟩ := h
    rintro rfl
    simp [Token.lex, Token.scan, Token.scanFrom] at hlex
  obtain hnil | ⟨start, hpos, hrest⟩ := h.rest_cases i
  · rw [hnil]
    exact List.length_pos_iff.mpr hne
  · rw [hrest]
    exact Nat.lt_of_le_of_lt (Text.length_trim_le _) (Text.length_dropBytes_lt hpos hne)

end Binds

end Statement

end SpectrumBasic
