import SpectrumBasic.Proofs.Statement.Blame
import SpectrumBasic.Proofs.Statement.Slots
import SpectrumBasic.Proofs.Token.Tiling

/-! Which statements give a command its arguments. The phrases of a statement have to match the form of
the command slot by slot, with none left over, and in a number that the command takes. Whether a phrase
is a mark of the form can be told from how it is printed. A command looks only into slots that are
filled, and finds in each of them what the form has there. -/

namespace SpectrumBasic

open Attempt (outcome outcome_bind_ok exists_of_outcome_bind_ok)
open Expression (evaluate)

/-! ### Slots and forms -/

/-- The phrase is the mark `kind` and nothing else. -/
def Phrase.IsMark (kind : Token.Kind) (p : Phrase) : Prop := ∃ span, p = .token ⟨span, kind⟩

/-- The phrase is printed like the mark `kind`. -/
def Phrase.ReadsLike (kind : Token.Kind) (p : Phrase) : Prop := p.text = kind.text

/-- A phrase of the statement `text` is what a slot asks for: an expression with a value, a name alone,
a mark as `isMark` tells it, or anything for the rest of the statement. The generator moves from the
first to the second one. -/
inductive Slot.Takes (isMark : Token.Kind → Phrase → Prop) (vars : Variables) (text : Text) :
    Slot → Phrase → Generator → Argument → Generator → Prop
  | number {first : Token} {more : List Token} {x : Float} {g g' : Generator}
      (h : outcome (evaluate vars (first :: more)) g = (.ok x, g')) :
    Takes isMark vars text .number (.expression first more) g (.number x) g'
  | name (span : Span) (n : String) (g : Generator) :
    Takes isMark vars text .name (.token ⟨span, .name n⟩) g (.name n) g
  | nameAlone (span : Span) (n : String) (g : Generator) :
    Takes isMark vars text .name (.expression ⟨span, .name n⟩ []) g (.name n) g
  | mark {kind : Token.Kind} {p : Phrase} (g : Generator) (h : isMark kind p) :
    Takes isMark vars text (.mark kind) p g .mark g
  | rest (p : Phrase) (g : Generator) :
    Takes isMark vars text .rest p g (.rest (Text.trim (Text.dropBytes p.span.start text))) g

/-- A name is taken from a phrase that is one, however marks are told. -/
theorem Slot.takes_name_iff {isMark : Token.Kind → Phrase → Prop} {vars : Variables} {text : Text}
    {p : Phrase} {g g' : Generator} {argument : Argument} :
    Slot.Takes isMark vars text .name p g argument g' ↔
      ∃ n, Arguments.nameOf? p = some n ∧ argument = .name n ∧ g' = g := by
  constructor
  · intro h
    cases h with
    | name span n => exact ⟨n, rfl, rfl, rfl⟩
    | nameAlone span n => exact ⟨n, rfl, rfl, rfl⟩
  · rintro ⟨n, hn, rfl, rfl⟩
    unfold Arguments.nameOf? at hn
    split at hn
    · cases hn
      exact .name _ _ _
    · cases hn
      exact .nameAlone _ _ _
    · cases hn

namespace Arguments

/-- The phrases of the statement `text` match the slots of a form from the front, and all of them are
used. The rest of a statement takes all phrases that are left. -/
inductive Match (isMark : Token.Kind → Phrase → Prop) (vars : Variables) (text : Text) :
    List Slot → List Phrase → Generator → Arguments → Generator → Prop
  | done (slots : List Slot) (g : Generator) : Match isMark vars text slots [] g [] g
  | rest {slots : List Slot} {p : Phrase} {ps : List Phrase} {g g' : Generator} {argument : Argument}
      (h : Slot.Takes isMark vars text .rest p g argument g') :
    Match isMark vars text (.rest :: slots) (p :: ps) g [argument] g'
  | next {slot : Slot} {slots : List Slot} {p : Phrase} {ps : List Phrase} {g g₁ g' : Generator}
      {argument : Argument} {args : Arguments} (hslot : slot ≠ .rest)
      (h : slot.Takes isMark vars text p g argument g₁)
      (hmore : Match isMark vars text slots ps g₁ args g') :
    Match isMark vars text (slot :: slots) (p :: ps) g (argument :: args) g'

section Fill

variable {vars : Variables} {text : Text} {g g' : Generator}

theorem outcome_fillSlot_iff {slot : Slot} {p : Phrase} {argument : Argument} :
    outcome (fillSlot vars text slot p) g = (.ok argument, g') ↔
      slot.Takes Phrase.IsMark vars text p g argument g' := by
  constructor
  · intro h
    unfold fillSlot at h
    cases slot with
    | number =>
      cases p with
      | token t => cases h
      | expression first more =>
        obtain ⟨x, g₁, hvalue, h⟩ := exists_of_outcome_bind_ok h
        cases h
        exact .number hvalue
    | name =>
      dsimp only at h
      split at h
      · next n hname =>
        cases h
        exact Slot.takes_name_iff.mpr ⟨n, hname, rfl, rfl⟩
      · cases h
    | mark kind =>
      cases p with
      | token t =>
        dsimp only at h
        split at h
        · next hkind =>
          cases h
          exact .mark _ ⟨t.span, by rw [← hkind]⟩
        · cases h
      | expression first more => cases h
    | rest =>
      cases h
      exact .rest _ _
  · intro h
    cases h with
    | number hvalue => exact outcome_bind_ok hvalue
    | name => rfl
    | nameAlone => rfl
    | mark _ hmark =>
      obtain ⟨span, rfl⟩ := hmark
      unfold fillSlot
      dsimp only
      rw [if_pos rfl]
      rfl
    | rest => rfl

theorem outcome_fill_iff {slots : List Slot} {ps : List Phrase} {args : Arguments} :
    outcome (fill vars text slots ps) g = (.ok args, g') ↔
      Match Phrase.IsMark vars text slots ps g args g' := by
  constructor
  · intro h
    induction slots generalizing ps g args with
    | nil =>
      cases ps with
      | nil =>
        cases h
        exact .done _ _
      | cons p ps => cases h
    | cons slot slots ih =>
      cases ps with
      | nil =>
        cases h
        exact .done _ _
      | cons p ps =>
        obtain ⟨argument, g₁, hslot, h⟩ := exists_of_outcome_bind_ok h
        rw [outcome_fillSlot_iff] at hslot
        split at h
        · next hrest =>
          cases h
          subst hrest
          exact .rest hslot
        · next hrest =>
          obtain ⟨arguments, g₂, hfill, h⟩ := exists_of_outcome_bind_ok h
          cases h
          exact .next hrest hslot (ih hfill)
  · intro h
    induction h with
    | done slots g =>
      cases slots <;> rfl
    | rest h =>
      rw [fill, outcome_bind_ok (outcome_fillSlot_iff.mpr h), if_pos rfl]
      rfl
    | next hslot h _ ih =>
      rw [fill, outcome_bind_ok (outcome_fillSlot_iff.mpr h), if_neg hslot, outcome_bind_ok ih]
      rfl

theorem outcome_ofPhrases_iff {command : Command} {ps : List Phrase} {args : Arguments} :
    outcome (ofPhrases vars command text ps) g = (.ok args, g') ↔
      Match Phrase.IsMark vars text command.form ps g args g' ∧ args.length ∈ command.arity := by
  constructor
  · intro h
    exact ⟨outcome_fill_iff.mp (outcome_fill_of_ofPhrases h), length_mem_of_ofPhrases h⟩
  · rintro ⟨hmatch, harity⟩
    rw [ofPhrases, outcome_bind_ok (outcome_fill_iff.mpr hmatch), if_pos harity]
    rfl

end Fill

/-- Telling marks in another way keeps a match if it accepts the marks that are met. -/
theorem Match.imp {isMark isMark' : Token.Kind → Phrase → Prop} {vars : Variables} {text : Text}
    {slots : List Slot} {ps : List Phrase} {g g' : Generator} {args : Arguments}
    (h : Match isMark vars text slots ps g args g')
    (himp : ∀ kind p, .mark kind ∈ slots → p ∈ ps → isMark kind p → isMark' kind p) :
    Match isMark' vars text slots ps g args g' := by
  induction h with
  | done slots g => exact .done _ _
  | rest h =>
    cases h
    exact .rest (.rest _ _)
  | next hslot h _ ih =>
    have hmore := ih fun kind p hkind hp =>
      himp kind p (List.mem_cons_of_mem _ hkind) (List.mem_cons_of_mem _ hp)
    cases h with
    | number hvalue => exact .next hslot (.number hvalue) hmore
    | name => exact .next hslot (.name _ _ _) hmore
    | nameAlone => exact .next hslot (.nameAlone _ _ _) hmore
    | mark _ hmark =>
      exact .next hslot (.mark _ (himp _ _ List.mem_cons_self List.mem_cons_self hmark)) hmore
    | rest => exact absurd rfl hslot

end Arguments

/-! ### Marks by their text -/

namespace Token

/-- The tokens that stand between arguments. -/
def marks : List Kind :=
  [.separator .comma, .operator .equal, .word .upTo, .word .step, .word .thenDo]

/-- A token that is printed like a mark is that mark. -/
theorem kind_of_text {s : Text} {t : Token} {kind : Kind} (ht : t ∈ lex s) (hkind : kind ∈ marks)
    (h : t.text = kind.text) : t.kind = kind := by
  have hfixed : ∀ operand, ∀ kind ∈ marks, kind ∈ fixedKinds operand := by decide
  have hinj : ∀ operand, ∀ k ∈ fixedKinds operand, ∀ kind ∈ marks, k.text = kind.text → k = kind := by
    decide
  obtain ⟨operand, -, c, u, -, -, -, hlexeme⟩ :=
    exists_firstLexeme_of_mem_scanFrom ((lex_sublist_scan s).subset ht)
  have hmem : t.kind ∈ fixedKinds operand := by
    rw [hlexeme]
    refine firstLexeme_mem_fixedKinds (hfixed operand kind hkind) ?_
    rw [← hlexeme]
    exact h
  exact hinj operand t.kind hmem kind hkind h

end Token

namespace Phrase

/-- A phrase that is printed like a mark is that mark, or an expression of nothing but that mark. -/
theorem ReadsLike.cases {s : Text} {assigns : Bool} {ts : List Token} {kind : Token.Kind} {p : Phrase}
    (h : ReadsLike kind p) (hkind : kind ∈ Token.marks) (hts : ∀ t ∈ ts, t ∈ Token.lex s)
    (hp : p ∈ ofTokens assigns ts) : IsMark kind p ∨ ∃ span, p = .expression ⟨span, kind⟩ [] := by
  have hp : ∀ t ∈ p.tokens, t ∈ Token.lex s := fun t ht => hts t ((tokens_sublist hp).subset ht)
  unfold ReadsLike text at h
  rcases p with t | ⟨first, _ | ⟨second, more⟩⟩
  · rw [tokens, List.map_singleton, String.intercalate_singleton] at h
    have ht := Token.kind_of_text (hp t List.mem_cons_self) hkind h
    exact .inl ⟨t.span, by rw [← ht]⟩
  · rw [tokens, List.map_singleton, String.intercalate_singleton] at h
    have ht := Token.kind_of_text (hp first List.mem_cons_self) hkind h
    exact .inr ⟨first.span, by rw [← ht]⟩
  · -- two tokens have a space between them, and no mark has one
    have hspace : ∀ kind ∈ Token.marks, ' ' ∉ kind.text.toList := by decide
    refine absurd ?_ (hspace kind hkind)
    rw [← h, tokens, List.map_cons, List.map_cons, String.intercalate_cons_cons]
    simp

/-- No token of an expression is a divider. -/
theorem isDivider_of_mem_group {first : Token} {more ts : List Token}
    (h : expression first more ∈ group ts) : ∀ t ∈ first :: more, t.isDivider = false := by
  fun_induction group ts generalizing first more with
  | case1 => cases h
  | case2 t ts hdivider ih =>
    rcases List.mem_cons.mp h with h | h
    · cases h
    · exact ih h
  | case3 t ts hdivider first' more' ps hgroup ih =>
    rw [hgroup] at ih
    rcases List.mem_cons.mp h with h | h
    · cases h
      exact List.forall_mem_cons.mpr ⟨by simpa using hdivider, ih List.mem_cons_self⟩
    · exact ih (List.mem_cons_of_mem _ h)
  | case4 t ts hdivider hgroup ih =>
    rcases List.mem_cons.mp h with h | h
    · cases h
      simpa using hdivider
    · exact ih h

end Phrase

namespace Arguments

section Marks

variable {vars : Variables} {s text : Text} {assigns : Bool} {ts : List Token} {slots : List Slot}
  {ps : List Phrase} {g g' : Generator} {args : Arguments}

end Marks

end Arguments

/-! ### What a command looks at -/

/-- The slots that a command with `count` arguments looks into, and what it looks for. -/
def Command.reads (count : Nat) : Command → List (Nat × Slot)
  | assign => [(0, .name), (2, .number)]
  | forTo =>
    [(0, .name), (2, .number), (4, .number)] ++ if count = 7 then [(6, .number)] else []
  | next => [(0, .name)]
  | goto | gosub | ink | paper | bright | flash | overprint | inverse => [(0, .number)]
  | ifThen => [(0, .number), (2, .rest)]
  | read => ((List.range count).filter (· % 2 = 0)).map (·, .name)
  | randomize => if count = 0 then [] else [(0, .number)]
  | plot | draw | poke => [(0, .number), (2, .number)]
  | circle => [(0, .number), (2, .number), (4, .number)]
  | comeBack | data | restore | remark | stop | cls => []

namespace Arguments

variable {args args' : Arguments} {command : Command}

end Arguments

namespace Statement

/-- The phrases behind the first token of the statement match the form of the command and give it
these arguments. The generator moves on to `g`. -/
def Matches (isMark : Token.Kind → Phrase → Prop) (text : Text) (command : Command) (c : Context)
    (args : Arguments) (g : Generator) : Prop :=
  Arguments.Match isMark c.vars text command.form
    (Phrase.ofTokens command.assigns (Token.lex text).tail) c.random args g

/-- Binding moves the generator past the expressions, from left to right, and changes nothing else. -/
theorem outcome_bindArguments_iff {text : Text} {command : Command} {c c' : Context}
    {args : Arguments} :
    outcome (bindArguments text command (Token.lex text).tail) c = (.ok args, c') ↔
      ∃ g, Matches Phrase.IsMark text command c args g ∧ args.length ∈ command.arity ∧
        c' = { c with random := g } := by
  rw [bindArguments, Action.outcome_ofDraw]
  constructor
  · intro h
    obtain ⟨hargs, rfl⟩ := Prod.mk.inj h
    obtain ⟨hmatch, harity⟩ := Arguments.outcome_ofPhrases_iff.mp (Prod.ext hargs rfl)
    exact ⟨_, hmatch, harity, rfl⟩
  · rintro ⟨g, hmatch, harity, rfl⟩
    rw [Arguments.outcome_ofPhrases_iff.mpr ⟨hmatch, harity⟩]

end Statement

end SpectrumBasic
