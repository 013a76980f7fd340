import SpectrumBasic.Token.Basic

/-! Phrases: the tokens of a statement with each expression drawn together. Separators and words
divide a statement and stand alone; every longest run of other tokens is one expression. A command
that assigns also keeps its target and the `=` behind it apart from the expression that follows. -/

namespace SpectrumBasic

/-- Separators and words end an expression. -/
def Token.isDivider (t : Token) : Bool :=
  match t.kind with
  | .separator _ | .word _ => true
  | _ => false

/-- A token that stands alone, or an expression, which has a first token and perhaps more. -/
inductive Phrase
  | token (t : Token)
  | expression (first : Token) (more : List Token)
deriving DecidableEq, Repr

namespace Phrase

def tokens : Phrase → List Token
  | token t => [t]
  | expression first more => first :: more

/-- From the start of the first token to the end of the last one. -/
def span : Phrase → Span
  | token t => t.span
  | expression first more => ⟨first.span.start, (more.getLast?.getD first).span.stop⟩

/-- The texts of the tokens with one space between them. -/
def text (p : Phrase) : String := String.intercalate " " (p.tokens.map Token.text)

/-- Draws every run of tokens that are no dividers together. -/
def group : List Token → List Phrase
  | [] => []
  | t :: ts =>
    if t.isDivider then token t :: group ts
    else
      match group ts with
      | expression first more :: ps => expression t (first :: more) :: ps
      | ps => expression t [] :: ps

/-- The phrases behind a command. If the command assigns, a name in front and an `=` right behind
the name stand alone. -/
def ofTokens (assigns : Bool) (ts : List Token) : List Phrase :=
  match assigns, ts with
  | true, ⟨s, .name target⟩ :: ⟨s', .operator .equal⟩ :: rest =>
    token ⟨s, .name target⟩ :: token ⟨s', .operator .equal⟩ :: group rest
  | true, ⟨s, .name target⟩ :: rest => token ⟨s, .name target⟩ :: group rest
  | _, ts => group ts

end Phrase

end SpectrumBasic
