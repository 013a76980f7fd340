import SpectrumBasic.Number.Literal
import SpectrumBasic.Text.Blank
import SpectrumBasic.Token.Lexer

/-! The numbers of all `DATA` statements of a program, in the order of the text, and how many of
them have been read. A `REM` hides what follows it on its line. -/

namespace SpectrumBasic

structure DataCursor where
  values : Array Float := #[]
  /-- The number of values read since the last restore. -/
  taken : Nat := 0

namespace DataCursor

/-- The numbers among the tokens behind `DATA`. Commas are skipped, anything else is a fault. -/
def valuesOf : List Token → Except Fault (List Float)
  | [] => .ok []
  | t :: ts =>
    match t.kind with
    | .separator .comma => valuesOf ts
    | .number numeral =>
      match Number.read? numeral with
      | some x => (valuesOf ts).map (x :: ·)
      | none => .error (.syntaxAt t.span .invalidNumber)
    | _ => .error (.syntaxAt t.span .expectedNumber)

/-- The numbers of the `DATA` statements of one line. -/
def valuesOfLine : List Text → Except Fault (List Float)
  | [] => .ok []
  | piece :: pieces =>
    let statement := Text.trim piece
    match Token.lex statement with
    | ⟨_, .name "DATA"⟩ :: ts => do
      let here ← (valuesOf ts).mapError (·.inStatement statement)
      let there ← valuesOfLine pieces
      return here ++ there
    | ⟨_, .name "REM"⟩ :: _ => .ok []
    | _ => valuesOfLine pieces

/-- The cursor in front of all values of a program. -/
def harvest (source : Text) : Except Fault DataCursor := do
  let values ← (Text.split '\n' source).mapM fun line => valuesOfLine (Text.split ':' line)
  return { values := values.flatten.toArray }

/-- The next value, and the cursor behind it. -/
def read (c : DataCursor) : Except Fault (Float × DataCursor) :=
  match c.values[c.taken]? with
  | some x => .ok (x, { c with taken := c.taken + 1 })
  | none => .error { kind := .outOfData }

/-- The cursor in front of the first value again. -/
def restore (c : DataCursor) : DataCursor := { c with taken := 0 }

end DataCursor

end SpectrumBasic
