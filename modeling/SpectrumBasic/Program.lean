import SpectrumBasic.Number.Literal
import SpectrumBasic.Text.Blank

/-! The text of a program as lines and statements. A line ends at a newline, and a statement ends
there or at a colon. Statements are found by their byte offset in the text. -/

namespace SpectrumBasic.Program

/-- The number that a line begins with, of which at most four digits count. -/
def lineNumber? (t : Text) : Option Nat :=
  let digits := ((Text.trimStart t).takeWhile Char.isDigit).take 4
  if digits = [] then none else some (Number.ofDigits digits)

def endsStatement (c : Char) : Bool := c = ':' || c = '\n'

/-- The statement at the front of a text, without the blanks around it. -/
def firstStatement (t : Text) : Text := Text.trim (t.takeWhile fun c => !endsStatement c)

/-- Where a statement and its line end: the offset of the character behind their last one. -/
structure Boundary where
  stop : Nat
  newline : Nat
deriving DecidableEq, Repr

/-- The ends of the statement that starts at an offset. -/
def boundary (source : Text) (offset : Nat) : Boundary :=
  let tail := Text.dropBytes offset source
  { stop := offset + Text.byteLength (tail.takeWhile fun c => !endsStatement c)
    newline := offset + Text.byteLength (tail.takeWhile (· ≠ '\n')) }

/-- The offset of the first line whose number is at least `goal`, from the line on that begins at
`offset` with the text `t`. If there is none it is the offset behind the last line. -/
def seekFrom (goal offset : Nat) (t : Text) : Nat :=
  if t = [] ∨ (lineNumber? (firstStatement t)).any (goal ≤ ·) then offset
  else
    let line := t.takeWhile (· ≠ '\n')
    seekFrom goal (offset + Text.byteLength line + 1) (t.drop (line.length + 1))
termination_by t.length
decreasing_by
  rename_i h
  have := List.length_pos_iff.mpr (not_or.mp h).1
  simp only [List.length_drop]
  omega

end SpectrumBasic.Program
