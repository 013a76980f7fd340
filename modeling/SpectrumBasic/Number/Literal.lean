import SpectrumBasic.Text.Basic

/-! Numerals. A numeral has an optional sign and either names a special value or writes a decimal:
digits, optionally a point with more digits, optionally a power of ten. Its value is the double
nearest to what it says. -/

namespace SpectrumBasic.Number

/-- The number that a list of decimal digits writes. -/
def ofDigits (digits : Text) : Nat :=
  digits.foldl (fun n c => 10 * n + (c.toNat - '0'.toNat)) 0

/-- Splits off a sign; `true` stands for a minus. -/
def takeSign : Text → Bool × Text
  | '-' :: t => (true, t)
  | '+' :: t => (false, t)
  | t => (false, t)

/-- The power of ten that the tail of a numeral writes, none at all being the zeroth. -/
def readExponent? : Text → Option Int
  | [] => some 0
  | c :: t =>
    let (minus, digits) := takeSign t
    if (c = 'e' ∨ c = 'E') ∧ digits ≠ [] ∧ digits.all Char.isDigit then
      some (if minus then -(ofDigits digits : Int) else ofDigits digits)
    else none

/-- The double nearest to `digits · 10 ^ power`. -/
def ofDecimal (digits : Nat) (power : Int) : Float :=
  Float.ofScientific digits (power < 0) power.natAbs

/-- An unsigned decimal. Digits must stand before the point or after it. -/
def readDecimal? (t : Text) : Option Float :=
  let whole := t.takeWhile Char.isDigit
  let (fraction, tail) : Text × Text :=
    match t.dropWhile Char.isDigit with
    | '.' :: r => (r.takeWhile Char.isDigit, r.dropWhile Char.isDigit)
    | r => ([], r)
  if whole = [] ∧ fraction = [] then none
  else
    (readExponent? tail).map fun power =>
      ofDecimal (ofDigits (whole ++ fraction)) (power - fraction.length)

/-- An unsigned numeral: a named value, in letters of either case, or a decimal. -/
def readUnsigned? (t : Text) : Option Float :=
  let name := String.ofList (Text.upper t)
  if name = "INF" ∨ name = "INFINITY" then some (1.0 / 0.0)
  else if name = "NAN" then some (0.0 / 0.0)
  else readDecimal? t

/-- The value of a numeral, if the text is one. A minus in front of a zero is kept. -/
def read? (t : Text) : Option Float :=
  let (minus, t) := takeSign t
  (readUnsigned? t).map fun x => if minus then -x else x

end SpectrumBasic.Number
