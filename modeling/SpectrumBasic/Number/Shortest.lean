/-! The shortest decimal of a double: of the decimals that read back as the double, those with the
fewest digits, and of them the nearest. A double is `m · 2 ^ q`, and what reads back as it lies
between the midpoints to its neighbours, the midpoints included when `m` is even. The powers of ten
are tried from the largest on; of the two multiples around the double the first hit wins. -/

namespace SpectrumBasic.Number

/-- The reals that read back as a double, over a common denominator: the double itself is
`value / unit`. -/
structure Interval where
  low : Nat
  value : Nat
  high : Nat
  unit : Nat
  /-- The ends belong to the interval. -/
  closed : Bool
deriving DecidableEq, Repr

namespace Interval

/-- The interval of `m · 2 ^ q`. Below a power of two the neighbour is only half as far away. -/
def ofBinary (m : Nat) (q : Int) (isPower : Bool) : Interval :=
  let scale := Nat.pow 2 (q - 2).toNat
  { low := (4 * m - if isPower then 1 else 2) * scale
    value := 4 * m * scale
    high := (4 * m + 2) * scale
    unit := Nat.pow 2 (2 - q).toNat
    closed := m % 2 = 0 }

/-- The interval of a double that is finite and not zero, whatever its sign. -/
def ofFloat (x : Float) : Interval :=
  let exponent := (x.toBits >>> 52).toNat % 2048
  let fraction := x.toBits.toNat % 4503599627370496
  if exponent = 0 then ofBinary fraction (-1074) false
  else ofBinary (4503599627370496 + fraction) (exponent - 1075) (fraction = 0 ∧ 1 < exponent)

/-- Whether the interval contains `n · 10 ^ power`. -/
def holds (i : Interval) (n : Nat) (power : Int) : Bool :=
  let point := n * Nat.pow 10 power.toNat * i.unit
  let scale := Nat.pow 10 (-power).toNat
  if i.closed then i.low * scale ≤ point && point ≤ i.high * scale
  else i.low * scale < point && point < i.high * scale

/-- The multiple of `10 ^ power` in the interval that is nearest to the double. It is one of the two
around the double, the greater one if both are equally near. -/
def nearest? (i : Interval) (power : Int) : Option Nat :=
  let numerator := i.value * Nat.pow 10 (-power).toNat
  let denominator := i.unit * Nat.pow 10 power.toNat
  let n := numerator / denominator
  let roundsUp := denominator ≤ 2 * (numerator % denominator)
  match i.holds n power, i.holds (n + 1) power with
  | true, true => some (if roundsUp then n + 1 else n)
  | true, false => some n
  | false, true => some (n + 1)
  | false, false => none

end Interval

/-- The shortest decimal `n · 10 ^ power` of a double that is finite and not zero, whatever its
sign. -/
def shortest (x : Float) : Nat × Int :=
  let i := Interval.ofFloat x
  let powers := (List.range 634).map fun k : Nat => (309 : Int) - k
  (powers.findSome? fun power => (i.nearest? power).map (·, power)).getD (0, 0)

end SpectrumBasic.Number
