import SpectrumBasic.Number.Shortest

/-! Doubles in positional notation: the shortest decimal that reads back, without a power of ten,
and without a point if it is whole. -/

namespace SpectrumBasic.Number

/-- The decimal `n · 10 ^ power`, with zeros where the point needs them. -/
def positional (n : Nat) (power : Int) : String :=
  let digits := Nat.toDigits 10 n
  let places := (-power).toNat
  let padded := List.replicate (places + 1 - digits.length) '0' ++ digits
  let (whole, fraction) := padded.splitAt (padded.length - places)
  let zeros := List.replicate power.toNat '0'
  String.ofList (whole ++ zeros ++ if places = 0 then [] else '.' :: fraction)

def toText (x : Float) : String :=
  if x.isNaN then "NaN"
  else
    let sign := if x.toBits >>> 63 = 0 then "" else "-"
    let size :=
      if x.isInf then "inf"
      else if x == 0.0 then "0"
      else
        let (n, power) := shortest x
        positional n power
    sign ++ size

end SpectrumBasic.Number
