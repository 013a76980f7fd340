/-! Whole numbers out of doubles. Every conversion cuts off the fraction and stops at the ends of
the target range; a NaN counts as zero. -/

namespace SpectrumBasic.Number

/-- The whole part as a signed 64-bit word. -/
def toInt64 (x : Float) : Int64 :=
  let size := x.abs.toUInt64
  if x < 0.0 then
    if size < 0x8000000000000000 then -size.toInt64 else Int64.minValue
  else
    if size < 0x8000000000000000 then size.toInt64 else Int64.maxValue

/-- The low eight bits of the whole part. -/
def toByte (x : Float) : UInt8 := (toInt64 x).toUInt64.toUInt8

/-- The least whole number that is not below `x`, for an `x` that is not negative. -/
def ceiling (x : Float) : Nat :=
  let size := x.toUInt64
  if size.toFloat < x then size.toNat + 1 else size.toNat

end SpectrumBasic.Number
