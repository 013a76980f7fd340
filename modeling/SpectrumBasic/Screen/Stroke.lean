import SpectrumBasic.Number.Whole

/-! The points that a straight line visits. It steps by one along the axis on which it is longer,
starting from the end with the lesser coordinate there, and finds the other coordinate in
proportion. Coordinates wrap at 256, so steps beyond 65536 could only repeat points and are left
out. -/

namespace SpectrumBasic.Screen

abbrev Point := Float × Float

def Point.isFinite (p : Point) : Bool := p.1.isFinite && p.2.isFinite

/-- The number of points on the longer axis of a line that spans `delta` there. -/
def strokeLength (delta : Float) : Nat := min (delta.abs.toUInt64.toNat + 1) 65536

/-- The points on the way from `p` to `q`. -/
def stroke (p q : Point) : List Point :=
  let (x₁, y₁) := p
  let (x₂, y₂) := q
  let dx := x₂ - x₁
  let dy := y₂ - y₁
  if dx == 0.0 && dy == 0.0 then [(x₁, y₁)]
  else if dy.abs < dx.abs then
    let start := if 0.0 < dx then x₁ else x₂
    (List.range (strokeLength dx)).map fun i =>
      let x := start + i.toUInt64.toFloat
      (x, (x - x₁) / dx * dy + y₁)
  else
    let start := if 0.0 < dy then y₁ else y₂
    (List.range (strokeLength dy)).map fun i =>
      let y := start + i.toUInt64.toFloat
      ((y - y₁) / dy * dx + x₁, y)

/-- The number of sides of the polygon that stands for a circle: each is about a pixel long. -/
def circleSides (r : Float) : Nat := min (Number.ceiling (2.0 * (r.abs + 4.0))) 1024

/-- A full turn. -/
def turn : Float := 2.0 * 3.14159265358979323846

/-- The corners of a circle in order, from its rightmost point round and back to it. -/
def circleCorners (x y r : Float) : List Point :=
  let sides := circleSides r
  let step := turn / sides.toUInt64.toFloat
  let between := (List.range' 1 (sides - 1)).map fun side =>
    let angle := side.toUInt64.toFloat * step
    (x + r * angle.cos, y + r * angle.sin)
  (x + r, y) :: between ++ [(x + r, y)]

end SpectrumBasic.Screen
