import SpectrumBasic.Screen.Layout

/-! The picture as the host sees it: one palette entry a pixel. -/

namespace SpectrumBasic.Screen

/-- Red, green and blue. -/
structure Colour where
  red : UInt8
  green : UInt8
  blue : UInt8
deriving DecidableEq, Repr

/-- The sixteen colours: one bit each of green, red and blue from the top, at level 205, and again
at level 255. -/
def palette (n : UInt8) : Colour :=
  let level := if n &&& 8 = 0 then 205 else 255
  let part (bit : UInt8) : UInt8 := if n &&& bit = 0 then 0 else level
  ⟨part 2, part 4, part 1⟩

/-- A pixel of the host's picture that changes its colour. -/
structure Put where
  x : Nat
  y : Nat
  colour : UInt8
deriving DecidableEq, Repr

structure Frame where
  pixels : Vector UInt8 (width * height)

namespace Frame

def black : Frame := ⟨Vector.replicate (width * height) 0⟩

/-- Changes one pixel. What lies outside the picture is ignored. -/
def put (f : Frame) (p : Put) : Frame :=
  if h : p.x < width ∧ p.y < height then
    ⟨f.pixels.set (p.y * width + p.x) p.colour (by
      have := Nat.mul_le_mul_right width (Nat.le_sub_one_of_lt h.2)
      simp only [width, height] at *
      omega)⟩
  else f

def putAll (f : Frame) (ps : List Put) : Frame := ps.foldl put f

/-- The colour at some column and row. Columns past the last one count on into the next row. -/
def colourAt (f : Frame) (x y : Nat) : UInt8 := f.pixels[y * width + x]?.getD 0

/-- The colours of a cell, row by row, as far as it lies inside the picture. -/
def cellColours (f : Frame) (x y w h : Nat) : List UInt8 :=
  (List.range' y (min (y + h) height - y)).flatMap fun row =>
    (List.range' x (min (x + w) width - x)).map fun column => f.colourAt column row &&& 0x0F

/-- The member with the fewest occurrences in `all`, the earliest of several. -/
def rarestIn (all : List UInt8) : List UInt8 → Option UInt8
  | [] => none
  | c :: cs =>
    match rarestIn all cs with
    | none => some c
    | some d => if all.count d < all.count c then some d else some c

/-- The rarest colour of a cell, so that thin lines survive scaling down. An empty cell is black. -/
def accent (f : Frame) (x y w h : Nat) : UInt8 :=
  let colours := f.cellColours x y w h
  (rarestIn colours colours.eraseDups).getD 0

/-- The picture as bytes: red, green, blue and full opacity for each pixel. -/
def rgba (f : Frame) : List UInt8 :=
  f.pixels.toList.flatMap fun n =>
    let c := palette (n &&& 0x0F)
    [c.red, c.green, c.blue, 255]

end Frame

end SpectrumBasic.Screen
