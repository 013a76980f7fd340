import SpectrumBasic.Random.Generator
import SpectrumBasic.Screen.Attribute
import SpectrumBasic.Screen.DirtyRange
import SpectrumBasic.Screen.Stroke

/-! The display: its memory, the blocks that changed since the last redraw, the attribute and the
modes that drawing uses, the drawing cursor, and the flash phase. Every change of a byte goes through
`write`, which marks its block. -/

namespace SpectrumBasic.Screen

structure Display where
  memory : Memory
  dirty : DirtyRange := .full
  /-- The attribute that drawing gives to a block. -/
  attr : UInt8 := Attribute.initial
  /-- Drawing turns pixels over. -/
  overprint : Bool := false
  /-- Drawing puts pixels out. -/
  inverse : Bool := false
  cursor : Point := (0.0, 0.0)
  /-- The number of redraws, modulo 64. Flashing blocks show inverted in the upper half. -/
  phase : Fin 64 := 0

/-- Memory without a lit pixel and with one attribute everywhere. -/
def clearedMemory (a : UInt8) : Memory :=
  Vector.replicate attributeStart (0 : UInt8) ++ Vector.replicate blockCount a

namespace Display

/-- The clear display. -/
def clear : Display := { memory := clearedMemory Attribute.initial }

/-- The display at power on, whose memory holds random bytes. -/
def noisy (g : Generator) : Display :=
  let words := (g.words memorySize).1.toArray
  { memory := Vector.ofFn fun i => (words.getD i 0).toUInt8 }

def write (d : Display) (i : Fin memorySize) (value : UInt8) : Display :=
  { d with memory := d.memory.set i value, dirty := d.dirty.widen (blockOf i) }

/-! ### Colours and modes -/

def ink (d : Display) (n : UInt8) : Display := { d with attr := Attribute.withInk d.attr n }
def paper (d : Display) (n : UInt8) : Display := { d with attr := Attribute.withPaper d.attr n }
def bright (d : Display) (n : UInt8) : Display := { d with attr := Attribute.withBright d.attr n }
def flash (d : Display) (n : UInt8) : Display := { d with attr := Attribute.withFlash d.attr n }
def setOver (d : Display) (on : Bool) : Display := { d with overprint := on }
def setInverse (d : Display) (on : Bool) : Display := { d with inverse := on }

/-! ### Drawing -/

/-- A bitmap byte after drawing the pixels of `mask` in it. -/
def drawBits (overprint inverse : Bool) (byte mask : UInt8) : UInt8 :=
  match overprint, inverse with
  | false, false => byte ||| mask
  | true, false => byte ^^^ mask
  | false, true => byte &&& ~~~mask
  | true, true => byte

/-- Draws one pixel and gives its block the current attribute. -/
def drawPixel (d : Display) (p : Pixel) : Display :=
  let d := d.write p.attributeIndex d.attr
  d.write p.bitmapIndex (drawBits d.overprint d.inverse (d.memory.get p.bitmapIndex) p.mask)

/-- Draws the pixel at a point, if there is one. -/
def visit (d : Display) (p : Point) : Display :=
  match Pixel.at? p.1 p.2 with
  | some pixel => d.drawPixel pixel
  | none => d

/-- Draws one point and moves the cursor there. -/
def plot (d : Display) (p : Point) : Display := { d.visit p with cursor := p }

/-- Draws a line and moves the cursor to its end. A line with an end that is not finite is left
out. -/
def line (d : Display) (p q : Point) : Display :=
  if p.isFinite && q.isFinite then { (stroke p q).foldl visit d with cursor := q } else d

/-- Draws a line from the cursor by some distance. -/
def draw (d : Display) (dx dy : Float) : Display :=
  d.line d.cursor (d.cursor.1 + dx, d.cursor.2 + dy)

/-- Draws lines from corner to corner. -/
def polygon (d : Display) : List Point → Display
  | p :: q :: corners => polygon (d.line p q) (q :: corners)
  | _ => d

/-- Draws a circle. One that is not finite is left out. -/
def circle (d : Display) (x y r : Float) : Display :=
  if x.isFinite && y.isFinite && r.isFinite then d.polygon (circleCorners x y r) else d

/-- Clears the bitmap, gives every block the current attribute and sends the cursor home. -/
def cls (d : Display) : Display :=
  { d with memory := clearedMemory d.attr, dirty := .full, cursor := (0.0, 0.0) }

/-! ### Memory access -/

/-- Writes a byte. Addresses count modulo 8192, and those past the attributes are ignored. -/
def poke (d : Display) (address : Int64) (value : UInt8) : Display :=
  let i := (address - 16384).toUInt64.toNat % 8192
  if h : i < memorySize then d.write ⟨i, h⟩ value else d

/-- Reads a byte. Addresses outside display memory read as zero. -/
def peek (d : Display) (address : Int64) : UInt8 :=
  if h : (baseAddress : Int) ≤ address.toInt ∧ address.toInt < baseAddress + memorySize then
    d.memory.get ⟨(address.toInt - baseAddress).toNat, by omega⟩
  else 0

end Display

/-! ### Inspection -/

/-- What display memory says about one pixel. -/
structure Report where
  pixel : Pixel
  attr : UInt8
  bitmap : UInt8

def Report.isLit (r : Report) : Bool := r.bitmap &&& r.pixel.mask ≠ 0

/-- The report on the pixel at some coordinates, if there is one. -/
def Display.inspect? (d : Display) (x y : Float) : Option Report :=
  (Pixel.at? x y).map fun p => ⟨p, d.memory.get p.attributeIndex, d.memory.get p.bitmapIndex⟩

end SpectrumBasic.Screen
