import SpectrumBasic.Number.Whole

/-! How the screen lies in memory. The picture has 256 by 192 pixels, and every eight by eight block
of them shares one attribute byte. The bitmap comes first, one bit a pixel; the three bits of a
pixel row inside its block and the three bits of the block row inside its third of the screen change
places in the offset. The attributes of the 768 blocks follow, row by row. -/

namespace SpectrumBasic.Screen

def width : Nat := 256
def height : Nat := 192
def blockCount : Nat := 768

/-- The offset of the first attribute. -/
def attributeStart : Nat := 6144

def memorySize : Nat := attributeStart + blockCount

/-- The address of the first byte of display memory. -/
def baseAddress : Nat := 16384

abbrev Memory := Vector UInt8 memorySize

/-- The bit of column `i` in a bitmap byte; the leftmost column has the highest one. -/
def columnMask (i : Nat) : UInt8 := 0x80 >>> i.toUInt8

/-- A pixel of the picture. -/
structure Pixel where
  x : Fin width
  y : Fin height
deriving DecidableEq, Repr

namespace Pixel

/-- The pixel at some coordinates, which count modulo 256 and without their fraction. There is none
below the last row. -/
def at? (x y : Float) : Option Pixel :=
  if h : (Number.toByte y).toNat < height then
    some ⟨⟨(Number.toByte x).toNat, (Number.toByte x).toNat_lt⟩, ⟨(Number.toByte y).toNat, h⟩⟩
  else none

def blockX (p : Pixel) : Nat := p.x / 8
def blockY (p : Pixel) : Nat := p.y / 8

/-- The offset of the byte that holds the pixel's bit. -/
def bitmapIndex (p : Pixel) : Fin memorySize :=
  ⟨p.x / 8 + 256 * (p.y % 8) + 32 * (p.y / 8 % 8) + 2048 * (p.y / 64), by
    have := p.x.isLt
    have := p.y.isLt
    simp only [width, height, memorySize, attributeStart, blockCount] at *
    omega⟩

/-- The offset of the attribute of the pixel's block. -/
def attributeIndex (p : Pixel) : Fin memorySize :=
  ⟨attributeStart + p.x / 8 + 32 * (p.y / 8), by
    have := p.x.isLt
    have := p.y.isLt
    simp only [width, height, memorySize, attributeStart, blockCount] at *
    omega⟩

def bitmapAddress (p : Pixel) : Nat := baseAddress + p.bitmapIndex
def attributeAddress (p : Pixel) : Nat := baseAddress + p.attributeIndex

/-- The pixel's bit in its byte. -/
def mask (p : Pixel) : UInt8 := columnMask (p.x % 8)

end Pixel

/-- The block that the byte at an offset belongs to. -/
def blockOf (offset : Nat) : Nat :=
  if attributeStart ≤ offset then offset - attributeStart
  else offset % 256 + 256 * (offset / 2048 % 4)

end SpectrumBasic.Screen
