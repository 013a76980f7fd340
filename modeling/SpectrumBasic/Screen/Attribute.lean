/-! Attribute bytes. From the lowest bit on: three bits of ink, three bits of paper, the bright bit
and the flash bit. -/

namespace SpectrumBasic.Screen.Attribute

/-- Black ink on white paper, neither bright nor flashing. -/
def initial : UInt8 := 56

def withInk (a n : UInt8) : UInt8 := (a &&& 0xF8) ||| (n &&& 7)
def withPaper (a n : UInt8) : UInt8 := (a &&& 0xC7) ||| ((n &&& 7) <<< (3 : UInt8))
def withBright (a n : UInt8) : UInt8 := (a &&& 0xBF) ||| ((n &&& 1) <<< (6 : UInt8))
def withFlash (a n : UInt8) : UInt8 := (a &&& 0x7F) ||| ((n &&& 1) <<< (7 : UInt8))

/-- The palette entry of lit pixels; bright ones are in the upper half. -/
def inkColour (a : UInt8) : UInt8 := (a &&& 0x07) ||| ((a &&& 0x40) >>> (3 : UInt8))

/-- The palette entry of the other pixels. -/
def paperColour (a : UInt8) : UInt8 := (a &&& 0x78) >>> (3 : UInt8)

def flashes (a : UInt8) : Bool := a &&& 0x80 ≠ 0

end SpectrumBasic.Screen.Attribute
