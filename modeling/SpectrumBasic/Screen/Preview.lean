import SpectrumBasic.Screen.Frame

/-! The picture in a terminal: one character for two by four pixels. The character fills its upper
half with the foreground and leaves its lower half to the background; each half shows the rarest
colour of its four pixels. -/

namespace SpectrumBasic.Screen

/-- A colour as the terminal takes it. -/
def Colour.terminalText (c : Colour) : String :=
  "2;" ++ toString c.red.toNat ++ ";" ++ toString c.green.toNat ++ ";" ++ toString c.blue.toNat

/-- A character with an upper and a lower colour. -/
def halfBlocks (upper lower : Colour) : String :=
  "\x1b[48;" ++ lower.terminalText ++ ";38;" ++ upper.terminalText ++ "m▀\x1b[0m"

namespace Frame

def previewCell (f : Frame) (x y : Nat) : String :=
  halfBlocks (palette (f.accent x y 2 2)) (palette (f.accent x (y + 2) 2 2))

/-- One line of characters, `row` lines below the first. -/
def previewLine (f : Frame) (row : Nat) : String :=
  String.join ((List.range (width / 2)).map fun column => f.previewCell (2 * column) (4 * row))

def preview (f : Frame) : String :=
  String.join ((List.range (height / 4)).map fun row => f.previewLine row ++ "\n")

end Frame

end SpectrumBasic.Screen
