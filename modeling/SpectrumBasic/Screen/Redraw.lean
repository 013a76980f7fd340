import SpectrumBasic.Screen.Display
import SpectrumBasic.Screen.Frame

/-! Redrawing. Every redraw moves the flash phase on. It paints the blocks of the dirty range; when
the phase enters or leaves its upper half it paints the flashing blocks, and all blocks if any is
dirty. Painting a block puts its 64 pixels, row by row. -/

namespace SpectrumBasic.Screen

/-- Whether flashing blocks show inverted. -/
def isFlashed (phase : Fin 64) : Bool := 32 ≤ phase.val

def nextPhase (phase : Fin 64) : Fin 64 := ⟨(phase.val + 1) % 64, Nat.mod_lt _ (by decide)⟩

/-- The offset of the attribute of a block. -/
def blockAttributeIndex (block : Fin blockCount) : Fin memorySize :=
  ⟨attributeStart + block, by
    have := block.isLt
    simp only [blockCount, memorySize, attributeStart] at *
    omega⟩

/-- The offset of the byte for one pixel row of a block. -/
def blockBitmapIndex (block : Fin blockCount) (row : Fin 8) : Fin memorySize :=
  ⟨block % 256 + 2048 * (block / 256) + 256 * row, by
    have := block.isLt
    have := row.isLt
    simp only [blockCount, memorySize, attributeStart] at *
    omega⟩

namespace Display

def blockAttribute (d : Display) (block : Fin blockCount) : UInt8 :=
  d.memory.get (blockAttributeIndex block)

/-- The colours of lit and unlit pixels of a block. -/
def blockColours (d : Display) (block : Fin blockCount) : UInt8 × UInt8 :=
  let a := d.blockAttribute block
  if Attribute.flashes a && isFlashed d.phase then (Attribute.paperColour a, Attribute.inkColour a)
  else (Attribute.inkColour a, Attribute.paperColour a)

/-- The pixels of one block. -/
def blockPuts (d : Display) (block : Fin blockCount) : List Put :=
  let (ink, paper) := d.blockColours block
  (List.finRange 8).flatMap fun row =>
    let byte := d.memory.get (blockBitmapIndex block row)
    (List.range 8).map fun column =>
      { x := 8 * (block % 32) + column
        y := 8 * (block / 32) + row
        colour := if byte &&& columnMask column ≠ 0 then ink else paper }

/-- The blocks that a redraw has to paint, in ascending order, if the flash phase turns over or
not. -/
def staleBlocks (d : Display) (turns : Bool) : List (Fin blockCount) :=
  (List.finRange blockCount).filter fun block =>
    if d.dirty.hasDirt then turns || d.dirty.contains block
    else turns && Attribute.flashes (d.blockAttribute block)

/-- The pixels that a redraw puts, and the display after it. -/
def redraw (d : Display) : List Put × Display :=
  let turns := isFlashed (nextPhase d.phase) != isFlashed d.phase
  let blocks := d.staleBlocks turns
  let d := { d with phase := nextPhase d.phase, dirty := .empty }
  (blocks.flatMap d.blockPuts, d)

/-- What a redraw tells its host: whether it paints any block. -/
def paintsAny (d : Display) : Bool :=
  0 < (d.staleBlocks (isFlashed (nextPhase d.phase) != isFlashed d.phase)).length

end Display

end SpectrumBasic.Screen
