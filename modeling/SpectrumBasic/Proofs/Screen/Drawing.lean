import SpectrumBasic.Proofs.Screen.Repaint

/-! What drawing leaves in memory. Plotting a point or drawing a line visits some pixels, and which ones
depends on the points alone. A visit touches the bit of its pixel and the attribute of its block, and
no two pixels share a bit, so whether a pixel is lit in the end depends on how often it was visited and
not on what was visited in between. -/

namespace SpectrumBasic.Screen

/-! ### One bit of a byte -/

/-- Whether memory has the bit of the pixel set. -/
def isLit (memory : Memory) (p : Pixel) : Bool := memory.get p.bitmapIndex &&& p.mask ≠ 0

namespace Pixel

theorem bitmapIndex_lt (p : Pixel) : p.bitmapIndex.val < attributeStart := by
  have := p.x.isLt
  have := p.y.isLt
  simp only [bitmapIndex, attributeStart, width, height] at *
  omega

theorem le_attributeIndex (p : Pixel) : attributeStart ≤ p.attributeIndex.val := by
  simp only [attributeIndex]
  omega

theorem bitmapIndex_ne_attributeIndex (p q : Pixel) : p.bitmapIndex ≠ q.attributeIndex := by
  intro h
  have hp := p.bitmapIndex_lt
  rw [h] at hp
  exact absurd q.le_attributeIndex (Nat.not_le.mpr hp)

end Pixel

namespace Display

theorem get_write (d : Display) (i j : Fin memorySize) (value : UInt8) :
    (d.write i value).memory.get j = if j = i then value else d.memory.get j := by
  have h : (d.memory.set i value i.isLt)[j.val] = if i.val = j.val then value else d.memory[j.val] :=
    Vector.getElem_set i.isLt j.isLt
  simp only [Fin.ext_iff, eq_comm (a := j.val)]
  exact h

end Display

namespace Display

theorem foldl_visit_eq (ps : List Point) (d : Display) :
    ps.foldl visit d = (ps.filterMap fun p => Pixel.at? p.1 p.2).foldl drawPixel d := by
  induction ps generalizing d with
  | nil => rfl
  | cons p ps ih =>
    rw [List.foldl_cons, ih, visit, List.filterMap_cons]
    cases Pixel.at? p.1 p.2 <;> rfl

end Display

/-! ### Calls -/

/-- A call that draws. -/
inductive Drawing
  | plot (p : Point)
  | line (p q : Point)

namespace Drawing

def operation : Drawing → Operation
  | plot p => .plot p
  | line p q => .line p q

def runAll (cs : List Drawing) (d : Display) : Display := Operation.runAll (cs.map operation) d

/-- The points that a call visits. A line with an end that is not finite visits none. -/
def points : Drawing → List Point
  | plot p => [p]
  | line p q => if p.isFinite && q.isFinite then stroke p q else []

/-- The pixels that a call visits. Points below the last row have none. -/
def pixels (c : Drawing) : List Pixel := c.points.filterMap fun p => Pixel.at? p.1 p.2

/-- Apart from the cursor, a call does what the visits to its pixels do. -/
theorem exists_run_eq (c : Drawing) (d : Display) :
    ∃ cursor, c.operation.run d = { c.pixels.foldl Display.drawPixel d with cursor } := by
  cases c with
  | plot p =>
    refine ⟨p, ?_⟩
    have h := d.foldl_visit_eq [p]
    exact congrArg (fun e : Display => { e with cursor := p }) h
  | line p q =>
    simp only [operation, Operation.run, Display.line, pixels, points]
    split
    · exact ⟨q, by rw [Display.foldl_visit_eq]⟩
    · exact ⟨d.cursor, rfl⟩

end Drawing

end SpectrumBasic.Screen
