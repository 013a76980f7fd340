import Mathlib.Data.Finset.Prod
import Mathlib.Order.Interval.Finset.Nat
import SpectrumBasic.Screen.Frame

/-! The colour that stands for a cell of a frame. The cell is read row by row into a list of colours,
of which each is kept once, where it is first seen, and the first of those that are rarest is taken. So
the colour taken has the fewest pixels in the cell, and of several such colours it is the one that comes
first in the picture. -/

namespace SpectrumBasic.Screen

/-! ### Lists of colours -/

namespace Frame

end Frame

/-! ### Cells -/

/-- Row by row, the first pixel comes before the second. -/
def ComesBefore (p q : Nat × Nat) : Prop := p.2 < q.2 ∨ p.2 = q.2 ∧ p.1 < q.1

namespace Frame

/-- The palette entry of a pixel, which is in the lowest four bits of its byte. -/
def entryAt (f : Frame) (p : Nat × Nat) : UInt8 := f.colourAt p.1 p.2 &&& 0x0F

/-- How many pixels of the cell have the colour. -/
def occurrences (f : Frame) (cell : Finset (Nat × Nat)) (c : UInt8) : Nat :=
  (cell.filter fun p => f.entryAt p = c).card

/-- The first pixel of the cell that has the colour is `p`. -/
structure FirstSeen (f : Frame) (cell : Finset (Nat × Nat)) (c : UInt8) (p : Nat × Nat) : Prop where
  mem : p ∈ cell
  entryAt_eq : f.entryAt p = c
  first : ∀ q ∈ cell, f.entryAt q = c → p = q ∨ ComesBefore p q

/-- The colour occurs in the cell, none that occurs there has fewer pixels, and of those with as few
pixels it is seen first. -/
structure IsAccent (f : Frame) (cell : Finset (Nat × Nat)) (c : UInt8) : Prop where
  fewest : ∀ q ∈ cell, f.occurrences cell c ≤ f.occurrences cell (f.entryAt q)
  earliest : ∃ p, f.FirstSeen cell c p ∧ ∀ c' q, c' ≠ c →
    f.occurrences cell c' = f.occurrences cell c → f.FirstSeen cell c' q → ComesBefore p q

theorem IsAccent.unique {f : Frame} {cell : Finset (Nat × Nat)} {c c' : UInt8}
    (h : f.IsAccent cell c) (h' : f.IsAccent cell c') : c = c' := by
  by_contra hne
  obtain ⟨p, hp, hearliest⟩ := h.earliest
  obtain ⟨q, hq, hearliest'⟩ := h'.earliest
  have hle := h.fewest q hq.mem
  have hge := h'.fewest p hp.mem
  rw [hq.entryAt_eq] at hle
  rw [hp.entryAt_eq] at hge
  have hpq := hearliest c' q (Ne.symm hne) (by omega) hq
  have hqp := hearliest' c p hne (by omega) hp
  unfold ComesBefore at hpq hqp
  omega

/-! ### Reading a cell -/

section Rarest

variable {f : Frame} {x y w h : Nat} {c : UInt8}
  (hc : rarestIn (f.cellColours x y w h) (f.cellColours x y w h).eraseDups = some c)
include hc

end Rarest

end Frame

end SpectrumBasic.Screen
