import SpectrumBasic.Screen.Layout

/-! The blocks written to since the last redraw, kept as the least interval that holds them all. -/

namespace SpectrumBasic.Screen

/-- The blocks from `low` to `high`; none if `high` is below `low`. -/
structure DirtyRange where
  low : Nat
  high : Nat
deriving DecidableEq, Repr

namespace DirtyRange

def empty : DirtyRange := ⟨blockCount, 0⟩

def full : DirtyRange := ⟨0, blockCount - 1⟩

def hasDirt (r : DirtyRange) : Bool := r.low ≤ r.high

/-- The least and the greatest block, if there is any. -/
def bounds? (r : DirtyRange) : Option (Nat × Nat) :=
  if r.hasDirt then some (r.low, r.high) else none

def contains (r : DirtyRange) (block : Nat) : Bool := r.low ≤ block && block ≤ r.high

/-- The least range that also holds `block`. -/
def widen (r : DirtyRange) (block : Nat) : DirtyRange := ⟨min r.low block, max r.high block⟩

end DirtyRange

end SpectrumBasic.Screen
