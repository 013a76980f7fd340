import SpectrumBasic.Fault

/-! The places that `RETURN` goes back to. There is room for 65535 of them. -/

namespace SpectrumBasic

structure ReturnStack where
  /-- The places, the latest first. -/
  offsets : List Nat := []
  depth : Nat := 0
  depth_eq : depth = offsets.length := by rfl
  /-- The reason that a push gives when there is no room. -/
  overflow : Fault.Reason := .returnStackFull

namespace ReturnStack

def capacity : Nat := 65535

def push (s : ReturnStack) (offset : Nat) : Except Fault ReturnStack :=
  if capacity ≤ s.depth then .error { kind := .outOfMemory, reason := s.overflow }
  else
    .ok { s with
      offsets := offset :: s.offsets
      depth := s.depth + 1
      depth_eq := congrArg (· + 1) s.depth_eq }

/-- Takes the latest place off. -/
def pop? (s : ReturnStack) : Option (Nat × ReturnStack) :=
  match h : s.offsets with
  | [] => none
  | offset :: offsets =>
    some (offset, { s with offsets, depth := s.depth - 1, depth_eq := by simp [s.depth_eq, h] })

/-- The places in brackets, the earliest first. -/
def debugText (s : ReturnStack) : String :=
  "[" ++ String.intercalate ", " (s.offsets.reverse.map toString) ++ "]"

end ReturnStack

end SpectrumBasic
