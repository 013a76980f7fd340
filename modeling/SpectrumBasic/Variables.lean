import SpectrumBasic.Fault
import Std.Data.TreeMap

/-! The variables of a program: numbers by name. A name that was never stored reads as zero. There
is room for 65536 names. -/

namespace SpectrumBasic

structure Variables where
  table : Std.TreeMap String Float := {}

namespace Variables

/-- A name is refused once this many others are stored. -/
def capacity : Nat := 65536

def empty : Variables := {}

def fetch (v : Variables) (name : String) : Float := v.table.getD name 0.0

/-- Stores a value. Only a new name can fail. -/
def store (v : Variables) (name : String) (x : Float) : Except Fault Variables :=
  if capacity ≤ v.table.size ∧ ¬ v.table.contains name then
    .error { kind := .outOfMemory, reason := .tooManyVariables }
  else .ok ⟨v.table.insert name x⟩

end Variables

end SpectrumBasic
