/-! The record that a `FOR` leaves for its `NEXT`. -/

namespace SpectrumBasic

structure ForLoop where
  variableName : String
  step : Float
  target : Float
  /-- The offset of the first statement of the body. -/
  resume : Nat := 0

/-- Whether a value has passed the target in the direction of the step. With a step of zero none
ever has. -/
def ForLoop.isPast (l : ForLoop) (x : Float) : Bool :=
  (0.0 < l.step && l.target < x) || (l.step < 0.0 && x < l.target)

end SpectrumBasic
