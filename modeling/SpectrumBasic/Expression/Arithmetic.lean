import SpectrumBasic.Token.Basic

/-! What the operators compute. All numbers are doubles, a comparison gives one or zero, and a
division by zero is no fault. -/

namespace SpectrumBasic.Operator

/-- One for true, zero for false. -/
def truth (b : Bool) : Float := if b then 1.0 else 0.0

def applyBinary (o : Operator) (x y : Float) : Except Fault Float :=
  match o with
  | plus => .ok (x + y)
  | minus => .ok (x - y)
  | multiply => .ok (x * y)
  | divide => .ok (x / y)
  | equal => .ok (truth (x == y))
  | notEqual => .ok (truth (x != y))
  | less => .ok (truth (x < y))
  | lessEqual => .ok (truth (x ≤ y))
  | greater => .ok (truth (y < x))
  | greaterEqual => .ok (truth (y ≤ x))
  | negate | sin | cos | leftParen | rightParen => .error (.syntaxOf .notBinary)

def applyUnary (o : Operator) (x : Float) : Except Fault Float :=
  match o with
  | negate => .ok (-x)
  | sin => .ok x.sin
  | cos => .ok x.cos
  | _ => .error (.syntaxOf .notUnary)

end SpectrumBasic.Operator
