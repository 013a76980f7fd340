import SpectrumBasic.Expression.Value

/-! The grammar of expressions and what a derivation is worth. Comparisons are chains of sums, sums
are chains of terms, terms are chains of operands, and every chain groups to the left. A derivation
yields a formula, in which the names `RND` are numbered in the order of the tokens. Right
parentheses may be left out at the end. -/

namespace SpectrumBasic

namespace Operator

/-- The number that an operator in front of an operand makes of it. -/
def unaryValue : Operator → Float → Float
  | negate, x => -x
  | sin, x => x.sin
  | cos, x => x.cos
  | _, x => x

/-- The number that an operator between two operands makes of them; a comparison is one or zero. -/
def binaryValue : Operator → Float → Float → Float
  | plus, x, y => x + y
  | minus, x, y => x - y
  | multiply, x, y => x * y
  | divide, x, y => x / y
  | equal, x, y => if x == y then 1.0 else 0.0
  | notEqual, x, y => if x != y then 1.0 else 0.0
  | less, x, y => if x < y then 1.0 else 0.0
  | lessEqual, x, y => if x ≤ y then 1.0 else 0.0
  | greater, x, y => if x > y then 1.0 else 0.0
  | greaterEqual, x, y => if x ≥ y then 1.0 else 0.0
  | _, x, _ => x

end Operator

namespace Generator

/-- The generator after `k` numbers of the unit interval. -/
def skip (g : Generator) : Nat → Generator
  | 0 => g
  | k + 1 => (g.skip k).unit.2

/-- Number `k` of the unit interval, counted from zero. -/
def draw (g : Generator) (k : Nat) : Float := (g.skip k).unit.1

end Generator

namespace Expression

/-- What a derivation computes. `random k` stands for the `RND` with `k` others in front of it. -/
inductive Formula
  | number (x : Float)
  | fetch (name : String)
  | random (k : Nat)
  | unary (o : Operator) (a : Formula)
  | binary (o : Operator) (a b : Formula)

/-- The number that a formula stands for, if `RND` number `k` is given `draw k`. A name that was
never stored counts as zero. -/
def Formula.value (vars : Variables) (draw : Nat → Float) : Formula → Float
  | number x => x
  | fetch name => vars.table[name]?.getD 0.0
  | random k => draw k
  | unary o a => o.unaryValue (a.value vars draw)
  | binary o a b => o.binaryValue (a.value vars draw) (b.value vars draw)

/-! ### Derivations -/

/-- The layers of the grammar, the loosest first. -/
inductive Level
  | comparison
  | sum
  | term
  | operand
deriving DecidableEq, Repr

namespace Level

/-- What a chain of this level is made of. -/
def inner : Level → Level
  | comparison => sum
  | sum => term
  | term | operand => operand

/-- What stands between the members of a chain. -/
def operators : Level → List Operator
  | comparison => [.equal, .notEqual, .less, .lessEqual, .greater, .greaterEqual]
  | sum => [.plus, .minus]
  | term => [.multiply, .divide]
  | operand => []

end Level

def randomCount (ks : List Token.Kind) : Nat := ks.count (.name "RND")

/-- `Derives l n ks a`: the tokens `ks` form the formula `a` at level `l`, where `n` names `RND`
stand in front of `ks`. -/
inductive Derives : Level → Nat → List Token.Kind → Formula → Prop
  | number {n numeral x} (hx : Number.read? numeral = some x) :
    Derives .operand n [.number numeral] (.number x)
  | random {n} : Derives .operand n [.name "RND"] (.random n)
  | fetch {n name} (hn : name ≠ "RND") : Derives .operand n [.name name] (.fetch name)
  | unary {n o ks a} (ho : o ∈ [Operator.negate, .sin, .cos]) (h : Derives .operand n ks a) :
    Derives .operand n (.operator o :: ks) (.unary o a)
  | parens {n ks a} (h : Derives .comparison n ks a) :
    Derives .operand n (.operator .leftParen :: (ks ++ [.operator .rightParen])) a
  | single {l n ks a} (h : Derives l.inner n ks a) : Derives l n ks a
  | binary {l n o ks ms a b} (ho : o ∈ l.operators) (h : Derives l n ks a)
      (h' : Derives l.inner (n + randomCount ks) ms b) :
    Derives l n (ks ++ .operator o :: ms) (.binary o a b)

/-- The depth of open parentheses behind a token. -/
def depthAfter (depth : Nat) (k : Token.Kind) : Nat :=
  if k = .operator .leftParen then depth + 1
  else if k = .operator .rightParen then depth - 1
  else depth

/-- The number of left parentheses that have no partner at the end. -/
def unclosed (ks : List Token.Kind) : Nat := ks.foldl depthAfter 0

/-- The tokens with a right parenthesis added for each left one without a partner. -/
def closed (ks : List Token.Kind) : List Token.Kind :=
  ks ++ List.replicate (unclosed ks) (.operator .rightParen)

end Expression

end SpectrumBasic
