import SpectrumBasic.Token.Basic

/-! Expression trees. A tree is grown one token at a time at its right edge. The edge is a spine of
nodes whose right subtrees are still open to growth, the innermost first, and the tree to the right
of the innermost one. A new token climbs the spine past every node that binds at least as tightly,
takes what it passed as its left subtree and becomes the innermost node itself. Nothing climbs past
a left parenthesis before its partner closes it. -/

namespace SpectrumBasic

namespace Expression

/-- How tightly names, numbers and closed parentheses bind. -/
def operandPriority : Nat := 255

end Expression

/-- How tightly an operator binds. -/
def Operator.priority : Operator → Nat
  | equal | notEqual | less | lessEqual | greater | greaterEqual => 1
  | plus | minus => 2
  | multiply | divide => 3
  | negate | sin | cos => 4
  | leftParen | rightParen => Expression.operandPriority

namespace Expression

def tokenPriority (t : Token) : Nat :=
  match t.kind with
  | .operator o => o.priority
  | _ => operandPriority

/-- How far a token climbs: past nodes of at least this priority. What starts an operand climbs only
past operands. -/
def climbPriority (t : Token) : Nat :=
  match t.kind with
  | .operator o => if o.isUnary ∨ o = .leftParen then operandPriority else o.priority
  | _ => operandPriority

/-- A binary tree of tokens. `isOpen` marks a left parenthesis without its partner. -/
inductive Tree
  | empty
  | node (left : Tree) (token : Token) (isOpen : Bool) (right : Tree)
deriving DecidableEq, Repr

/-- A node of the spine: its left subtree and its token. -/
structure Branch where
  left : Tree
  token : Token
  isOpen : Bool
deriving DecidableEq, Repr

/-- An open parenthesis binds like the root, so that everything stays inside it. -/
def nodePriority (token : Token) (isOpen : Bool) : Nat :=
  if isOpen then 0 else tokenPriority token

def Branch.priority (b : Branch) : Nat := nodePriority b.token b.isOpen

/-- The tree below and including a node of the spine, given its right subtree. -/
def Branch.join (b : Branch) (right : Tree) : Tree := .node b.left b.token b.isOpen right

/-- A tree in growth. -/
structure Growth where
  spine : List Branch
  right : Tree
deriving DecidableEq, Repr

namespace Growth

/-- The growth of nothing yet. -/
def start : Growth := ⟨[], .empty⟩

/-- Joins every node that binds at least as tightly as `priority`, up to an open parenthesis. -/
def climb (priority : Nat) : List Branch → Tree → Growth
  | [], right => ⟨[], right⟩
  | b :: spine, right =>
    if b.isOpen ∨ b.priority < priority then ⟨b :: spine, right⟩
    else climb priority spine (b.join right)

/-- Adds a token that is not a right parenthesis. -/
def insert (g : Growth) (t : Token) : Growth :=
  let place := climb (climbPriority t) g.spine g.right
  ⟨⟨place.right, t, t.kind = .operator .leftParen⟩ :: place.spine, .empty⟩

/-- Closes the innermost open parenthesis, if there is one. -/
def close? : List Branch → Tree → Option Growth
  | [], _ => none
  | b :: spine, right =>
    if b.isOpen then some ⟨{ b with isOpen := false } :: spine, right⟩
    else close? spine (b.join right)

/-- Adds a token. A right parenthesis without a partner is a syntax error at its place. -/
def add (g : Growth) (t : Token) : Except Fault Growth :=
  if t.kind = .operator .rightParen then
    match close? g.spine g.right with
    | some g => .ok g
    | none => .error (.syntaxAt t.span .unmatchedRightParenthesis)
  else .ok (g.insert t)

/-- Joins the whole spine. -/
def finish : List Branch → Tree → Tree
  | [], right => right
  | b :: spine, right => finish spine (b.join right)

end Growth

namespace Tree

/-- The tree of a list of tokens. -/
def build (ts : List Token) : Except Fault Tree := do
  let g ← ts.foldlM Growth.add Growth.start
  return Growth.finish g.spine g.right

def isEmpty : Tree → Bool
  | empty => true
  | node .. => false

def size : Tree → Nat
  | empty => 0
  | node left _ _ right => left.size + 1 + right.size

/-- The tokens from left to right. -/
def tokens : Tree → List Token
  | empty => []
  | node left token _ right => left.tokens ++ token :: right.tokens

end Tree

end Expression

end SpectrumBasic
