import SpectrumBasic.Expression.Arithmetic
import SpectrumBasic.Expression.Tree
import SpectrumBasic.Number.Literal
import SpectrumBasic.Random.Generator
import SpectrumBasic.Variables

/-! The value of an expression. The tree is walked from left to right; each `RND` draws a fresh
number. A walk that fails keeps what it has drawn. -/

namespace SpectrumBasic.Expression

/-- A computation that draws random numbers and may fail. -/
abbrev Draw := ExceptT Fault (StateM Generator)

/-- A fresh number of the unit interval. -/
def drawUnit : Draw Float := do
  let (x, g) := (← get).unit
  set g
  return x

/-- The value of a tree. `missing` is the fault of an empty one. -/
def Tree.value (vars : Variables) (missing : Fault) : Tree → Draw Float
  | empty => throw missing
  | node left token _ right => do
    let noOperator : Fault := .syntaxAt token.span .missingOperator
    let noOperand : Fault := .syntaxAt token.span .missingOperand
    match token.kind with
    | .operator o =>
      if o = .leftParen then
        unless left.isEmpty do throw noOperator
        right.value vars noOperand
      else if o.isUnary then
        unless left.isEmpty do throw noOperator
        let x ← right.value vars noOperand
        liftExcept (o.applyUnary x)
      else
        let x ← left.value vars noOperand
        let y ← right.value vars noOperand
        liftExcept (o.applyBinary x y)
    | .number numeral =>
      unless left.isEmpty && right.isEmpty do throw noOperator
      match Number.read? numeral with
      | some x => return x
      | none => throw (.syntaxAt token.span .invalidNumber)
    | .name name =>
      unless left.isEmpty && right.isEmpty do throw noOperator
      if name = "RND" then drawUnit else return vars.fetch name
    | _ => throw (.syntaxAt token.span .unexpectedToken)

/-- The value of the tokens of one expression. -/
def evaluate (vars : Variables) (ts : List Token) : Draw Float := do
  let tree ← liftExcept (Tree.build ts)
  tree.value vars (.syntaxOf .expectedExpression)

end SpectrumBasic.Expression
