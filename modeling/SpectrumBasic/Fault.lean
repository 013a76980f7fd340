import SpectrumBasic.Text.Basic

/-! What can go wrong in a program. A fault has a kind, which fixes its report code, and may carry
the statement it arose in, the columns of the offending part of that statement, and a reason. The
wording of all of them is in `Fault.message`. -/

namespace SpectrumBasic

/-- Bytes `start` up to but not including `stop` of a statement. -/
structure Span where
  start : Nat
  stop : Nat
deriving DecidableEq, Repr

/-- The span of a fault that points at no part of its statement. -/
def Span.nowhere : Span := ⟨0, 0⟩

namespace Fault

inductive Kind
  | nextWithoutFor
  | syntaxError
  | returnWithoutGosub
  | outOfData
  | outOfMemory
  | unknownCommand
  | interrupted
deriving DecidableEq, Repr

/-- The report code. -/
def Kind.code : Kind → Nat
  | nextWithoutFor => 1
  | syntaxError => 2
  | returnWithoutGosub => 3
  | outOfData => 4
  | outOfMemory => 7
  | unknownCommand => 24
  | interrupted => 25

def Kind.title : Kind → String
  | nextWithoutFor => "NEXT WITHOUT FOR"
  | syntaxError => "SYNTAX ERROR"
  | returnWithoutGosub => "RETURN WITHOUT GOSUB"
  | outOfData => "OUT OF DATA"
  | outOfMemory => "OUT OF MEMORY"
  | unknownCommand => "UNKNOWN COMMAND"
  | interrupted => "BREAK"

/-- The program text was fine, but NEXT, RETURN or READ found nothing to work with. -/
def Kind.isControlFlow : Kind → Bool
  | nextWithoutFor | returnWithoutGosub | outOfData => true
  | _ => false

/-- The finer cause of a fault. `stated` is for a cause that the host words itself. -/
inductive Reason
  | unstated
  | expectedExpression
  | expectedCommand
  | expectedVariable
  | expectedNumber
  | expectedMark (mark : String)
  | unexpectedToken
  | invalidNumber
  | missingOperand
  | missingOperator
  | unmatchedRightParenthesis
  | notBinary
  | notUnary
  | wrongArgumentCount
  | tooManyVariables
  | returnStackFull
  | stated (text : String)
deriving DecidableEq, Repr

def Reason.text : Reason → String
  | unstated => ""
  | expectedExpression => "EXPECTED EXPRESSION"
  | expectedCommand => "EXPECTED COMMAND"
  | expectedVariable => "EXPECTED VARIABLE"
  | expectedNumber => "EXPECTED NUMBER"
  | expectedMark mark => "EXPECTED " ++ mark
  | unexpectedToken => "UNEXPECTED TOKEN"
  | invalidNumber => "INVALID NUMBER"
  | missingOperand => "MISSING OPERAND"
  | missingOperator => "MISSING OPERATOR"
  | unmatchedRightParenthesis => "UNMATCHED RIGHT PARENTHESIS"
  | notBinary => "NOT A BINARY OPERATOR"
  | notUnary => "NOT A FUNCTION"
  | wrongArgumentCount => "WRONG NUMBER OF ARGUMENTS"
  | tooManyVariables => "TOO MANY VARIABLES"
  | returnStackFull => "GOSUB STACK OVERFLOW"
  | stated text => text

end Fault

structure Fault where
  kind : Fault.Kind
  statement : Option Text := none
  span : Span := .nowhere
  reason : Fault.Reason := .unstated
deriving DecidableEq, Repr

namespace Fault

/-- A syntax error at some columns of the statement. -/
def syntaxAt (span : Span) (reason : Reason) : Fault := { kind := .syntaxError, span, reason }

/-- A syntax error that no part of the statement is to blame for. -/
def syntaxOf (reason : Reason) : Fault := { kind := .syntaxError, reason }

/-- Attaches a statement, unless one further inside is attached already. -/
def inStatement (f : Fault) (text : Text) : Fault :=
  match f.statement with
  | none => { f with statement := some text }
  | some _ => f

@[simp] theorem kind_inStatement (f : Fault) (text : Text) : (f.inStatement text).kind = f.kind := by
  unfold inStatement
  split <;> rfl

/-- The report: the kind, then the quoted statement, the columns and the reason, as far as the fault
has them. -/
def message (f : Fault) : String :=
  let quoted :=
    match f.statement with
    | none => ""
    | some text => " IN \"" ++ String.ofList text ++ "\""
  let columns :=
    if f.span = .nowhere then "" else " (" ++ toString f.span.start ++ ".." ++ toString f.span.stop ++ ")"
  let note := if f.reason.text = "" then "" else "; " ++ f.reason.text
  f.kind.title ++ quoted ++ columns ++ note

/-- The report as a developer's console shows it. -/
def debugText (f : Fault) : String := "Error \x7b " ++ f.message ++ " \x7d"

end Fault

end SpectrumBasic
