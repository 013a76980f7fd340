import SpectrumBasic.Fault

/-! The tokens of a statement. A token knows the columns it was written in, and its text is what it
is printed as: names, words and exponents in upper case. -/

namespace SpectrumBasic

/-- The words that divide a statement. -/
inductive Word
  | upTo
  | step
  | thenDo
deriving DecidableEq, Repr

def Word.text : Word → String
  | upTo => "TO"
  | step => "STEP"
  | thenDo => "THEN"

inductive Separator
  | comma
  | semicolon
deriving DecidableEq, Repr

def Separator.text : Separator → String
  | comma => ","
  | semicolon => ";"

inductive Operator
  | plus
  | minus
  | multiply
  | divide
  | equal
  | notEqual
  | less
  | lessEqual
  | greater
  | greaterEqual
  | negate
  | sin
  | cos
  | leftParen
  | rightParen
deriving DecidableEq, Repr

namespace Operator

def text : Operator → String
  | plus => "+"
  | minus => "-"
  | multiply => "*"
  | divide => "/"
  | equal => "="
  | notEqual => "<>"
  | less => "<"
  | lessEqual => "<="
  | greater => ">"
  | greaterEqual => ">="
  | negate => "-"
  | sin => "SIN"
  | cos => "COS"
  | leftParen => "("
  | rightParen => ")"

/-- Operators with one operand, written in front of it. -/
def isUnary : Operator → Bool
  | negate | sin | cos => true
  | _ => false

end Operator

/-- What a token is. A character that starts nothing else is a token by itself. -/
inductive Token.Kind
  | unknown (c : Char)
  | number (numeral : Text)
  | name (letters : String)
  | word (w : Word)
  | separator (s : Separator)
  | operator (o : Operator)
deriving DecidableEq, Repr

structure Token where
  span : Span
  kind : Token.Kind
deriving DecidableEq, Repr

namespace Token

def Kind.text : Kind → String
  | .unknown c => String.singleton c
  | .number numeral => String.ofList numeral
  | .name letters => letters
  | .word w => w.text
  | .separator s => s.text
  | .operator o => o.text

def text (t : Token) : String := t.kind.text

end Token

end SpectrumBasic
