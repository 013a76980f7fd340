import SpectrumBasic.Token.Basic

/-! The commands of the language, and the form of the arguments of each. A form is a list of slots
that are filled from the front; the arity says how many of them may be filled. -/

namespace SpectrumBasic

/-- One place in the form of a command: an expression, the name of a variable, a fixed mark between
arguments, or all that is left of the statement. -/
inductive Slot
  | number
  | name
  | mark (kind : Token.Kind)
  | rest
deriving DecidableEq, Repr

inductive Command
  | assign
  | forTo
  | next
  | goto
  | gosub
  | comeBack
  | ifThen
  | data
  | read
  | restore
  | remark
  | randomize
  | stop
  | plot
  | draw
  | circle
  | ink
  | paper
  | bright
  | flash
  | overprint
  | inverse
  | poke
  | cls
deriving DecidableEq, Repr

namespace Slot

def comma : Slot := mark (.separator .comma)
def equal : Slot := mark (.operator .equal)
def upTo : Slot := mark (.word .upTo)
def step : Slot := mark (.word .step)
def thenDo : Slot := mark (.word .thenDo)

def debugText : Slot → String
  | number => "Number"
  | name => "Ident"
  | mark kind => "Literal(\"" ++ kind.text ++ "\")"
  | rest => "Rest"

end Slot

namespace Command

/-- Every command, in the order of the manual. -/
def all : List Command :=
  [assign, forTo, next, goto, gosub, comeBack, ifThen, data, read, restore, remark, randomize, stop,
    plot, draw, circle, ink, paper, bright, flash, overprint, inverse, poke, cls]

/-- The word that a statement with this command begins with. -/
def name : Command → String
  | assign => "LET"
  | forTo => "FOR"
  | next => "NEXT"
  | goto => "GOTO"
  | gosub => "GOSUB"
  | comeBack => "RETURN"
  | ifThen => "IF"
  | data => "DATA"
  | read => "READ"
  | restore => "RESTORE"
  | remark => "REM"
  | randomize => "RANDOMIZE"
  | stop => "STOP"
  | plot => "PLOT"
  | draw => "DRAW"
  | circle => "CIRCLE"
  | ink => "INK"
  | paper => "PAPER"
  | bright => "BRIGHT"
  | flash => "FLASH"
  | overprint => "OVER"
  | inverse => "INVERSE"
  | poke => "POKE"
  | cls => "CLS"

/-- The command that an upper-case word names. -/
def find? (word : String) : Option Command := all.find? fun c => c.name = word

/-- The arguments begin with a variable and an `=`, which are no part of an expression. -/
def assigns : Command → Bool
  | assign | forTo => true
  | _ => false

/-- The slots of the arguments. -/
def form : Command → List Slot
  | assign => [.name, .equal, .number]
  | forTo => [.name, .equal, .number, .upTo, .number, .step, .number]
  | next => [.name]
  | goto | gosub | randomize | ink | paper | bright | flash | overprint | inverse => [.number]
  | comeBack | restore | stop | cls => []
  | ifThen => [.number, .thenDo, .rest]
  | data | remark => [.rest]
  | read =>
    [.name, .comma, .name, .comma, .name, .comma, .name, .comma,
      .name, .comma, .name, .comma, .name, .comma, .name]
  | plot | draw | poke => [.number, .comma, .number]
  | circle => [.number, .comma, .number, .comma, .number]

/-- The numbers of slots that may be filled. -/
def arity : Command → List Nat
  | assign | ifThen | plot | draw | poke => [3]
  | forTo => [5, 7]
  | next | goto | gosub | ink | paper | bright | flash | overprint | inverse => [1]
  | comeBack | restore | stop | cls => [0]
  | data | remark | randomize => [0, 1]
  | read => [1, 3, 5, 7, 9, 11, 13, 15]
  | circle => [5]

def debugText (c : Command) : String :=
  "Command \x7b " ++ c.name ++ " [" ++ String.intercalate ", " (c.form.map Slot.debugText) ++ "] \x7d"

end Command

end SpectrumBasic
