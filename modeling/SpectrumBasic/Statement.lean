import SpectrumBasic.Command.Arguments
import SpectrumBasic.Context
import SpectrumBasic.Token.Lexer

/-! Executing one statement. A statement changes its context and says where the program goes on. The
statement behind an `IF .. THEN` is executed as a statement of its own. -/

namespace SpectrumBasic

/-- Where the program goes on after a statement. -/
inductive Flow
  /-- With the statement that follows. -/
  | next
  /-- With the first line of at least this number. -/
  | goto (line : Nat)
  /-- Likewise, to come back later. -/
  | gosub (line : Nat)
  /-- With the statement at this offset. -/
  | jump (offset : Nat)
  /-- With the statement that follows, which is the body of a loop. -/
  | loop (record : ForLoop)
  /-- With the next line. -/
  | endOfLine

namespace Statement

/-- The line number that a number stands for, between 0 and 65535. -/
def lineTarget (x : Float) : Nat := x.toUInt16.toNat

/-- A line number that no line can have. -/
def noLine : Nat := 10000

/-- Whether the lowest bit of a number is set. -/
def isOdd (x : Float) : Bool := Number.toByte x &&& 1 ≠ 0

/-- Moves a loop on. The loop ends, with its variable as it is, when the next value would be past
the target. -/
def continueLoop (name : String) : Action Flow := do
  let c ← get
  match c.loops[name]? with
  | none => throw { kind := .nextWithoutFor }
  | some record =>
    let x := c.vars.fetch name + record.step
    if record.isPast x then
      set { c with loops := c.loops.erase name }
      return .next
    else
      Action.store name x
      return .jump record.resume

/-- Gives the next values of the `DATA` to some variables. -/
def readInto : List String → Action Unit
  | [] => return
  | name :: names => do
    Action.store name (← Action.readData)
    readInto names

/-- Carries out a command. `nested` executes the statement behind `THEN`. -/
def perform (nested : Text → Action Flow) (c : Command) (args : Arguments) : Action Flow :=
  let x := args.number 0
  let y := args.number 2
  let shown (f : Screen.Display → Screen.Display) : Action Flow := do
    Action.onDisplay f
    return .next
  match c with
  | .assign => do
    Action.store (← liftExcept (args.name 0)) y
    return .next
  | .forTo => do
    let variableName ← liftExcept (args.name 0)
    Action.store variableName y
    let step := if args.length = 7 then args.number 6 else 1.0
    return .loop { variableName, step, target := args.number 4 }
  | .next => do continueLoop (← liftExcept (args.name 0))
  | .goto => return .goto (lineTarget x)
  | .gosub => return .gosub (lineTarget x)
  | .comeBack => do return .jump (← Action.popReturn)
  | .ifThen =>
    if x == 0.0 then return .next
    else Action.inStatement (args.rest 2) (nested (args.rest 2))
  | .data => return .next
  | .read => do
    readInto args.names
    return .next
  | .restore => do
    Action.restoreData
    return .next
  | .remark => return .endOfLine
  | .randomize => do
    if args.isEmpty || x == 0.0 then modify Context.reseed
    else modify fun c => c.seed x.toUInt64
    return .next
  | .stop => return .goto noLine
  | .plot => shown (·.plot (x, y))
  | .draw => shown (·.draw x y)
  | .circle => shown (·.circle x y (args.number 4))
  | .ink => shown (·.ink (Number.toByte x))
  | .paper => shown (·.paper (Number.toByte x))
  | .bright => shown (·.bright (Number.toByte x))
  | .flash => shown (·.flash (Number.toByte x))
  | .overprint => shown (·.setOver (isOdd x))
  | .inverse => shown (·.setInverse (isOdd x))
  | .poke => shown (·.poke (Number.toInt64 x) (Number.toByte y))
  | .cls => shown (·.cls)

/-- Executes a statement with at most `depth` statements inside one another. -/
def executeWithin : Nat → Text → Action Flow
  | 0, _ => return .next
  | depth + 1, text =>
    match Token.lex text with
    | [] => return .next
    | ⟨span, .name word⟩ :: tokens =>
      match Command.find? word with
      | some c => do
        let args ← Action.ofDraw fun vars =>
          Arguments.ofPhrases vars c text (Phrase.ofTokens c.assigns tokens)
        perform (executeWithin depth) c args
      | none => throw { kind := .unknownCommand, span }
    | t :: _ => throw (.syntaxAt t.span .expectedCommand)

/-- Executes a statement. One that is blank or only a line number does nothing. The statement behind
a `THEN` is always shorter, so the bound on the depth is never met. -/
def execute (text : Text) : Action Flow := executeWithin (text.length + 1) text

end Statement

end SpectrumBasic
