import SpectrumBasic.Program
import SpectrumBasic.Statement

/-! The machine that runs a program. It executes one statement a step and is driven in batches of
steps, so that its host can redraw the display or interrupt it in between. -/

namespace SpectrumBasic

open Screen (Display)

/-- What a machine does next: execute the statement at its offset, look for a line, or nothing,
after a fault or at the end of the program. -/
inductive Status
  | running
  | seeking (goal : Nat)
  | halted
  | stopped
deriving DecidableEq, Repr

structure Machine where
  source : Text
  offset : Nat := 0
  status : Status := .running
  /-- The host asked for a break since the last batch. -/
  interrupted : Bool := false
  context : Context

/-- What a batch ended with. -/
inductive Event
  | running
  | stopped
  | failed (f : Fault)
deriving DecidableEq, Repr

namespace Machine

/-- A machine in front of the first statement. -/
def load (source : Text) (display : Display) (entropy : Generator) : Machine :=
  { source, context := .start source display entropy }

def isRunning (m : Machine) : Bool :=
  match m.status with
  | .running | .seeking _ => true
  | .halted | .stopped => false

/-! ### What the host does -/

def seed (m : Machine) (n : UInt64) : Machine := { m with context := m.context.seed n }

/-- Asks for a break at the next batch. -/
def interrupt (m : Machine) : Machine := { m with interrupted := true }

def onDisplay (m : Machine) (f : Display → Display) : Machine :=
  { m with context := { m.context with display := f m.context.display } }

/-- The value of a variable, named in letters of either case. -/
def variableValue (m : Machine) (name : String) : Float := m.context.vars.fetch name.toUpper

def hasLoop (m : Machine) (name : String) : Bool := m.context.loops.contains name.toUpper

/-! ### Steps -/

/-- The offset at which the machine goes on: the one it stands at, or the one that its search for a
line ends at. -/
def place (m : Machine) : Nat :=
  match m.status with
  | .seeking goal => Program.seekFrom goal m.offset (Text.dropBytes m.offset m.source)
  | _ => m.offset

/-- Goes to a line. Line zero is the top of the program, whatever number stands there. -/
def goto (m : Machine) (line : Nat) : Machine :=
  { m with offset := 0, status := if line = 0 then .running else .seeking line }

/-- Goes where the statement `text` with these ends says. -/
def follow (m : Machine) (text : Text) (ends : Program.Boundary) (flow : Flow) :
    Except Fault Machine :=
  let next := ends.stop + 1
  match flow with
  | .next => .ok { m with offset := next }
  | .goto line => .ok (m.goto line)
  | .gosub line => do
    let returns ← (m.context.returns.push next).mapError (·.inStatement text)
    return { m with context := { m.context with returns } }.goto line
  | .jump offset => .ok { m with offset }
  | .loop record =>
    let loops := m.context.loops.insert record.variableName { record with resume := next }
    .ok { m with offset := next, context := { m.context with loops } }
  | .endOfLine => .ok { m with offset := ends.newline + 1 }

/-- Executes the statement at an offset. -/
def executeAt (m : Machine) (offset : Nat) : Option Fault × Machine :=
  let text := Program.firstStatement (Text.dropBytes offset m.source)
  let ends := Program.boundary m.source offset
  let (result, context) := (Action.inStatement text (Statement.execute text)).run.run m.context
  let m := { m with offset, status := .running, context }
  match result with
  | .error f => (some f, m)
  | .ok flow =>
    match m.follow text ends flow with
    | .error f => (some f, m)
    | .ok m => (none, m)

/-- One step: executes the next statement, or stops behind the last one. -/
def step (m : Machine) : Option Fault × Machine :=
  if m.place < Text.byteLength m.source then m.executeAt m.place
  else (none, { m with offset := m.place, status := .stopped })

/-- At most `n` steps. A fault halts the machine. -/
def steps : Nat → Machine → Event × Machine
  | 0, m => (if m.isRunning then .running else .stopped, m)
  | n + 1, m =>
    if m.isRunning then
      match m.step with
      | (none, m) => steps n m
      | (some f, m) => (.failed f, { m with status := .halted })
    else (.stopped, m)

/-- A batch of at most `n` steps, but at least one. A break that was asked for comes first and halts
a running machine. -/
def execute (m : Machine) (n : Nat) : Event × Machine :=
  let broken := m.interrupted && m.isRunning
  let m := { m with interrupted := false }
  if broken then (.failed { kind := .interrupted }, { m with status := .halted })
  else m.steps (max n 1)

end Machine

end SpectrumBasic
