import SpectrumBasic.DataCursor
import SpectrumBasic.Expression.Value
import SpectrumBasic.ForLoop
import SpectrumBasic.ReturnStack
import SpectrumBasic.Screen.Display

/-! All that the statements of a program work on. -/

namespace SpectrumBasic

open Screen (Display)

structure Context where
  vars : Variables := .empty
  /-- The loops that a `NEXT` may continue, by the name of their variable. -/
  loops : Std.TreeMap String ForLoop := {}
  returns : ReturnStack := {}
  /-- The `DATA` of the program, or the fault that is in it. -/
  data : Except Fault DataCursor
  display : Display
  /-- Where `RND` draws from. -/
  random : Generator
  /-- Where fresh seeds come from. -/
  entropy : Generator

namespace Context

/-- The context in which a program starts. -/
def start (source : Text) (display : Display) (entropy : Generator) : Context :=
  let (seed, entropy) := entropy.doubleWord
  { data := DataCursor.harvest source, display, random := .ofSeed seed, entropy }

/-- Makes `RND` repeatable. -/
def seed (c : Context) (n : UInt64) : Context := { c with random := .ofSeed n }

/-- Makes `RND` unpredictable. -/
def reseed (c : Context) : Context :=
  let (n, entropy) := c.entropy.doubleWord
  { c with random := .ofSeed n, entropy }

end Context

/-- A computation on a context that may fail. What it changed before it failed stays changed. -/
abbrev Action := ExceptT Fault (StateM Context)

namespace Action

/-- Draws random numbers with the variables at hand. -/
def ofDraw {α : Type} (draw : Variables → Expression.Draw α) : Action α := do
  let c ← get
  let (result, random) := (draw c.vars).run.run c.random
  set { c with random }
  liftExcept result

/-- Names the statement that a failure arose in. -/
def inStatement {α : Type} (text : Text) (a : Action α) : Action α :=
  ExceptT.adapt (·.inStatement text) a

def store (name : String) (x : Float) : Action Unit := do
  let c ← get
  let vars ← liftExcept (c.vars.store name x)
  set { c with vars }

/-- Takes the next value of the `DATA`. -/
def readData : Action Float := do
  let c ← get
  let (x, cursor) ← liftExcept (c.data >>= DataCursor.read)
  set { c with data := .ok cursor }
  return x

def restoreData : Action Unit := do
  let c ← get
  let cursor ← liftExcept c.data
  set { c with data := .ok cursor.restore }

/-- Takes the latest place to return to. -/
def popReturn : Action Nat := do
  let c ← get
  match c.returns.pop? with
  | some (offset, returns) =>
    set { c with returns }
    return offset
  | none => throw { kind := .returnWithoutGosub }

def onDisplay (f : Display → Display) : Action Unit :=
  modify fun c => { c with display := f c.display }

end Action

end SpectrumBasic
