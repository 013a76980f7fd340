import SpectrumBasic.CommandLine.Options
import SpectrumBasic.Machine
import SpectrumBasic.Number.Positional
import SpectrumBasic.Screen.Preview
import SpectrumBasic.Screen.Redraw

/-! A run of a program from the command line. It alternates batches of statements with redraws until
the program ends, fails or has had its quanta, and then shows what it was asked for. -/

namespace SpectrumBasic.CommandLine

open Screen (Display Frame Report)

structure Session where
  options : Options
  machine : Machine
  frame : Frame := .black
  /-- The number of quanta so far. -/
  quanta : Nat := 0
  /-- What the last quantum ended with. -/
  event : Event := .running

/-- What a run leaves behind. -/
structure Outcome where
  code : UInt32
  stdout : String := ""
  stderr : String := ""
  /-- The picture, and the file to write it to. -/
  picture : Option (String × Frame) := none

namespace Session

def start (o : Options) (source : Text) (entropy : Generator) : Session :=
  let display :=
    if o.noise then .noisy ((o.seed.map Generator.ofSeed).getD entropy) else .clear
  let machine := Machine.load source display entropy
  { options := o
    machine :=
      match o.seed with
      | some n => machine.seed n
      | none => machine }

/-- A batch of statements and a redraw. -/
def quantum (s : Session) : Session :=
  let (event, machine) := s.machine.execute s.options.speed
  let (puts, display) := machine.context.display.redraw
  { s with
    event
    machine := machine.onDisplay fun _ => display
    frame := s.frame.putAll puts
    quanta := s.quanta + 1 }

/-- Whether no quantum is to follow. -/
def isOver (s : Session) : Bool := s.event ≠ .running || s.options.quanta.any (· ≤ s.quanta)

end Session

/-- A byte in hexadecimal. -/
def hexByte (b : UInt8) : String :=
  let digits := Nat.toDigits 16 b.toNat
  "0x" ++ String.ofList (List.replicate (2 - digits.length) '0' ++ digits)

/-- The report on a pixel in three lines. -/
def describe (r : Report) : String :=
  let p := r.pixel
  let pair (a b : Nat) : String := toString a ++ "," ++ toString b
  "PIXEL " ++ pair p.x p.y ++ " BLOCK " ++ pair p.blockX p.blockY ++ "\n" ++
    "BITMAP " ++ toString p.bitmapAddress ++ " = " ++ hexByte r.bitmap ++ " BIT " ++ hexByte p.mask ++
    (if r.isLit then " SET" else " CLEAR") ++ "\n" ++
    "ATTR " ++ toString p.attributeAddress ++ " = " ++ hexByte r.attr ++
    " INK " ++ toString (Screen.Attribute.inkColour r.attr).toNat ++
    " PAPER " ++ toString (Screen.Attribute.paperColour r.attr).toNat

/-- What the display says about a point, which may be off the screen. -/
def inspection (d : Display) (x y : Float) : String :=
  match d.inspect? x y with
  | some report => describe report
  | none => Number.toText x ++ "," ++ Number.toText y ++ " IS OFF SCREEN"

def bold (text : String) : String := "\x1b[1m" ++ text ++ "\x1b[0m"

/-- What a session that is over leaves behind. -/
def Session.outcome (s : Session) : Outcome :=
  let o := s.options
  let preview := if o.preview then s.frame.preview else ""
  let inspected :=
    match o.inspect with
    | some (x, y) => inspection s.machine.context.display x y ++ "\n"
    | none => ""
  let (code, stderr) :=
    match s.event with
    | .failed f => ((1 : UInt32), bold f.message ++ "\n")
    | _ => (0, "")
  { code, stdout := preview ++ inspected, stderr, picture := o.picture.map (·, s.frame) }

/-- A failure that stops the run, and what caused it. -/
def failure (what cause : String) : Outcome :=
  { code := 1, stderr := "Error: " ++ what ++ "\n\nCaused by:\n    " ++ cause ++ "\n" }

/-- The program cannot be read. -/
def unreadable (path cause : String) : Outcome := failure ("failed to read \"" ++ path ++ "\"") cause

/-- The cause of a file that is not there. -/
def noSuchFile : String := "No such file or directory (os error 2)"

/-- The command line makes no sense. -/
def misused (problem : String) : Outcome := { code := 2, stderr := "error: " ++ problem ++ "\n" }

end SpectrumBasic.CommandLine
