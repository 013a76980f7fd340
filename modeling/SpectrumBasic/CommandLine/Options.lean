import SpectrumBasic.Number.Literal

/-! What the words behind the program's name on the command line ask for. -/

namespace SpectrumBasic.CommandLine

structure Options where
  /-- The file that holds the program. -/
  program : String
  /-- The statements that are executed in one quantum. -/
  speed : Nat := 100
  /-- The milliseconds to sleep between quanta. -/
  tick : Nat := 0
  /-- The quanta to give up after. -/
  quanta : Option Nat := none
  /-- Start from random display memory. -/
  noise : Bool := false
  /-- The seed of `RND` and of the random display memory. -/
  seed : Option UInt64 := none
  /-- The file to write the last picture to. -/
  picture : Option String := none
  /-- Show the last picture in the terminal. -/
  preview : Bool := false
  /-- The point to report on. -/
  inspect : Option (Float × Float) := none

namespace Options

/-- A whole number below 2 ^ 64, perhaps with a plus in front. -/
def readWhole? (word : String) : Option Nat :=
  let digits :=
    match word.toList with
    | '+' :: t => t
    | t => t
  let n := Number.ofDigits digits
  if digits ≠ [] ∧ digits.all Char.isDigit ∧ n < 18446744073709551616 then some n else none

def whole (option word : String) : Except String Nat :=
  match readWhole? word with
  | some n => .ok n
  | none => .error ("invalid value '" ++ word ++ "' for '" ++ option ++ "'")

def real (option word : String) : Except String Float :=
  match Number.read? word.toList with
  | some x => .ok x
  | none => .error ("invalid value '" ++ word ++ "' for '" ++ option ++ "'")

/-- Separates an option from a value that is written behind an `=`. -/
def splitValue (word : String) : List String :=
  let front := word.toList.takeWhile (· ≠ '=')
  if "--".toList.isPrefixOf front ∧ front.length < word.length then
    [String.ofList front, String.ofList (word.toList.drop (front.length + 1))]
  else [word]

/-- Reads options and the file name, in any order, on top of the options read so far. -/
def readWords (o : Options) (hasProgram : Bool) : List String → Except String Options
  | [] => if hasProgram then .ok o else .error "the program to run is missing"
  | "--speed" :: n :: words => do readWords { o with speed := ← whole "--speed" n } hasProgram words
  | "--tick" :: n :: words => do readWords { o with tick := ← whole "--tick" n } hasProgram words
  | "--quanta" :: n :: words => do
    readWords { o with quanta := ← whole "--quanta" n } hasProgram words
  | "--noise" :: words => readWords { o with noise := true } hasProgram words
  | "--seed" :: n :: words => do
    readWords { o with seed := (← whole "--seed" n).toUInt64 } hasProgram words
  | "--png" :: path :: words => readWords { o with picture := path } hasProgram words
  | "--preview" :: words => readWords { o with preview := true } hasProgram words
  | "--inspect" :: x :: y :: words => do
    readWords { o with inspect := (← real "--inspect" x, ← real "--inspect" y) } hasProgram words
  | word :: words =>
    if hasProgram ∨ "-".toList.isPrefixOf word.toList then
      .error ("unexpected argument '" ++ word ++ "'")
    else readWords { o with program := word } true words

def read (words : List String) : Except String Options :=
  readWords { program := "" } false (words.flatMap splitValue)

end Options

end SpectrumBasic.CommandLine
