import SpectrumBasic.CommandLine.Session
import SpectrumBasic.Screen.Png

/-! The program at the command line: reads the file, runs it, and writes what is left behind. -/

namespace SpectrumBasic.CommandLine

/-- Runs quanta until the session is over, with a rest between them. -/
partial def Session.runToEnd (s : Session) : IO Session := do
  let s := s.quantum
  if s.isOver then return s
  if 0 < s.options.tick then IO.sleep s.options.tick.toUInt32
  s.runToEnd

/-- A generator with an unpredictable seed. -/
def unpredictable : IO Generator := do
  let bytes ← IO.getRandomBytes 8
  return .ofSeed (bytes.toList.foldl (fun n b => n * 256 + b.toUInt64) 0)

/-- Writes what a run leaves behind, and gives its exit code. -/
def Outcome.write (o : Outcome) : IO UInt32 := do
  (← IO.getStderr).putStr o.stderr
  if let some (path, frame) := o.picture then
    IO.FS.writeBinFile path (ByteArray.mk (Screen.Png.encode frame).toArray)
  (← IO.getStdout).putStr o.stdout
  return o.code

def runFile (o : Options) : IO Outcome := do
  let entropy ← unpredictable
  match ← (IO.FS.readFile o.program).toBaseIO with
  | .ok source => return (← (Session.start o source.toList entropy).runToEnd).outcome
  | .error (.noFileOrDirectory ..) => return unreadable o.program noSuchFile
  | .error e => return unreadable o.program (toString e)

end SpectrumBasic.CommandLine

open SpectrumBasic.CommandLine in
def main (words : List String) : IO UInt32 := do
  match Options.read words with
  | .ok o => (← runFile o).write
  | .error problem => (misused problem).write
