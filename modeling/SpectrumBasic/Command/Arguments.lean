import SpectrumBasic.Command.Basic
import SpectrumBasic.Expression.Value
import SpectrumBasic.Phrase
import SpectrumBasic.Text.Blank

/-! The arguments of a command. The phrases of a statement fill the slots of the command's form from
the front; expressions are evaluated on the way, from left to right. -/

namespace SpectrumBasic

inductive Argument
  | number (x : Float)
  | name (n : String)
  | mark
  | rest (text : Text)

/-- The arguments of a command, one for each slot that is filled. -/
abbrev Arguments := List Argument

namespace Arguments

open Expression (Draw evaluate)

/-! ### Filling the slots -/

/-- The name that a phrase consists of. -/
def nameOf? : Phrase → Option String
  | .token ⟨_, .name n⟩ => some n
  | .expression ⟨_, .name n⟩ [] => some n
  | _ => none

/-- Fills one slot with a phrase of the statement `text`. -/
def fillSlot (vars : Variables) (text : Text) (slot : Slot) (p : Phrase) : Draw Argument :=
  match slot with
  | .number =>
    match p with
    | .expression first more => do return .number (← evaluate vars (first :: more))
    | .token t => throw (.syntaxAt t.span .expectedExpression)
  | .name =>
    match nameOf? p with
    | some n => return .name n
    | none => throw (.syntaxAt p.span .expectedVariable)
  | .mark kind =>
    match p with
    | .token t =>
      if t.kind = kind then return .mark else throw (.syntaxAt t.span (.expectedMark kind.text))
    | .expression .. => throw (.syntaxAt p.span (.expectedMark kind.text))
  | .rest => return .rest (Text.trim (Text.dropBytes p.span.start text))

/-- Fills slots as long as there are phrases. The rest of a statement takes all of them at once. -/
def fill (vars : Variables) (text : Text) : List Slot → List Phrase → Draw Arguments
  | _, [] => return []
  | [], p :: _ => throw (.syntaxAt p.span .unexpectedToken)
  | slot :: slots, p :: ps => do
    let argument ← fillSlot vars text slot p
    if slot = .rest then return [argument]
    else return argument :: (← fill vars text slots ps)

/-- The arguments that some phrases of the statement `text` give to a command. -/
def ofPhrases (vars : Variables) (c : Command) (text : Text) (ps : List Phrase) : Draw Arguments := do
  let args ← fill vars text c.form ps
  if args.length ∈ c.arity then return args else throw (.syntaxOf .wrongArgumentCount)

/-! ### Reading the slots -/

/-- The number in slot `i`, zero if there is none. -/
def number (args : Arguments) (i : Nat) : Float :=
  match args[i]? with
  | some (.number x) => x
  | _ => 0.0

/-- The name in slot `i`. -/
def name (args : Arguments) (i : Nat) : Except Fault String :=
  match args[i]? with
  | some (.name n) => .ok n
  | _ => .error (.syntaxOf .expectedVariable)

/-- All names, in order. -/
def names (args : Arguments) : List String :=
  args.filterMap fun
    | .name n => some n
    | _ => none

/-- The rest of the statement in slot `i`, blank if there is none. -/
def rest (args : Arguments) (i : Nat) : Text :=
  match args[i]? with
  | some (.rest text) => text
  | _ => []

end Arguments

end SpectrumBasic
