import SpectrumBasic.Random.Block

/-! The random stream. A generator is a key and a place in the endless stream of words that the key
stands for; drawing only moves the place on. -/

namespace SpectrumBasic

/-- A place in the stream of random words of a key. -/
structure Generator where
  key : Random.Key
  position : Nat := 0
deriving DecidableEq, Repr

namespace Generator

/-- The state of the seed sequence that follows `state`. -/
def nextSeedState (state : UInt64) : UInt64 := state * 6364136223846793005 + 11634580027462260723

/-- The key word that a state of the seed sequence yields. -/
def seedWord (state : UInt64) : UInt32 :=
  let x := (((state >>> 18) ^^^ state) >>> 27).toUInt32
  let turn := (state >>> 59).toUInt32
  (x >>> turn) ||| (x <<< ((32 - turn) % 32))

/-- The states of the seed sequence behind `state`. -/
def seedStates : Nat → UInt64 → List UInt64
  | 0, _ => []
  | n + 1, state => nextSeedState state :: seedStates n (nextSeedState state)

/-- The start of the stream of a seed, whose key is the first eight words of the seed sequence. -/
def ofSeed (seed : UInt64) : Generator :=
  let words := (seedStates 8 seed).map seedWord
  { key := Vector.ofFn fun i => words.getD i 0 }

/-- Word number `i` of the stream of a key. -/
def wordAt (key : Random.Key) (i : Nat) : UInt32 :=
  (Random.block key (i / 16).toUInt64).get ⟨i % 16, Nat.mod_lt i (by decide)⟩

/-- The next word. -/
def word (g : Generator) : UInt32 × Generator :=
  (wordAt g.key g.position, { g with position := g.position + 1 })

/-- The next two words as one, the first being the lower half. -/
def doubleWord (g : Generator) : UInt64 × Generator :=
  let (low, g) := g.word
  let (high, g) := g.word
  ((high.toUInt64 <<< 32) ||| low.toUInt64, g)

/-- The next number of the unit interval: the upper 53 bits of a double word as a fraction. -/
def unit (g : Generator) : Float × Generator :=
  let (w, g) := g.doubleWord
  ((w >>> 11).toFloat / 9007199254740992.0, g)

/-- The next `n` words. -/
def words : Nat → Generator → List UInt32 × Generator
  | 0, g => ([], g)
  | n + 1, g =>
    let (w, g) := g.word
    let (ws, g) := words n g
    (w :: ws, g)

end Generator

end SpectrumBasic
