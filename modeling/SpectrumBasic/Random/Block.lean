/-! The block function of the random stream: twelve rounds over sixteen 32-bit words, of which eight
are a key and two count the blocks. -/

namespace SpectrumBasic.Random

abbrev Key := Vector UInt32 8

abbrev Block := Vector UInt32 16

def rotateLeft (x n : UInt32) : UInt32 := (x <<< n) ||| (x >>> (32 - n))

/-- Adds word `b` to word `a` and mixes the sum into word `d`. -/
def mix (s : Block) (a b d : Fin 16) (n : UInt32) : Block :=
  let sum := s[a] + s[b]
  (s.set a sum).set d (rotateLeft (s[d] ^^^ sum) n)

def quarterRound (s : Block) (a b c d : Fin 16) : Block :=
  let s := mix s a b d 16
  let s := mix s c d b 12
  let s := mix s a b d 8
  mix s c d b 7

/-- A round over the columns of the four by four square, then one over its diagonals. -/
def doubleRound (s : Block) : Block :=
  let s := quarterRound s 0 4 8 12
  let s := quarterRound s 1 5 9 13
  let s := quarterRound s 2 6 10 14
  let s := quarterRound s 3 7 11 15
  let s := quarterRound s 0 5 10 15
  let s := quarterRound s 1 6 11 12
  let s := quarterRound s 2 7 8 13
  quarterRound s 3 4 9 14

/-- The words that block number `count` starts from. -/
def initialBlock (key : Key) (count : UInt64) : Block :=
  #v[0x61707865, 0x3320646e, 0x79622d32, 0x6b206574,
    key[0], key[1], key[2], key[3], key[4], key[5], key[6], key[7],
    count.toUInt32, (count >>> 32).toUInt32, 0, 0]

/-- Block number `count` of the stream: six double rounds, added to the initial words. -/
def block (key : Key) (count : UInt64) : Block :=
  let start := initialBlock key count
  Vector.zipWith (· + ·) start (Nat.repeat doubleRound 6 start)

end SpectrumBasic.Random
