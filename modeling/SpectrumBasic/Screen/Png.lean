import SpectrumBasic.Screen.Frame

/-! The picture as a file in the PNG format, with its bytes stored and not compressed. -/

namespace SpectrumBasic.Screen.Png

/-- The bytes of a 32-bit word, the highest first. -/
def word (w : UInt32) : List UInt8 :=
  [(w >>> 24).toUInt8, (w >>> 16).toUInt8, (w >>> 8).toUInt8, w.toUInt8]

/-- The low two bytes of a number, the lower first. -/
def half (n : Nat) : List UInt8 := [n.toUInt8, (n / 256).toUInt8]

def crcShift (c : UInt32) : UInt32 :=
  if c &&& 1 = 0 then c >>> 1 else (c >>> 1) ^^^ 0xEDB88320

def crcStep (c : UInt32) (b : UInt8) : UInt32 := Nat.repeat crcShift 8 (c ^^^ b.toUInt32)

/-- The cyclic redundancy check of a chunk. -/
def crc (bytes : List UInt8) : UInt32 := bytes.foldl crcStep 0xFFFFFFFF ^^^ 0xFFFFFFFF

/-- The two running sums that end a compressed stream. -/
def adler (bytes : List UInt8) : UInt32 :=
  let (a, b) := bytes.foldl
    (fun (a, b) byte => let a := (a + byte.toNat) % 65521; (a, (a + b) % 65521)) (1, 0)
  (b * 65536 + a).toUInt32

/-- Pieces of at most `n` bytes. -/
def pieces (n : Nat) (bytes : List UInt8) : List (List UInt8) :=
  (List.range ((bytes.length + n - 1) / n)).map fun i => (bytes.drop (n * i)).take n

/-- A stored block of a compressed stream. -/
def storedBlock (isLast : Bool) (bytes : List UInt8) : List UInt8 :=
  (if isLast then 1 else 0) :: half bytes.length ++ half (65535 - bytes.length) ++ bytes

/-- A compressed stream that only stores its bytes. -/
def storedStream (bytes : List UInt8) : List UInt8 :=
  let blocks := (pieces 65535 bytes).map (storedBlock false) ++ [storedBlock true []]
  [0x78, 0x01] ++ blocks.flatten ++ word (adler bytes)

def chunk (kind : String) (bytes : List UInt8) : List UInt8 :=
  let body := kind.toList.map (·.toNat.toUInt8) ++ bytes
  word bytes.length.toUInt32 ++ body ++ word (crc body)

/-- The rows of the picture, each behind a byte that says that it is not filtered. -/
def rows (f : Frame) : List UInt8 := (pieces (4 * width) f.rgba).flatMap (0 :: ·)

def encode (f : Frame) : List UInt8 :=
  let header := word width.toUInt32 ++ word height.toUInt32 ++ [8, 6, 0, 0, 0]
  [0x89, 0x50, 0x4E, 0x47, 0x0D, 0x0A, 0x1A, 0x0A] ++
    chunk "IHDR" header ++ chunk "IDAT" (storedStream (rows f)) ++ chunk "IEND" []

end SpectrumBasic.Screen.Png
