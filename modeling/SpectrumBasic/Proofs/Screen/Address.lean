import Mathlib.Data.Int.ModEq
import SpectrumBasic.Proofs.Screen.Painting

/-! Reading and writing display memory by address. A write counts its address modulo 8192 from the
first byte of display memory, in words that wrap around; a read takes the addresses of display memory
and no others. Both come to the same byte, because 8192 divides the number of words, so the wrapping
is never seen, and because the window of a write begins where display memory does. -/

namespace SpectrumBasic.Screen

/-- The address is one of display memory. -/
def IsMapped (address : Int64) : Prop := 16384 ≤ address.toInt ∧ address.toInt < 23296

instance (address : Int64) : Decidable (IsMapped address) :=
  inferInstanceAs (Decidable (_ ∧ _))

/-- Where an address lies in the window of 8192 bytes that begins with display memory. -/
def windowOffset (address : Int64) : Nat := ((address.toInt - 16384) % 8192).toNat

/-! ### Arithmetic of addresses -/

theorem bmod_emod_window (x : Int) : x.bmod (2 ^ 64) % 8192 = x % 8192 := by
  have hdvd : (8192 : Int) ∣ ((2 ^ 64 : Nat) : Int) := by decide
  rw [← Int.emod_emod_of_dvd (x.bmod (2 ^ 64)) hdvd, Int.bmod_emod, Int.emod_emod_of_dvd x hdvd]

theorem toInt_emod_window (x : Int64) : x.toInt % 8192 = (x.toUInt64.toNat : Int) % 8192 := by
  have hbits : x.toInt = (x.toUInt64.toNat : Int).bmod (2 ^ 64) := BitVec.toInt_eq_toNat_bmod x.toBitVec
  rw [hbits, bmod_emod_window]

theorem toInt_base : Int64.toInt 16384 = 16384 := by decide

/-- Subtraction that wraps around ends at the same place of the window as exact subtraction. -/
theorem toInt_sub_emod_window (address : Int64) :
    (address - 16384).toInt % 8192 = (address.toInt - 16384) % 8192 := by
  rw [Int64.toInt_sub, bmod_emod_window, toInt_base]

theorem wrapped_eq_windowOffset (address : Int64) :
    (address - 16384).toUInt64.toNat % 8192 = windowOffset address := by
  rw [windowOffset, ← toInt_sub_emod_window, toInt_emod_window]
  omega

example : windowOffset Int64.minValue = 0 ∧ windowOffset Int64.maxValue = 8191 := by decide

theorem coe_windowOffset (address : Int64) :
    (windowOffset address : Int) = (address.toInt - 16384) % 8192 := by
  rw [windowOffset]
  omega

/-- Subtracting the first address of display memory from one of its addresses does not wrap. -/
theorem IsMapped.toInt_sub {address : Int64} (h : IsMapped address) :
    (address - 16384).toInt = address.toInt - 16384 := by
  obtain ⟨hlow, hhigh⟩ := h
  rw [Int64.toInt_sub, toInt_base, Int.bmod_eq_of_le (by omega) (by omega)]

theorem IsMapped.windowOffset_eq {address : Int64} (h : IsMapped address) :
    (windowOffset address : Int) = address.toInt - 16384 := by
  obtain ⟨hlow, hhigh⟩ := h
  rw [coe_windowOffset]
  omega

theorem IsMapped.windowOffset_lt {address : Int64} (h : IsMapped address) :
    windowOffset address < memorySize := by
  have hoffset := h.windowOffset_eq
  obtain ⟨hlow, hhigh⟩ := h
  simp only [memorySize, attributeStart, blockCount]
  omega

theorem windowOffset_eq_iff (a b : Int64) :
    windowOffset a = windowOffset b ↔ a.toInt ≡ b.toInt [ZMOD 8192] := by
  have ha := coe_windowOffset a
  have hb := coe_windowOffset b
  unfold Int.ModEq
  omega

/-! ### The byte at an address -/

namespace Display

variable (d : Display) (a b : Int64) (v : UInt8)

theorem poke_eq :
    d.poke a v =
      if h : windowOffset a < memorySize then d.write ⟨windowOffset a, h⟩ v else d := by
  simp only [poke, wrapped_eq_windowOffset]

theorem peek_of_isMapped {b : Int64} (h : IsMapped b) :
    d.peek b = d.memory.get ⟨windowOffset b, h.windowOffset_lt⟩ := by
  have hoffset := h.windowOffset_eq
  have hrange : (baseAddress : Int) ≤ b.toInt ∧ b.toInt < baseAddress + memorySize := h
  have hindex : (b.toInt - baseAddress).toNat = windowOffset b := by
    simp only [baseAddress]
    omega
  unfold peek
  rw [dif_pos hrange]
  simp only [hindex]

theorem peek_of_not_isMapped {b : Int64} (h : ¬ IsMapped b) : d.peek b = 0 := by
  have hrange : ¬ ((baseAddress : Int) ≤ b.toInt ∧ b.toInt < baseAddress + memorySize) := h
  unfold peek
  rw [dif_neg hrange]

/-- A poke changes the bytes at the addresses that are congruent to its own. -/
theorem peek_poke :
    (d.poke a v).peek b =
      if IsMapped b ∧ a.toInt ≡ b.toInt [ZMOD 8192] then v else d.peek b := by
  by_cases hb : IsMapped b
  · simp only [hb, true_and, ← windowOffset_eq_iff]
    rw [peek_of_isMapped _ hb, peek_of_isMapped _ hb, poke_eq]
    by_cases ha : windowOffset a < memorySize
    · rw [dif_pos ha, get_write]
      simp only [Fin.mk.injEq, eq_comm]
    · -- the poke is lost, and no address of display memory is congruent to it
      have hne : windowOffset a ≠ windowOffset b := by
        have := hb.windowOffset_lt
        omega
      rw [dif_neg ha, if_neg hne]
  · simp only [hb, false_and, if_false]
    rw [peek_of_not_isMapped _ hb, peek_of_not_isMapped _ hb]

/-! ### Sequences of pokes -/

/-- Pokes one after another, each an address and a byte. -/
def pokeAll (pokes : List (Int64 × UInt8)) (d : Display) : Display :=
  Operation.runAll (pokes.map fun p => .poke p.1 p.2) d

/-- The bytes that some pokes send to the place of an address, in order. -/
def sentTo (b : Int64) (pokes : List (Int64 × UInt8)) : List UInt8 :=
  (pokes.filter fun p => p.1.toInt ≡ b.toInt [ZMOD 8192]).map Prod.snd

/-- The last of the pokes to an address decides. -/
theorem peek_pokeAll {b : Int64} (hb : IsMapped b) (pokes : List (Int64 × UInt8)) (d : Display) :
    (d.pokeAll pokes).peek b = (sentTo b pokes).getLast?.getD (d.peek b) := by
  induction pokes generalizing d with
  | nil => rfl
  | cons p pokes ih =>
    have hstep : d.pokeAll (p :: pokes) = (d.poke p.1 p.2).pokeAll pokes := rfl
    rw [hstep, ih, peek_poke]
    by_cases hp : p.1.toInt ≡ b.toInt [ZMOD 8192]
    · simp [sentTo, hp, hb, List.getLast?_cons]
    · simp [sentTo, hp]

end Display

/-! ### The block at an address -/

/-- The byte at an offset belongs to the block: it is the attribute of the block or one of the rows of
its bitmap. -/
def HasByte (block : Fin blockCount) (i : Fin memorySize) : Prop :=
  i = blockAttributeIndex block ∨ ∃ row, i = blockBitmapIndex block row

theorem hasByte_iff (block : Fin blockCount) (i : Fin memorySize) :
    HasByte block i ↔ blockOf i = block := by
  have hblock := block.isLt
  have hi := i.isLt
  unfold HasByte
  simp only [Fin.ext_iff, blockAttributeIndex, blockBitmapIndex]
  by_cases hattr : attributeStart ≤ i.val
  · rw [blockOf, if_pos hattr]
    simp only [memorySize, attributeStart, blockCount] at *
    constructor
    · rintro (h | ⟨row, h⟩)
      · omega
      · have := row.isLt
        omega
    · intro h
      omega
  · rw [blockOf, if_neg hattr]
    simp only [memorySize, attributeStart, blockCount] at *
    constructor
    · rintro (h | ⟨row, h⟩)
      · omega
      · have := row.isLt
        omega
    · intro h
      refine .inr ⟨⟨i.val / 256 % 8, Nat.mod_lt _ (by decide)⟩, ?_⟩
      show i.val = block.val % 256 + 2048 * (block.val / 256) + 256 * (i.val / 256 % 8)
      omega

/-- A poke into display memory writes to the block of its byte, and widens the dirty range by it. -/
theorem Display.dirty_poke (d : Display) {a : Int64} (v : UInt8) (h : windowOffset a < memorySize) :
    ∃ block, (∀ b, HasByte b ⟨windowOffset a, h⟩ ↔ b = block) ∧
      (d.poke a v).dirty = d.dirty.widen block ∧
      ∀ blocks, d.dirty.Spans blocks → (d.poke a v).dirty.Spans (insert block.val blocks) := by
  have hlt := blockOf_lt ⟨windowOffset a, h⟩
  have hdirty : (d.poke a v).dirty = d.dirty.widen (blockOf (windowOffset a)) := by
    rw [poke_eq, dif_pos h]
    rfl
  refine ⟨⟨blockOf (windowOffset a), hlt⟩, fun b => ?_, hdirty, fun blocks hspans => ?_⟩
  · rw [hasByte_iff, Fin.ext_iff]
    exact eq_comm
  · rw [hdirty]
    exact hspans.widen hlt

/-- After a poke, reading an address gives the byte if the address is one of display memory and
congruent to that of the poke, and what it gave before otherwise; other addresses read as zero. A poke
behind display memory, in the window of 8192 bytes, changes nothing at all, and any other adds the
block of its byte to the dirty range. Colours, modes, cursor and flash phase stay. The offset that a
poke comes to in words is the exact one, and so is the offset of a read, which lies inside memory. So
after any pokes a byte is what the last poke to its place sent there. -/
theorem peek_after_pokes (d : Display) (a b : Int64) (v : UInt8) :
    ((d.poke a v).peek b =
      if IsMapped b ∧ a.toInt ≡ b.toInt [ZMOD 8192] then v else d.peek b) ∧
    (¬ IsMapped b → d.peek b = 0 ∧ (d.poke a v).peek b = 0) ∧
    (6912 ≤ (a.toInt - 16384) % 8192 → d.poke a v = d) ∧
    ((a.toInt - 16384) % 8192 < 6912 → ∃ (i : Fin memorySize) (block : Fin blockCount),
      (i : Int) = (a.toInt - 16384) % 8192 ∧ (∀ other, HasByte other i ↔ other = block) ∧
        (d.poke a v).dirty = d.dirty.widen block ∧
        ∀ blocks, d.dirty.Spans blocks → (d.poke a v).dirty.Spans (insert block.val blocks)) ∧
    (d.poke a v).settings = d.settings ∧ (d.poke a v).phase = d.phase ∧
    (((a - 16384).toUInt64.toNat % 8192 : Nat) : Int) = (a.toInt - 16384) % 8192 ∧
    (IsMapped b → (b - 16384).toInt = b.toInt - 16384 ∧
      d.memory[(b - 16384).toInt.toNat]? = some (d.peek b)) ∧
    ∀ pokes, IsMapped b →
      (d.pokeAll pokes).peek b = (Display.sentTo b pokes).getLast?.getD (d.peek b) := by
  have hoffset := coe_windowOffset a
  refine ⟨d.peek_poke a b v, fun hb => ⟨d.peek_of_not_isMapped hb, Display.peek_of_not_isMapped _ hb⟩,
    fun hhole => ?_, fun hbyte => ?_, Display.settings_poke a v d, (Operation.poke a v).phase_run d, ?_,
    fun hb => ?_, fun pokes hb => Display.peek_pokeAll hb pokes d⟩
  · have hlost : ¬ windowOffset a < memorySize := by
      simp only [memorySize, attributeStart, blockCount]
      omega
    rw [d.poke_eq, dif_neg hlost]
  · have hlt : windowOffset a < memorySize := by
      simp only [memorySize, attributeStart, blockCount]
      omega
    obtain ⟨block, hblock, hdirty⟩ := d.dirty_poke v hlt
    exact ⟨_, block, hoffset, hblock, hdirty⟩
  · rw [wrapped_eq_windowOffset, hoffset]
  · have hindex : (b - 16384).toInt.toNat = windowOffset b := by
      have := hb.windowOffset_eq
      rw [hb.toInt_sub]
      omega
    refine ⟨hb.toInt_sub, ?_⟩
    rw [hindex, Vector.getElem?_eq_getElem hb.windowOffset_lt, d.peek_of_isMapped hb]
    rfl

end SpectrumBasic.Screen
