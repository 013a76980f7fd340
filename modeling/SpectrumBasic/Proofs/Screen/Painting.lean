import Mathlib.Data.Finset.Max
import SpectrumBasic.Proofs.Screen.Drawing

/-! What a redraw paints. An operation comes down to a list of writes, apart from what it sets, and each
write widens the dirty range by its block. So the range reaches from the least to the greatest block
written to since the last redraw, and is empty if there was no write: no write is lost, and none is
made up. A redraw paints by this range and by the flash phase. -/

namespace SpectrumBasic.Screen

/-! ### Writes -/

/-- An offset in memory and the byte that is written there. -/
abbrev Write := Fin memorySize × UInt8

namespace Display

def writeAll (ws : List Write) (d : Display) : Display := ws.foldl (fun d w => d.write w.1 w.2) d

/-- A visit writes the attribute of its block, and then the byte that its pixel is in. -/
def pixelWrites (d : Display) (p : Pixel) : List Write :=
  [(p.attributeIndex, d.attr),
    (p.bitmapIndex, drawBits d.overprint d.inverse (d.memory.get p.bitmapIndex) p.mask)]

def visitWrites (d : Display) : List Pixel → List Write
  | [] => []
  | p :: ps => d.pixelWrites p ++ (d.drawPixel p).visitWrites ps

theorem writeAll_append (ws ws' : List Write) (d : Display) :
    d.writeAll (ws ++ ws') = (d.writeAll ws).writeAll ws' := List.foldl_append

theorem writeAll_pixelWrites (d : Display) (p : Pixel) :
    d.writeAll (d.pixelWrites p) = d.drawPixel p := by
  have hbyte : (d.write p.attributeIndex d.attr).memory.get p.bitmapIndex =
      d.memory.get p.bitmapIndex := by
    rw [get_write, if_neg (p.bitmapIndex_ne_attributeIndex p)]
  unfold drawPixel
  dsimp only
  rw [hbyte]
  rfl

theorem writeAll_visitWrites (ps : List Pixel) (d : Display) :
    d.writeAll (d.visitWrites ps) = ps.foldl drawPixel d := by
  induction ps generalizing d with
  | nil => rfl
  | cons p ps ih => rw [visitWrites, writeAll_append, writeAll_pixelWrites, ih, List.foldl_cons]

theorem phase_writeAll (ws : List Write) (d : Display) : (d.writeAll ws).phase = d.phase := by
  induction ws generalizing d with
  | nil => rfl
  | cons w ws ih => exact ih (d.write w.1 w.2)

/-- After some writes a byte is as they say if it is one of those written, or if it was so before. -/
theorem get_writeAll_map (f : Fin memorySize → UInt8) {is : List (Fin memorySize)} {d : Display}
    {j : Fin memorySize} (h : j ∈ is ∨ d.memory.get j = f j) :
    (d.writeAll (is.map fun i => (i, f i))).memory.get j = f j := by
  induction is generalizing d with
  | nil => exact h.resolve_left (by simp)
  | cons i is ih =>
    apply ih (d := d.write i (f i))
    by_cases hj : j = i
    · subst hj
      exact .inr (by rw [get_write, if_pos rfl])
    · rw [get_write, if_neg hj]
      exact h.imp_left fun hmem => (List.mem_cons.mp hmem).resolve_left hj

end Display

theorem get_clearedMemory (a : UInt8) (i : Fin memorySize) :
    (clearedMemory a).get i = if i.val < attributeStart then 0 else a := by
  have h : (Vector.replicate attributeStart (0 : UInt8) ++ Vector.replicate blockCount a)[i.val] =
      if i.val < attributeStart then 0 else a := by
    simp only [Vector.getElem_append, Vector.getElem_replicate, dite_eq_ite]
  exact h

/-- The writes of an operation, in order. Clearing writes every byte, and a poke behind the attributes
writes none. -/
def Operation.writes : Operation → Display → List Write
  | .plot p, d => d.visitWrites (Drawing.plot p).pixels
  | .line p q, d => d.visitWrites (Drawing.line p q).pixels
  | .draw dx dy, d =>
    d.visitWrites (Drawing.line d.cursor (d.cursor.1 + dx, d.cursor.2 + dy)).pixels
  | .cls, d => (List.finRange memorySize).map fun i => (i, if i.val < attributeStart then 0 else d.attr)
  | .poke address value, _ =>
    let i := (address - 16384).toUInt64.toNat % 8192
    if h : i < memorySize then [(⟨i, h⟩, value)] else []
  | _, _ => []

/-- The blocks of some writes. -/
def writtenBlocks (ws : List Write) : Finset Nat := (ws.map fun w => blockOf w.1).toFinset

theorem blockOf_lt (i : Fin memorySize) : blockOf i < blockCount := by
  have hi := i.isLt
  simp only [memorySize, attributeStart, blockCount] at hi
  by_cases h : attributeStart ≤ i.val
  · rw [blockOf, if_pos h]
    simp only [attributeStart, blockCount]
    omega
  · rw [blockOf, if_neg h]
    simp only [attributeStart, blockCount] at h ⊢
    omega

/-! ### The dirty range -/

/-- The range reaches from the least to the greatest of the blocks, and is empty if there is none. -/
structure DirtyRange.Spans (r : DirtyRange) (blocks : Finset Nat) : Prop where
  lt : ∀ b ∈ blocks, b < blockCount
  empty : blocks = ∅ → r = .empty
  low_mem : blocks.Nonempty → r.low ∈ blocks
  high_mem : blocks.Nonempty → r.high ∈ blocks
  low_le : ∀ b ∈ blocks, r.low ≤ b
  le_high : ∀ b ∈ blocks, b ≤ r.high

namespace DirtyRange.Spans

variable {r r' : DirtyRange} {blocks : Finset Nat}

theorem unique (h : r.Spans blocks) (h' : r'.Spans blocks) : r = r' := by
  rcases blocks.eq_empty_or_nonempty with hempty | hsome
  · rw [h.empty hempty, h'.empty hempty]
  · have hlow := Nat.le_antisymm (h.low_le _ (h'.low_mem hsome)) (h'.low_le _ (h.low_mem hsome))
    have hhigh := Nat.le_antisymm (h'.le_high _ (h.high_mem hsome)) (h.le_high _ (h'.high_mem hsome))
    cases r
    cases r'
    simp_all

theorem nothing : DirtyRange.empty.Spans ∅ where
  lt := by simp
  empty _ := rfl
  low_mem := by simp
  high_mem := by simp
  low_le := by simp
  le_high := by simp

theorem everything : DirtyRange.full.Spans (Finset.range blockCount) where
  lt b hb := Finset.mem_range.mp hb
  empty h := absurd (Finset.range_eq_empty_iff.mp h) (by decide)
  low_mem _ := Finset.mem_range.mpr (by decide)
  high_mem _ := Finset.mem_range.mpr (by decide)
  low_le b _ := Nat.zero_le b
  le_high b hb := Nat.le_sub_one_of_lt (Finset.mem_range.mp hb)

/-- One more block widens the range just as far as it has to. -/
theorem widen (h : r.Spans blocks) {b : Nat} (hb : b < blockCount) :
    (r.widen b).Spans (insert b blocks) := by
  have hends : (r.widen b).low ∈ insert b blocks ∧ (r.widen b).high ∈ insert b blocks := by
    rcases blocks.eq_empty_or_nonempty with hempty | hsome
    · -- the ends of the empty range lie outside of every block
      subst hempty
      rw [h.empty rfl]
      simp only [DirtyRange.widen, DirtyRange.empty, Finset.mem_insert]
      omega
    · have hmin : min r.low b = r.low ∨ min r.low b = b := by omega
      have hmax : max r.high b = r.high ∨ max r.high b = b := by omega
      constructor
      · rcases hmin with hmin | hmin <;> simp [DirtyRange.widen, hmin, h.low_mem hsome]
      · rcases hmax with hmax | hmax <;> simp [DirtyRange.widen, hmax, h.high_mem hsome]
  refine ⟨?_, ?_, fun _ => hends.1, fun _ => hends.2, ?_, ?_⟩
  · simpa [hb] using h.lt
  · intro hempty
    exact absurd hempty (Finset.insert_ne_empty b blocks)
  · intro c hc
    rcases Finset.mem_insert.mp hc with rfl | hc
    · exact Nat.min_le_right _ _
    · exact (Nat.min_le_left _ _).trans (h.low_le c hc)
  · intro c hc
    rcases Finset.mem_insert.mp hc with rfl | hc
    · exact Nat.le_max_right _ _
    · exact (h.le_high c hc).trans (Nat.le_max_left _ _)

theorem writeAll {d : Display} (h : d.dirty.Spans blocks) (ws : List Write) :
    (d.writeAll ws).dirty.Spans (blocks ∪ writtenBlocks ws) := by
  induction ws generalizing d blocks with
  | nil =>
    have hblocks : blocks ∪ writtenBlocks [] = blocks := Finset.union_empty blocks
    rw [hblocks]
    exact h
  | cons w ws ih =>
    have hblocks : blocks ∪ writtenBlocks (w :: ws) =
        insert (blockOf w.1) blocks ∪ writtenBlocks ws := by
      rw [writtenBlocks, List.map_cons, List.toFinset_cons, Finset.union_insert, Finset.insert_union]
      rfl
    rw [hblocks]
    exact ih (d := d.write w.1 w.2) (h.widen (blockOf_lt w.1))

end DirtyRange.Spans

/-- Clearing writes to every block. -/
theorem writtenBlocks_cls (d : Display) :
    writtenBlocks (Operation.cls.writes d) = Finset.range blockCount := by
  ext b
  simp only [writtenBlocks, Operation.writes, List.map_map, List.mem_toFinset, List.mem_map,
    List.mem_finRange, true_and, Finset.mem_range, Function.comp_apply]
  constructor
  · rintro ⟨i, rfl⟩
    exact blockOf_lt i
  · intro hb
    refine ⟨blockAttributeIndex ⟨b, hb⟩, ?_⟩
    have hle : attributeStart ≤ attributeStart + b := Nat.le_add_right _ _
    simp only [blockAttributeIndex]
    rw [blockOf, if_pos hle, Nat.add_sub_cancel_left]

/-- Apart from what it sets, an operation does what its writes do. -/
theorem Operation.sameScreen_writeAll (o : Operation) {d : Display} {blocks : Finset Nat}
    (h : d.dirty.Spans blocks) : SameScreen (d.writeAll (o.writes d)) (o.run d) := by
  have hdraw (c : Drawing) : SameScreen (d.writeAll (d.visitWrites c.pixels)) (c.operation.run d) := by
    obtain ⟨cursor, hrun⟩ := c.exists_run_eq d
    rw [hrun, Display.writeAll_visitWrites]
    exact ⟨rfl, rfl, rfl⟩
  cases o with
  | plot p => exact hdraw (.plot p)
  | line p q => exact hdraw (.line p q)
  | draw dx dy => exact hdraw (.line d.cursor (d.cursor.1 + dx, d.cursor.2 + dy))
  | cls =>
    have hspans := h.writeAll (Operation.cls.writes d)
    have hblocks : blocks ∪ Finset.range blockCount = Finset.range blockCount :=
      Finset.union_eq_right.mpr fun b hb => Finset.mem_range.mpr (h.lt b hb)
    rw [writtenBlocks_cls, hblocks] at hspans
    have hphase := Display.phase_writeAll (Operation.cls.writes d) d
    refine ⟨?_, DirtyRange.Spans.everything.unique hspans, (Operation.cls.phase_run d).trans hphase.symm⟩
    apply Vector.ext
    intro i hi
    have hwritten := Display.get_writeAll_map (fun i => if i.val < attributeStart then 0 else d.attr)
      (d := d) (.inl (List.mem_finRange ⟨i, hi⟩))
    exact (get_clearedMemory d.attr ⟨i, hi⟩).trans hwritten.symm
  | poke address value =>
    simp only [writes, run, Display.poke]
    split <;> exact ⟨rfl, rfl, rfl⟩
  | _ => exact ⟨rfl, rfl, rfl⟩

/-! ### Runs -/

/-- The blocks written to since the last redraw, after a step. -/
def Step.unseen : Step → Display → Finset Nat → Finset Nat
  | operate o, d, blocks => blocks ∪ writtenBlocks (o.writes d)
  | redraw, _, _ => ∅

/-- The blocks written to since the last redraw, after some steps. Without a redraw among them, those
written to before the steps count as well. -/
def unseenBlocks (blocks : Finset Nat) (s : Display × Frame) : List Step → Finset Nat
  | [] => blocks
  | step :: steps => unseenBlocks (step.unseen s.1 blocks) (step.run s) steps

theorem spans_step (step : Step) {s : Display × Frame} {blocks : Finset Nat}
    (h : s.1.dirty.Spans blocks) : (step.run s).1.dirty.Spans (step.unseen s.1 blocks) := by
  cases step with
  | operate o =>
    show (o.run s.1).dirty.Spans (blocks ∪ writtenBlocks (o.writes s.1))
    rw [(o.sameScreen_writeAll h).2.1]
    exact h.writeAll (o.writes s.1)
  | redraw => exact DirtyRange.Spans.nothing

/-- The dirty range spans what was written since the last redraw. -/
theorem spans_runSteps (steps : List Step) {s : Display × Frame} {blocks : Finset Nat}
    (h : s.1.dirty.Spans blocks) : (runSteps steps s).1.dirty.Spans (unseenBlocks blocks s steps) := by
  induction steps generalizing s blocks with
  | nil => exact h
  | cons step steps ih => exact ih (spans_step step h)

/-! ### Blocks to paint -/

/-- The blocks that a redraw has to paint if those of `written` were written to since the last one, and
if the flash phase turns over or not. -/
def dueBlocks (written : Finset Nat) (turns : Bool) (d : Display) : List (Fin blockCount) :=
  if h : written.Nonempty then
    if turns then List.finRange blockCount
    else (List.finRange blockCount).filter fun b => written.min' h ≤ b ∧ b ≤ written.max' h
  else if turns then (List.finRange blockCount).filter fun b => d.blockAttribute b &&& 0x80 ≠ 0
  else []

theorem pairwise_dueBlocks (written : Finset Nat) (turns : Bool) (d : Display) :
    (dueBlocks written turns d).Pairwise (· < ·) := by
  have hall := List.pairwise_lt_finRange blockCount
  unfold dueBlocks
  split
  · split
    · exact hall
    · exact hall.filter _
  · split
    · exact hall.filter _
    · exact .nil

theorem DirtyRange.Spans.hasDirt_iff {r : DirtyRange} {blocks : Finset Nat} (h : r.Spans blocks) :
    r.hasDirt = true ↔ blocks.Nonempty := by
  rw [hasDirt, decide_eq_true_eq]
  constructor
  · intro hle
    by_contra hnone
    rw [h.empty (Finset.not_nonempty_iff_eq_empty.mp hnone)] at hle
    exact absurd hle (by decide)
  · intro hsome
    exact h.low_le _ (h.high_mem hsome)

theorem Display.staleBlocks_eq {d : Display} {blocks : Finset Nat} (h : d.dirty.Spans blocks)
    (turns : Bool) : d.staleBlocks turns = dueBlocks blocks turns d := by
  have hdirt := h.hasDirt_iff
  unfold staleBlocks dueBlocks
  by_cases hsome : blocks.Nonempty
  · have hlow : blocks.min' hsome = d.dirty.low :=
      (blocks.min'_eq_iff hsome _).mpr ⟨h.low_mem hsome, h.low_le⟩
    have hhigh : blocks.max' hsome = d.dirty.high :=
      (blocks.max'_eq_iff hsome _).mpr ⟨h.high_mem hsome, h.le_high⟩
    rw [dif_pos hsome]
    simp only [hdirt.mpr hsome, if_true, hlow, hhigh]
    cases turns with
    | true => simp
    | false => simp [DirtyRange.contains]
  · have hclean : d.dirty.hasDirt = false := by simpa using mt hdirt.mp hsome
    rw [dif_neg hsome]
    simp only [hclean, Bool.false_eq_true, if_false]
    cases turns with
    | true => simp [Attribute.flashes]
    | false => simp

theorem isFlashed_eq_testBit (phase : Fin 64) : isFlashed phase = phase.val.testBit 5 := by
  revert phase
  decide

/-! ### The square of a block -/

/-- The puts cover the square of the block, each pixel once. -/
structure CoversOnce (block : Fin blockCount) (ps : List Put) : Prop where
  length : ps.length = 64
  nodup : (ps.map fun q => (q.x, q.y)).Nodup
  mem_iff : ∀ x y, (x, y) ∈ ps.map (fun q => (q.x, q.y)) ↔
    x / 8 = block.val % 32 ∧ y / 8 = block.val / 32
  inside : ∀ q ∈ ps, q.x < width ∧ q.y < height

/-- The pixels of a block in the order in which they are put. -/
theorem map_blockPuts (d : Display) (block : Fin blockCount) :
    (d.blockPuts block).map (fun q => (q.x, q.y)) =
      (List.finRange 8).flatMap fun row =>
        (List.range 8).map fun column =>
          (8 * (block.val % 32) + column, 8 * (block.val / 32) + row.val) := by
  simp [Display.blockPuts, List.map_flatMap, Function.comp_def]

theorem coversOnce_blockPuts (d : Display) (block : Fin blockCount) :
    CoversOnce block (d.blockPuts block) where
  length := by
    have h := congrArg List.length (map_blockPuts d block)
    simpa using h
  nodup := by
    rw [map_blockPuts, List.nodup_flatMap]
    constructor
    · intro row _
      refine List.nodup_range.map fun c c' h => ?_
      simpa using h
    · refine (List.nodup_finRange 8).imp fun {row row'} hne => ?_
      intro q hq hq'
      simp only [List.mem_map] at hq hq'
      obtain ⟨c, -, rfl⟩ := hq
      obtain ⟨c', -, h⟩ := hq'
      simp only [Prod.mk.injEq] at h
      omega
  mem_iff x y := by
    rw [map_blockPuts]
    simp only [List.mem_flatMap, List.mem_finRange, true_and, List.mem_map, List.mem_range, Prod.mk.injEq]
    constructor
    · rintro ⟨row, column, hc, rfl, rfl⟩
      omega
    · rintro ⟨hx, hy⟩
      have hrow := Nat.mod_lt y (by decide : 0 < 8)
      refine ⟨⟨y % 8, hrow⟩, x % 8, Nat.mod_lt _ (by decide), by omega, ?_⟩
      show 8 * (block.val / 32) + y % 8 = y
      omega
  inside q hq := by
    obtain ⟨row, column, hc, hx, hy, -⟩ := Display.mem_blockPuts.mp hq
    have hblock := block.isLt
    simp only [blockCount, width, height] at *
    omega

/-! ### Redraws -/

namespace Display

theorem turns_eq (d : Display) :
    (isFlashed (nextPhase d.phase) != isFlashed d.phase) =
      (d.phase.val.testBit 5 != d.redraw.2.phase.val.testBit 5) := by
  rw [isFlashed_eq_testBit, isFlashed_eq_testBit, bne_comm]
  rfl

/-- A redraw changes nothing but the dirty range and the phase. -/
theorem redraw_snd (d : Display) :
    d.redraw.2 = { d with phase := nextPhase d.phase, dirty := .empty } := rfl

theorem redraw_fst (d : Display) :
    d.redraw.1 = (d.staleBlocks (isFlashed (nextPhase d.phase) != isFlashed d.phase)).flatMap
      d.redraw.2.blockPuts := by
  rw [redraw_snd, redraw]

/-- A redraw paints the blocks that are due. -/
theorem puts_redraw {d : Display} {blocks : Finset Nat} (h : d.dirty.Spans blocks) :
    d.redraw.1 =
      (dueBlocks blocks (d.phase.val.testBit 5 != d.redraw.2.phase.val.testBit 5) d).flatMap
        d.redraw.2.blockPuts := by
  rw [← staleBlocks_eq h, ← turns_eq, redraw_fst]

/-- A redraw tells its host whether it puts any pixel. -/
theorem paintsAny_iff (d : Display) : d.paintsAny = true ↔ d.redraw.1 ≠ [] := by
  rw [paintsAny, decide_eq_true_eq, List.length_pos_iff, redraw_fst]
  generalize d.staleBlocks (isFlashed (nextPhase d.phase) != isFlashed d.phase) = blocks
  cases blocks with
  | nil => simp
  | cons block blocks =>
    have hsquare : d.redraw.2.blockPuts block ≠ [] := by
      intro hnil
      have hlength := (coversOnce_blockPuts d.redraw.2 block).length
      rw [hnil] at hlength
      cases hlength
    simp [hsquare]

end Display

/-- A redraw, after any run from a new display, paints the blocks that are due, in ascending order. With
no redraw before it, every block counts as written to. It empties the dirty range, moves the flash phase
on and changes nothing else. -/
theorem redraw_paints_dueBlocks (noise : Option Generator) (frame : Frame) (steps : List Step) :
    let new := (noise.elim Display.clear Display.noisy, frame)
    let d := (runSteps steps new).1
    let turns := d.phase.val.testBit 5 != d.redraw.2.phase.val.testBit 5
    let due := dueBlocks (unseenBlocks (Finset.range blockCount) new steps) turns d
    d.redraw.1 = due.flatMap d.redraw.2.blockPuts ∧ due.Pairwise (· < ·) ∧
    (∀ block, CoversOnce block (d.redraw.2.blockPuts block)) ∧
    (d.paintsAny = true ↔ d.redraw.1 ≠ []) ∧
    d.redraw.2.dirty.hasDirt = false ∧
    d.redraw.2 = { d with phase := nextPhase d.phase, dirty := .empty } := by
  intro new d turns due
  have hnew : new.1.dirty = .full := by cases noise <;> rfl
  have hspans : d.dirty.Spans (unseenBlocks (Finset.range blockCount) new steps) :=
    spans_runSteps steps (hnew ▸ DirtyRange.Spans.everything)
  refine ⟨Display.puts_redraw hspans, pairwise_dueBlocks _ _ _, coversOnce_blockPuts _,
    d.paintsAny_iff, ?_, d.redraw_snd⟩
  rw [d.redraw_snd]
  rfl

end SpectrumBasic.Screen
