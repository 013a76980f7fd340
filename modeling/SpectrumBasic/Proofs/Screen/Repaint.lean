import SpectrumBasic.Proofs.Screen.Operation
import SpectrumBasic.Screen.Redraw

/-! Redraws leave no stale pixel. Between redraws, a pixel of the frame may differ from display
memory only if its block is in the dirty range: a write can change only pixels of the block that it
marks, because the three ways of addressing a block agree. A redraw repaints the dirty blocks and,
when the flash phase turns over, the flashing ones, which are all whose pixels may have changed. -/

namespace SpectrumBasic.Screen

/-! ### Addresses -/

namespace Pixel

/-- The block of a pixel, counted row by row. -/
def block (p : Pixel) : Fin blockCount :=
  ⟨p.x / 8 + 32 * (p.y / 8), by
    have := p.x.isLt
    have := p.y.isLt
    simp only [width, height, blockCount] at *
    omega⟩

/-- The row of a pixel inside its block. -/
def row (p : Pixel) : Fin 8 := ⟨p.y % 8, Nat.mod_lt _ (by decide)⟩

theorem attributeIndex_eq (p : Pixel) : p.attributeIndex = blockAttributeIndex p.block := by
  apply Fin.ext
  simp only [attributeIndex, blockAttributeIndex, block]
  omega

theorem bitmapIndex_eq (p : Pixel) : p.bitmapIndex = blockBitmapIndex p.block p.row := by
  apply Fin.ext
  have := p.x.isLt
  have := p.y.isLt
  simp only [bitmapIndex, blockBitmapIndex, block, row, width, height] at *
  omega

theorem blockOf_attributeIndex (p : Pixel) : blockOf p.attributeIndex = p.block := by
  have : attributeStart ≤ p.attributeIndex := by
    simp only [attributeIndex]
    omega
  rw [blockOf, if_pos this]
  simp only [attributeIndex, block]
  omega

theorem blockOf_bitmapIndex (p : Pixel) : blockOf p.bitmapIndex = p.block := by
  have hx := p.x.isLt
  have hy := p.y.isLt
  simp only [width, height] at hx hy
  have : ¬ attributeStart ≤ p.bitmapIndex := by
    simp only [bitmapIndex, attributeStart]
    omega
  -- the column, the row in the block, the block row in its third and the third are the digits of
  -- the offset
  have digits : ∀ x r b t : Nat, x < 32 → r < 8 → b < 8 → t < 3 →
      (x + 256 * r + 32 * b + 2048 * t) % 256 = x + 32 * b ∧
        (x + 256 * r + 32 * b + 2048 * t) / 2048 % 4 = t := by
    intro x r b t hx hr hb ht
    omega
  obtain ⟨hlow, hthird⟩ := digits (p.x / 8) (p.y % 8) (p.y / 8 % 8) (p.y / 64) (by omega) (by omega)
    (by omega) (by omega)
  rw [blockOf, if_neg this]
  simp only [bitmapIndex, block, hlow, hthird]
  omega

end Pixel

/-! ### What memory shows -/

/-- The palette entry that memory gives to a pixel after some number of redraws: the ink or the paper
of its block, which change places while the block flashes and the redraws, counted modulo 64, have
bit 5 set. -/
def shownColour (memory : Memory) (redraws : Nat) (p : Pixel) : UInt8 :=
  let a := memory.get p.attributeIndex
  let ink := (a &&& 0x07) ||| ((a &&& 0x40) >>> (3 : UInt8))
  let paper := (a &&& 0x78) >>> (3 : UInt8)
  let swapped := a &&& 0x80 ≠ 0 ∧ redraws % 64 &&& 0x20 ≠ 0
  if memory.get p.bitmapIndex &&& p.mask ≠ 0 then
    if swapped then paper else ink
  else
    if swapped then ink else paper

theorem isFlashed_eq (phase : Fin 64) : isFlashed phase = decide (phase.val &&& 0x20 ≠ 0) := by
  revert phase
  decide

/-- Memory shows the same as long as the flash phase does not turn over. -/
theorem shownColour_congr_phase (memory : Memory) {phase phase' : Fin 64} (p : Pixel)
    (h : isFlashed phase = isFlashed phase') :
    shownColour memory phase p = shownColour memory phase' p := by
  rw [isFlashed_eq, isFlashed_eq, decide_eq_decide] at h
  have hmod : phase.val % 64 = phase ∧ phase'.val % 64 = phase' := by omega
  simp only [shownColour, hmod, h]

/-- A block that does not flash shows the same in every phase. -/
theorem shownColour_of_not_flashes {memory : Memory} {p : Pixel}
    (h : Attribute.flashes (memory.get p.attributeIndex) = false) (n m : Nat) :
    shownColour memory n p = shownColour memory m p := by
  simp only [Attribute.flashes, decide_eq_false_iff_not, ne_eq, Classical.not_not] at h
  simp only [shownColour, h]
  rfl

/-- A byte outside the block of a pixel does not matter to the pixel. -/
theorem shownColour_set {memory : Memory} {i : Fin memorySize} {p : Pixel}
    (h : blockOf i ≠ p.block) (value : UInt8) (n : Nat) :
    shownColour (memory.set i value i.isLt) n p = shownColour memory n p := by
  have ha : p.attributeIndex ≠ i := by
    rintro rfl
    exact h p.blockOf_attributeIndex
  have hb : p.bitmapIndex ≠ i := by
    rintro rfl
    exact h p.blockOf_bitmapIndex
  have hget : ∀ j : Fin memorySize, j ≠ i → (memory.set i value i.isLt).get j = memory.get j := by
    intro j hj
    exact Vector.getElem_set_ne i.isLt j.isLt fun hij => hj (Fin.ext hij.symm)
  simp only [shownColour, hget _ ha, hget _ hb]

/-! ### Frames -/

/-- The put is about the pixel. -/
def Put.IsAt (q : Put) (p : Pixel) : Prop := q.x = p.x ∧ q.y = p.y

namespace Frame

theorem index_lt (p : Pixel) : p.y.val * width + p.x.val < width * height := by
  have := p.x.isLt
  have := p.y.isLt
  simp only [width, height] at *
  omega

theorem colourAt_put_of_isAt (f : Frame) {q : Put} {p : Pixel} (h : q.IsAt p) :
    (f.put q).colourAt p.x p.y = q.colour := by
  have hq : q.x < width ∧ q.y < height := ⟨h.1 ▸ p.x.isLt, h.2 ▸ p.y.isLt⟩
  rw [put, dif_pos hq, colourAt]
  simp only [h.1, h.2]
  rw [Vector.getElem?_set_self (index_lt p), Option.getD_some]

theorem colourAt_put_of_not_isAt (f : Frame) {q : Put} {p : Pixel} (h : ¬ q.IsAt p) :
    (f.put q).colourAt p.x p.y = f.colourAt p.x p.y := by
  rw [put]
  split
  · next hq =>
    rw [colourAt, colourAt, Vector.getElem?_set_ne]
    intro heq
    have := p.x.isLt
    apply h
    simp only [Put.IsAt, width, height] at *
    omega
  · rfl

theorem colourAt_putAll_of_not_isAt (f : Frame) {ps : List Put} {p : Pixel}
    (h : ∀ q ∈ ps, ¬ q.IsAt p) : (f.putAll ps).colourAt p.x p.y = f.colourAt p.x p.y := by
  induction ps generalizing f with
  | nil => rfl
  | cons q ps ih =>
    have hq := h q List.mem_cons_self
    exact (ih (f.put q) fun r hr => h r (List.mem_cons_of_mem _ hr)).trans
      (f.colourAt_put_of_not_isAt hq)

/-- If all puts about a pixel agree, and there is one, their colour is what is seen in the end. -/
theorem colourAt_putAll_of_isAt (f : Frame) {ps : List Put} {p : Pixel} {c : UInt8}
    (hc : ∀ q ∈ ps, q.IsAt p → q.colour = c) (h : ∃ q ∈ ps, q.IsAt p) :
    (f.putAll ps).colourAt p.x p.y = c := by
  induction ps generalizing f with
  | nil => simp at h
  | cons q ps ih =>
    have hc' : ∀ r ∈ ps, r.IsAt p → r.colour = c := fun r hr => hc r (List.mem_cons_of_mem _ hr)
    by_cases hps : ∃ r ∈ ps, r.IsAt p
    · exact ih (f.put q) hc' hps
    · obtain ⟨r, hr, hat⟩ := h
      rcases List.mem_cons.mp hr with rfl | hr
      · have hlater : ∀ r' ∈ ps, ¬ r'.IsAt p := fun r' hr' hat' => hps ⟨r', hr', hat'⟩
        exact (colourAt_putAll_of_not_isAt (f.put r) hlater).trans
          ((f.colourAt_put_of_isAt hat).trans (hc r List.mem_cons_self hat))
      · exact absurd ⟨r, hr, hat⟩ hps

end Frame

/-! ### Painting -/

namespace Display

/-- The colour of a pixel by its block, its row in the block and its column in the byte. -/
theorem shownColour_eq (d : Display) (p : Pixel) :
    shownColour d.memory d.phase p =
      if d.memory.get (blockBitmapIndex p.block p.row) &&& columnMask (p.x % 8) ≠ 0 then
        (d.blockColours p.block).1
      else (d.blockColours p.block).2 := by
  have hswap : (Attribute.flashes (d.memory.get p.attributeIndex) && isFlashed d.phase) = true ↔
      d.memory.get p.attributeIndex &&& 0x80 ≠ 0 ∧ d.phase.val % 64 &&& 0x20 ≠ 0 := by
    rw [isFlashed_eq, Nat.mod_eq_of_lt d.phase.isLt]
    simp [Attribute.flashes]
  simp only [shownColour, blockColours, blockAttribute, ← p.attributeIndex_eq, ← p.bitmapIndex_eq,
    Pixel.mask]
  by_cases h : d.memory.get p.attributeIndex &&& 0x80 ≠ 0 ∧ d.phase.val % 64 &&& 0x20 ≠ 0
  · rw [if_pos h, if_pos h, if_pos (hswap.mpr h)]
    rfl
  · rw [if_neg h, if_neg h, if_neg (mt hswap.mp h)]
    rfl

theorem mem_blockPuts {d : Display} {block : Fin blockCount} {q : Put} :
    q ∈ d.blockPuts block ↔ ∃ row : Fin 8, ∃ column < 8,
      q.x = 8 * (block % 32) + column ∧ q.y = 8 * (block / 32) + row ∧
        q.colour = if d.memory.get (blockBitmapIndex block row) &&& columnMask column ≠ 0 then
          (d.blockColours block).1 else (d.blockColours block).2 := by
  simp only [blockPuts, List.mem_flatMap, List.mem_finRange, true_and, List.mem_map, List.mem_range]
  constructor
  · rintro ⟨row, column, hc, rfl⟩
    exact ⟨row, column, hc, rfl, rfl, rfl⟩
  · rintro ⟨row, column, hc, hx, hy, hcolour⟩
    refine ⟨row, column, hc, ?_⟩
    cases q
    simp_all

/-- A put of a block is about a pixel of the block and has the colour that memory shows. -/
theorem colour_of_mem_blockPuts {d : Display} {block : Fin blockCount} {q : Put} {p : Pixel}
    (hq : q ∈ d.blockPuts block) (hat : q.IsAt p) :
    p.block = block ∧ q.colour = shownColour d.memory d.phase p := by
  obtain ⟨row, column, hc, hx, hy, hcolour⟩ := mem_blockPuts.mp hq
  rw [hat.1] at hx
  rw [hat.2] at hy
  have hblock : p.block = block := by
    apply Fin.ext
    simp only [Pixel.block]
    omega
  have hrow : p.row = row := by
    apply Fin.ext
    simp only [Pixel.row]
    omega
  have hcolumn : p.x.val % 8 = column := by omega
  exact ⟨hblock, by rw [hcolour, shownColour_eq, hblock, hrow, hcolumn]⟩

/-- Every pixel of a block is put. -/
theorem exists_mem_blockPuts (d : Display) (p : Pixel) :
    ∃ q ∈ d.blockPuts p.block, q.IsAt p := by
  refine ⟨⟨p.x, p.y, shownColour d.memory d.phase p⟩, ?_, rfl, rfl⟩
  rw [mem_blockPuts]
  refine ⟨p.row, p.x % 8, Nat.mod_lt _ (by decide), ?_, ?_, shownColour_eq d p⟩
  · have := p.x.isLt
    simp only [Pixel.block, width] at *
    omega
  · have := p.x.isLt
    simp only [Pixel.block, Pixel.row, width] at *
    omega

/-- Painting some blocks shows memory in them and changes nothing else. -/
theorem colourAt_paint_of_mem {d : Display} {f : Frame} {blocks : List (Fin blockCount)} {p : Pixel}
    (hp : p.block ∈ blocks) :
    (f.putAll (blocks.flatMap d.blockPuts)).colourAt p.x p.y = shownColour d.memory d.phase p := by
  apply Frame.colourAt_putAll_of_isAt
  · intro q hq hat
    obtain ⟨block, -, hq⟩ := List.mem_flatMap.mp hq
    exact (colour_of_mem_blockPuts hq hat).2
  · obtain ⟨q, hq, hat⟩ := d.exists_mem_blockPuts p
    exact ⟨q, List.mem_flatMap.mpr ⟨p.block, hp, hq⟩, hat⟩

theorem colourAt_paint_of_not_mem {d : Display} {f : Frame} {blocks : List (Fin blockCount)}
    {p : Pixel} (hp : p.block ∉ blocks) :
    (f.putAll (blocks.flatMap d.blockPuts)).colourAt p.x p.y = f.colourAt p.x p.y := by
  apply Frame.colourAt_putAll_of_not_isAt
  intro q hq hat
  obtain ⟨block, hb, hq⟩ := List.mem_flatMap.mp hq
  exact hp ((colour_of_mem_blockPuts hq hat).1 ▸ hb)

end Display

/-! ### Runs of operations and redraws -/

/-- Every pixel outside the dirty range shows what memory says. -/
def UpToDate (d : Display) (f : Frame) : Prop :=
  ∀ p : Pixel, ¬ d.dirty.contains p.block → f.colourAt p.x p.y = shownColour d.memory d.phase p

namespace DirtyRange

theorem contains_iff (r : DirtyRange) (block : Nat) :
    r.contains block = true ↔ r.low ≤ block ∧ block ≤ r.high := by
  simp [contains]

theorem contains_widen (r : DirtyRange) (block : Nat) : (r.widen block).contains block = true := by
  simp only [contains_iff, widen]
  omega

theorem contains_widen_of_contains {r : DirtyRange} {other : Nat} (h : r.contains other = true)
    (block : Nat) : (r.widen block).contains other = true := by
  simp only [contains_iff, widen] at *
  omega

theorem hasDirt_of_contains {r : DirtyRange} {block : Nat} (h : r.contains block = true) :
    r.hasDirt = true := by
  simp only [contains_iff, hasDirt, decide_eq_true_eq] at *
  omega

theorem contains_full (block : Fin blockCount) : full.contains block = true := by
  have := block.isLt
  simp only [contains_iff, full, blockCount] at *
  omega

end DirtyRange

/-- What an operation writes, it marks. -/
theorem kept_upToDate (f : Frame) : Kept fun d => UpToDate d f where
  settings d d' h hd := by
    obtain ⟨hm, hr, hp⟩ := h
    unfold UpToDate at *
    rwa [hm, hr, hp]
  write d i value hd := by
    intro p hp
    have hclean : ¬ d.dirty.contains p.block := fun h =>
      hp (DirtyRange.contains_widen_of_contains h _)
    have hne : blockOf i ≠ p.block := by
      intro h
      apply hp
      show (d.dirty.widen (blockOf i)).contains p.block = true
      rw [h]
      exact DirtyRange.contains_widen _ _
    show _ = shownColour (d.memory.set i value) d.phase p
    rw [shownColour_set hne]
    exact hd p hclean
  cls d _ := fun p hp => absurd (DirtyRange.contains_full p.block) hp

/-- A block that is not stale is not dirty, and if the flash phase turns over it does not flash. -/
theorem Display.not_mem_staleBlocks {d : Display} {turns : Bool} {block : Fin blockCount}
    (h : block ∉ d.staleBlocks turns) :
    ¬ d.dirty.contains block ∧ (turns = false ∨ Attribute.flashes (d.blockAttribute block) = false) := by
  simp only [staleBlocks, List.mem_filter, List.mem_finRange, true_and] at h
  split at h
  · rw [Bool.or_eq_true, not_or, Bool.not_eq_true] at h
    exact ⟨h.2, .inl h.1⟩
  · next hd =>
    rw [Bool.and_eq_true, Classical.not_and_iff_not_or_not, Bool.not_eq_true, Bool.not_eq_true] at h
    exact ⟨mt DirtyRange.hasDirt_of_contains hd, h⟩

/-- A redraw brings every pixel up to date. -/
theorem colourAt_redraw {d : Display} {f : Frame} (h : UpToDate d f) (p : Pixel) :
    (f.putAll d.redraw.1).colourAt p.x p.y = shownColour d.memory d.redraw.2.phase p := by
  unfold Display.redraw
  dsimp only
  by_cases hp : p.block ∈ d.staleBlocks (isFlashed (nextPhase d.phase) != isFlashed d.phase)
  · rw [Display.colourAt_paint_of_mem hp]
  · obtain ⟨hclean, hshown⟩ := Display.not_mem_staleBlocks hp
    rw [Display.colourAt_paint_of_not_mem hp, h p hclean]
    rcases hshown with hturns | hflash
    · have hsame : isFlashed (nextPhase d.phase) = isFlashed d.phase := by simpa using hturns
      exact shownColour_congr_phase _ p hsame.symm
    · apply shownColour_of_not_flashes
      rwa [p.attributeIndex_eq]

theorem upToDate_redraw {d : Display} {f : Frame} (h : UpToDate d f) :
    UpToDate d.redraw.2 (f.putAll d.redraw.1) := fun p _ => colourAt_redraw h p

/-- What happens to a display that is shown on a frame. -/
inductive Step
  | operate (o : Operation)
  | redraw

def Step.run : Step → Display × Frame → Display × Frame
  | operate o, s => (o.run s.1, s.2)
  | redraw, s => (s.1.redraw.2, s.2.putAll s.1.redraw.1)

def runSteps (steps : List Step) (s : Display × Frame) : Display × Frame :=
  steps.foldl (fun s step => step.run s) s

def Step.isRedraw : Step → Bool
  | operate _ => false
  | redraw => true

def redrawCount (steps : List Step) : Nat := steps.countP Step.isRedraw

theorem runSteps_append (steps more : List Step) (s : Display × Frame) :
    runSteps (steps ++ more) s = runSteps more (runSteps steps s) := List.foldl_append

theorem runSteps_redraw (s : Display × Frame) :
    runSteps [.redraw] s = (s.1.redraw.2, s.2.putAll s.1.redraw.1) := rfl

/-- One step keeps the frame up to date. -/
theorem upToDate_step (step : Step) {s : Display × Frame} (h : UpToDate s.1 s.2) :
    UpToDate (step.run s).1 (step.run s).2 := by
  cases step with
  | operate o => exact (kept_upToDate s.2).run o s.1 h
  | redraw =>
    have hnext := upToDate_redraw h
    simpa only [Step.run] using hnext

/-- The phase counts the redraws. -/
theorem phase_step (step : Step) (s : Display × Frame) :
    (step.run s).1.phase.val = (s.1.phase + redrawCount [step]) % 64 := by
  cases step with
  | operate o =>
    show (o.run s.1).phase.val = (s.1.phase + 0) % 64
    rw [o.phase_run, Nat.add_zero, Nat.mod_eq_of_lt s.1.phase.isLt]
  | redraw => rfl

theorem upToDate_runSteps (steps : List Step) {s : Display × Frame} (h : UpToDate s.1 s.2) :
    UpToDate (runSteps steps s).1 (runSteps steps s).2 := by
  induction steps generalizing s with
  | nil => exact h
  | cons step steps ih => exact ih (upToDate_step step h)

theorem phase_runSteps (steps : List Step) (s : Display × Frame) :
    (runSteps steps s).1.phase.val = (s.1.phase + redrawCount steps) % 64 := by
  induction steps generalizing s with
  | nil => exact (Nat.mod_eq_of_lt s.1.phase.isLt).symm
  | cons step steps ih =>
    have hc : redrawCount (step :: steps) = redrawCount [step] + redrawCount steps := by
      rw [← List.singleton_append, redrawCount, List.countP_append]
      rfl
    show (runSteps steps (step.run s)).1.phase.val = _
    rw [ih, phase_step, hc]
    omega

/-- Every block, painted over whatever was there. -/
def Display.repaint (d : Display) (f : Frame) : Frame :=
  f.putAll ((List.finRange blockCount).flatMap d.blockPuts)

theorem Display.colourAt_repaint (d : Display) (f : Frame) (p : Pixel) :
    (d.repaint f).colourAt p.x p.y = shownColour d.memory d.phase p := by
  rw [repaint, colourAt_paint_of_mem (List.mem_finRange _)]

theorem Frame.ext_colourAt {f f' : Frame}
    (h : ∀ p : Pixel, f.colourAt p.x p.y = f'.colourAt p.x p.y) : f = f' := by
  obtain ⟨pixels⟩ := f
  obtain ⟨pixels'⟩ := f'
  rw [Frame.mk.injEq]
  apply Vector.ext
  intro i hi
  -- the pixel in place `i`
  have hx : i % width < width := Nat.mod_lt _ (by decide)
  have hy : i / width < height := Nat.div_lt_of_lt_mul hi
  have hp := h ⟨⟨i % width, hx⟩, ⟨i / width, hy⟩⟩
  have hi' : i / width * width + i % width = i := Nat.div_add_mod' i width
  simpa only [colourAt, hi', Vector.getElem?_eq_getElem hi, Option.getD_some] using hp

theorem shownColour_mod (memory : Memory) (n : Nat) (p : Pixel) :
    shownColour memory (n % 64) p = shownColour memory n p := by
  rw [shownColour, Nat.mod_mod]
  rfl

theorem upToDate_of_full {d : Display} (h : d.dirty = .full) (f : Frame) : UpToDate d f := by
  intro p hp
  rw [h] at hp
  exact absurd (DirtyRange.contains_full p.block) hp

/-- After every redraw of a run from a new display, on any frame, each pixel of the frame has the
colour that display memory gives it, and the frame is what a repaint of all blocks would give. -/
theorem frame_after_redraw (noise : Option Generator) (frame : Frame) (steps : List Step) :
    let s := runSteps (steps ++ [.redraw]) (noise.elim Display.clear Display.noisy, frame)
    (∀ p : Pixel, s.2.colourAt p.x p.y =
      shownColour s.1.memory (redrawCount (steps ++ [.redraw])) p) ∧
    ∀ f, s.1.repaint f = s.2 := by
  intro s
  have hnew : (noise.elim Display.clear Display.noisy).dirty = .full ∧
      (noise.elim Display.clear Display.noisy).phase = 0 := by
    cases noise <;> exact ⟨rfl, rfl⟩
  have hs : ∀ p : Pixel, s.2.colourAt p.x p.y = shownColour s.1.memory s.1.phase p := by
    intro p
    have hup : UpToDate (runSteps steps (noise.elim Display.clear Display.noisy, frame)).1 _ :=
      upToDate_runSteps steps (upToDate_of_full hnew.1 frame)
    have hlast := colourAt_redraw hup p
    simp only [s, runSteps_append, runSteps_redraw]
    exact hlast
  refine ⟨?_, ?_⟩
  · intro p
    rw [hs, phase_runSteps, hnew.2, shownColour_mod]
    simp
  · intro f
    apply Frame.ext_colourAt
    intro p
    rw [Display.colourAt_repaint, hs]

end SpectrumBasic.Screen
