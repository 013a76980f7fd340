import SpectrumBasic.Proofs.Program.Alignment
import SpectrumBasic.Proofs.Token.Gap

/-! Blanks at the ends of statements. Spaces, tabs and carriage returns in front of a colon or a newline
are trimmed off with the rest of the blanks there, so a program into which such gaps are put reads as
before, with its statements moved on by the gaps in front of them. -/

namespace SpectrumBasic

namespace Text

/-- Blanks behind a text are trimmed off. -/
theorem trim_append_blanks {t blanks : Text} (h : ∀ c ∈ blanks, isBlank c = true) :
    trim (t ++ blanks) = trim t := by
  have hend (u : Text) : trimEnd (u ++ blanks) = trimEnd u := by
    unfold trimEnd
    rw [List.reverse_append, List.dropWhile_append_of_pos (by simpa using h)]
  have hnil : blanks.dropWhile isBlank = [] := List.dropWhile_eq_nil_iff.mpr h
  unfold trim trimStart
  rw [List.dropWhile_append]
  split
  · rename_i hempty
    rw [hnil, List.isEmpty_iff.mp hempty]
  · exact hend _

end Text

theorem Token.not_endsStatement_of_isGap {c : Char} (h : isGap c = true) :
    Program.endsStatement c = false := by
  simp only [isGap, Bool.or_eq_true, decide_eq_true_eq] at h
  obtain (rfl | rfl) | rfl := h <;> decide

/-- Gaps to be put in front of the colons and newlines of a program, one for each offset and mark. -/
structure Padding where
  gap : Nat → Char → Text
  isGap : ∀ offset mark, ∀ c ∈ gap offset mark, Token.isGap c = true

namespace Padding

open Program (endsStatement firstStatement boundary IsStart IsCut Alignment)

variable (g : Padding)

/-- What is put in front of a character at an offset. -/
def before (offset : Nat) (c : Char) : Text := if endsStatement c then g.gap offset c else []

/-- The text that begins at `offset` of its program, with gaps put in. -/
def padFrom (offset : Nat) : Text → Text
  | [] => []
  | c :: t => g.before offset c ++ c :: padFrom (offset + c.utf8Size) t

/-- The program with gaps put in. -/
def pad (source : Text) : Text := g.padFrom 0 source

/-- The number of bytes put in front of offset `p`, from the text on that begins at `offset`. -/
def addedFrom (p offset : Nat) : Text → Nat
  | [] => 0
  | c :: t =>
    (if offset < p then Text.byteLength (g.before offset c) else 0) +
      addedFrom p (offset + c.utf8Size) t

/-- Where the character at offset `p` of the program stands once gaps are put in. A gap in front of
this character itself comes behind that place. -/
def shift (source : Text) (p : Nat) : Nat := p + g.addedFrom p 0 source

theorem padFrom_append (offset : Nat) (s t : Text) :
    g.padFrom offset (s ++ t) = g.padFrom offset s ++ g.padFrom (offset + Text.byteLength s) t := by
  induction s generalizing offset with
  | nil => rfl
  | cons c s ih =>
    rw [List.cons_append, padFrom, padFrom, ih, Text.byteLength_cons, List.append_assoc,
      List.cons_append, Nat.add_assoc]

theorem addedFrom_append (p offset : Nat) (s t : Text) :
    g.addedFrom p offset (s ++ t) =
      g.addedFrom p offset s + g.addedFrom p (offset + Text.byteLength s) t := by
  induction s generalizing offset with
  | nil => simp [addedFrom]
  | cons c s ih =>
    rw [List.cons_append, addedFrom, addedFrom, ih, Text.byteLength_cons, Nat.add_assoc,
      Nat.add_assoc]

theorem addedFrom_of_le {p offset : Nat} (h : p ≤ offset) (t : Text) : g.addedFrom p offset t = 0 := by
  induction t generalizing offset with
  | nil => rfl
  | cons c t ih =>
    rw [addedFrom, if_neg (Nat.not_lt.mpr h), ih (by omega)]

theorem byteLength_padFrom {p offset : Nat} (t : Text) (h : offset + Text.byteLength t ≤ p) :
    Text.byteLength (g.padFrom offset t) = Text.byteLength t + g.addedFrom p offset t := by
  induction t generalizing offset with
  | nil => rfl
  | cons c t ih =>
    have hc := c.utf8Size_pos
    rw [Text.byteLength_cons] at h
    rw [padFrom, addedFrom, if_pos (by omega), Text.byteLength_append, Text.byteLength_cons,
      ih (by omega), Text.byteLength_cons]
    omega

/-- A place moves on by the gaps in front of it. -/
theorem shift_byteLength (front back : Text) :
    g.shift (front ++ back) (Text.byteLength front) = Text.byteLength (g.pad front) := by
  rw [shift, pad, addedFrom_append, g.addedFrom_of_le (by omega) back,
    g.byteLength_padFrom front (p := Text.byteLength front) (by omega), Nat.add_zero]

theorem shift_end (source : Text) :
    g.shift source (Text.byteLength source + 1) = Text.byteLength (g.pad source) + 1 := by
  rw [shift, pad, g.byteLength_padFrom source (p := Text.byteLength source + 1) (by omega)]
  omega

/-! ### Statements -/

/-- Nothing is put into a text without marks. -/
theorem padFrom_eq_self {t : Text} (h : ∀ c ∈ t, endsStatement c = false) (offset : Nat) :
    g.padFrom offset t = t := by
  induction t generalizing offset with
  | nil => rfl
  | cons c t ih =>
    obtain ⟨hc, ht⟩ := List.forall_mem_cons.mp h
    rw [padFrom, before, hc, ih ht]
    rfl

section TakeWhile

variable {q : Char → Bool} (hgap : ∀ c, Token.isGap c = true → q c = true)
include hgap

theorem before_all (offset : Nat) (c : Char) : ∀ d ∈ g.before offset c, q d = true := by
  unfold before
  split
  · exact fun d hd => hgap d (g.isGap offset c d hd)
  · exact nofun

theorem padFrom_all {t : Text} (h : ∀ c ∈ t, q c = true) (offset : Nat) :
    ∀ c ∈ g.padFrom offset t, q c = true := by
  induction t generalizing offset with
  | nil => exact nofun
  | cons c t ih =>
    obtain ⟨hc, ht⟩ := List.forall_mem_cons.mp h
    intro d hd
    rw [padFrom, List.mem_append, List.mem_cons] at hd
    obtain hd | rfl | hd := hd
    · exact g.before_all hgap offset c d hd
    · exact hc
    · exact ih ht _ d hd

/-- In front of a mark stand the padded text and the gap. -/
theorem takeWhile_padFrom_mark (offset : Nat) {w : Text} (hw : ∀ c ∈ w, q c = true) {mark : Char}
    (hmark : q mark = false) (rest : Text) :
    (g.padFrom offset (w ++ mark :: rest)).takeWhile q =
      g.padFrom offset w ++ g.before (offset + Text.byteLength w) mark := by
  rw [padFrom_append, padFrom, List.takeWhile_append_of_pos (g.padFrom_all hgap hw offset),
    List.takeWhile_append_of_pos (g.before_all hgap _ mark),
    List.takeWhile_cons_of_neg (by simp [hmark]), List.append_nil]

/-- What a padded text begins with is padded and ends in a gap. -/
theorem takeWhile_padFrom (offset : Nat) (t : Text) :
    ∃ blanks : Text, (∀ c ∈ blanks, Token.isGap c = true) ∧
      (g.padFrom offset t).takeWhile q = g.padFrom offset (t.takeWhile q) ++ blanks := by
  obtain hall | ⟨mark, rest, hsplit, hmark⟩ := Text.takeWhile_cases q t
  · have hpadded := g.padFrom_all hgap (List.takeWhile_eq_self_iff.mp hall) offset
    exact ⟨[], nofun, by rw [hall, List.takeWhile_eq_self_iff.mpr hpadded, List.append_nil]⟩
  · have hw : ∀ c ∈ t.takeWhile q, q c = true := fun c hc => List.mem_takeWhile_imp hc
    generalize t.takeWhile q = w at hsplit hw ⊢
    subst hsplit
    exact ⟨_, g.before_all (fun _ h => h) _ mark, g.takeWhile_padFrom_mark hgap offset hw hmark rest⟩

end TakeWhile

/-! ### The padded program next to the program -/

section Cut

variable {front back : Text}

theorem pad_append (front back : Text) :
    g.pad (front ++ back) = g.pad front ++ g.padFrom (Text.byteLength front) back := by
  rw [pad, padFrom_append, Nat.zero_add, pad]

theorem dropBytes_shift (front back : Text) :
    Text.dropBytes (g.shift (front ++ back) (Text.byteLength front)) (g.pad (front ++ back)) =
      g.padFrom (Text.byteLength front) back := by
  rw [shift_byteLength, pad_append, Text.dropBytes_append]

theorem firstStatement_padFrom (offset : Nat) (t : Text) :
    firstStatement (g.padFrom offset t) = firstStatement t := by
  have hgap (c : Char) (h : Token.isGap c = true) : (!endsStatement c) = true := by
    simp [Token.not_endsStatement_of_isGap h]
  have hself (c : Char) (h : c ∈ t.takeWhile fun c => !endsStatement c) : endsStatement c = false := by
    simpa using List.mem_takeWhile_imp h
  obtain ⟨blanks, hblanks, htake⟩ := g.takeWhile_padFrom hgap offset t
  unfold firstStatement
  rw [htake, g.padFrom_eq_self hself,
    Text.trim_append_blanks fun c h => Token.isBlank_of_isGap (hblanks c h)]

/-- The mark that ends a part of the program is moved along with the place behind it. -/
theorem shift_takeWhile {q : Char → Bool} (hgap : ∀ c, Token.isGap c = true → q c = true)
    (hq : ∀ c, q c = false → endsStatement c = true) (front back : Text) :
    Text.byteLength (g.pad front) +
        Text.byteLength ((g.padFrom (Text.byteLength front) back).takeWhile q) + 1 =
      g.shift (front ++ back) (Text.byteLength front + Text.byteLength (back.takeWhile q) + 1) := by
  obtain hall | ⟨mark, rest, hsplit, hmark⟩ := Text.takeWhile_cases q back
  · -- No mark follows, so the place is the one behind the end.
    have hpadded := g.padFrom_all hgap (List.takeWhile_eq_self_iff.mp hall) (Text.byteLength front)
    rw [hall, List.takeWhile_eq_self_iff.mpr hpadded, ← Text.byteLength_append,
      ← Text.byteLength_append, shift_end, pad_append]
  · have hw : ∀ c ∈ back.takeWhile q, q c = true := fun c hc => List.mem_takeWhile_imp hc
    generalize back.takeWhile q = w at hsplit hw ⊢
    subst hsplit
    have hsize : Text.byteLength [mark] = 1 := Program.utf8Size_of_endsStatement (hq mark hmark)
    have hplace : Text.byteLength front + Text.byteLength w + 1 =
        Text.byteLength (front ++ (w ++ [mark])) := by
      rw [Text.byteLength_append, Text.byteLength_append, hsize, Nat.add_assoc]
    have htext : front ++ (w ++ mark :: rest) = front ++ (w ++ [mark]) ++ rest := by simp
    rw [hplace, g.takeWhile_padFrom_mark hgap _ hw hmark, htext, shift_byteLength, pad_append,
      padFrom_append, padFrom, padFrom]
    simp only [Text.byteLength_append, Text.byteLength_cons, Text.byteLength_nil] at hsize ⊢
    omega

end Cut

theorem byteLength_le_padFrom (offset : Nat) (t : Text) :
    Text.byteLength t ≤ Text.byteLength (g.padFrom offset t) := by
  rw [g.byteLength_padFrom t (Nat.le_refl _)]
  exact Nat.le_add_right _ _

theorem shift_lt_iff {source : Text} {p : Nat} (h : IsStart source p) :
    g.shift source p < Text.byteLength (g.pad source) ↔ p < Text.byteLength source := by
  by_cases hle : p ≤ Text.byteLength source
  · obtain ⟨front, back, rfl, rfl⟩ := h.isCut hle
    have hback := g.byteLength_le_padFrom (Text.byteLength front) back
    rw [shift_byteLength, pad_append, Text.byteLength_append, Text.byteLength_append]
    cases back with
    | nil => simp [padFrom]
    | cons c back =>
      have hpos := Text.byteLength_pos (List.cons_ne_nil c back)
      omega
  · obtain rfl : p = Text.byteLength source + 1 := by
      obtain rfl | rfl | ⟨front, c, back, rfl, -, rfl⟩ := h
      · omega
      · rfl
      · have hc := c.utf8Size_pos
        simp only [Text.byteLength_append, Text.byteLength_cons] at hle
        omega
    rw [shift_end]
    omega

/-- A program and the one with gaps put in. -/
def alignment (source : Text) : Alignment .plain source (g.pad source) where
  move := g.shift source
  move_zero := by rw [shift, g.addedFrom_of_le (by omega)]
  lt_iff p h := g.shift_lt_iff h
  isCut p h hlt := by
    obtain ⟨front, back, rfl, rfl⟩ := h.isCut (Nat.le_of_lt hlt)
    exact ⟨g.pad front, _, g.pad_append front back, (g.shift_byteLength front back).symm⟩
  statement p h hlt := by
    obtain ⟨front, back, rfl, rfl⟩ := h.isCut (Nat.le_of_lt hlt)
    rw [dropBytes_shift, Text.dropBytes_append, firstStatement_padFrom]
    rfl
  stop p h hlt := by
    obtain ⟨front, back, rfl, rfl⟩ := h.isCut (Nat.le_of_lt hlt)
    unfold boundary
    dsimp only
    rw [dropBytes_shift, Text.dropBytes_append, shift_byteLength]
    exact g.shift_takeWhile (fun c hc => by simp [Token.not_endsStatement_of_isGap hc])
      (fun c hc => by simpa using hc) front back
  newline p h hlt := by
    obtain ⟨front, back, rfl, rfl⟩ := h.isCut (Nat.le_of_lt hlt)
    unfold boundary
    dsimp only
    rw [dropBytes_shift, Text.dropBytes_append, shift_byteLength]
    refine g.shift_takeWhile (fun c hc => ?_) Program.endsStatement_of_newline front back
    have hmark := Token.not_endsStatement_of_isGap hc
    simp only [endsStatement, Bool.or_eq_false_iff, decide_eq_false_iff_not] at hmark
    exact decide_eq_true hmark.2

/-- Carriage returns in front of the newlines. -/
def carriageReturns : Padding where
  gap _ mark := if mark = '\n' then ['\r'] else []
  isGap _ mark c hc := by
    split at hc
    · obtain rfl := List.mem_singleton.mp hc
      rfl
    · cases hc

/-- They turn newlines into pairs of a carriage return and a newline. -/
theorem pad_carriageReturns (source : Text) :
    carriageReturns.pad source = source.flatMap fun c => if c = '\n' then ['\r', '\n'] else [c] := by
  have hbefore (offset : Nat) (c : Char) :
      carriageReturns.before offset c = if c = '\n' then ['\r'] else [] := by
    unfold before carriageReturns
    dsimp only
    by_cases hc : c = '\n'
    · subst hc
      rfl
    · simp [hc]
  unfold pad
  generalize 0 = offset
  induction source generalizing offset with
  | nil => rfl
  | cons c source ih =>
    rw [padFrom, hbefore, ih, List.flatMap_cons]
    split
    · rename_i hc
      subst hc
      rfl
    · rfl

end Padding

end SpectrumBasic
