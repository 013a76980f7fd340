import Mathlib.Data.List.TakeWhile
import SpectrumBasic.Program

/-! Offsets between characters, and those at which statements start. A colon or a newline takes one
byte, so a statement that starts behind one starts between two characters, whatever characters the
text is made of. -/

namespace SpectrumBasic

namespace Text

theorem dropBytes_of_byteLength_le {t : Text} {n : Nat} (h : byteLength t ≤ n) :
    dropBytes n t = [] := by
  induction t generalizing n with
  | nil => exact dropBytes_nil n
  | cons c t ih =>
    have hc := c.utf8Size_pos
    rw [byteLength_cons] at h
    obtain ⟨k, rfl⟩ : ∃ k, n = k + 1 := ⟨n - 1, by omega⟩
    rw [dropBytes]
    exact ih (by omega)

theorem dropBytes_isSuffix (n : Nat) (t : Text) : dropBytes n t <:+ t := by
  induction t generalizing n with
  | nil => simp
  | cons c t ih =>
    cases n with
    | zero => exact List.suffix_rfl
    | succ n => exact (ih _).trans (List.suffix_cons c t)

/-- A list either has the property in all its members, or it has a first member without it. -/
theorem takeWhile_cases {α : Type} (p : α → Bool) (t : List α) :
    t.takeWhile p = t ∨ ∃ c rest, t = t.takeWhile p ++ c :: rest ∧ p c = false := by
  induction t with
  | nil => exact .inl rfl
  | cons c t ih =>
    cases hc : p c with
    | false => exact .inr ⟨c, t, by simp [hc], hc⟩
    | true =>
      rw [List.takeWhile_cons_of_pos hc]
      obtain h | ⟨d, rest, h, hd⟩ := ih
      · exact .inl (by rw [h])
      · exact .inr ⟨d, rest, congrArg (c :: ·) h, hd⟩

/-- What a text begins with does not depend on what follows a character without the property. -/
theorem takeWhile_append_cons {p : Char → Bool} {c : Char} (hc : p c = false) (s t : Text) :
    (s ++ c :: t).takeWhile p = s.takeWhile p := by
  induction s with
  | nil => simp [hc]
  | cons d s ih =>
    rw [List.cons_append, List.takeWhile_cons, List.takeWhile_cons, ih]

/-- The characters with the property in front of a text are taken off as a whole. -/
theorem takeWhile_append_of_head {p : Char → Bool} {s t : Text} (hs : ∀ c ∈ s, p c = true)
    (ht : ∀ c ∈ t.head?, p c = false) :
    (s ++ t).takeWhile p = s ∧ (s ++ t).dropWhile p = t := by
  rw [List.takeWhile_append_of_pos hs, List.dropWhile_append_of_pos hs]
  cases t with
  | nil => simp
  | cons c t =>
    have hc := ht c rfl
    simp [hc]

theorem takeWhile_ne_of_not_mem {mark : Char} {t : Text} (h : mark ∉ t) :
    t.takeWhile (· ≠ mark) = t := by
  rw [List.takeWhile_eq_self_iff]
  intro c hc
  simpa using ne_of_mem_of_not_mem hc h

/-- Induction over the pieces of a text between marks, from the last piece on. -/
theorem split_induction (mark : Char) {P : Text → Prop} (last : ∀ t, mark ∉ t → P t)
    (more : ∀ s t, mark ∉ s → P t → P (s ++ mark :: t)) (t : Text) : P t := by
  obtain ⟨n, hn⟩ : ∃ n, t.length = n := ⟨_, rfl⟩
  induction n using Nat.strongRecOn generalizing t with
  | ind n ih =>
    have hmem : mark ∉ t.takeWhile (· ≠ mark) := fun h => by
      simpa using List.mem_takeWhile_imp h
    obtain hw | ⟨c, rest, hw, hc⟩ := takeWhile_cases (· ≠ mark) t
    · rw [hw] at hmem
      exact last t hmem
    · obtain rfl : c = mark := by simpa using hc
      rw [hw] at hn ⊢
      exact more _ rest hmem (ih rest.length (by simp at hn; omega) rest rfl)

/-- A text without the mark is one piece. -/
theorem split_of_not_mem {mark : Char} {t : Text} (h : mark ∉ t) : split mark t = [t] := by
  induction t with
  | nil => rfl
  | cons c t ih =>
    rw [split, if_neg (List.ne_of_not_mem_cons h).symm, ih (List.not_mem_of_not_mem_cons h)]

/-- The first mark ends the first piece. -/
theorem split_append_cons {mark : Char} {s : Text} (h : mark ∉ s) (t : Text) :
    split mark (s ++ mark :: t) = s :: split mark t := by
  induction s with
  | nil => rw [List.nil_append, split, if_pos rfl]
  | cons c s ih =>
    rw [List.cons_append, split, if_neg (List.ne_of_not_mem_cons h).symm,
      ih (List.not_mem_of_not_mem_cons h)]

end Text

namespace Program

/-- The offset lies between two characters or at an end of the text. -/
def IsCut (t : Text) (offset : Nat) : Prop :=
  ∃ front back, t = front ++ back ∧ Text.byteLength front = offset

/-- A statement may start at the offset: it is that of the first character, of one behind a colon or a
newline, or it lies one behind the end. -/
def IsStart (t : Text) (offset : Nat) : Prop :=
  offset = 0 ∨ offset = Text.byteLength t + 1 ∨
    ∃ front c back, t = front ++ c :: back ∧ endsStatement c = true ∧
      offset = Text.byteLength front + 1

/-- The statement at the offset, with the blanks around it: the text up to the next colon or newline,
or up to the end. -/
def IsStatement (t : Text) (offset : Nat) (statement : Text) : Prop :=
  ∃ front back, t = front ++ (statement ++ back) ∧ Text.byteLength front = offset ∧
    (∀ c ∈ statement, endsStatement c = false) ∧ ∀ c ∈ back.head?, endsStatement c = true

theorem utf8Size_of_endsStatement {c : Char} (h : endsStatement c = true) : c.utf8Size = 1 := by
  simp only [endsStatement, Bool.or_eq_true, decide_eq_true_eq] at h
  obtain rfl | rfl := h <;> rfl

/-- Where a line ends its last statement ends. -/
theorem endsStatement_of_newline (c : Char) (h : decide (c ≠ '\n') = false) :
    endsStatement c = true := by
  have hc : c = '\n' := by simpa using h
  subst hc
  rfl

/-- The first end of a statement ends the first statement. -/
theorem takeWhile_endsStatement {s t : Text} (hs : ∀ c ∈ s, endsStatement c = false)
    (ht : ∀ c ∈ t.head?, endsStatement c = true) :
    (s ++ t).takeWhile (fun c => !endsStatement c) = s :=
  (Text.takeWhile_append_of_head (fun c hc => by simp [hs c hc]) fun c hc => by simp [ht c hc]).1

theorem IsStart.isCut {t : Text} {offset : Nat} (h : IsStart t offset)
    (hle : offset ≤ Text.byteLength t) : IsCut t offset := by
  obtain rfl | rfl | ⟨front, c, back, rfl, hc, rfl⟩ := h
  · exact ⟨[], t, rfl, rfl⟩
  · omega
  · exact ⟨front ++ [c], back, by simp, by simp [utf8Size_of_endsStatement hc]⟩

theorem IsCut.dropBytes_ne_nil {t : Text} {offset : Nat} (h : IsCut t offset)
    (hlt : offset < Text.byteLength t) : Text.dropBytes offset t ≠ [] := by
  obtain ⟨front, back, rfl, rfl⟩ := h
  rw [Text.dropBytes_append]
  rintro rfl
  simp at hlt

section TakeWhile

variable {t : Text} {offset : Nat} {p : Char → Bool}

/-- A cut, moved on over some characters, is a cut. -/
theorem IsCut.add_takeWhile (h : IsCut t offset) (p : Char → Bool) :
    IsCut t (offset + Text.byteLength ((Text.dropBytes offset t).takeWhile p)) := by
  obtain ⟨front, back, rfl, rfl⟩ := h
  rw [Text.dropBytes_append]
  refine ⟨front ++ back.takeWhile p, back.dropWhile p, ?_, Text.byteLength_append _ _⟩
  rw [List.append_assoc, List.takeWhile_append_dropWhile]

/-- Behind the first end of a statement there is a start. -/
theorem IsCut.isStart_takeWhile (h : IsCut t offset)
    (hp : ∀ c, p c = false → endsStatement c = true) :
    IsStart t (offset + Text.byteLength ((Text.dropBytes offset t).takeWhile p) + 1) := by
  obtain ⟨front, back, rfl, rfl⟩ := h
  rw [Text.dropBytes_append]
  obtain hw | ⟨c, rest, hw, hc⟩ := Text.takeWhile_cases p back
  · rw [hw, ← Text.byteLength_append]
    exact .inr (.inl rfl)
  · refine .inr (.inr ⟨front ++ back.takeWhile p, c, rest, ?_, hp c hc, ?_⟩)
    · rw [List.append_assoc, ← hw]
    · rw [Text.byteLength_append]

/-- The text there is what follows that end. -/
theorem IsCut.dropBytes_takeWhile (h : IsCut t offset)
    (hp : ∀ c, p c = false → endsStatement c = true) :
    Text.dropBytes (offset + Text.byteLength ((Text.dropBytes offset t).takeWhile p) + 1) t =
      (Text.dropBytes offset t).drop (((Text.dropBytes offset t).takeWhile p).length + 1) := by
  obtain ⟨front, back, rfl, rfl⟩ := h
  rw [Text.dropBytes_append]
  obtain hw | ⟨c, rest, hw, hc⟩ := Text.takeWhile_cases p back
  · rw [hw, Text.dropBytes_of_byteLength_le (by simp), List.drop_of_length_le (by simp)]
  · have hsize := utf8Size_of_endsStatement (hp c hc)
    generalize back.takeWhile p = w at hw ⊢
    subst hw
    have hlen : Text.byteLength front + Text.byteLength w + 1 = Text.byteLength (front ++ (w ++ [c])) := by
      simp only [Text.byteLength_append, Text.byteLength_cons, Text.byteLength_nil, hsize]
      omega
    have htext : front ++ (w ++ c :: rest) = front ++ (w ++ [c]) ++ rest := by simp
    rw [hlen, htext, Text.dropBytes_append, List.drop_length_add_append]
    rfl

end TakeWhile

/-! ### The ends of a statement -/

section Boundary

variable {t : Text} {offset : Nat}

theorem le_boundary_stop (t : Text) (offset : Nat) : offset ≤ (boundary t offset).stop :=
  Nat.le_add_right _ _

theorem IsCut.boundary_stop (h : IsCut t offset) : IsCut t (boundary t offset).stop :=
  h.add_takeWhile _

theorem IsCut.isStart_stop (h : IsCut t offset) : IsStart t ((boundary t offset).stop + 1) :=
  h.isStart_takeWhile fun c hc => by simpa using hc

theorem IsCut.isStart_newline (h : IsCut t offset) : IsStart t ((boundary t offset).newline + 1) :=
  h.isStart_takeWhile endsStatement_of_newline

theorem IsCut.exists_isStatement (h : IsCut t offset) :
    ∃ statement, IsStatement t offset statement := by
  obtain ⟨front, back, rfl, rfl⟩ := h
  refine ⟨back.takeWhile fun c => !endsStatement c, front, back.dropWhile fun c => !endsStatement c,
    by rw [List.takeWhile_append_dropWhile], rfl, fun c hc => ?_, fun c hc => ?_⟩
  · simpa using List.mem_takeWhile_imp hc
  · have hnot := List.head?_dropWhile_not (fun c => !endsStatement c) back
    rw [hc] at hnot
    simpa using hnot

theorem IsStatement.boundary_stop {statement : Text} (h : IsStatement t offset statement) :
    (boundary t offset).stop = offset + Text.byteLength statement := by
  obtain ⟨front, back, rfl, rfl, hstatement, hback⟩ := h
  unfold boundary
  dsimp only
  rw [Text.dropBytes_append, takeWhile_endsStatement hstatement hback]

/-- The text of the next statement. -/
theorem IsCut.dropBytes_stop (h : IsCut t offset) :
    Text.dropBytes ((boundary t offset).stop + 1) t =
      (Text.dropBytes offset t).drop
        (((Text.dropBytes offset t).takeWhile fun c => !endsStatement c).length + 1) :=
  h.dropBytes_takeWhile fun c hc => by simpa using hc

/-- The text of the next line. -/
theorem IsCut.dropBytes_newline (h : IsCut t offset) :
    Text.dropBytes ((boundary t offset).newline + 1) t =
      (Text.dropBytes offset t).drop
        (((Text.dropBytes offset t).takeWhile (· ≠ '\n')).length + 1) :=
  h.dropBytes_takeWhile endsStatement_of_newline

end Boundary

end Program

end SpectrumBasic
