import Mathlib.Data.List.DropRight
import SpectrumBasic.Proofs.Program.Segment

/-! Physical lines and their numbers. The number of a line is what its first statement begins with, of
which at most four digits count. A search for a goal goes from line to line and ends at the first
one whose number is at least the goal, or behind the last one. -/

namespace SpectrumBasic

/-! ### Blanks -/

namespace Text

theorem trimEnd_append (t : Text) : trimEnd t ++ (t.reverse.takeWhile isBlank).reverse = t := by
  rw [trimEnd, ← List.reverse_append, List.takeWhile_append_dropWhile, List.reverse_reverse]

/-- What is trimmed does not begin with a blank. -/
theorem trimStart_trim (t : Text) : trimStart (trim t) = trim t := by
  unfold trim
  have happend := trimEnd_append (trimStart t)
  cases ht : trimEnd (trimStart t) with
  | nil => rfl
  | cons c s =>
    rw [ht, List.cons_append] at happend
    have hc : isBlank c = false := by
      have hnot := List.head?_dropWhile_not isBlank t
      rwa [← trimStart, ← happend] at hnot
    rw [trimStart, List.dropWhile_cons_of_neg (by simp [hc])]

theorem trim_trim (t : Text) : trim (trim t) = trim t := by
  have hend : trimEnd (trim t) = trim t := by
    simp only [trim, trimEnd, List.reverse_reverse, List.dropWhile_idempotent]
  rw [trim, trimStart_trim, hend]

/-- Trimming a text leaves a part of it. -/
theorem trim_isInfix (t : Text) : trim t <:+: t := by
  have hfront : trim t <+: trimStart t := ⟨_, trimEnd_append (trimStart t)⟩
  exact hfront.isInfix.trans (List.dropWhile_suffix _).isInfix

end Text

/-! ### Numerals -/

theorem Number.ofDigits_lt {digits : Text} (h : ∀ c ∈ digits, c.isDigit = true) :
    ofDigits digits < Nat.pow 10 digits.length := by
  have hfold (digits : Text) (h : ∀ c ∈ digits, c.isDigit = true) (n : Nat) :
      digits.foldl (fun n c => 10 * n + (c.toNat - '0'.toNat)) n < (n + 1) * 10 ^ digits.length := by
    induction digits generalizing n with
    | nil => simp
    | cons c digits ih =>
      obtain ⟨hc, hdigits⟩ := List.forall_mem_cons.mp h
      have hvalue : c.toNat - '0'.toNat ≤ 9 := by
        simp only [Char.isDigit, Bool.and_eq_true, decide_eq_true_eq,
          UInt32.le_iff_toNat_le] at hc
        have : c.toNat ≤ 57 := hc.2
        have : '0'.toNat = 48 := rfl
        omega
      calc (c :: digits).foldl (fun n c => 10 * n + (c.toNat - '0'.toNat)) n
          < (10 * n + (c.toNat - '0'.toNat) + 1) * 10 ^ digits.length := ih hdigits _
        _ ≤ (10 * (n + 1)) * 10 ^ digits.length := Nat.mul_le_mul_right _ (by omega)
        _ = (n + 1) * 10 ^ (c :: digits).length := by rw [List.length_cons, Nat.pow_succ]; ac_rfl
  simpa [ofDigits] using hfold digits h 0

namespace Program

/-- Lines and the offsets at which they begin, if the first one begins at `offset`. -/
def placeLines (offset : Nat) : List Text → List (Nat × Text)
  | [] => []
  | line :: lines => (offset, line) :: placeLines (offset + Text.byteLength line + 1) lines

/-- The physical lines of a program, in order, and the offsets at which they begin. -/
def lines (source : Text) : List (Nat × Text) := placeLines 0 (Text.split '\n' source)

/-- The first statement of the line begins with digits, of which the first four at most write `n`. -/
def IsNumbered (line : Text) (n : Nat) : Prop :=
  ∃ digits rest, firstStatement line = digits ++ rest ∧ digits ≠ [] ∧ digits.length ≤ 4 ∧
    (∀ c ∈ digits, c.isDigit = true) ∧
    (digits.length = 4 ∨ ∀ c ∈ rest.head?, c.isDigit = false) ∧ n = Number.ofDigits digits

/-- The number of the line is at least `goal`. -/
def Reaches (goal : Nat) (line : Text) : Prop := ∃ n, IsNumbered line n ∧ goal ≤ n

theorem lineNumber?_eq_some_iff (line : Text) (n : Nat) :
    lineNumber? (firstStatement line) = some n ↔ IsNumbered line n := by
  have htrim : Text.trimStart (firstStatement line) = firstStatement line := Text.trimStart_trim _
  unfold lineNumber? IsNumbered
  rw [htrim]
  generalize firstStatement line = s
  dsimp only
  constructor
  · intro h
    split at h
    · cases h
    · rename_i hne
      cases h
      refine ⟨(s.takeWhile Char.isDigit).take 4,
        (s.takeWhile Char.isDigit).drop 4 ++ s.dropWhile Char.isDigit, ?_, hne,
        List.length_take_le _ _,
        fun c hc => List.mem_takeWhile_imp (List.mem_of_mem_take hc),
        ?_, rfl⟩
      · rw [← List.append_assoc, List.take_append_drop, List.takeWhile_append_dropWhile]
      · by_cases hlong : 4 ≤ (s.takeWhile Char.isDigit).length
        · exact .inl (List.length_take_of_le hlong)
        · right
          have hnot := List.head?_dropWhile_not Char.isDigit s
          rw [List.drop_of_length_le (by omega), List.nil_append]
          intro c hc
          rwa [hc] at hnot
  · rintro ⟨digits, rest, rfl, hne, hlength, hdigits, hstop, rfl⟩
    have htake : ((digits ++ rest).takeWhile Char.isDigit).take 4 = digits := by
      obtain hfour | hhead := hstop
      · rw [List.takeWhile_append_of_pos hdigits, ← hfour, List.take_left]
      · rw [(Text.takeWhile_append_of_head hdigits hhead).1, List.take_of_length_le hlength]
    rw [htake, if_neg hne]

theorem le_of_isNumbered {line : Text} {n : Nat} (h : IsNumbered line n) : n ≤ 9999 := by
  obtain ⟨digits, rest, _, _, hlength, hdigits, _, rfl⟩ := h
  have hlt := Number.ofDigits_lt hdigits
  have hle : Nat.pow 10 digits.length ≤ 10 ^ 4 := Nat.pow_le_pow_right (by decide) hlength
  omega

theorem any_lineNumber?_iff (goal : Nat) (line : Text) :
    (lineNumber? (firstStatement line)).any (goal ≤ ·) = true ↔ Reaches goal line := by
  simp only [Option.any_eq_true, lineNumber?_eq_some_iff, decide_eq_true_eq, Reaches]

instance (goal : Nat) (line : Text) : Decidable (Reaches goal line) :=
  decidable_of_iff _ (any_lineNumber?_iff goal line)

theorem Reaches.ne_nil {goal : Nat} {line : Text} (h : Reaches goal line) : line ≠ [] := by
  rintro rfl
  obtain ⟨n, ⟨digits, rest, happend, hne, _⟩, _⟩ := h
  exact hne (List.append_eq_nil_iff.mp happend.symm).1

/-! ### Lines -/

theorem firstStatement_append (line rest : Text) :
    firstStatement (line ++ '\n' :: rest) = firstStatement line := by
  rw [firstStatement, Text.takeWhile_append_cons rfl, firstStatement]

theorem reaches_append (goal : Nat) (line rest : Text) :
    Reaches goal (line ++ '\n' :: rest) ↔ Reaches goal line := by
  simp only [Reaches, IsNumbered, firstStatement_append]

theorem placeLines_last {t : Text} (h : '\n' ∉ t) (offset : Nat) :
    placeLines offset (Text.split '\n' t) = [(offset, t)] := by
  rw [Text.split_of_not_mem h]
  rfl

theorem placeLines_more {line : Text} (h : '\n' ∉ line) (rest : Text) (offset : Nat) :
    placeLines offset (Text.split '\n' (line ++ '\n' :: rest)) =
      (offset, line) :: placeLines (offset + Text.byteLength line + 1) (Text.split '\n' rest) := by
  rw [Text.split_append_cons h]
  rfl

/-- A line stands at its offset, between the newlines or the ends of the program. -/
theorem mem_placeLines (t front : Text) {offset : Nat} {line : Text}
    (h : (offset, line) ∈ placeLines (Text.byteLength front) (Text.split '\n' t)) :
    ∃ before after, t = before ++ line ++ after ∧ Text.byteLength (front ++ before) = offset ∧
      (before = [] ∨ before.getLast? = some '\n') ∧ '\n' ∉ line ∧
      (after = [] ∨ after.head? = some '\n') := by
  induction t using Text.split_induction '\n' generalizing front with
  | last t ht =>
    rw [placeLines_last ht, List.mem_singleton, Prod.mk.injEq] at h
    obtain ⟨rfl, rfl⟩ := h
    exact ⟨[], [], by simp, by simp, .inl rfl, ht, .inl rfl⟩
  | more first rest hfirst ih =>
    rw [placeLines_more hfirst, List.mem_cons, Prod.mk.injEq] at h
    obtain ⟨rfl, rfl⟩ | h := h
    · exact ⟨[], '\n' :: rest, by simp, by simp, .inl rfl, hfirst, .inr rfl⟩
    · have hlength : Text.byteLength front + Text.byteLength first + 1 =
          Text.byteLength (front ++ (first ++ ['\n'])) := by
        simp only [Text.byteLength_append, Text.byteLength_cons, Text.byteLength_nil]
        have : '\n'.utf8Size = 1 := rfl
        omega
      rw [hlength] at h
      obtain ⟨before, after, rfl, hoffset, hbefore, hline, hafter⟩ := ih _ h
      refine ⟨first ++ '\n' :: before, after, by simp, ?_, .inr ?_, hline, hafter⟩
      · rw [← hoffset]
        simp
      · obtain rfl | hlast := hbefore
        · simp
        · simp [List.getLast?_append, List.getLast?_cons, hlast]

/-! ### The search for a line -/

section Seek

variable {goal : Nat} {line t : Text} (offset : Nat)

theorem seekFrom_of_reaches (h : Reaches goal t) : seekFrom goal offset t = offset := by
  rw [seekFrom, if_pos (.inr ((any_lineNumber?_iff goal t).mpr h))]

/-- The search passes over a line that does not reach the goal. -/
theorem seekFrom_of_not_reaches (hne : t ≠ []) (h : ¬ Reaches goal t) :
    seekFrom goal offset t =
      seekFrom goal (offset + Text.byteLength (t.takeWhile (· ≠ '\n')) + 1)
        (t.drop ((t.takeWhile (· ≠ '\n')).length + 1)) := by
  have hgo : ¬ (t = [] ∨ (lineNumber? (firstStatement t)).any (goal ≤ ·) = true) := by
    rw [any_lineNumber?_iff, not_or]
    exact ⟨hne, h⟩
  rw [seekFrom, if_neg hgo]

theorem le_seekFrom (goal : Nat) (t : Text) : offset ≤ seekFrom goal offset t := by
  fun_induction seekFrom goal offset t with
  | case1 => exact Nat.le_refl _
  | case2 offset t hgo line ih => omega

theorem seekFrom_more (h : '\n' ∉ line) (hline : ¬ Reaches goal line) (rest : Text) :
    seekFrom goal offset (line ++ '\n' :: rest) =
      seekFrom goal (offset + Text.byteLength line + 1) rest := by
  have htake : (line ++ '\n' :: rest).takeWhile (· ≠ '\n') = line := by
    rw [Text.takeWhile_append_cons (by simp), Text.takeWhile_ne_of_not_mem h]
  rw [seekFrom_of_not_reaches offset (by simp) (by rwa [reaches_append]), htake,
    List.drop_length_add_append]
  rfl

theorem seekFrom_last (h : '\n' ∉ t) (ht : ¬ Reaches goal t) :
    offset + Text.byteLength t ≤ seekFrom goal offset t := by
  by_cases hne : t = []
  · subst hne
    exact le_seekFrom offset goal []
  · have hle := le_seekFrom (offset + Text.byteLength t + 1) goal (t.drop (t.length + 1))
    rw [seekFrom_of_not_reaches offset hne ht, Text.takeWhile_ne_of_not_mem h]
    omega

end Seek

/-- The search ends at the first line that reaches the goal. -/
theorem seekFrom_eq_of_first {goal : Nat} {before after : List (Nat × Text)} {place : Nat}
    {line : Text} (t : Text) (offset : Nat)
    (h : placeLines offset (Text.split '\n' t) = before ++ (place, line) :: after)
    (hbefore : ∀ l ∈ before, ¬ Reaches goal l.2) (hline : Reaches goal line) :
    seekFrom goal offset t = place := by
  induction t using Text.split_induction '\n' generalizing offset before with
  | last t ht =>
    rw [placeLines_last ht] at h
    obtain ⟨_, hl⟩ | ⟨_, hl⟩ := List.append_eq_singleton_iff.mp h.symm
    · cases hl
      exact seekFrom_of_reaches place hline
    · cases hl
  | more first rest hfirst ih =>
    rw [placeLines_more hfirst] at h
    cases before with
    | nil =>
      cases h
      exact seekFrom_of_reaches place ((reaches_append goal line rest).mpr hline)
    | cons l before =>
      obtain ⟨rfl, hlines⟩ := List.cons.inj h
      obtain ⟨hhead, htail⟩ := List.forall_mem_cons.mp hbefore
      rw [seekFrom_more offset hfirst hhead]
      exact ih _ hlines htail

/-- If no line reaches the goal then the search ends behind the last one. -/
theorem le_seekFrom_of_none {goal : Nat} (t : Text) (offset : Nat)
    (h : ∀ l ∈ placeLines offset (Text.split '\n' t), ¬ Reaches goal l.2) :
    offset + Text.byteLength t ≤ seekFrom goal offset t := by
  induction t using Text.split_induction '\n' generalizing offset with
  | last t ht =>
    rw [placeLines_last ht] at h
    exact seekFrom_last offset ht (h _ (List.mem_singleton_self _))
  | more first rest hfirst ih =>
    rw [placeLines_more hfirst, List.forall_mem_cons] at h
    have hrest := ih _ h.2
    have hnewline : '\n'.utf8Size = 1 := rfl
    rw [seekFrom_more offset hfirst h.1, Text.byteLength_append, Text.byteLength_cons, hnewline]
    omega

theorem seekFrom_le (goal : Nat) (t : Text) (offset : Nat) :
    seekFrom goal offset t ≤ offset + Text.byteLength t + 1 := by
  induction t using Text.split_induction '\n' generalizing offset with
  | last t ht =>
    by_cases hreach : Reaches goal t
    · rw [seekFrom_of_reaches offset hreach]
      omega
    · by_cases hne : t = []
      · subst hne
        rw [seekFrom, if_pos (.inl rfl)]
        omega
      · rw [seekFrom_of_not_reaches offset hne hreach, Text.takeWhile_ne_of_not_mem ht,
          List.drop_of_length_le (by omega), seekFrom, if_pos (.inl rfl)]
  | more first rest hfirst ih =>
    have hnewline : '\n'.utf8Size = 1 := rfl
    rw [Text.byteLength_append, Text.byteLength_cons, hnewline]
    by_cases hreach : Reaches goal first
    · rw [seekFrom_of_reaches offset ((reaches_append goal first rest).mpr hreach)]
      omega
    · have hrest := ih (offset + Text.byteLength first + 1)
      rw [seekFrom_more offset hfirst hreach]
      omega

end Program

end SpectrumBasic
