/-! Program text. A text is the list of its characters, and a place in it is the number of bytes
that its UTF-8 form has in front of that place, so the same numbers point into the file that the
text came from. -/

namespace SpectrumBasic

/-- Program text, character by character. -/
abbrev Text := List Char

namespace Text

/-- The number of bytes of the UTF-8 form. -/
def byteLength : Text → Nat
  | [] => 0
  | c :: t => c.utf8Size + byteLength t

@[simp] theorem byteLength_nil : byteLength [] = 0 := rfl

@[simp] theorem byteLength_cons (c : Char) (t : Text) :
    byteLength (c :: t) = c.utf8Size + byteLength t := rfl

@[simp] theorem byteLength_append (s t : Text) :
    byteLength (s ++ t) = byteLength s + byteLength t := by
  induction s with
  | nil => simp
  | cons c s ih => simp only [List.cons_append, byteLength_cons, ih, Nat.add_assoc]

theorem byteLength_pos {t : Text} (h : t ≠ []) : 0 < byteLength t := by
  cases t with
  | nil => contradiction
  | cons c t =>
    have hc := c.utf8Size_pos
    rw [byteLength_cons]
    omega

/-- The text from byte `n` on. An `n` inside a character drops the whole character. -/
def dropBytes : Nat → Text → Text
  | 0, t => t
  | _ + 1, [] => []
  | n + 1, c :: t => dropBytes (n + 1 - c.utf8Size) t

@[simp] theorem dropBytes_zero (t : Text) : dropBytes 0 t = t := by
  cases t <;> rfl

@[simp] theorem dropBytes_nil (n : Nat) : dropBytes n [] = [] := by
  cases n <;> rfl

/-- Dropping the bytes of a front part leaves what follows it. -/
theorem dropBytes_append (s t : Text) : dropBytes (byteLength s) (s ++ t) = t := by
  induction s with
  | nil => simp
  | cons c s ih =>
    have hc := c.utf8Size_pos
    obtain ⟨n, hn⟩ : ∃ n, c.utf8Size + byteLength s = n + 1 := ⟨c.utf8Size + byteLength s - 1, by omega⟩
    rw [byteLength_cons, hn, List.cons_append, dropBytes, ← hn, Nat.add_sub_cancel_left, ih]

theorem length_dropBytes_le (n : Nat) (t : Text) : (dropBytes n t).length ≤ t.length := by
  induction t generalizing n with
  | nil => simp
  | cons c t ih =>
    cases n with
    | zero => simp
    | succ n =>
      rw [dropBytes, List.length_cons]
      exact Nat.le_succ_of_le (ih _)

theorem length_dropBytes_lt {n : Nat} {t : Text} (hn : 0 < n) (ht : t ≠ []) :
    (dropBytes n t).length < t.length := by
  cases t with
  | nil => contradiction
  | cons c t =>
    obtain ⟨k, rfl⟩ : ∃ k, n = k + 1 := ⟨n - 1, by omega⟩
    rw [dropBytes, List.length_cons]
    exact Nat.lt_succ_of_le (length_dropBytes_le _ t)

/-- The pieces of a text between the places where `mark` stands; always at least one. -/
def split (mark : Char) : Text → List Text
  | [] => [[]]
  | c :: t =>
    if c = mark then [] :: split mark t
    else
      match split mark t with
      | [] => [[c]]
      | piece :: pieces => (c :: piece) :: pieces

/-- The text with every ASCII letter in upper case. -/
def upper (t : Text) : Text := t.map Char.toUpper

end Text

end SpectrumBasic
