import SpectrumBasic.Proofs.Program.Alignment
import SpectrumBasic.Proofs.Token.LetterCase

/-! A program in upper case. It has its statements at the same places, and they read alike but for the
case of the text that is attached to a fault. -/

namespace SpectrumBasic

/-- The fault with its statement in upper case. -/
def Fault.upper (f : Fault) : Fault := { f with statement := f.statement.map Text.upper }

theorem Fault.inStatement_upper (f : Fault) (text : Text) :
    f.upper.inStatement (Text.upper text) = (f.inStatement text).upper := by
  obtain ⟨kind, _ | statement, span, reason⟩ := f <;> rfl

theorem Fault.IsRaw.upper_eq {f : Fault} (h : f.IsRaw) : f.upper = f := by
  obtain ⟨kind, statement, span, reason⟩ := f
  obtain rfl : statement = none := h.statement
  rfl

namespace Program

@[simp] theorem endsStatement_toUpper (c : Char) : endsStatement c.toUpper = endsStatement c :=
  Text.apply_toUpper (by decide) c

theorem ne_newline_toUpper (c : Char) : decide (c.toUpper ≠ '\n') = decide (c ≠ '\n') :=
  Text.apply_toUpper (f := fun c => decide (c ≠ '\n')) (by decide) c

theorem firstStatement_upper (t : Text) :
    firstStatement (Text.upper t) = Text.upper (firstStatement t) := by
  unfold firstStatement
  rw [Text.takeWhile_upper fun c => congrArg not (endsStatement_toUpper c), Text.trim_upper]

theorem lineNumber?_upper (t : Text) : lineNumber? (Text.upper t) = lineNumber? t := by
  have hdigits : Text.upper ((Text.trimStart t).takeWhile Char.isDigit) =
      (Text.trimStart t).takeWhile Char.isDigit :=
    Text.upper_of_digits fun c hc => List.mem_takeWhile_imp hc
  unfold lineNumber?
  rw [Text.trimStart_upper, Text.takeWhile_upper Text.isDigit_toUpper, hdigits]

theorem boundary_upper (source : Text) (offset : Nat) :
    boundary (Text.upper source) offset = boundary source offset := by
  unfold boundary
  dsimp only
  rw [Text.dropBytes_upper, Text.takeWhile_upper fun c => congrArg not (endsStatement_toUpper c),
    Text.takeWhile_upper ne_newline_toUpper, Text.byteLength_upper, Text.byteLength_upper]

theorem IsCut.upper {t : Text} {offset : Nat} (h : IsCut t offset) : IsCut (Text.upper t) offset := by
  obtain ⟨front, back, rfl, rfl⟩ := h
  exact ⟨Text.upper front, Text.upper back, Text.upper_append front back, Text.byteLength_upper front⟩

end Program

/-- Texts in upper case. -/
def Reading.upper : Reading where
  text := Text.upper
  fault f f' := f' = f.upper
  text_nil := rfl
  length_text := Text.length_upper
  lex_text := Token.lex_upper
  lineNumber_text := Program.lineNumber?_upper
  rest_text n t := by rw [Text.dropBytes_upper, Text.trim_upper]
  raw f h := h.upper_eq.symm
  inStatement f _ t h := h ▸ f.inStatement_upper t

/-- A program and its upper case. -/
def Program.Alignment.upper (source : Text) : Alignment .upper source (Text.upper source) where
  move p := p
  move_zero := Nat.zero_eq
  lt_iff p _ := by rw [Text.byteLength_upper]
  isCut p h hlt := (h.isCut (Nat.le_of_lt hlt)).upper
  statement p _ _ := by
    rw [Text.dropBytes_upper, firstStatement_upper]
    rfl
  stop p _ _ := by rw [boundary_upper]
  newline p _ _ := by rw [boundary_upper]

end SpectrumBasic
