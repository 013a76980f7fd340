import SpectrumBasic.Proofs.Token.Numeral
import SpectrumBasic.Text.Blank

/-! Letter case. The upper case of a text has its characters at the same places, and what the lexer
tells apart in a text it tells apart in the upper case, so both have the same tokens. -/

namespace SpectrumBasic

namespace Text

/-! ### Characters -/

/-- What holds of characters that are their own upper case, and of those up to the last small letter,
holds of every character. -/
theorem forall_char {P : Char → Prop} (hsame : ∀ c : Char, c.toUpper = c → P c)
    (hsmall : ∀ n < 123, P (Char.ofNat n)) (c : Char) : P c := by
  by_cases hc : c.toNat < 123
  · have hn := hsmall c.toNat hc
    rwa [Char.ofNat_toNat] at hn
  · refine hsame c (dif_neg fun hletter => hc ?_)
    exact Nat.lt_succ_of_le (UInt32.le_iff_toNat_le.mp hletter.2)

/-- What does not tell a small letter from its capital does not tell a character from its upper case. -/
theorem apply_toUpper {α : Type} {f : Char → α}
    (h : ∀ n < 123, f (Char.ofNat n).toUpper = f (Char.ofNat n)) (c : Char) : f c.toUpper = f c :=
  forall_char (fun _ hc => congrArg f hc) h c

@[simp] theorem isDigit_toUpper (c : Char) : c.toUpper.isDigit = c.isDigit :=
  apply_toUpper (by decide) c

@[simp] theorem isAlpha_toUpper (c : Char) : c.toUpper.isAlpha = c.isAlpha :=
  apply_toUpper (by decide) c

@[simp] theorem isBlank_toUpper (c : Char) : isBlank c.toUpper = isBlank c :=
  apply_toUpper (by decide) c

@[simp] theorem isGap_toUpper (c : Char) : Token.isGap c.toUpper = Token.isGap c :=
  apply_toUpper (by decide) c

@[simp] theorem utf8Size_toUpper (c : Char) : c.toUpper.utf8Size = c.utf8Size :=
  apply_toUpper (by decide) c

@[simp] theorem toUpper_toUpper (c : Char) : c.toUpper.toUpper = c.toUpper :=
  apply_toUpper (by decide) c

theorem toUpper_of_not_isAlpha (c : Char) (h : c.isAlpha = false) : c.toUpper = c :=
  forall_char (P := fun c => c.isAlpha = false → c.toUpper = c) (fun _ hc _ => hc) (by decide) c h

/-- A character that is no letter is the upper case of itself only. -/
theorem toUpper_eq_iff (mark : Char) (hmark : mark.isAlpha = false) (c : Char) :
    c.toUpper = mark ↔ c = mark := by
  constructor
  · intro h
    have hc : c.isAlpha = false := by rw [← isAlpha_toUpper, h, hmark]
    rw [← toUpper_of_not_isAlpha c hc, h]
  · rintro rfl
    exact toUpper_of_not_isAlpha c hmark

/-! ### Texts -/

@[simp] theorem upper_nil : upper [] = [] := rfl

@[simp] theorem upper_cons (c : Char) (t : Text) : upper (c :: t) = c.toUpper :: upper t := rfl

@[simp] theorem upper_append (s t : Text) : upper (s ++ t) = upper s ++ upper t := List.map_append

@[simp] theorem upper_eq_nil_iff {t : Text} : upper t = [] ↔ t = [] := List.map_eq_nil_iff

@[simp] theorem length_upper (t : Text) : (upper t).length = t.length := List.length_map ..

@[simp] theorem upper_upper (t : Text) : upper (upper t) = upper t := by
  induction t with
  | nil => rfl
  | cons c t ih => rw [upper_cons, upper_cons, toUpper_toUpper, ih]

@[simp] theorem byteLength_upper (t : Text) : byteLength (upper t) = byteLength t := by
  induction t with
  | nil => rfl
  | cons c t ih => rw [upper_cons, byteLength_cons, byteLength_cons, utf8Size_toUpper, ih]

@[simp] theorem drop_upper (n : Nat) (t : Text) : (upper t).drop n = upper (t.drop n) :=
  List.map_drop.symm

@[simp] theorem take_upper (n : Nat) (t : Text) : (upper t).take n = upper (t.take n) :=
  List.map_take.symm

section Span

variable {q : Char → Bool} (hq : ∀ c, q c.toUpper = q c) (t : Text)
include hq

theorem takeWhile_upper : (upper t).takeWhile q = upper (t.takeWhile q) := by
  have hcomp : q ∘ Char.toUpper = q := funext hq
  rw [upper, List.takeWhile_map, hcomp, upper]

theorem dropWhile_upper : (upper t).dropWhile q = upper (t.dropWhile q) := by
  have hcomp : q ∘ Char.toUpper = q := funext hq
  rw [upper, List.dropWhile_map, hcomp, upper]

end Span

theorem trimStart_upper (t : Text) : trimStart (upper t) = upper (trimStart t) :=
  dropWhile_upper isBlank_toUpper t

theorem trimEnd_upper (t : Text) : trimEnd (upper t) = upper (trimEnd t) := by
  have hreverse (u : Text) : (upper u).reverse = upper u.reverse := List.map_reverse.symm
  unfold trimEnd
  rw [hreverse, dropWhile_upper isBlank_toUpper, hreverse]

theorem trim_upper (t : Text) : trim (upper t) = upper (trim t) := by
  rw [trim, trimStart_upper, trimEnd_upper, trim]

theorem dropBytes_upper (n : Nat) (t : Text) : dropBytes n (upper t) = upper (dropBytes n t) := by
  induction t generalizing n with
  | nil => rw [upper_nil, dropBytes_nil, upper_nil]
  | cons c t ih =>
    cases n with
    | zero => rw [dropBytes_zero, dropBytes_zero]
    | succ n => rw [upper_cons, dropBytes, dropBytes, utf8Size_toUpper, ih]

end Text

namespace Token

/-! ### Lexemes -/

theorem digits_upper (t : Text) : digits (Text.upper t) = Text.upper (digits t) :=
  Text.takeWhile_upper Text.isDigit_toUpper t

theorem fractionPart_upper (t : Text) :
    fractionPart (Text.upper t) = Text.upper (fractionPart t) := by
  cases t with
  | nil => rfl
  | cons c t =>
    by_cases hc : c = '.'
    · subst hc
      have hpoint : Text.upper ('.' :: t) = '.' :: Text.upper t := rfl
      rw [hpoint, fractionPart, fractionPart, digits_upper]
      simp only [Text.upper_eq_nil_iff]
      split <;> rfl
    · have hc' : c.toUpper ≠ '.' := by
        rwa [ne_eq, Text.toUpper_eq_iff '.' (by decide)]
      simp [fractionPart, hc, hc']

theorem exponentPart_upper (t : Text) :
    exponentPart (Text.upper t) = Text.upper (exponentPart t) := by
  cases t with
  | nil => rfl
  | cons c t =>
    have hletter : (c.toUpper = 'e' ∨ c.toUpper = 'E') ↔ (c = 'e' ∨ c = 'E') :=
      Text.forall_char (P := fun c => (c.toUpper = 'e' ∨ c.toUpper = 'E') ↔ (c = 'e' ∨ c = 'E'))
        (fun c hc => by rw [hc]) (by decide) c
    -- The same for every sign; which one it is depends on the next character.
    have hpart (sign : Text) (hsign : Text.upper sign = sign) :
        (if (c.toUpper = 'e' ∨ c.toUpper = 'E') ∧ digits ((Text.upper t).drop sign.length) ≠ [] then
          c.toUpper :: (sign ++ digits ((Text.upper t).drop sign.length)) else []) =
        Text.upper (if (c = 'e' ∨ c = 'E') ∧ digits (t.drop sign.length) ≠ [] then
          c :: (sign ++ digits (t.drop sign.length)) else []) := by
      rw [Text.drop_upper, digits_upper]
      simp only [ne_eq, Text.upper_eq_nil_iff, hletter]
      split
      · rw [Text.upper_cons, Text.upper_append, hsign]
      · rfl
    cases t with
    | nil => exact hpart [] rfl
    | cons d u =>
      by_cases hplus : d = '+'
      · subst hplus
        exact hpart ['+'] rfl
      · by_cases hminus : d = '-'
        · subst hminus
          exact hpart ['-'] rfl
        · have hplus' : d.toUpper ≠ '+' := by rwa [ne_eq, Text.toUpper_eq_iff '+' (by decide)]
          have hminus' : d.toUpper ≠ '-' := by rwa [ne_eq, Text.toUpper_eq_iff '-' (by decide)]
          simpa [exponentPart, hplus, hminus, hplus', hminus'] using hpart [] rfl

theorem decimalPart_upper (t : Text) : decimalPart (Text.upper t) = Text.upper (decimalPart t) := by
  unfold decimalPart
  dsimp only
  rw [digits_upper, Text.length_upper, Text.drop_upper, fractionPart_upper, ← Text.upper_append,
    Text.length_upper, Text.drop_upper, exponentPart_upper]
  simp only [Text.upper_eq_nil_iff]
  split
  · rfl
  · rw [← Text.upper_append]

theorem numeralPart_upper (operand : Bool) (t : Text) :
    numeralPart operand (Text.upper t) = Text.upper (numeralPart operand t) := by
  cases t with
  | nil => rfl
  | cons c t =>
    have hplus := Text.toUpper_eq_iff '+' (by decide) c
    have hminus := Text.toUpper_eq_iff '-' (by decide) c
    have hdecimal := decimalPart_upper (c :: t)
    rw [Text.upper_cons] at hdecimal ⊢
    unfold numeralPart
    simp only [hplus, hminus, hdecimal, decimalPart_upper t, ne_eq, Text.upper_eq_nil_iff]
    split
    · split <;> rfl
    · rfl

theorem fixedKind?_upper (operand : Bool) (t : Text) :
    fixedKind? operand (Text.upper t) = fixedKind? operand t := by
  unfold fixedKind?
  rw [Text.take_upper, Text.upper_upper]

theorem namePart_upper (t : Text) : namePart (Text.upper t) = Text.upper (namePart t) := by
  unfold namePart
  dsimp only
  rw [Text.takeWhile_upper Text.isAlpha_toUpper, Text.length_upper, Text.drop_upper, digits_upper]
  simp only [Text.upper_eq_nil_iff]
  split
  · rfl
  · rw [Text.upper_append]

theorem namePart_ne_nil {c : Char} (h : c.isAlpha = true) (t : Text) : namePart (c :: t) ≠ [] := by
  unfold namePart
  rw [List.takeWhile_cons_of_pos h]
  exact nofun

/-- The first lexeme in upper case is the same token. A character that is a token by itself is no
letter, or it would have been a name. -/
theorem firstLexeme_upper (operand : Bool) (c : Char) (t : Text) :
    firstLexeme operand c.toUpper (Text.upper t) =
      (Text.upper (firstLexeme operand c t).1, (firstLexeme operand c t).2) := by
  unfold firstLexeme
  dsimp only
  rw [← Text.upper_cons, numeralPart_upper, fixedKind?_upper, namePart_upper]
  simp only [ne_eq, Text.upper_eq_nil_iff, Text.upper_upper]
  split
  · rfl
  · split
    · rw [Text.take_upper]
    · split
      · rfl
      · rename_i hname
        have hc : c.isAlpha = false := by
          by_contra hletter
          exact hname (namePart_ne_nil (by simpa using hletter) t)
        rw [Text.upper_cons, Text.toUpper_of_not_isAlpha c hc, Text.upper_nil]

theorem scanFrom_upper (phase : Phase) (offset : Nat) (t : Text) :
    scanFrom phase offset (Text.upper t) = scanFrom phase offset t := by
  fun_induction scanFrom phase offset t with
  | case1 phase offset => rw [Text.upper_nil, scanFrom]
  | case2 phase offset c t hgap ih =>
    rw [Text.upper_cons, scanFrom, Text.isGap_toUpper, if_pos hgap, Text.utf8Size_toUpper, ih]
  | case3 phase offset c t hgap lexeme kind hlexeme stop ih =>
    rw [Text.upper_cons, scanFrom, Text.isGap_toUpper, if_neg hgap, firstLexeme_upper, hlexeme]
    dsimp only
    rw [Text.byteLength_upper, Text.length_upper, Text.drop_upper, ih]

/-- A statement has the same tokens in upper case. -/
theorem lex_upper (t : Text) : lex (Text.upper t) = lex t := by
  unfold lex scan
  rw [scanFrom_upper]

end Token

end SpectrumBasic
