import Mathlib.Data.List.Find
import SpectrumBasic.Proofs.Token.Tiling

/-! Blanks divide a statement. Nothing that the lexer looks at reaches past a blank, so the lexemes in
front of one are those of the text in front of it. A gap is a blank that is no token either: what
stands behind it is read from there on. -/

namespace SpectrumBasic.Token

/-- The phase behind some tokens. -/
def Phase.after (phase : Phase) (ts : List Token) : Phase :=
  ts.foldl (fun phase t => phase.next t.kind) phase

/-- What has no `mark` in it is in front of a text exactly if it is in front of what precedes the first
`mark`. -/
theorem isPrefix_append_cons_iff {mark : Char} {w : Text} (h : mark ∉ w) (s t : Text) :
    w <+: s ++ mark :: t ↔ w <+: s := by
  constructor
  · rintro ⟨rest, hrest⟩
    rcases List.append_eq_append_iff.mp hrest with ⟨more, hs, -⟩ | ⟨more, hw, hmore⟩
    · exact ⟨more, hs.symm⟩
    · cases more with
      | nil => simp [hw]
      | cons c more =>
        obtain ⟨rfl, -⟩ := List.cons.inj hmore
        exact absurd (by simp [hw]) h
  · exact fun hs => hs.trans (List.prefix_append _ _)

theorem isBlank_of_isGap {g : Char} (hg : isGap g = true) : Text.isBlank g = true := by
  simp only [isGap, Bool.or_eq_true, decide_eq_true_eq] at hg
  obtain (rfl | rfl) | rfl := hg <;> decide

section Blank

variable {g : Char} (hg : Text.isBlank g = true)
include hg

/-- Blanks lie outside the range of digits and letters. -/
theorem toNat_of_isBlank : g.toNat < 48 ∨ 122 < g.toNat := by
  simp only [Text.isBlank, Text.blankRanges, List.any_cons, List.any_nil, Bool.or_false,
    Bool.or_eq_true, Bool.and_eq_true, decide_eq_true_eq] at hg
  omega

theorem isDigit_of_isBlank : g.isDigit = false := by
  by_contra hdigit
  simp only [Bool.not_eq_false, Char.isDigit, Bool.and_eq_true, decide_eq_true_eq,
    UInt32.le_iff_toNat_le] at hdigit
  have hrange : 48 ≤ g.toNat ∧ g.toNat ≤ 57 := hdigit
  have hblank := toNat_of_isBlank hg
  omega

theorem isAlpha_of_isBlank : g.isAlpha = false := by
  by_contra hletter
  have hblank := toNat_of_isBlank hg
  rcases Bool.or_eq_true_iff.mp (eq_true_of_ne_false hletter) with hupper | hlower
  · have hrange : 65 ≤ g.toNat ∧ g.toNat ≤ 90 := of_decide_eq_true hupper
    omega
  · have hrange : 97 ≤ g.toNat ∧ g.toNat ≤ 122 :=
      (Bool.and_eq_true_iff.mp hlower).imp of_decide_eq_true of_decide_eq_true
    omega

/-- A blank is no part of a fixed spelling. -/
theorem not_mem_text_of_mem_fixedKinds {operand : Bool} {k : Kind} (hk : k ∈ fixedKinds operand) :
    g ∉ k.text.toList := by
  have hall : ∀ operand, ∀ k ∈ fixedKinds operand, k.text.toList.all (!Text.isBlank ·) = true := by
    decide
  intro hmem
  have hnot := List.all_eq_true.mp (hall operand k hk) g hmem
  simp [hg] at hnot

/-! ### Lexemes -/

theorem digits_append_blank (s t : Text) : digits (s ++ g :: t) = digits s :=
  Text.takeWhile_append_cons (isDigit_of_isBlank hg) s t

theorem fractionPart_append_blank (s t : Text) : fractionPart (s ++ g :: t) = fractionPart s := by
  cases s with
  | nil =>
    have hpoint : g ≠ '.' := by
      rintro rfl
      exact absurd hg (by decide)
    simp [fractionPart, hpoint]
  | cons c s =>
    by_cases hc : c = '.'
    · subst hc
      simp only [List.cons_append, fractionPart, digits_append_blank hg]
    · simp [fractionPart, hc]

theorem exponentPart_append_blank (s t : Text) : exponentPart (s ++ g :: t) = exponentPart s := by
  have hletter : ¬ (g = 'e' ∨ g = 'E') := by
    rintro (rfl | rfl) <;> exact absurd hg (by decide)
  have hplus : g ≠ '+' := by
    rintro rfl
    exact absurd hg (by decide)
  have hminus : g ≠ '-' := by
    rintro rfl
    exact absurd hg (by decide)
  rcases s with _ | ⟨c, _ | ⟨d, u⟩⟩
  · simp [exponentPart, hletter]
  · simp [exponentPart, hplus, hminus, digits, isDigit_of_isBlank hg]
  · by_cases hd : d = '+' ∨ d = '-'
    · obtain rfl | rfl := hd <;> simp [exponentPart, digits_append_blank hg]
    · have hpower := digits_append_blank hg (d :: u) t
      rw [List.cons_append] at hpower
      obtain ⟨hd, hd'⟩ := not_or.mp hd
      simp [exponentPart, hd, hd', hpower]

theorem decimalPart_append_blank (s t : Text) : decimalPart (s ++ g :: t) = decimalPart s := by
  have hwhole := digits_isPrefix s
  have hmantissa := append_isPrefix hwhole (fractionPart_isPrefix _)
  unfold decimalPart
  dsimp only
  rw [digits_append_blank hg, List.drop_append_of_le_length hwhole.length_le,
    fractionPart_append_blank hg, List.drop_append_of_le_length hmantissa.length_le,
    exponentPart_append_blank hg]

theorem numeralPart_append_blank (operand : Bool) (c : Char) (s t : Text) :
    numeralPart operand (c :: (s ++ g :: t)) = numeralPart operand (c :: s) := by
  have hdecimal := decimalPart_append_blank hg (c :: s) t
  rw [List.cons_append] at hdecimal
  unfold numeralPart
  dsimp only
  rw [hdecimal, decimalPart_append_blank hg]

theorem fixedKind?_append_blank (operand : Bool) (s t : Text) :
    fixedKind? operand (s ++ g :: t) = fixedKind? operand s := by
  have hupper : Text.upper (s ++ g :: t) = Text.upper s ++ g :: Text.upper t := by
    rw [Text.upper_append, Text.upper_cons, Text.toUpper_of_not_isAlpha g (isAlpha_of_isBlank hg)]
  unfold fixedKind?
  refine List.find?_congr fun k hk => ?_
  have hmem := not_mem_text_of_mem_fixedKinds hg hk
  rw [Bool.eq_iff_iff, List.isPrefixOf_iff_prefix, List.isPrefixOf_iff_prefix, ← Text.take_upper,
    ← Text.take_upper, List.prefix_take_iff, List.prefix_take_iff, hupper,
    isPrefix_append_cons_iff hmem]

theorem namePart_append_blank (s t : Text) : namePart (s ++ g :: t) = namePart s := by
  have hletters : s.takeWhile Char.isAlpha <+: s := List.takeWhile_prefix _
  unfold namePart
  dsimp only
  rw [Text.takeWhile_append_cons (isAlpha_of_isBlank hg),
    List.drop_append_of_le_length hletters.length_le, digits_append_blank hg]

/-- The first lexeme does not depend on what follows a blank. -/
theorem firstLexeme_append_blank (operand : Bool) (c : Char) (s t : Text) :
    firstLexeme operand c (s ++ g :: t) = firstLexeme operand c s := by
  have hfixed := fixedKind?_append_blank hg operand (c :: s) t
  have hname := namePart_append_blank hg (c :: s) t
  rw [List.cons_append] at hfixed hname
  unfold firstLexeme
  dsimp only
  rw [numeralPart_append_blank hg, hfixed, hname]
  split
  · rfl
  · split
    · next kind hkind =>
      have hlength := (text_isPrefix_of_fixedKind? hkind).length_le
      rw [Text.length_upper, String.length_toList] at hlength
      rw [← List.cons_append, List.take_append_of_le_length hlength]
    · rfl

end Blank

/-! ### Tokens -/

/-- The tokens of a text with a gap in it are those in front of the gap and those behind it. -/
theorem scanFrom_append_gap {g : Char} (hg : isGap g = true) (phase : Phase) (offset : Nat)
    (s t : Text) :
    scanFrom phase offset (s ++ g :: t) =
      scanFrom phase offset s ++
        scanFrom (phase.after (scanFrom phase offset s)) (offset + Text.byteLength s + g.utf8Size) t := by
  fun_induction scanFrom phase offset s with
  | case1 phase offset =>
    rw [List.nil_append, scanFrom, if_pos hg]
    simp [Phase.after]
  | case2 phase offset c s hgap ih =>
    rw [List.cons_append, scanFrom, if_pos hgap, ih, Text.byteLength_cons, Nat.add_assoc offset]
  | case3 phase offset c s hgap lexeme kind hlexeme stop ih =>
    have hsplit := firstLexeme_append phase.operand c s
    have hprefix := firstLexeme_isPrefix phase.operand c s
    rw [hlexeme] at hsplit hprefix
    have hlength : lexeme.length ≤ s.length + 1 := hprefix.length_le
    have hbytes : offset + Text.byteLength (c :: s) =
        stop + Text.byteLength (s.drop (lexeme.length - 1)) := by
      rw [← hsplit, Text.byteLength_append, ← Nat.add_assoc]
    rw [List.cons_append, scanFrom, if_neg hgap, firstLexeme_append_blank (isBlank_of_isGap hg),
      hlexeme, hbytes]
    dsimp only
    rw [List.drop_append_of_le_length (by omega), ih]
    rfl

end SpectrumBasic.Token
