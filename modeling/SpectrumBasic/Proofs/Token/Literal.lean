import Mathlib.Computability.RegularExpressions
import Mathlib.Tactic.IntervalCases
import SpectrumBasic.Proofs.Token.Sign

/-! The pattern of numerals. A decimal with perhaps a sign in front is a match of one regular
expression, and what the lexer takes for a number is the longest match in front of the text, so no
character behind a number token could belong to it. -/

namespace SpectrumBasic

namespace Number

/-! ### The pattern -/

/-- One of the characters. -/
def oneOf (cs : List Char) : RegularExpression Char := cs.foldr (fun c r => .char c + r) 0

/-- A match of the expression, or nothing. -/
def optionally (r : RegularExpression Char) : RegularExpression Char := r + 1

def signPattern : RegularExpression Char := optionally (oneOf ['+', '-'])

/-- One digit or more. -/
def digitsPattern : RegularExpression Char :=
  oneOf "0123456789".toList * (oneOf "0123456789".toList).star

def fractionPattern : RegularExpression Char := .char '.' * digitsPattern

def mantissaPattern : RegularExpression Char :=
  digitsPattern * optionally fractionPattern + fractionPattern

def exponentPattern (letters : List Char) : RegularExpression Char :=
  oneOf letters * (signPattern * digitsPattern)

/-- `[+-]?(D+(.D+)?|.D+)(E[+-]?D+)?` with a digit for each `D` and one of the letters for `E`. -/
def pattern (letters : List Char) : RegularExpression Char :=
  signPattern * (mantissaPattern * optionally (exponentPattern letters))

section Match

variable {w : Text}

theorem mem_oneOf {cs : List Char} : w ∈ (oneOf cs).matches' ↔ ∃ c ∈ cs, w = [c] := by
  induction cs with
  | nil =>
    have hnone : w ∉ (oneOf []).matches' := Language.notMem_zero w
    simp [hnone]
  | cons c cs ih =>
    have hcons : w ∈ (oneOf (c :: cs)).matches' ↔ w = [c] ∨ w ∈ (oneOf cs).matches' := Iff.rfl
    rw [hcons, ih]
    simp

theorem mem_optionally {r : RegularExpression Char} :
    w ∈ (optionally r).matches' ↔ w ∈ r.matches' ∨ w = [] := Iff.rfl

/-- An expression for the texts with a property that are not empty is one for all of them if it may be
left out. -/
theorem mem_optionally_iff {r : RegularExpression Char} {P : Text → Prop}
    (hr : w ∈ r.matches' ↔ P w ∧ w ≠ []) (hnil : P []) : w ∈ (optionally r).matches' ↔ P w := by
  rw [mem_optionally, hr]
  constructor
  · rintro (hsome | rfl)
    · exact hsome.1
    · exact hnil
  · intro h
    by_cases hnone : w = []
    · exact .inr hnone
    · exact .inl ⟨h, hnone⟩

theorem mem_signPattern : w ∈ signPattern.matches' ↔ w ∈ [[], ['+'], ['-']] := by
  rw [signPattern, mem_optionally, mem_oneOf]
  simp only [List.mem_cons, List.not_mem_nil, or_false, exists_eq_or_imp, exists_eq_left]
  tauto

theorem isDigit_iff_mem {c : Char} : c.isDigit = true ↔ c ∈ "0123456789".toList := by
  constructor
  · intro h
    simp only [Char.isDigit, Bool.and_eq_true, decide_eq_true_eq, UInt32.le_iff_toNat_le] at h
    have hrange : 48 ≤ c.toNat ∧ c.toNat ≤ 57 := h
    obtain ⟨hlow, hhigh⟩ := hrange
    rw [← Char.ofNat_toNat c]
    generalize c.toNat = n at hlow hhigh
    interval_cases n <;> decide
  · have hall : "0123456789".toList.all Char.isDigit = true := rfl
    exact List.all_eq_true.mp hall c

theorem mem_digitsPattern : w ∈ digitsPattern.matches' ↔ w ≠ [] ∧ ∀ c ∈ w, c.isDigit = true := by
  rw [digitsPattern, RegularExpression.matches'_mul, Language.mem_mul]
  constructor
  · rintro ⟨first, hfirst, more, hmore, rfl⟩
    obtain ⟨c, hc, rfl⟩ := mem_oneOf.mp hfirst
    obtain ⟨parts, rfl, hparts⟩ := Language.mem_kstar.mp hmore
    refine ⟨List.cons_ne_nil _ _, List.forall_mem_cons.mpr ⟨isDigit_iff_mem.mpr hc, fun d hd => ?_⟩⟩
    obtain ⟨part, hpart, hd⟩ := List.mem_flatten.mp hd
    obtain ⟨e, he, rfl⟩ := mem_oneOf.mp (hparts part hpart)
    rw [List.mem_singleton.mp hd]
    exact isDigit_iff_mem.mpr he
  · rintro ⟨hne, hdigits⟩
    obtain ⟨c, more, rfl⟩ := List.exists_cons_of_ne_nil hne
    obtain ⟨hc, hmore⟩ := List.forall_mem_cons.mp hdigits
    refine ⟨[c], mem_oneOf.mpr ⟨c, isDigit_iff_mem.mp hc, rfl⟩, more, ?_, rfl⟩
    refine Language.mem_kstar.mpr ⟨more.map ([·]), ?_, ?_⟩
    · rw [← List.flatMap_def, List.flatMap_singleton']
    · intro part hpart
      obtain ⟨d, hd, rfl⟩ := List.mem_map.mp hpart
      exact mem_oneOf.mpr ⟨d, isDigit_iff_mem.mp (hmore d hd), rfl⟩

theorem mem_fractionPattern : w ∈ fractionPattern.matches' ↔ IsFraction w ∧ w ≠ [] := by
  rw [fractionPattern, RegularExpression.matches'_mul, Language.mem_mul]
  constructor
  · rintro ⟨point, rfl, digits, hdigits, rfl⟩
    obtain ⟨hne, hdigits⟩ := mem_digitsPattern.mp hdigits
    exact ⟨.some hne hdigits, List.cons_ne_nil _ _⟩
  · rintro ⟨hfraction, hne⟩
    cases hfraction with
    | none => exact absurd rfl hne
    | @some digits hsome hdigits =>
      exact ⟨['.'], rfl, digits, mem_digitsPattern.mpr ⟨hsome, hdigits⟩, rfl⟩

theorem mem_mantissaPattern :
    w ∈ mantissaPattern.matches' ↔ (∃ whole fraction, w = whole ++ fraction ∧
      (∀ c ∈ whole, c.isDigit = true) ∧ IsFraction fraction) ∧ w ≠ [] := by
  have hoptional {v : Text} : v ∈ (optionally fractionPattern).matches' ↔ IsFraction v :=
    mem_optionally_iff mem_fractionPattern .none
  rw [mantissaPattern, RegularExpression.matches'_add, Language.mem_add,
    RegularExpression.matches'_mul, Language.mem_mul]
  constructor
  · rintro (⟨whole, hwhole, fraction, hfraction, rfl⟩ | hfraction)
    · obtain ⟨hne, hwhole⟩ := mem_digitsPattern.mp hwhole
      exact ⟨⟨whole, fraction, rfl, hwhole, hoptional.mp hfraction⟩, by simp [hne]⟩
    · obtain ⟨hfraction, hne⟩ := mem_fractionPattern.mp hfraction
      exact ⟨⟨[], w, rfl, by simp, hfraction⟩, hne⟩
  · rintro ⟨⟨whole, fraction, rfl, hwhole, hfraction⟩, hne⟩
    by_cases hnone : whole = []
    · subst hnone
      exact .inr (mem_fractionPattern.mpr ⟨hfraction, hne⟩)
    · exact .inl ⟨whole, mem_digitsPattern.mpr ⟨hnone, hwhole⟩, fraction, hoptional.mpr hfraction, rfl⟩

theorem mem_exponentPattern :
    w ∈ (exponentPattern ['e', 'E']).matches' ↔ IsExponent w ∧ w ≠ [] := by
  rw [exponentPattern, RegularExpression.matches'_mul, Language.mem_mul]
  constructor
  · rintro ⟨letter, hletter, power, hpower, rfl⟩
    obtain ⟨c, hc, rfl⟩ := mem_oneOf.mp hletter
    obtain ⟨sign, hsign, digits, hdigits, rfl⟩ := Language.mem_mul.mp hpower
    obtain ⟨hne, hdigits⟩ := mem_digitsPattern.mp hdigits
    have hexponent : IsExponent (c :: (sign ++ digits)) :=
      .some (by simpa using hc) (mem_signPattern.mp hsign) hne hdigits
    exact ⟨hexponent, List.cons_ne_nil _ _⟩
  · rintro ⟨hexponent, hne⟩
    cases hexponent with
    | none => exact absurd rfl hne
    | @some c sign digits hc hsign hsome hdigits =>
      refine ⟨[c], mem_oneOf.mpr ⟨c, by simpa using hc, rfl⟩, sign ++ digits, ?_, rfl⟩
      exact Language.append_mem_mul (mem_signPattern.mpr hsign) (mem_digitsPattern.mpr ⟨hsome, hdigits⟩)

/-- What the pattern matches is a decimal with perhaps a sign in front. -/
theorem mem_pattern :
    w ∈ (pattern ['e', 'E']).matches' ↔
      ∃ sign t, sign ∈ [[], ['+'], ['-']] ∧ IsDecimal t ∧ w = sign ++ t := by
  have hoptional {v : Text} : v ∈ (optionally (exponentPattern ['e', 'E'])).matches' ↔ IsExponent v :=
    mem_optionally_iff mem_exponentPattern .none
  rw [pattern, RegularExpression.matches'_mul, Language.mem_mul]
  constructor
  · rintro ⟨sign, hsign, t, ht, rfl⟩
    obtain ⟨mantissa, hmantissa, exponent, hexponent, rfl⟩ := Language.mem_mul.mp ht
    obtain ⟨⟨whole, fraction, rfl, hwhole, hfraction⟩, hne⟩ := mem_mantissaPattern.mp hmantissa
    refine ⟨sign, _, mem_signPattern.mp hsign, ?_, rfl⟩
    exact ⟨whole, fraction, exponent, List.append_assoc _ _ _, hwhole, hfraction, hoptional.mp hexponent,
      hne⟩
  · rintro ⟨sign, t, hsign, ⟨whole, fraction, exponent, rfl, hwhole, hfraction, hexponent, hne⟩, rfl⟩
    refine ⟨sign, mem_signPattern.mpr hsign, _, ?_, rfl⟩
    rw [← List.append_assoc]
    exact Language.append_mem_mul
      (mem_mantissaPattern.mpr ⟨⟨whole, fraction, rfl, hwhole, hfraction⟩, hne⟩)
      (hoptional.mpr hexponent)

/-- A match in upper case has an upper case letter for its power. -/
theorem upper_mem_pattern (h : w ∈ (pattern ['e', 'E']).matches') :
    Text.upper w ∈ (pattern ['E']).matches' := by
  have hmap : (pattern ['e', 'E']).map Char.toUpper = pattern ['E', 'E'] := rfl
  have hletters : (oneOf ['E', 'E']).matches' = (oneOf ['E']).matches' := by
    ext v
    simp [mem_oneOf]
  have hsame : (pattern ['E', 'E']).matches' = (pattern ['E']).matches' := by
    simp only [pattern, optionally, exponentPattern, RegularExpression.matches'_mul,
      RegularExpression.matches'_add, hletters]
  rw [← hsame, ← hmap, RegularExpression.matches'_map]
  exact Set.mem_image_of_mem _ h

theorem isSome_read_of_mem_pattern (h : w ∈ (pattern ['e', 'E']).matches') :
    (read? w).isSome = true := by
  obtain ⟨sign, t, hsign, ht, rfl⟩ := mem_pattern.mp h
  simp only [List.mem_cons, List.not_mem_nil, or_false] at hsign
  obtain rfl | rfl | rfl := hsign
  · exact ht.isSome_read.1
  · exact ht.isSome_read.2 '+' (.inl rfl)
  · exact ht.isSome_read.2 '-' (.inr rfl)

end Match

theorem IsDecimal.head_ne_sign {c : Char} {t : Text} (h : IsDecimal (c :: t)) :
    ¬ (c = '+' ∨ c = '-') := by
  have hsign := h.takeSign_eq
  rintro (rfl | rfl) <;> simp [takeSign] at hsign

end Number

namespace Token

/-! ### The longest decimal -/

section Longest

variable {t : Text}

theorem digits_append_of_head {whole : Text} (hwhole : ∀ c ∈ whole, c.isDigit = true)
    (ht : ∀ c ∈ t.head?, c.isDigit = false) : digits (whole ++ t) = whole :=
  (Text.takeWhile_append_of_head hwhole ht).1

theorem isPrefix_digits {whole : Text} (hwhole : ∀ c ∈ whole, c.isDigit = true) (t : Text) :
    whole <+: digits (whole ++ t) := by
  rw [digits, List.takeWhile_append_of_pos hwhole]
  exact List.prefix_append _ _

theorem fractionPart_append_of_head {fraction : Text} (hfraction : Number.IsFraction fraction)
    (ht : ∀ c ∈ t.head?, c.isDigit = false ∧ c ≠ '.') : fractionPart (fraction ++ t) = fraction := by
  cases hfraction with
  | none =>
    rw [List.nil_append, fractionPart_eq_nil_iff]
    rintro d u rfl
    exact absurd rfl (ht '.' rfl).2
  | some hne hdigits =>
    have hpart := digits_append_of_head hdigits fun c hc => (ht c hc).1
    simp [fractionPart, hpart, hne]

theorem isPrefix_fractionPart {fraction : Text} (hfraction : Number.IsFraction fraction) (t : Text) :
    fraction <+: fractionPart (fraction ++ t) := by
  cases hfraction with
  | none => exact List.nil_prefix
  | @some digits hne hdigits =>
    have hprefix := isPrefix_digits hdigits t
    have hsome : Token.digits (digits ++ t) ≠ [] := fun hnil => by
      rw [hnil] at hprefix
      exact hne (List.prefix_nil.mp hprefix)
    rw [List.cons_append, fractionPart, if_neg hsome]
    exact List.cons_prefix_cons.mpr ⟨rfl, hprefix⟩

theorem isPrefix_exponentPart {exponent : Text} (hexponent : Number.IsExponent exponent) (t : Text) :
    exponent <+: exponentPart (exponent ++ t) := by
  cases hexponent with
  | none => exact List.nil_prefix
  | @some c sign digits hc hsign hne hdigits =>
    have hprefix := isPrefix_digits hdigits t
    have hsome : Token.digits (digits ++ t) ≠ [] := fun hnil => by
      rw [hnil] at hprefix
      exact hne (List.prefix_nil.mp hprefix)
    simp only [List.mem_cons, List.not_mem_nil, or_false] at hsign
    obtain rfl | rfl | rfl := hsign
    · -- without a sign the power begins with a digit
      obtain ⟨d, digits, rfl⟩ := List.exists_cons_of_ne_nil hne
      have hplus : d ≠ '+' := by
        rintro rfl
        exact absurd (hdigits '+' List.mem_cons_self) (by decide)
      have hminus : d ≠ '-' := by
        rintro rfl
        exact absurd (hdigits '-' List.mem_cons_self) (by decide)
      rw [List.cons_append] at hprefix hsome
      simp [exponentPart, hplus, hminus, hc, hsome, hprefix]
    · simp [exponentPart, hc, hsome, hprefix]
    · simp [exponentPart, hc, hsome, hprefix]

/-- The digits in front and the fraction behind them. -/
def mantissaPart (t : Text) : Text := digits t ++ fractionPart (t.drop (digits t).length)

theorem decimalPart_eq (t : Text) :
    decimalPart t = if mantissaPart t = [] then []
      else mantissaPart t ++ exponentPart (t.drop (mantissaPart t).length) := rfl

section Mantissa

variable {whole fraction : Text} (hwhole : ∀ c ∈ whole, c.isDigit = true)
  (hfraction : Number.IsFraction fraction)
include hwhole hfraction

theorem mantissaPart_append_of_head (ht : ∀ c ∈ t.head?, c.isDigit = false ∧ c ≠ '.') :
    mantissaPart (whole ++ (fraction ++ t)) = whole ++ fraction := by
  have hhead : ∀ c ∈ (fraction ++ t).head?, c.isDigit = false := by
    cases hfraction with
    | none => exact fun c hc => (ht c hc).1
    | some =>
      rintro c ⟨⟩
      rfl
  rw [mantissaPart, digits_append_of_head hwhole hhead, List.drop_left,
    fractionPart_append_of_head hfraction ht]

theorem isPrefix_mantissaPart (t : Text) :
    whole ++ fraction <+: mantissaPart (whole ++ (fraction ++ t)) := by
  have hpart := isPrefix_fractionPart hfraction t
  unfold mantissaPart
  cases hfraction with
  | none =>
    rw [List.append_nil]
    exact (isPrefix_digits hwhole _).trans (List.prefix_append _ _)
  | @some digits =>
    have hhead : ∀ c ∈ ('.' :: digits ++ t).head?, c.isDigit = false := by
      rintro c ⟨⟩
      rfl
    rw [digits_append_of_head hwhole hhead, List.drop_left]
    exact (List.prefix_append_right_inj _).mpr hpart

end Mantissa

/-- No decimal in front of a text is longer than the one that the lexer takes. -/
theorem isPrefix_decimalPart {w : Text} (hw : Number.IsDecimal w) (t : Text) :
    w <+: decimalPart (w ++ t) := by
  obtain ⟨whole, fraction, exponent, rfl, hwhole, hfraction, hexponent, hne⟩ := hw
  rw [List.append_assoc, List.append_assoc, ← List.append_assoc whole, decimalPart_eq]
  by_cases hnone : exponent = []
  · subst hnone
    have hmantissa := isPrefix_mantissaPart hwhole hfraction t
    rw [List.append_nil, List.nil_append, if_neg (List.IsPrefix.ne_nil hmantissa hne)]
    exact hmantissa.trans (List.prefix_append _ _)
  · -- a power ends the mantissa, whatever follows
    have hhead : ∀ c ∈ (exponent ++ t).head?, c.isDigit = false ∧ c ≠ '.' := by
      rw [List.head?_append_of_ne_nil _ hnone]
      exact hexponent.head_ne
    rw [mantissaPart_append_of_head hwhole hfraction hhead, if_neg hne, ← List.append_assoc whole,
      List.drop_left]
    exact (List.prefix_append_right_inj _).mpr (isPrefix_exponentPart hexponent t)

end Longest

/-! ### The longest numeral -/

section Numeral

variable {operand : Bool} {t : Text}

theorem numeralPart_mem_pattern (h : numeralPart operand t ≠ []) :
    numeralPart operand t ∈ (Number.pattern ['e', 'E']).matches' := by
  cases t with
  | nil => exact absurd rfl h
  | cons c u =>
    by_cases hsign : c = '+' ∨ c = '-'
    · rw [numeralPart_sign operand hsign] at h ⊢
      split at h
      · next hoperand =>
        rw [if_pos hoperand]
        have hdecimal := isDecimal_decimalPart ((decimalPart_ne_nil_iff u).mpr hoperand.2)
        exact Number.mem_pattern.mpr ⟨[c], _, by simpa using hsign, hdecimal, rfl⟩
      · exact absurd rfl h
    · rw [numeralPart_of_not_sign operand hsign] at h ⊢
      exact Number.mem_pattern.mpr ⟨[], _, by simp, isDecimal_decimalPart h, rfl⟩

/-- Where there is a numeral in front of a text it is the longest match of the pattern there. -/
theorem isPrefix_numeralPart {w : Text} (h : numeralPart operand t ≠ [])
    (hw : w ∈ (Number.pattern ['e', 'E']).matches') (hfront : w <+: t) :
    w <+: numeralPart operand t := by
  obtain ⟨sign, d, hmem, hd, rfl⟩ := Number.mem_pattern.mp hw
  obtain ⟨rest, rfl⟩ := hfront
  rw [List.append_assoc] at h ⊢
  have hlongest := isPrefix_decimalPart hd rest
  simp only [List.mem_cons, List.not_mem_nil, or_false] at hmem
  -- with a sign or without, the decimal behind it is the longest one
  rcases hmem with rfl | hsigned
  · obtain ⟨c, u, rfl⟩ : ∃ c u, d = c :: u := List.exists_cons_of_ne_nil fun hnil => by
      obtain ⟨c, hc, -⟩ := exists_isDigit_of_isDecimal hd
      simp [hnil] at hc
    rw [List.nil_append, List.nil_append, List.cons_append,
      numeralPart_of_not_sign operand hd.head_ne_sign]
    exact hlongest
  · obtain ⟨c, hc, rfl⟩ : ∃ c, (c = '+' ∨ c = '-') ∧ sign = [c] := by
      obtain rfl | rfl := hsigned
      · exact ⟨'+', .inl rfl, rfl⟩
      · exact ⟨'-', .inr rfl, rfl⟩
    rw [List.singleton_append, numeralPart_sign operand hc] at h
    rw [List.singleton_append, List.singleton_append, numeralPart_sign operand hc]
    split at h
    · next hoperand =>
      rw [if_pos hoperand]
      exact List.cons_prefix_cons.mpr ⟨rfl, hlongest⟩
    · exact absurd rfl h

theorem firstLexeme_number {c : Char} {numeral : Text}
    (h : (firstLexeme operand c t).2 = .number numeral) :
    numeralPart operand (c :: t) ≠ [] ∧ (firstLexeme operand c t).1 = numeralPart operand (c :: t) ∧
      numeral = Text.upper (numeralPart operand (c :: t)) := by
  unfold firstLexeme at h ⊢
  dsimp only at h ⊢
  split at h
  · next hne =>
    cases h
    exact ⟨hne, by rw [if_pos hne], rfl⟩
  · split at h
    · next kind hkind =>
      unfold fixedKind? at hkind
      exact absurd h (not_number_of_mem_fixedKinds operand kind (List.mem_of_find?_eq_some hkind) _)
    · split at h <;> cases h

end Numeral

/-- The span of the text is where `numeral` is written, in letters of either case. It is a match of the
pattern, and no match that starts there stops further on. -/
structure IsLongestNumeral (s : Text) (span : Span) (numeral : Text) : Prop where
  form : numeral ∈ (Number.pattern ['E']).matches'
  written : ∃ u, s.IsSlice span u ∧ Text.upper u = numeral ∧ u ∈ (Number.pattern ['e', 'E']).matches'
  longest : ∀ stop u, s.IsSlice ⟨span.start, stop⟩ u → u ∈ (Number.pattern ['e', 'E']).matches' →
    stop ≤ span.stop

/-- Every number token is the longest numeral at its place. -/
theorem isLongestNumeral_of_mem_scan {s numeral : Text} {t : Token} (h : t ∈ scan s)
    (ht : t.kind = .number numeral) : IsLongestNumeral s t.span numeral := by
  obtain ⟨operand, front, c, u, rfl, hstart, hstop, hkind⟩ := exists_firstLexeme_of_mem_scanFrom h
  obtain ⟨hne, hlexeme, rfl⟩ := firstLexeme_number (hkind.symm.trans ht)
  have hmem := numeralPart_mem_pattern hne
  rw [hlexeme] at hstop
  rw [Nat.zero_add] at hstart
  obtain ⟨back, hback⟩ := numeralPart_isPrefix operand (c :: u)
  refine ⟨Number.upper_mem_pattern hmem, ⟨_, ⟨front, back, ?_, hstart.symm, ?_⟩, rfl, hmem⟩, ?_⟩
  · rw [hback]
  · rw [Text.byteLength_append, hstop, hstart]
  · rintro stop v ⟨front', back', hsplit, hfront, hv⟩ hpattern
    -- both begin at the same byte of the text
    have hsame : v ++ back' = c :: u := by
      rw [← Text.dropBytes_append front' (v ++ back'), ← hsplit, hfront, hstart, Text.dropBytes_append]
    obtain ⟨more, hmore⟩ := isPrefix_numeralPart hne hpattern ⟨back', hsame⟩
    rw [Text.byteLength_append, hfront] at hv
    rw [hstop, ← hmore, Text.byteLength_append]
    dsimp only at hv
    omega

/-- Signs, points and letters that begin no part of a numeral are left to the tokens behind it. -/
example : (lex "DATA +.5E-3 7. 2E+ 1.5.5".toList).map (·.text) =
    ["DATA", "+.5E-3", "7", ".", "2", "E", "+", "1.5", ".5"] := by
  decide +kernel

end Token

end SpectrumBasic
