import SpectrumBasic.Proofs.Program.Segment
import SpectrumBasic.Token.Lexer

/-! Numerals in a statement. Whatever the lexer takes for a number is a decimal with perhaps a sign in
front, and every such text reads as a number, so a number token always has a value. -/

namespace SpectrumBasic

theorem Text.upper_of_digits {t : Text} (h : ∀ c ∈ t, c.isDigit = true) : upper t = t := by
  have hid : ∀ c ∈ t, c.toUpper = id c := by
    intro c hc
    have hdigit := h c hc
    simp only [Char.isDigit, Bool.and_eq_true, decide_eq_true_eq, UInt32.le_iff_toNat_le] at hdigit
    have hle : c.val.toNat ≤ 57 := hdigit.2
    have ha : 'a'.val.toNat = 97 := rfl
    refine dif_neg ?_
    simp only [UInt32.le_iff_toNat_le]
    omega
  exact (List.map_congr_left hid).trans (List.map_id t)

namespace Number

/-! ### Decimals -/

/-- A point with digits behind it, or nothing. -/
inductive IsFraction : Text → Prop
  | none : IsFraction []
  | some {digits : Text} (hne : digits ≠ []) (hdigits : ∀ c ∈ digits, c.isDigit = true) :
    IsFraction ('.' :: digits)

/-- A power of ten, or nothing. -/
inductive IsExponent : Text → Prop
  | none : IsExponent []
  | some {c : Char} {sign digits : Text} (hc : c = 'e' ∨ c = 'E')
      (hsign : sign ∈ [[], ['+'], ['-']]) (hne : digits ≠ [])
      (hdigits : ∀ c ∈ digits, c.isDigit = true) : IsExponent (c :: (sign ++ digits))

/-- An unsigned decimal, with digits in front of the point or behind it. -/
def IsDecimal (t : Text) : Prop :=
  ∃ whole fraction exponent, t = whole ++ (fraction ++ exponent) ∧
    (∀ c ∈ whole, c.isDigit = true) ∧ IsFraction fraction ∧ IsExponent exponent ∧
    whole ++ fraction ≠ []

theorem takeSign_of_digits {t : Text} (h : ∀ c ∈ t, c.isDigit = true) : takeSign t = (false, t) := by
  unfold takeSign
  split
  · exact absurd (h '-' List.mem_cons_self) (by decide)
  · exact absurd (h '+' List.mem_cons_self) (by decide)
  · rfl

namespace IsExponent

variable {t : Text}

theorem isSome_read (h : IsExponent t) : (readExponent? t).isSome = true := by
  cases h with
  | none => rfl
  | @some c sign digits hc hsign hne hdigits =>
    have hall : digits.all Char.isDigit = true := List.all_eq_true.mpr hdigits
    have htake : (takeSign (sign ++ digits)).2 = digits := by
      simp only [List.mem_cons, List.not_mem_nil, or_false] at hsign
      obtain rfl | rfl | rfl := hsign
      · rw [List.nil_append, takeSign_of_digits hdigits]
      · rfl
      · rfl
    unfold readExponent?
    dsimp only
    rw [htake, if_pos ⟨hc, hne, hall⟩]
    rfl

theorem upper (h : IsExponent t) : IsExponent (Text.upper t) := by
  cases h with
  | none => exact .none
  | @some c sign digits hc hsign hne hdigits =>
    have hE : c.toUpper = 'E' := by obtain rfl | rfl := hc <;> rfl
    have hsame : Text.upper sign = sign := by
      simp only [List.mem_cons, List.not_mem_nil, or_false] at hsign
      obtain rfl | rfl | rfl := hsign <;> rfl
    have hupper : Text.upper (c :: (sign ++ digits)) = 'E' :: (sign ++ digits) := by
      have hdigits' := Text.upper_of_digits hdigits
      unfold Text.upper at hsame hdigits' ⊢
      rw [List.map_cons, List.map_append, hE, hsame, hdigits']
    rw [hupper]
    exact .some (.inr rfl) hsign hne hdigits

/-- A power of ten does not begin with a digit or a point. -/
theorem head_ne (h : IsExponent t) : ∀ c ∈ t.head?, c.isDigit = false ∧ c ≠ '.' := by
  cases h with
  | none => exact nofun
  | some hc =>
    rintro c ⟨⟩
    obtain rfl | rfl := hc <;> decide

end IsExponent

theorem IsFraction.upper {t : Text} (h : IsFraction t) : Text.upper t = t := by
  cases h with
  | none => rfl
  | some hne hdigits => exact congrArg ('.' :: ·) (Text.upper_of_digits hdigits)

namespace IsDecimal

variable {t : Text}

theorem upper (h : IsDecimal t) : IsDecimal (Text.upper t) := by
  obtain ⟨whole, fraction, exponent, rfl, hwhole, hfraction, hexponent, hne⟩ := h
  refine ⟨whole, fraction, Text.upper exponent, ?_, hwhole, hfraction, hexponent.upper, hne⟩
  have hwhole' := Text.upper_of_digits hwhole
  have hfraction' := hfraction.upper
  unfold Text.upper at hwhole' hfraction' ⊢
  rw [List.map_append, List.map_append, hwhole', hfraction']

theorem isSome_readDecimal (h : IsDecimal t) : (readDecimal? t).isSome = true := by
  obtain ⟨whole, fraction, exponent, rfl, hwhole, hfraction, hexponent, hne⟩ := h
  have hread := hexponent.isSome_read
  have hhead : ∀ c ∈ exponent.head?, c.isDigit = false := fun c hc => (hexponent.head_ne c hc).1
  unfold readDecimal?
  cases hfraction with
  | none =>
    obtain ⟨htake, hdrop⟩ := Text.takeWhile_append_of_head hwhole hhead
    rw [List.append_nil] at hne
    rw [List.nil_append, htake, hdrop]
    cases hexponent with
    | none => simp [hne, hread]
    | some hc => obtain rfl | rfl := hc <;> simp [hne, hread]
  | @some digits hsome hdigits =>
    have hpoint : ∀ c ∈ ('.' :: digits ++ exponent).head?, c.isDigit = false := by
      rintro c ⟨⟩
      rfl
    obtain ⟨htake, hdrop⟩ := Text.takeWhile_append_of_head hwhole hpoint
    obtain ⟨htake', hdrop'⟩ := Text.takeWhile_append_of_head hdigits hhead
    rw [htake, hdrop]
    simp [htake', hdrop', hsome, hread]

/-- A decimal begins with a digit or a point, so its sign is none. -/
theorem takeSign_eq (h : IsDecimal t) : takeSign t = (false, t) := by
  obtain ⟨whole, fraction, exponent, rfl, hwhole, hfraction, hexponent, hne⟩ := h
  cases whole with
  | nil =>
    cases hfraction with
    | none => exact absurd rfl hne
    | some => rfl
  | cons c whole =>
    have hc := hwhole c List.mem_cons_self
    unfold takeSign
    split
    · rename_i heq
      cases heq
      exact absurd hc (by decide)
    · rename_i heq
      cases heq
      exact absurd hc (by decide)
    · rfl

theorem isSome_read (h : IsDecimal t) :
    (read? t).isSome = true ∧ ∀ c, c = '+' ∨ c = '-' → (read? (c :: t)).isSome = true := by
  have hunsigned : (readUnsigned? t).isSome = true := by
    unfold readUnsigned?
    dsimp only
    split
    · rfl
    · split
      · rfl
      · exact h.isSome_readDecimal
  constructor
  · simp [read?, h.takeSign_eq, hunsigned]
  · rintro c (rfl | rfl) <;> simp [read?, takeSign, hunsigned]

end IsDecimal

end Number

namespace Token

/-! ### Number tokens -/

theorem isFraction_fractionPart (t : Text) : Number.IsFraction (fractionPart t) := by
  unfold fractionPart
  split
  · split
    · exact .none
    · rename_i hne
      exact .some hne fun c hc => List.mem_takeWhile_imp hc
  · exact .none

theorem isExponent_exponentPart (t : Text) : Number.IsExponent (exponentPart t) := by
  have hsigned (c : Char) (u sign : Text) (hsign : sign ∈ [[], ['+'], ['-']]) :
      Number.IsExponent (if (c = 'e' ∨ c = 'E') ∧ digits (u.drop sign.length) ≠ [] then
        c :: (sign ++ digits (u.drop sign.length)) else []) := by
    split
    · rename_i hpower
      exact .some hpower.1 hsign hpower.2 fun c hc => List.mem_takeWhile_imp hc
    · exact .none
  cases t with
  | nil => exact .none
  | cons c u =>
    unfold exponentPart
    dsimp only
    split <;> exact hsigned c _ _ (by simp)

theorem isDecimal_decimalPart {t : Text} (h : decimalPart t ≠ []) :
    Number.IsDecimal (decimalPart t) := by
  unfold decimalPart at h ⊢
  dsimp only at h ⊢
  split at h
  · exact absurd rfl h
  · rename_i hne
    rw [if_neg hne, List.append_assoc]
    exact ⟨_, _, _, rfl, fun c hc => List.mem_takeWhile_imp hc, isFraction_fractionPart _,
      isExponent_exponentPart _, hne⟩

/-- A numeral reads as a number, also in upper case. -/
theorem isSome_read_numeralPart {operand : Bool} {t : Text} (h : numeralPart operand t ≠ []) :
    (Number.read? (Text.upper (numeralPart operand t))).isSome = true := by
  unfold numeralPart at h ⊢
  split at h
  · exact absurd rfl h
  · split at h
    · rename_i c u hsign
      split at h
      · rename_i hoperand
        have hdecimal := (isDecimal_decimalPart hoperand.2).upper
        rw [if_pos hsign, if_pos hoperand]
        have hc : c.toUpper = c := by obtain rfl | rfl := hsign <;> rfl
        rw [Text.upper, List.map_cons, hc]
        exact hdecimal.isSome_read.2 c hsign
      · exact absurd rfl h
    · rename_i c u hsign
      rw [if_neg hsign]
      exact (isDecimal_decimalPart h).upper.isSome_read.1

theorem not_number_of_mem_fixedKinds :
    ∀ operand, ∀ k ∈ fixedKinds operand, ∀ numeral, k ≠ .number numeral := by
  intro operand k hk numeral heq
  subst heq
  simp [fixedKinds] at hk

theorem isSome_read_of_firstLexeme {operand : Bool} {c : Char} {t numeral : Text}
    (h : (firstLexeme operand c t).2 = .number numeral) : (Number.read? numeral).isSome = true := by
  unfold firstLexeme at h
  dsimp only at h
  split at h
  · rename_i hne
    cases h
    exact isSome_read_numeralPart hne
  · split at h
    · rename_i kind hkind
      unfold fixedKind? at hkind
      exact absurd h (not_number_of_mem_fixedKinds operand kind (List.mem_of_find?_eq_some hkind) _)
    · split at h <;> cases h

theorem isSome_read_of_mem_scanFrom {phase : Phase} {offset : Nat} {s numeral : Text} {t : Token}
    (h : t ∈ scanFrom phase offset s) (ht : t.kind = .number numeral) :
    (Number.read? numeral).isSome = true := by
  fun_induction scanFrom phase offset s with
  | case1 => cases h
  | case2 phase offset c s hgap ih => exact ih h
  | case3 phase offset c s hgap lexeme kind hlexeme stop ih =>
    obtain rfl | h := List.mem_cons.mp h
    · exact isSome_read_of_firstLexeme (by rw [hlexeme]; exact ht)
    · exact ih h

/-- The text of a number token reads as a number. -/
theorem isSome_read_of_mem_lex {s numeral : Text} {t : Token} (h : t ∈ lex s)
    (ht : t.kind = .number numeral) : (Number.read? numeral).isSome = true := by
  have hmem : t ∈ scan s := by
    unfold lex at h
    split at h
    · rename_i hscan
      rw [hscan]
      exact List.mem_cons_of_mem _ h
    · exact h
  exact isSome_read_of_mem_scanFrom hmem ht

/-- Every number among the tokens has a value. -/
def Legible (ts : List Token) : Prop :=
  ∀ t ∈ ts, ∀ numeral, t.kind = .number numeral → (Number.read? numeral).isSome = true

theorem legible_lex (s : Text) : Legible (lex s) := fun _ ht _ => isSome_read_of_mem_lex ht

end Token

end SpectrumBasic
