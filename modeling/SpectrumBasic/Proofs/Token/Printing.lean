import SpectrumBasic.Proofs.Token.Literal

/-! Printing a statement. The texts of its tokens, with one space between them, are lexed as the same
tokens again. A space keeps what stands on its two sides apart, so it is enough that each text is lexed
as its own token where it stands. A text loses which of two tokens a minus was and to what a sign
belonged, but the tokens in front of it are the same, and they decide. -/

namespace SpectrumBasic.Token

/-! ### Numerals alone -/

theorem digits_of_all {t : Text} (h : ∀ c ∈ t, c.isDigit = true) : digits t = t :=
  List.takeWhile_eq_self_iff.mpr h

/-- A decimal is the longest decimal in front of itself. -/
theorem decimalPart_of_isDecimal {t : Text} (h : Number.IsDecimal t) : decimalPart t = t := by
  have hprefix := isPrefix_decimalPart h []
  rw [List.append_nil] at hprefix
  exact (decimalPart_isPrefix t).eq_of_length_le hprefix.length_le

theorem decimalPart_decimalPart (t : Text) : decimalPart (decimalPart t) = decimalPart t := by
  by_cases hne : decimalPart t = []
  · rw [hne]
    rfl
  · exact decimalPart_of_isDecimal (isDecimal_decimalPart hne)

/-- A numeral is the longest numeral in front of itself. -/
theorem numeralPart_numeralPart (operand : Bool) (t : Text) :
    numeralPart operand (numeralPart operand t) = numeralPart operand t := by
  cases t with
  | nil => rfl
  | cons c u =>
    by_cases hsign : c = '+' ∨ c = '-'
    · rw [numeralPart_sign operand hsign]
      split
      · next hsigned =>
        rw [numeralPart_sign operand hsign, decimalPart_decimalPart, if_pos]
        refine ⟨hsigned.1, ?_⟩
        rw [← decimalPart_ne_nil_iff, decimalPart_decimalPart, decimalPart_ne_nil_iff]
        exact hsigned.2
      · rfl
    · have hagain := decimalPart_decimalPart (c :: u)
      have hprefix := decimalPart_isPrefix (c :: u)
      rw [numeralPart_of_not_sign operand hsign]
      cases hpart : decimalPart (c :: u) with
      | nil => rfl
      | cons d v =>
        -- the decimal begins as the text does, with no sign
        rw [hpart] at hagain hprefix
        obtain ⟨rfl, -⟩ := List.cons_prefix_cons.mp hprefix
        rw [numeralPart_of_not_sign operand hsign, hagain]

/-! ### Less text -/

theorem startsDecimal_of_isPrefix {t u : Text} (hu : u <+: t) (h : startsDecimal u = true) :
    startsDecimal t = true := by
  obtain ⟨rest, rfl⟩ := hu
  rcases u with _ | ⟨c, _ | ⟨d, u⟩⟩
  · cases h
  · rw [startsDecimal] at h
    cases rest <;> simp [startsDecimal, h]
  · exact h

/-- Less text has no numeral in front where more has none. -/
theorem numeralPart_eq_nil_of_isPrefix {operand : Bool} {t u : Text} (hu : u <+: t)
    (h : numeralPart operand t = []) : numeralPart operand u = [] := by
  cases u with
  | nil => rfl
  | cons c u =>
    obtain ⟨rest, rfl⟩ := hu
    rw [List.cons_append] at h
    by_cases hsign : c = '+' ∨ c = '-'
    · rw [numeralPart_sign operand hsign] at h ⊢
      rw [if_neg]
      rintro ⟨hoperand, hdecimal⟩
      rw [if_pos ⟨hoperand, startsDecimal_of_isPrefix (List.prefix_append u rest) hdecimal⟩] at h
      cases h
    · rw [numeralPart_of_not_sign operand hsign] at h ⊢
      by_contra hne
      rw [← ne_eq, decimalPart_ne_nil_iff] at hne
      have hmore := startsDecimal_of_isPrefix (List.prefix_append (c :: u) rest) hne
      exact (decimalPart_ne_nil_iff _).mpr hmore h

theorem mem_fixedKinds_of_fixedKind? {operand : Bool} {t : Text} {k : Kind}
    (h : fixedKind? operand t = some k) : k ∈ fixedKinds operand := by
  unfold fixedKind? at h
  exact List.mem_of_find?_eq_some h

/-- Less text has no fixed spelling in front where more has none. Whether an operand is expected makes
no difference to that. -/
theorem fixedKind?_eq_none_of_isPrefix {operand : Bool} {t u : Text} (hu : u <+: t)
    (h : fixedKind? operand t = none) (operand' : Bool) : fixedKind? operand' u = none := by
  have hspelled : ∀ operand operand', ∀ k ∈ fixedKinds operand',
      ∃ k' ∈ fixedKinds operand, k'.text = k.text := by
    decide
  by_contra hne
  obtain ⟨k, hk⟩ := Option.ne_none_iff_exists'.mp hne
  obtain ⟨k', hk', htext⟩ := hspelled operand operand' k (mem_fixedKinds_of_fixedKind? hk)
  have hfront : k'.text.toList <+: Text.upper t := by
    rw [htext]
    exact (text_isPrefix_of_fixedKind? hk).trans (hu.map _)
  exact fixedKind?_ne_none hk' hfront h

/-! ### Texts alone -/

/-- The text of the token, standing alone, is lexed as the token. -/
def Kind.StandsAlone (operand : Bool) (k : Kind) : Prop :=
  ∃ c u, k.text.toList = c :: u ∧ isGap c = false ∧ firstLexeme operand c u = (c :: u, k)

theorem standsAlone_number {operand : Bool} {c : Char} {t : Text} (hc : isGap c = false)
    (hne : numeralPart operand (c :: t) ≠ []) :
    (Kind.number (Text.upper (numeralPart operand (c :: t)))).StandsAlone operand := by
  have hprefix := numeralPart_isPrefix operand (c :: t)
  have hagain := numeralPart_numeralPart operand (c :: t)
  generalize numeralPart operand (c :: t) = numeral at hprefix hagain hne ⊢
  obtain ⟨d, u, rfl⟩ := List.exists_cons_of_ne_nil hne
  obtain ⟨rfl, -⟩ := List.cons_prefix_cons.mp hprefix
  have hupper : numeralPart operand (d.toUpper :: Text.upper u) = d.toUpper :: Text.upper u := by
    rw [← Text.upper_cons, numeralPart_upper, hagain]
  refine ⟨d.toUpper, Text.upper u, ?_, by rwa [Text.isGap_toUpper], ?_⟩
  · rw [Kind.text, String.toList_ofList, Text.upper_cons]
  · unfold firstLexeme
    dsimp only
    rw [hupper, if_pos (List.cons_ne_nil _ _), ← Text.upper_cons, Text.upper_upper]

theorem standsAlone_fixed {operand : Bool} {k : Kind} (hk : k ∈ fixedKinds operand) :
    k.StandsAlone operand := by
  have hall : ∀ operand, ∀ k ∈ fixedKinds operand,
      let c := k.text.toList.headD ' '
      let u := k.text.toList.tail
      k.text.toList = c :: u ∧ isGap c = false ∧ firstLexeme operand c u = (c :: u, k) := by
    decide
  exact ⟨_, _, hall operand k hk⟩

theorem isDigit_of_isAlpha {c : Char} (h : c.isAlpha = true) : c.isDigit = false := by
  -- no character up to the last digit is a letter
  have hall : ∀ n < 58, (Char.ofNat n).isAlpha = false := by decide
  by_contra hdigit
  have hlt : c.toNat < 58 := Nat.lt_succ_of_le (Char.isDigit_iff_toNat.mp (by simpa using hdigit)).2
  have hnot := hall c.toNat hlt
  rw [Char.ofNat_toNat, h] at hnot
  cases hnot

theorem numeralPart_of_isAlpha (operand : Bool) {c : Char} (hc : c.isAlpha = true) (t : Text) :
    numeralPart operand (c :: t) = [] := by
  have hdigit := isDigit_of_isAlpha hc
  have hsign : ¬ (c = '+' ∨ c = '-') := by
    rintro (rfl | rfl) <;> cases hc
  have hpoint : c ≠ '.' := by
    rintro rfl
    cases hc
  rw [numeralPart_of_not_sign operand hsign]
  by_contra hne
  rw [← ne_eq, decimalPart_ne_nil_iff] at hne
  cases t <;> simp [startsDecimal, hdigit, hpoint] at hne

/-- A name is the longest name in front of itself. -/
theorem namePart_namePart (t : Text) : namePart (namePart t) = namePart t := by
  unfold namePart
  dsimp only
  by_cases hletters : t.takeWhile Char.isAlpha = []
  · simp [hletters]
  · have hall : ∀ c ∈ t.takeWhile Char.isAlpha, c.isAlpha = true :=
      fun c hc => List.mem_takeWhile_imp hc
    have hdigits : ∀ c ∈ digits (t.drop (t.takeWhile Char.isAlpha).length), c.isDigit = true :=
      fun c hc => List.mem_takeWhile_imp hc
    generalize t.takeWhile Char.isAlpha = letters at hletters hall hdigits ⊢
    generalize digits (t.drop letters.length) = number at hdigits ⊢
    have hhead : ∀ c ∈ number.head?, c.isAlpha = false := by
      intro c hc
      by_contra halpha
      have hnot := isDigit_of_isAlpha (by simpa using halpha)
      rw [hdigits c (List.mem_of_mem_head? hc)] at hnot
      cases hnot
    rw [if_neg hletters, (Text.takeWhile_append_of_head hall hhead).1, if_neg hletters, List.drop_left,
      digits_of_all hdigits]

/-- A name stands alone whether an operand is expected or not. -/
theorem standsAlone_name {operand : Bool} {c : Char} {t : Text}
    (hfixed : fixedKind? operand (c :: t) = none) (hne : namePart (c :: t) ≠ []) (operand' : Bool) :
    (Kind.name (String.ofList (Text.upper (namePart (c :: t))))).StandsAlone operand' := by
  have hc : c.isAlpha = true := by
    by_contra hc
    simp [namePart, hc] at hne
  have hgap : isGap c = false := by
    by_contra hgap
    rw [isAlpha_of_isBlank (isBlank_of_isGap (by simpa using hgap))] at hc
    cases hc
  have hprefix := namePart_isPrefix (c :: t)
  have hagain := namePart_namePart (c :: t)
  have hnone := fixedKind?_eq_none_of_isPrefix hprefix hfixed operand'
  generalize namePart (c :: t) = name at hprefix hagain hnone hne ⊢
  obtain ⟨d, u, rfl⟩ := List.exists_cons_of_ne_nil hne
  obtain ⟨rfl, -⟩ := List.cons_prefix_cons.mp hprefix
  have hletter : d.toUpper.isAlpha = true := by rwa [Text.isAlpha_toUpper]
  refine ⟨d.toUpper, Text.upper u, ?_, by rwa [Text.isGap_toUpper], ?_⟩
  · rw [Kind.text, String.toList_ofList, Text.upper_cons]
  · unfold firstLexeme
    dsimp only
    rw [numeralPart_of_isAlpha operand' hletter, if_neg (by simp), ← Text.upper_cons, fixedKind?_upper,
      hnone, namePart_upper, hagain]
    simp

theorem standsAlone_unknown {operand : Bool} {c : Char} {t : Text} (hc : isGap c = false)
    (hnumeral : numeralPart operand (c :: t) = []) (hfixed : fixedKind? operand (c :: t) = none)
    (hname : namePart (c :: t) = []) : (Kind.unknown c).StandsAlone operand := by
  have hprefix : [c] <+: c :: t := List.cons_prefix_cons.mpr ⟨rfl, List.nil_prefix⟩
  have hletter : c.isAlpha = false := by
    by_contra hletter
    exact namePart_ne_nil (by simpa using hletter) t hname
  refine ⟨c, [], by simp [Kind.text], hc, ?_⟩
  unfold firstLexeme
  dsimp only
  rw [numeralPart_eq_nil_of_isPrefix hprefix hnumeral,
    fixedKind?_eq_none_of_isPrefix hprefix hfixed operand]
  simp [namePart, hletter]

/-- Every token stands alone where it was read. -/
theorem standsAlone_firstLexeme (operand : Bool) {c : Char} (hc : isGap c = false) (t : Text) :
    (firstLexeme operand c t).2.StandsAlone operand := by
  unfold firstLexeme
  dsimp only
  split
  · next hne => exact standsAlone_number hc hne
  · next hnumeral =>
    split
    · next kind hkind => exact standsAlone_fixed (mem_fixedKinds_of_fixedKind? hkind)
    · next hfixed =>
      split
      · next hne => exact standsAlone_name hfixed hne operand
      · next hname =>
        rw [not_not] at hnumeral hname
        exact standsAlone_unknown hc hnumeral hfixed hname

theorem Kind.StandsAlone.of_name {operand : Bool} {letters : String}
    (h : (Kind.name letters).StandsAlone operand) (operand' : Bool) :
    (Kind.name letters).StandsAlone operand' := by
  obtain ⟨c, u, -, -, hlexeme⟩ := h
  have hkind : (firstLexeme operand c u).2 = .name letters := by rw [hlexeme]
  unfold firstLexeme at hkind
  dsimp only at hkind
  split at hkind
  · cases hkind
  · split at hkind
    · next kind hfixed =>
      have hnot : ∀ operand, ∀ k ∈ fixedKinds operand, ∀ letters, k ≠ .name letters := by
        simp [fixedKinds]
      exact absurd hkind (hnot operand kind (mem_fixedKinds_of_fixedKind? hfixed) letters)
    · next hfixed =>
      split at hkind
      · next hne =>
        rw [← hkind]
        exact standsAlone_name hfixed hne operand'
      · cases hkind

theorem Kind.StandsAlone.scanFrom_text {phase : Phase} {k : Kind} (h : k.StandsAlone phase.operand)
    (offset : Nat) :
    scanFrom phase offset k.text.toList =
      [⟨⟨offset, offset + Text.byteLength k.text.toList⟩, k⟩] := by
  obtain ⟨c, u, htext, hgap, hlexeme⟩ := h
  rw [htext, scanFrom, if_neg (by simp [hgap]), hlexeme]
  dsimp only
  rw [List.length_cons, Nat.add_sub_cancel, List.drop_length, scanFrom]

/-! ### Tokens one after the other -/

/-- Each of the tokens, standing alone where those in front of it lead the lexer, is lexed as itself. -/
def Phase.Rereads : Phase → List Kind → Prop
  | _, [] => True
  | phase, k :: ks => k.StandsAlone phase.operand ∧ (phase.next k).Rereads ks

theorem rereads_scanFrom (phase : Phase) (offset : Nat) (s : Text) :
    phase.Rereads ((scanFrom phase offset s).map kind) := by
  fun_induction scanFrom phase offset s with
  | case1 => trivial
  | case2 phase offset c s hgap ih => exact ih
  | case3 phase offset c s hgap lexeme kind hlexeme stop ih =>
    have halone := standsAlone_firstLexeme phase.operand (by simpa using hgap) s
    rw [hlexeme] at halone
    exact ⟨halone, ih⟩

theorem rereads_lex (s : Text) :
    ∃ phase : Phase, (phase = .start ∨ phase = .numbered) ∧ phase.Rereads ((lex s).map kind) := by
  have hall : Phase.start.Rereads ((scan s).map kind) := rereads_scanFrom .start 0 s
  rcases scan_eq_lex_or s with hscan | ⟨number, numeral, hkind, hscan⟩
  · rw [hscan] at hall
    exact ⟨.start, .inl rfl, hall⟩
  · rw [hscan, List.map_cons, hkind] at hall
    exact ⟨.numbered, .inr rfl, hall.2⟩

/-- A command is read alike behind a line number and without one. -/
theorem Phase.Rereads.start_of_name {phase : Phase} (hphase : phase = .start ∨ phase = .numbered)
    {letters : String} {ks : List Kind} (h : phase.Rereads (.name letters :: ks)) :
    Phase.start.Rereads (.name letters :: ks) := by
  obtain ⟨halone, hrest⟩ := h
  refine ⟨halone.of_name _, ?_⟩
  obtain rfl | rfl := hphase <;> exact hrest

/-! ### Statements printed -/

/-- The texts of the tokens with one space between them. -/
def printed (ts : List Token) : String := String.intercalate " " (ts.map text)

theorem toList_printed_cons_cons (t u : Token) (ts : List Token) :
    (printed (t :: u :: ts)).toList = t.kind.text.toList ++ ' ' :: (printed (u :: ts)).toList := by
  simp [printed, text]

theorem printed_eq_of_map_kind {ts us : List Token} (h : ts.map kind = us.map kind) :
    printed ts = printed us := by
  have htexts : ∀ ts : List Token, ts.map text = (ts.map kind).map Kind.text := by
    intro ts
    rw [List.map_map]
    rfl
  rw [printed, printed, htexts, htexts, h]

/-- What is printed is scanned as the tokens that were printed. -/
theorem Phase.Rereads.map_kind_scanFrom {phase : Phase} {ts : List Token}
    (h : phase.Rereads (ts.map kind)) (offset : Nat) :
    (scanFrom phase offset (printed ts).toList).map kind = ts.map kind := by
  induction ts generalizing phase offset with
  | nil => simp [printed, scanFrom]
  | cons t ts ih =>
    obtain ⟨halone, hrest⟩ := h
    have hfirst := halone.scanFrom_text
    cases ts with
    | nil => simp [printed, text, hfirst]
    | cons u ts =>
      -- the space in front of the next token ends this one
      have hspace : isGap ' ' = true := rfl
      rw [toList_printed_cons_cons, scanFrom_append_gap hspace, hfirst, List.map_append, List.map_cons,
        List.map_nil, List.singleton_append, List.map_cons, List.cons.injEq]
      exact ⟨rfl, ih hrest _⟩

section Statement

variable {s : Text} {command : Token} {letters : String} {ts : List Token}
  (hlex : lex s = command :: ts) (hcommand : command.kind = .name letters)
include hlex hcommand

theorem map_kind_lex_printed : (lex (printed (lex s)).toList).map kind = (lex s).map kind := by
  obtain ⟨phase, hphase, hrereads⟩ := rereads_lex s
  have hkinds : (lex s).map kind = .name letters :: ts.map kind := by
    rw [hlex, List.map_cons, hcommand]
  rw [hkinds] at hrereads
  have hstart := hrereads.start_of_name hphase
  rw [← hkinds] at hstart
  have hscan : (scan (printed (lex s)).toList).map kind = (lex s).map kind :=
    hstart.map_kind_scanFrom 0
  -- the first token is the command again, no line number
  have hother : ∀ t us, scan (printed (lex s)).toList = t :: us →
      ∀ numeral, t.kind ≠ .number numeral := by
    intro t us h numeral hkind
    rw [h, hkinds, List.map_cons, hkind] at hscan
    cases hscan
  rw [lex_of_scan_other hother, hscan]

/-- A statement with a command, printed and lexed again, has the same tokens, and printing it once more
changes nothing. Only the columns of the tokens differ. -/
theorem lex_printed :
    (lex (printed (lex s)).toList).map kind = (lex s).map kind ∧
    printed (lex (printed (lex s)).toList) = printed (lex s) := by
  have hkinds := map_kind_lex_printed hlex hcommand
  exact ⟨hkinds, printed_eq_of_map_kind hkinds⟩

end Statement

/-- A negation, a subtraction and a number with an exponent behind a line number. -/
theorem lex_printed_negation :
    let s := "10 let a=-b-\t2e+5".toList
    (lex s).head?.map kind = some (.name "LET") ∧ printed (lex s) = "LET A = - B - 2E+5" ∧
    (lex "LET A = - B - 2E+5".toList).map kind = (lex s).map kind := by
  intro s
  have hlex : lex s = ⟨⟨3, 6⟩, .name "LET"⟩ :: [⟨⟨7, 8⟩, .name "A"⟩, ⟨⟨8, 9⟩, .operator .equal⟩,
      ⟨⟨9, 10⟩, .operator .negate⟩, ⟨⟨10, 11⟩, .name "B"⟩, ⟨⟨11, 12⟩, .operator .minus⟩,
      ⟨⟨13, 17⟩, .number "2E+5".toList⟩] := by
    decide +kernel
  have hprinted : printed (lex s) = "LET A = - B - 2E+5" := by
    rw [hlex]
    rfl
  have hagain := (lex_printed hlex rfl).1
  rw [hprinted] at hagain
  exact ⟨by rw [hlex]; rfl, hprinted, hagain⟩

end SpectrumBasic.Token
