import SpectrumBasic.Proofs.Token.LetterCase
import SpectrumBasic.Proofs.Token.Span

/-! The tokens of a statement tile it. A lexeme in upper case is the text of its token, and the scan
leaves out nothing but gaps, so every other character of a statement belongs to exactly one token and
can be read off its text. A lexeme that is spelled like an operator, a separator or a word is that
token. -/

namespace SpectrumBasic

/-- The span covers the byte at `place`. -/
def Span.Contains (span : Span) (place : Nat) : Prop := span.start ≤ place ∧ place < span.stop

/-- The characters `u` are what the span covers of the text `s`. -/
def Text.IsSlice (s : Text) (span : Span) (u : Text) : Prop :=
  ∃ front back, s = front ++ (u ++ back) ∧ byteLength front = span.start ∧
    byteLength (front ++ u) = span.stop

namespace Token

/-! ### The text of a lexeme -/

theorem text_isPrefix_of_fixedKind? {operand : Bool} {t : Text} {kind : Kind}
    (h : fixedKind? operand t = some kind) : kind.text.toList <+: Text.upper t := by
  unfold fixedKind? at h
  have hfront := List.find?_some h
  rw [List.isPrefixOf_iff_prefix, ← Text.take_upper] at hfront
  exact hfront.trans (List.take_prefix 4 _)

theorem upper_take_of_fixedKind? {operand : Bool} {t : Text} {kind : Kind}
    (h : fixedKind? operand t = some kind) :
    Text.upper (t.take kind.text.length) = kind.text.toList := by
  rw [← Text.take_upper, ← String.length_toList]
  exact (List.prefix_iff_eq_take.mp (text_isPrefix_of_fixedKind? h)).symm

/-- A lexeme in upper case is the text of its token. -/
theorem upper_firstLexeme (operand : Bool) (c : Char) (t : Text) :
    Text.upper (firstLexeme operand c t).1 = (firstLexeme operand c t).2.text.toList := by
  unfold firstLexeme
  dsimp only
  split
  · simp [Kind.text]
  · split
    · next kind hkind => exact upper_take_of_fixedKind? hkind
    · split
      · simp [Kind.text]
      · next hname =>
        -- a letter would have been a name
        have hc : c.isAlpha = false := by
          by_contra hletter
          exact hname (namePart_ne_nil (by simpa using hletter) t)
        simp [Kind.text, Text.toUpper_of_not_isAlpha c hc]

/-! ### Fixed spellings -/

theorem exists_isDigit_of_isDecimal {t : Text} (h : Number.IsDecimal t) :
    ∃ c ∈ t, c.isDigit = true := by
  obtain ⟨whole, fraction, exponent, rfl, hwhole, hfraction, -, hne⟩ := h
  cases whole with
  | cons c whole => exact ⟨c, by simp, hwhole c List.mem_cons_self⟩
  | nil =>
    cases hfraction with
    | none => exact absurd rfl hne
    | some hsome hdigits =>
      obtain ⟨d, digits, rfl⟩ := List.exists_cons_of_ne_nil hsome
      exact ⟨d, by simp, hdigits d List.mem_cons_self⟩

/-- A numeral has a digit in it. -/
theorem exists_isDigit_of_numeralPart {operand : Bool} {t : Text} (h : numeralPart operand t ≠ []) :
    ∃ c ∈ Text.upper (numeralPart operand t), c.isDigit = true := by
  unfold numeralPart at h ⊢
  split at h
  · exact absurd rfl h
  · next c u =>
    split at h
    · next hsign =>
      split at h
      · next hoperand =>
        obtain ⟨d, hd, hdigit⟩ := exists_isDigit_of_isDecimal (isDecimal_decimalPart hoperand.2).upper
        rw [if_pos hsign, if_pos hoperand, Text.upper_cons]
        exact ⟨d, List.mem_cons_of_mem _ hd, hdigit⟩
      · exact absurd rfl h
    · next hsign =>
      rw [if_neg hsign]
      exact exists_isDigit_of_isDecimal (isDecimal_decimalPart h).upper

theorem fixedKind?_ne_none {operand : Bool} {k : Kind} (hk : k ∈ fixedKinds operand) {t : Text}
    (h : k.text.toList <+: Text.upper t) : fixedKind? operand t ≠ none := by
  have hshort : ∀ operand, ∀ k ∈ fixedKinds operand, k.text.toList.length ≤ 4 := by decide
  intro hnone
  unfold fixedKind? at hnone
  have hnot := List.find?_eq_none.mp hnone k hk
  rw [List.isPrefixOf_iff_prefix, ← Text.take_upper, List.prefix_take_iff] at hnot
  exact hnot ⟨h, hshort operand k hk⟩

/-- A lexeme with a fixed spelling is the token that is spelled so. -/
theorem firstLexeme_mem_fixedKinds {operand : Bool} {c : Char} {t : Text} {k : Kind}
    (hk : k ∈ fixedKinds operand) (h : (firstLexeme operand c t).2.text = k.text) :
    (firstLexeme operand c t).2 ∈ fixedKinds operand := by
  have hprefix : k.text.toList <+: Text.upper (c :: t) := by
    rw [← h, ← upper_firstLexeme]
    exact (firstLexeme_isPrefix operand c t).map _
  have hsome := fixedKind?_ne_none hk hprefix
  have hdigits : ∀ operand, ∀ k ∈ fixedKinds operand, k.text.toList.all (!·.isDigit) = true := by
    decide
  unfold firstLexeme at h ⊢
  dsimp only at h ⊢
  split
  · next hne =>
    -- a numeral has a digit, and no fixed spelling has one
    obtain ⟨d, hd, hdigit⟩ := exists_isDigit_of_numeralPart hne
    rw [if_pos hne] at h
    have htext : Text.upper (numeralPart operand (c :: t)) = k.text.toList := by
      rw [← h, Kind.text, String.toList_ofList]
    rw [htext] at hd
    have hnot := List.all_eq_true.mp (hdigits operand k hk) d hd
    simp [hdigit] at hnot
  · split
    · next kind hkind =>
      unfold fixedKind? at hkind
      exact List.mem_of_find?_eq_some hkind
    · next hnone => exact absurd hnone hsome

/-- Every token of a scan is the first lexeme of the text from its place on. -/
theorem exists_firstLexeme_of_mem_scanFrom {phase : Phase} {offset : Nat} {s : Text} {t : Token}
    (h : t ∈ scanFrom phase offset s) :
    ∃ operand front c u, s = front ++ c :: u ∧ t.span.start = offset + Text.byteLength front ∧
      t.span.stop = t.span.start + Text.byteLength (firstLexeme operand c u).1 ∧
      t.kind = (firstLexeme operand c u).2 := by
  fun_induction scanFrom phase offset s with
  | case1 => cases h
  | case2 phase offset c s hgap ih =>
    obtain ⟨operand, front, d, u, rfl, hstart, hrest⟩ := ih h
    refine ⟨operand, c :: front, d, u, rfl, ?_, hrest⟩
    rw [hstart, Text.byteLength_cons, Nat.add_assoc]
  | case3 phase offset c s hgap lexeme kind hlexeme stop ih =>
    rcases List.mem_cons.mp h with rfl | h
    · exact ⟨phase.operand, [], c, s, rfl, rfl, by rw [hlexeme], by rw [hlexeme]⟩
    · obtain ⟨operand, front, d, u, hback, hstart, hrest⟩ := ih h
      have hsplit := firstLexeme_append phase.operand c s
      rw [hlexeme] at hsplit
      refine ⟨operand, lexeme ++ front, d, u, ?_, ?_, hrest⟩
      · rw [← hsplit, hback, List.append_assoc]
      · rw [hstart, Text.byteLength_append, Nat.add_assoc]

/-! ### Gaps and lexemes -/

/-- The text, which begins at byte `offset`, consists of the lexemes of the tokens, with gaps in front
of them and behind the last one. -/
inductive Tiles : Nat → Text → List Token → Prop
  | done (offset : Nat) : Tiles offset [] []
  | gap {offset : Nat} {c : Char} {s : Text} {ts : List Token} (hgap : isGap c = true)
      (h : Tiles (offset + c.utf8Size) s ts) : Tiles offset (c :: s) ts
  | lexeme {offset stop : Nat} {u s : Text} {kind : Kind} {ts : List Token} (hne : u ≠ [])
      (hstop : stop = offset + Text.byteLength u) (htext : Text.upper u = kind.text.toList)
      (h : Tiles stop s ts) : Tiles offset (u ++ s) (⟨⟨offset, stop⟩, kind⟩ :: ts)

theorem tiles_scanFrom (phase : Phase) (offset : Nat) (s : Text) :
    Tiles offset s (scanFrom phase offset s) := by
  fun_induction scanFrom phase offset s with
  | case1 phase offset => exact .done offset
  | case2 phase offset c s hgap ih => exact .gap hgap ih
  | case3 phase offset c s hgap lexeme kind hlexeme stop ih =>
    have hne := firstLexeme_ne_nil phase.operand c s
    have hsplit := firstLexeme_append phase.operand c s
    have htext := upper_firstLexeme phase.operand c s
    rw [hlexeme] at hne hsplit htext
    rw [← hsplit]
    exact .lexeme hne rfl htext ih

namespace Tiles

variable {offset : Nat} {s : Text} {ts : List Token}

/-- A character that no token covers is a gap. -/
theorem contains_or_isGap (h : Tiles offset s ts) {front back : Text} {c : Char}
    (hs : s = front ++ c :: back) :
    (∃ t ∈ ts, t.span.Contains (offset + Text.byteLength front)) ∨ isGap c = true := by
  induction h generalizing front with
  | done => simp at hs
  | @gap offset d s ts hgap _ ih =>
    cases front with
    | nil =>
      obtain ⟨rfl, -⟩ := List.cons.inj hs
      exact .inr hgap
    | cons e front =>
      obtain ⟨rfl, hs'⟩ := List.cons.inj hs
      rw [Text.byteLength_cons, ← Nat.add_assoc]
      exact ih hs'
  | @lexeme offset stop u s kind ts hne hstop htext _ ih =>
    have hbehind (more : Text) (hs' : s = more ++ c :: back) :
        (∃ t ∈ (⟨⟨offset, stop⟩, kind⟩ :: ts : List Token),
          t.span.Contains (offset + Text.byteLength (u ++ more))) ∨ isGap c = true := by
      rw [Text.byteLength_append, ← Nat.add_assoc, ← hstop]
      rcases ih hs' with ⟨t, ht, hcontains⟩ | hgap
      · exact .inl ⟨t, List.mem_cons_of_mem _ ht, hcontains⟩
      · exact .inr hgap
    rcases List.append_eq_append_iff.mp hs with ⟨more, rfl, hs'⟩ | ⟨more, rfl, hs'⟩
    · exact hbehind more hs'
    · cases more with
      | nil => simpa using hbehind [] hs'.symm
      | cons d more =>
        refine .inl ⟨_, List.mem_cons_self, Nat.le_add_right _ _, ?_⟩
        have hd := d.utf8Size_pos
        simp only [hstop, Text.byteLength_append, Text.byteLength_cons]
        omega

/-- The text of a token is what it covers, in upper case. -/
theorem exists_isSlice (h : Tiles offset s ts) (front : Text) (hoffset : Text.byteLength front = offset) :
    ∀ t ∈ ts, ∃ u, (front ++ s).IsSlice t.span u ∧ Text.upper u = t.text.toList := by
  induction h generalizing front with
  | done => simp
  | @gap offset c s ts hgap _ ih =>
    have hfront : Text.byteLength (front ++ [c]) = offset + c.utf8Size := by simp [hoffset]
    simpa using ih _ hfront
  | @lexeme offset stop u s kind ts hne hstop htext _ ih =>
    have hfront : Text.byteLength (front ++ u) = stop := by simp [hoffset, hstop]
    intro t ht
    rcases List.mem_cons.mp ht with rfl | ht
    · exact ⟨u, ⟨front, s, rfl, hoffset, hfront⟩, htext⟩
    · simpa using ih _ hfront t ht

end Tiles

/-! ### Statements -/

/-- The tokens stand in the text one behind the other, each is spelled where it stands, and only
spaces, tabs and carriage returns stand outside them. -/
structure Tiling (s : Text) (ts : List Token) : Prop extends Placed s ts where
  spelled : ∀ t ∈ ts, ∃ u, s.IsSlice t.span u ∧ Text.upper u = t.text.toList
  between : ∀ front c back, s = front ++ c :: back →
    (∃ t ∈ ts, t.span.Contains (Text.byteLength front)) ∨ c = ' ' ∨ c = '\t' ∨ c = '\r'

theorem tiling_scan (s : Text) : Tiling s (scan s) := by
  have htiles : Tiles 0 s (scan s) := tiles_scanFrom .start 0 s
  refine ⟨placed_scanFrom .start 0 [] s rfl, ?_, ?_⟩
  · exact htiles.exists_isSlice [] rfl
  · intro front c back hs
    simpa [isGap, or_assoc] using htiles.contains_or_isGap hs

theorem lex_of_scan_number {s numeral : Text} {t : Token} {ts : List Token} (hscan : scan s = t :: ts)
    (ht : t.kind = .number numeral) : lex s = ts := by
  obtain ⟨span, kind⟩ := t
  subst ht
  rw [lex, hscan]

theorem lex_of_scan_other {s : Text}
    (h : ∀ t ts, scan s = t :: ts → ∀ numeral, t.kind ≠ .number numeral) : lex s = scan s := by
  unfold lex
  split
  · next hscan => exact absurd rfl (h _ _ hscan _)
  · rfl

/-- All tokens of a statement, those of a line number in front included, tile it. The tokens that it is
executed by are these without the number. -/
theorem tiling_and_lex (s : Text) :
    Tiling s (scan s) ∧
    (∀ t ts, scan s = t :: ts → (∃ numeral, t.kind = .number numeral) → lex s = ts) ∧
    ((∀ t ts, scan s = t :: ts → ∀ numeral, t.kind ≠ .number numeral) → lex s = scan s) ∧
    (lex s = [] ↔ scan s = [] ∨ ∃ t numeral, scan s = [t] ∧ t.kind = .number numeral) := by
  refine ⟨tiling_scan s, ?_, lex_of_scan_other, ?_⟩
  · rintro t ts hscan ⟨numeral, ht⟩
    exact lex_of_scan_number hscan ht
  · by_cases h : ∃ t ts numeral, scan s = t :: ts ∧ t.kind = .number numeral
    · obtain ⟨t, ts, numeral, hscan, ht⟩ := h
      rw [lex_of_scan_number hscan ht, hscan]
      constructor
      · rintro rfl
        exact .inr ⟨t, numeral, rfl, ht⟩
      · rintro (hnil | ⟨u, -, hu, -⟩)
        · cases hnil
        · exact (List.cons.inj hu).2
    · rw [lex_of_scan_other fun t ts hscan numeral ht => h ⟨t, ts, numeral, hscan, ht⟩]
      constructor
      · exact .inl
      · rintro (hnil | ⟨t, numeral, hscan, ht⟩)
        · exact hnil
        · exact absurd ⟨t, [], numeral, hscan, ht⟩ h

end Token

end SpectrumBasic
