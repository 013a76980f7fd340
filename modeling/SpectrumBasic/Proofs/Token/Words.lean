import SpectrumBasic.Proofs.Program.Line
import SpectrumBasic.Proofs.Token.Sign

/-! How many times a word stands in a text. Where the lexer stands decides only to what a sign belongs,
and no part of a word is a sign, so a text has the same words wherever it is read from. A blank
divides a text, so the words in front of it and those behind it are counted apart, and trimming a text
takes no word away. -/

namespace SpectrumBasic.Token

/-- The number of tokens that are the word. -/
def wordCount (w : Word) (ts : List Token) : Nat := ts.countP (·.kind = .word w)

/-! ### Lexemes -/

theorem fixedKind?_of_not_minus {c : Char} (hc : c ≠ '-') (t : Text) (operand operand' : Bool) :
    fixedKind? operand (c :: t) = fixedKind? operand' (c :: t) := by
  have hminus : ['-'].isPrefixOf (Text.upper ((c :: t).take 4)) = false := by
    have hupper : c.toUpper ≠ '-' := fun h => hc ((Text.toUpper_eq_iff '-' rfl c).mp h)
    simpa [List.isPrefixOf] using hupper.symm
  have hsign (operand : Bool) :
      (Kind.operator (if operand then .negate else .minus)).text.toList = ['-'] := by
    cases operand <;> rfl
  unfold fixedKind? fixedKinds
  simp only [List.find?_cons, hsign, hminus]

/-- A lexeme that does not begin with a sign is the same wherever the lexer stands. -/
theorem firstLexeme_of_not_sign {c : Char} (hc : ¬ (c = '+' ∨ c = '-')) (t : Text)
    (operand operand' : Bool) : firstLexeme operand c t = firstLexeme operand' c t := by
  have hfixed := fixedKind?_of_not_minus (fun h => hc (.inr h)) t operand operand'
  unfold firstLexeme
  rw [numeralPart_of_not_sign operand hc, numeralPart_of_not_sign operand' hc, hfixed]

theorem firstLexeme_of_startsDecimal (operand : Bool) {c : Char} {t : Text}
    (h : startsDecimal (c :: t) = true) :
    isGap c = false ∧ firstLexeme operand c t =
      (decimalPart (c :: t), .number (Text.upper (decimalPart (c :: t)))) := by
  have hc : c.isDigit = true ∨ c = '.' := by
    cases t with
    | nil => exact .inl h
    | cons d t =>
      simp only [startsDecimal, Bool.or_eq_true, Bool.and_eq_true, decide_eq_true_eq] at h
      exact h.imp_right And.left
  have hgap : isGap c = false := by
    by_contra hgap
    have hblank := isBlank_of_isGap (by simpa using hgap)
    rcases hc with hdigit | rfl
    · rw [isDigit_of_isBlank hblank] at hdigit
      cases hdigit
    · exact absurd hblank (by decide)
  have hsign : ¬ (c = '+' ∨ c = '-') := by
    rintro (rfl | rfl) <;> exact absurd hc (by decide)
  refine ⟨hgap, ?_⟩
  unfold firstLexeme
  rw [numeralPart_of_not_sign operand hsign, if_pos ((decimalPart_ne_nil_iff _).mpr h)]

/-- A blank is the first lexeme by itself. -/
theorem firstLexeme_of_isBlank {c : Char} (hc : Text.isBlank c = true) (operand : Bool) (t : Text) :
    firstLexeme operand c t = ([c], .unknown c) := by
  have hsign : ¬ (c = '+' ∨ c = '-') := by
    rintro (rfl | rfl) <;> exact absurd hc (by decide)
  have hdecimal : decimalPart (c :: t) = [] := decimalPart_append_blank hc [] t
  have hfixed : fixedKind? operand (c :: t) = none := by
    refine (fixedKind?_append_blank hc operand [] t).trans ?_
    cases operand <;> rfl
  have hname : namePart (c :: t) = [] := namePart_append_blank hc [] t
  unfold firstLexeme
  simp [numeralPart_of_not_sign operand hsign, hdecimal, hfixed, hname]

section Count

variable (w : Word)

theorem wordCount_cons_of_ne {t : Token} (h : t.kind ≠ .word w) (ts : List Token) :
    wordCount w (t :: ts) = wordCount w ts := List.countP_cons_of_neg (by simpa using h)

theorem wordCount_cons_self {t : Token} (h : t.kind = .word w) (ts : List Token) :
    wordCount w (t :: ts) = wordCount w ts + 1 := List.countP_cons_of_pos (by simpa using h)

theorem wordCount_append (ts us : List Token) :
    wordCount w (ts ++ us) = wordCount w ts + wordCount w us := List.countP_append

theorem wordCount_eq_zero {ts : List Token} (h : ∀ t ∈ ts, t.kind ≠ .word w) : wordCount w ts = 0 :=
  List.countP_eq_zero.mpr (by simpa using h)

/-! ### Where the lexer stands -/

/-- Whether a sign is a token or belongs to one, the words are those of what follows it. -/
theorem exists_wordCount_sign {c : Char} (hc : c = '+' ∨ c = '-') (phase : Phase) (offset : Nat)
    (t : Text) : ∃ phase' offset', wordCount w (scanFrom phase offset (c :: t)) =
      wordCount w (scanFrom phase' offset' t) := by
  have hgap : ¬ isGap c = true := by obtain rfl | rfl := hc <;> decide
  rw [scanFrom, if_neg hgap, firstLexeme_sign _ hc]
  by_cases hnumber : phase.operand = true ∧ startsDecimal t = true
  · rw [if_pos hnumber]
    -- without its sign the number is still the first token of what follows
    refine ⟨phase, offset + c.utf8Size, ?_⟩
    obtain ⟨d, u, rfl⟩ : ∃ d u, t = d :: u := by
      cases t with
      | nil => cases hnumber.2
      | cons d u => exact ⟨d, u, rfl⟩
    obtain ⟨hd, hlexeme⟩ := firstLexeme_of_startsDecimal phase.operand hnumber.2
    have hne := (decimalPart_ne_nil_iff _).mpr hnumber.2
    have hdrop : (d :: u).drop (decimalPart (d :: u)).length =
        u.drop ((decimalPart (d :: u)).length - 1) := by
      obtain ⟨e, v, hpart⟩ := List.exists_cons_of_ne_nil hne
      simp [hpart]
    have hnext (numeral numeral' : Text) :
        phase.next (.number numeral) = phase.next (.number numeral') := by
      cases phase <;> rfl
    rw [scanFrom, if_neg (by simp [hd]), hlexeme]
    dsimp only
    refine (wordCount_cons_of_ne w (by simp) _).trans
      (.trans ?_ (wordCount_cons_of_ne w (by simp) _).symm)
    rw [Text.byteLength_cons, List.length_cons, Nat.add_sub_cancel, hdrop,
      hnext _ (Text.upper (decimalPart (d :: u))), Nat.add_assoc]
  · rw [if_neg hnumber]
    exact ⟨_, _, wordCount_cons_of_ne w (by simp) _⟩

/-- The words of a text do not depend on where the lexer stands. -/
theorem wordCount_scanFrom (s : Text) (phase phase' : Phase) (offset offset' : Nat) :
    wordCount w (scanFrom phase offset s) = wordCount w (scanFrom phase' offset' s) := by
  -- A sign may be a lexeme for one lexer and the start of one for the other, so the induction is on the
  -- length and not along either scan.
  obtain ⟨n, hn⟩ : ∃ n, s.length = n := ⟨_, rfl⟩
  induction n using Nat.strongRecOn generalizing s phase phase' offset offset' with
  | ind n ih =>
    cases s with
    | nil => simp [scanFrom]
    | cons c t =>
      rw [List.length_cons] at hn
      by_cases hgap : isGap c = true
      · rw [scanFrom, if_pos hgap, scanFrom, if_pos hgap]
        exact ih t.length (by omega) t _ _ _ _ rfl
      · by_cases hsign : c = '+' ∨ c = '-'
        · obtain ⟨p, o, h⟩ := exists_wordCount_sign w hsign phase offset t
          obtain ⟨p', o', h'⟩ := exists_wordCount_sign w hsign phase' offset' t
          rw [h, h']
          exact ih t.length (by omega) t _ _ _ _ rfl
        · rw [scanFrom, if_neg hgap, scanFrom, if_neg hgap,
            firstLexeme_of_not_sign hsign t phase'.operand phase.operand]
          obtain ⟨lexeme, kind⟩ := firstLexeme phase.operand c t
          have hrest := ih _ (by rw [List.length_drop]; omega) (t.drop (lexeme.length - 1))
            (phase.next kind) (phase'.next kind) (offset + Text.byteLength lexeme)
            (offset' + Text.byteLength lexeme) rfl
          simp only [wordCount, List.countP_cons] at hrest ⊢
          rw [hrest]

theorem wordCount_lex (s : Text) : wordCount w (lex s) = wordCount w (scan s) := by
  obtain hscan | ⟨number, numeral, hkind, hscan⟩ := scan_eq_lex_or s
  · rw [hscan]
  · rw [hscan, wordCount_cons_of_ne w (by simp [hkind])]

/-! ### Blanks -/

theorem wordCount_cons_blank {g : Char} (hg : Text.isBlank g = true) (phase : Phase) (offset : Nat)
    (t : Text) : wordCount w (scanFrom phase offset (g :: t)) = wordCount w (scan t) := by
  rw [scanFrom]
  split
  · exact wordCount_scanFrom w t _ _ _ _
  · rw [firstLexeme_of_isBlank hg]
    exact (wordCount_cons_of_ne w (by simp) _).trans (wordCount_scanFrom w t _ _ _ _)

/-- A blank divides the words of a text. -/
theorem wordCount_append_blank {g : Char} (hg : Text.isBlank g = true) (s t : Text) :
    wordCount w (scan (s ++ g :: t)) = wordCount w (scan s) + wordCount w (scan t) := by
  have hscan (phase : Phase) (offset : Nat) :
      wordCount w (scanFrom phase offset (s ++ g :: t)) =
        wordCount w (scanFrom phase offset s) + wordCount w (scan t) := by
    fun_induction scanFrom phase offset s with
    | case1 phase offset =>
      rw [List.nil_append, wordCount_cons_blank w hg]
      exact (Nat.zero_add _).symm
    | case2 phase offset c s hgap ih => rw [List.cons_append, scanFrom, if_pos hgap, ih]
    | case3 phase offset c s hgap lexeme kind hlexeme stop ih =>
      have hlength : lexeme.length ≤ s.length + 1 := by
        have hprefix := firstLexeme_isPrefix phase.operand c s
        rw [hlexeme] at hprefix
        exact hprefix.length_le
      rw [List.cons_append, scanFrom, if_neg hgap, firstLexeme_append_blank hg, hlexeme]
      dsimp only
      rw [List.drop_append_of_le_length (by omega)]
      simp only [wordCount, List.countP_cons] at ih ⊢
      rw [ih]
      omega
  exact hscan .start 0

theorem wordCount_trimStart (t : Text) :
    wordCount w (scan (Text.trimStart t)) = wordCount w (scan t) := by
  induction t with
  | nil => rfl
  | cons c t ih =>
    unfold Text.trimStart at ih ⊢
    by_cases hc : Text.isBlank c = true
    · rw [List.dropWhile_cons_of_pos hc, ih]
      exact (wordCount_cons_blank w hc .start 0 t).symm
    · rw [List.dropWhile_cons_of_neg hc]

theorem wordCount_append_blanks (s : Text) {gap : Text} (hgap : ∀ c ∈ gap, Text.isBlank c = true) :
    wordCount w (scan (s ++ gap)) = wordCount w (scan s) := by
  induction gap generalizing s with
  | nil => rw [List.append_nil]
  | cons g gap ih =>
    obtain ⟨hg, hgap⟩ := List.forall_mem_cons.mp hgap
    have hnone := ih [] hgap
    rw [wordCount_append_blank w hg, ← List.nil_append gap, hnone]
    simp [scan, scanFrom, wordCount]

/-- Trimming a text takes no word away. -/
theorem wordCount_trim (t : Text) : wordCount w (scan (Text.trim t)) = wordCount w (scan t) := by
  have hblanks : ∀ c ∈ ((Text.trimStart t).reverse.takeWhile Text.isBlank).reverse,
      Text.isBlank c = true := fun c hc => List.mem_takeWhile_imp (List.mem_reverse.mp hc)
  rw [← wordCount_trimStart w t, ← wordCount_append_blanks w (Text.trim t) hblanks, Text.trim,
    Text.trimEnd_append]

end Count

end SpectrumBasic.Token
