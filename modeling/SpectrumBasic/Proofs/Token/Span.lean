import SpectrumBasic.Proofs.Program.Segment
import SpectrumBasic.Proofs.Token.Lexer

/-! Where the tokens of a statement stand. A lexeme is a front part of the text that it is read from, so
a token covers whole characters, at least one, and the next one starts where it stops or later. -/

namespace SpectrumBasic.Token

open Program (IsCut)

/-! ### Lexemes -/

/-- A front part and a front part of what follows it make up a front part. -/
theorem append_isPrefix {s t u : Text} (hs : s <+: u) (ht : t <+: u.drop s.length) : s ++ t <+: u := by
  obtain ⟨rest, rfl⟩ := hs
  rw [List.drop_left] at ht
  exact (List.prefix_append_right_inj s).mpr ht

theorem digits_isPrefix (t : Text) : digits t <+: t := List.takeWhile_prefix _

theorem fractionPart_isPrefix (t : Text) : fractionPart t <+: t := by
  unfold fractionPart
  split
  · split
    · exact List.nil_prefix
    · exact List.cons_prefix_cons.mpr ⟨rfl, digits_isPrefix _⟩
  · exact List.nil_prefix

theorem exponentPart_isPrefix (t : Text) : exponentPart t <+: t := by
  have hsigned (c : Char) {u sign : Text} (hsign : sign <+: u) :
      (if (c = 'e' ∨ c = 'E') ∧ digits (u.drop sign.length) ≠ [] then
        c :: (sign ++ digits (u.drop sign.length)) else []) <+: c :: u := by
    split
    · exact List.cons_prefix_cons.mpr ⟨rfl, append_isPrefix hsign (digits_isPrefix _)⟩
    · exact List.nil_prefix
  cases t with
  | nil => exact List.nil_prefix
  | cons c u =>
    unfold exponentPart
    dsimp only
    split
    · exact hsigned c (List.cons_prefix_cons.mpr ⟨rfl, List.nil_prefix⟩)
    · exact hsigned c (List.cons_prefix_cons.mpr ⟨rfl, List.nil_prefix⟩)
    · exact hsigned c List.nil_prefix

theorem decimalPart_isPrefix (t : Text) : decimalPart t <+: t := by
  unfold decimalPart
  dsimp only
  split
  · exact List.nil_prefix
  · exact append_isPrefix (append_isPrefix (digits_isPrefix t) (fractionPart_isPrefix _))
      (exponentPart_isPrefix _)

theorem numeralPart_isPrefix (operand : Bool) (t : Text) : numeralPart operand t <+: t := by
  unfold numeralPart
  split
  · exact List.nil_prefix
  · split
    · split
      · exact List.cons_prefix_cons.mpr ⟨rfl, decimalPart_isPrefix _⟩
      · exact List.nil_prefix
    · exact decimalPart_isPrefix _

theorem namePart_isPrefix (t : Text) : namePart t <+: t := by
  unfold namePart
  dsimp only
  split
  · exact List.nil_prefix
  · exact append_isPrefix (List.takeWhile_prefix _) (digits_isPrefix _)

theorem firstLexeme_isPrefix (operand : Bool) (c : Char) (t : Text) :
    (firstLexeme operand c t).1 <+: c :: t := by
  unfold firstLexeme
  dsimp only
  split
  · exact numeralPart_isPrefix operand (c :: t)
  · split
    · exact List.take_prefix _ _
    · split
      · exact namePart_isPrefix (c :: t)
      · exact List.cons_prefix_cons.mpr ⟨rfl, List.nil_prefix⟩

/-- A text is its first lexeme and what the scan goes on with. -/
theorem firstLexeme_append (operand : Bool) (c : Char) (t : Text) :
    (firstLexeme operand c t).1 ++ t.drop ((firstLexeme operand c t).1.length - 1) = c :: t := by
  have hprefix := firstLexeme_isPrefix operand c t
  have hne := firstLexeme_ne_nil operand c t
  generalize (firstLexeme operand c t).1 = lexeme at hprefix hne
  obtain ⟨rest, hrest⟩ := hprefix
  cases lexeme with
  | nil => exact absurd rfl hne
  | cons d lexeme =>
    obtain ⟨rfl, rfl⟩ := List.cons.inj hrest
    simp

/-! ### Tokens -/

/-- The tokens stand in the text one behind the other. Each covers some characters, and no part of
any other. -/
structure Placed (s : Text) (ts : List Token) : Prop where
  start : ∀ t ∈ ts, IsCut s t.span.start
  stop : ∀ t ∈ ts, IsCut s t.span.stop
  lt : ∀ t ∈ ts, t.span.start < t.span.stop
  ordered : ts.Pairwise fun t u => t.span.stop ≤ u.span.start

theorem Placed.of_sublist {s : Text} {ts us : List Token} (h : Placed s ts) (hsub : us.Sublist ts) :
    Placed s us :=
  ⟨fun t ht => h.start t (hsub.subset ht), fun t ht => h.stop t (hsub.subset ht),
    fun t ht => h.lt t (hsub.subset ht), h.ordered.sublist hsub⟩

theorem placed_scanFrom (phase : Phase) (offset : Nat) (front t : Text)
    (hoffset : Text.byteLength front = offset) : Placed (front ++ t) (scanFrom phase offset t) := by
  fun_induction scanFrom phase offset t generalizing front with
  | case1 => exact ⟨by simp, by simp, by simp, .nil⟩
  | case2 phase offset c t hgap ih =>
    have htext : front ++ c :: t = (front ++ [c]) ++ t := by simp
    rw [htext]
    exact ih (front ++ [c]) (by simp [hoffset])
  | case3 phase offset c t hgap lexeme kind hlexeme stop ih =>
    have hne := firstLexeme_ne_nil phase.operand c t
    have hsplit := firstLexeme_append phase.operand c t
    rw [hlexeme] at hne hsplit
    have htext : front ++ c :: t = (front ++ lexeme) ++ t.drop (lexeme.length - 1) := by
      rw [List.append_assoc, hsplit]
    have hstop : Text.byteLength (front ++ lexeme) = stop := by
      rw [Text.byteLength_append, hoffset]
    have hrest := ih (front ++ lexeme) hstop
    have hpos : 0 < Text.byteLength lexeme := Text.byteLength_pos hne
    rw [← htext] at hrest
    refine ⟨?_, ?_, ?_, ?_⟩
    · exact List.forall_mem_cons.mpr ⟨⟨front, c :: t, rfl, hoffset⟩, hrest.start⟩
    · exact List.forall_mem_cons.mpr ⟨⟨front ++ lexeme, _, htext, hstop⟩, hrest.stop⟩
    · exact List.forall_mem_cons.mpr ⟨by show offset < offset + _; omega, hrest.lt⟩
    · exact List.pairwise_cons.mpr ⟨fun u hu => le_start_of_mem_scanFrom hu, hrest.ordered⟩

theorem lex_sublist_scan (s : Text) : (lex s).Sublist (scan s) := by
  unfold lex
  split
  · rename_i hscan
    rw [hscan]
    exact List.sublist_cons_self _ _
  · exact List.Sublist.refl _

theorem placed_lex (s : Text) : Placed s (lex s) :=
  (placed_scanFrom .start 0 [] s rfl).of_sublist (lex_sublist_scan s)

/-- The span starts where one of the tokens starts and stops where one of them stops, further on. -/
def Covers (ts : List Token) (span : Span) : Prop :=
  (∃ t ∈ ts, span.start = t.span.start) ∧ (∃ t ∈ ts, span.stop = t.span.stop) ∧ span.start < span.stop

theorem Placed.covers {s : Text} {ts : List Token} {t : Token} (h : Placed s ts) (ht : t ∈ ts) :
    Covers ts t.span :=
  ⟨⟨t, ht, rfl⟩, ⟨t, ht, rfl⟩, h.lt t ht⟩

end SpectrumBasic.Token
