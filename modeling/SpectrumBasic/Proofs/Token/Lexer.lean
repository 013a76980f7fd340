import SpectrumBasic.Token.Lexer

/-! The positions of the tokens that a statement is cut into. A lexeme is never empty, so each token
starts behind the one before it. -/

namespace SpectrumBasic.Token

theorem length_text_of_mem_fixedKinds :
    ∀ operand, ∀ k ∈ fixedKinds operand, k.text.length ≠ 0 := by
  decide

theorem firstLexeme_ne_nil (operand : Bool) (c : Char) (t : Text) :
    (firstLexeme operand c t).1 ≠ [] := by
  unfold firstLexeme
  dsimp only
  split
  · assumption
  · split
    · rename_i kind hkind
      unfold fixedKind? at hkind
      have hlength := length_text_of_mem_fixedKinds operand kind (List.mem_of_find?_eq_some hkind)
      simpa using hlength
    · split
      · assumption
      · exact List.cons_ne_nil c []

/-- Tokens start no earlier than the scan. -/
theorem le_start_of_mem_scanFrom {phase : Phase} {offset : Nat} {s : Text} {t : Token}
    (h : t ∈ scanFrom phase offset s) : offset ≤ t.span.start := by
  fun_induction scanFrom phase offset s with
  | case1 => cases h
  | case2 phase offset c s hgap ih =>
    have := ih h
    omega
  | case3 phase offset c s hgap lexeme kind hlexeme stop ih =>
    obtain rfl | h := List.mem_cons.mp h
    · exact Nat.le_refl offset
    · have := ih h
      omega

/-- Tokens behind the first one start further on. -/
theorem lt_start_of_scanFrom_eq_cons {phase : Phase} {offset : Nat} {s : Text} {first t : Token}
    {ts : List Token} (hscan : scanFrom phase offset s = first :: ts) (h : t ∈ ts) :
    offset < t.span.start := by
  fun_induction scanFrom phase offset s with
  | case1 => cases hscan
  | case2 phase offset c s hgap ih =>
    have := ih hscan
    omega
  | case3 phase offset c s hgap lexeme kind hlexeme stop ih =>
    cases hscan
    have hne := firstLexeme_ne_nil phase.operand c s
    rw [hlexeme] at hne
    have hpos : 0 < Text.byteLength lexeme := Text.byteLength_pos hne
    have := le_start_of_mem_scanFrom h
    omega

/-- What follows the command of a statement does not start where the statement does. -/
theorem start_pos_of_lex_eq_cons {s : Text} {first t : Token} {ts : List Token}
    (hlex : lex s = first :: ts) (h : t ∈ ts) : 0 < t.span.start := by
  unfold lex at hlex
  split at hlex
  · rename_i hscan
    subst hlex
    exact lt_start_of_scanFrom_eq_cons hscan (List.mem_cons_of_mem first h)
  · exact lt_start_of_scanFrom_eq_cons hlex h

end SpectrumBasic.Token
