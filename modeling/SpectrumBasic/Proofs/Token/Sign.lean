import SpectrumBasic.Proofs.Token.Gap

/-! Signs. Whether a plus or a minus belongs to a number, stands for an operation or negates is decided
where it is read, by the phase of the lexer. Behind the command the phase depends on nothing but the
last token, so the token in front of a sign decides, however many gaps stand between them. -/

namespace SpectrumBasic.Token

/-! ### Where a decimal begins -/

/-- The text begins with a digit, or with a point and a digit. -/
def startsDecimal : Text → Bool
  | [] => false
  | [c] => c.isDigit
  | c :: d :: _ => c.isDigit || c = '.' && d.isDigit

theorem digits_eq_nil_iff (t : Text) : digits t = [] ↔ ∀ c ∈ t.head?, c.isDigit = false := by
  cases t with
  | nil => simp [digits]
  | cons c t => cases hc : c.isDigit <;> simp [digits, hc]

theorem fractionPart_eq_nil_iff (t : Text) :
    fractionPart t = [] ↔ ∀ d u, t = '.' :: d :: u → d.isDigit = false := by
  rcases t with _ | ⟨c, _ | ⟨d, u⟩⟩
  · simp [fractionPart]
  · by_cases hc : c = '.' <;> simp [fractionPart, hc, digits]
  · by_cases hc : c = '.'
    · subst hc
      cases hd : d.isDigit <;> simp [fractionPart, digits, hd]
    · simp [fractionPart, hc]

theorem decimalPart_ne_nil_iff (t : Text) : decimalPart t ≠ [] ↔ startsDecimal t = true := by
  have hparts : decimalPart t = [] ↔ digits t = [] ∧ fractionPart t = [] := by
    unfold decimalPart
    dsimp only
    constructor
    · intro h
      split at h
      · next hmantissa =>
        obtain ⟨hwhole, hfraction⟩ := List.append_eq_nil_iff.mp hmantissa
        rw [hwhole, List.length_nil, List.drop_zero] at hfraction
        exact ⟨hwhole, hfraction⟩
      · next hmantissa => exact absurd (List.append_eq_nil_iff.mp h).1 hmantissa
    · rintro ⟨hwhole, hfraction⟩
      simp [hwhole, hfraction]
  rw [ne_eq, hparts, digits_eq_nil_iff, fractionPart_eq_nil_iff]
  rcases t with _ | ⟨c, _ | ⟨d, u⟩⟩
  · simp [startsDecimal]
  · simp [startsDecimal]
  · cases hc : c.isDigit
    · by_cases hpoint : c = '.' <;> simp [startsDecimal, hc, hpoint]
    · simp [startsDecimal, hc]

/-! ### Signs -/

theorem numeralPart_sign (operand : Bool) {c : Char} (hc : c = '+' ∨ c = '-') (t : Text) :
    numeralPart operand (c :: t) =
      if operand = true ∧ startsDecimal t = true then c :: decimalPart t else [] := by
  simp only [numeralPart, if_pos hc, decimalPart_ne_nil_iff]

theorem numeralPart_of_not_sign (operand : Bool) {c : Char} (hc : ¬ (c = '+' ∨ c = '-')) (t : Text) :
    numeralPart operand (c :: t) = decimalPart (c :: t) := by
  simp only [numeralPart, if_neg hc]

/-- The operation that a sign stands for if it belongs to no number. -/
def signOperator (operand : Bool) (c : Char) : Operator :=
  if c = '+' then .plus else if operand then .negate else .minus

theorem fixedKind?_sign (operand : Bool) {c : Char} (hc : c = '+' ∨ c = '-') (t : Text) :
    fixedKind? operand (c :: t) = some (.operator (signOperator operand c)) := by
  obtain rfl | rfl := hc <;> cases operand <;> rfl

theorem firstLexeme_sign (operand : Bool) {c : Char} (hc : c = '+' ∨ c = '-') (t : Text) :
    firstLexeme operand c t =
      if operand = true ∧ startsDecimal t = true then
        (c :: decimalPart t, .number (c :: Text.upper (decimalPart t)))
      else ([c], .operator (signOperator operand c)) := by
  have hupper : c.toUpper = c := by obtain rfl | rfl := hc <;> rfl
  have hlength : (Kind.operator (signOperator operand c)).text.length = 1 := by
    obtain rfl | rfl := hc <;> cases operand <;> rfl
  unfold firstLexeme
  dsimp only
  rw [numeralPart_sign operand hc]
  by_cases h : operand = true ∧ startsDecimal t = true
  · rw [if_pos h, if_pos h, if_pos (List.cons_ne_nil _ _), Text.upper_cons, hupper]
  · rw [if_neg h, if_neg h, if_neg (by simp), fixedKind?_sign operand hc]
    dsimp only
    rw [hlength, List.take_succ_cons, List.take_zero]

section Kind

variable {operand : Bool} {c : Char} {t : Text}

/-- Only where an operand is expected does a number begin with a sign. -/
theorem operand_of_signed {d : Char} {numeral : Text} (hd : d = '+' ∨ d = '-')
    (h : (firstLexeme operand c t).2 = .number (d :: numeral)) : operand = true := by
  have hupper := upper_firstLexeme operand c t
  rw [h, Kind.text, String.toList_ofList] at hupper
  -- the lexeme begins as the text does, so the text begins with the sign
  have hsplit := congrArg Text.upper (firstLexeme_append operand c t)
  rw [Text.upper_append, hupper, List.cons_append, Text.upper_cons] at hsplit
  have hmark : d.isAlpha = false := by obtain rfl | rfl := hd <;> rfl
  have hc : c = d := (Text.toUpper_eq_iff d hmark c).mp (List.cons.inj hsplit).1.symm
  subst hc
  rw [firstLexeme_sign operand hd] at h
  split at h
  · next hoperand => exact hoperand.1
  · cases h

/-- A minus that belongs to no number negates exactly where an operand is expected. -/
theorem operand_of_minus {negates : Bool}
    (h : (firstLexeme operand c t).2 = .operator (if negates then .negate else .minus)) :
    operand = negates := by
  have hfixed : Kind.operator (signOperator operand '-') ∈ fixedKinds operand := by
    cases operand <;> decide
  have htext : (firstLexeme operand c t).2.text = (Kind.operator (signOperator operand '-')).text := by
    rw [h]
    cases operand <;> cases negates <;> rfl
  have hmem := firstLexeme_mem_fixedKinds hfixed htext
  rw [h] at hmem
  revert hmem
  cases operand <;> cases negates <;> decide

end Kind

/-! ### The token in front -/

/-- A token that ends an operand: a number, a right parenthesis, or a name that is not the command. -/
def Kind.endsOperand (isCommand : Bool) : Kind → Bool
  | .number _ => true
  | .operator .rightParen => true
  | .name _ => !isCommand
  | _ => false

namespace Phase

/-- Inside a statement the last token decides whether an operand is expected. -/
theorem next_inside (operand : Bool) (k : Kind) :
    (inside operand).next k = inside (!k.endsOperand false) := by
  cases k with
  | operator o => cases o <;> rfl
  | _ => rfl

theorem after_concat (phase : Phase) (ts : List Token) (t : Token) :
    phase.after (ts ++ [t]) = (phase.after ts).next t.kind := List.foldl_append

theorem exists_after_inside (ts : List Token) (operand : Bool) :
    ∃ operand', (inside operand).after ts = inside operand' := by
  induction ts generalizing operand with
  | nil => exact ⟨operand, rfl⟩
  | cons t ts ih =>
    obtain ⟨operand', h⟩ := ih (!t.kind.endsOperand false)
    refine ⟨operand', ?_⟩
    rw [← h, after, List.foldl_cons, next_inside]
    rfl

/-- An operand is expected behind a token unless the token ends one. The first token is the command, and
a line number in front of it makes no difference. -/
theorem operand_after {phase : Phase} (hphase : phase = .start ∨ phase = .numbered) {ts : List Token}
    {t : Token} (hcommand : ∃ letters, ((ts ++ [t]).head (by simp)).kind = .name letters) :
    (phase.after (ts ++ [t])).operand = !t.kind.endsOperand ts.isEmpty := by
  obtain ⟨letters, hcommand⟩ := hcommand
  have hfirst : phase.next (.name letters) = inside true := by obtain rfl | rfl := hphase <;> rfl
  rw [after_concat]
  cases ts with
  | nil =>
    have ht : t.kind = .name letters := hcommand
    show (phase.next t.kind).operand = _
    rw [ht, hfirst]
    rfl
  | cons command ts =>
    have hname : command.kind = .name letters := hcommand
    obtain ⟨operand, h⟩ := exists_after_inside ts true
    have hinside : phase.after (command :: ts) = inside operand := by
      rw [← h, after, List.foldl_cons, hname, hfirst]
      rfl
    rw [hinside, next_inside]
    rfl

end Phase

/-! ### Tokens and the text behind them -/

/-- What is scanned behind a token is the text behind it. -/
theorem scanFrom_behind {phase : Phase} {offset : Nat} {s : Text} {before after : List Token} {t : Token}
    (h : scanFrom phase offset s = before ++ t :: after) :
    ∃ front back, s = front ++ back ∧ offset + Text.byteLength front = t.span.stop ∧
      after = scanFrom (phase.after (before ++ [t])) t.span.stop back := by
  revert before
  fun_induction scanFrom phase offset s with
  | case1 =>
    intro before h
    simp at h
  | case2 phase offset c s hgap ih =>
    intro before h
    obtain ⟨front, back, rfl, hstop, hafter⟩ := ih h
    refine ⟨c :: front, back, rfl, ?_, hafter⟩
    rw [← hstop, Text.byteLength_cons, Nat.add_assoc]
  | case3 phase offset c s hgap lexeme kind hlexeme stop =>
    rename_i ih
    intro before h
    have hsplit := firstLexeme_append phase.operand c s
    rw [hlexeme] at hsplit
    cases before with
    | nil =>
      obtain ⟨rfl, rfl⟩ := List.cons.inj h
      exact ⟨lexeme, _, hsplit.symm, rfl, rfl⟩
    | cons u before =>
      obtain ⟨rfl, hrest⟩ := List.cons.inj h
      obtain ⟨front, back, hback, hstop, hafter⟩ := ih hrest
      refine ⟨lexeme ++ front, back, ?_, ?_, hafter⟩
      · rw [← hsplit, hback, List.append_assoc]
      · rw [← hstop, Text.byteLength_append, Nat.add_assoc]

/-- The tokens of a statement are all that were scanned, or all behind a line number. -/
theorem scan_eq_lex_or (s : Text) :
    scan s = lex s ∨ ∃ number numeral, number.kind = .number numeral ∧ scan s = number :: lex s := by
  by_cases h : ∃ number ts numeral, scan s = number :: ts ∧ number.kind = .number numeral
  · obtain ⟨number, ts, numeral, hscan, hkind⟩ := h
    rw [lex_of_scan_number hscan hkind]
    exact .inr ⟨number, numeral, hkind, hscan⟩
  · refine .inl (lex_of_scan_other ?_).symm
    intro number ts hscan numeral hkind
    exact h ⟨number, ts, numeral, hscan, hkind⟩

/-- What is lexed behind a token is scanned from the text behind it. -/
theorem lex_behind {s : Text} {before after : List Token} {t : Token} (h : lex s = before ++ t :: after) :
    ∃ phase front back, (phase = .start ∨ phase = .numbered) ∧ s = front ++ back ∧
      Text.byteLength front = t.span.stop ∧
      after = scanFrom (Phase.after phase (before ++ [t])) t.span.stop back := by
  rcases scan_eq_lex_or s with hscan | ⟨number, numeral, hkind, hscan⟩
  · rw [h] at hscan
    obtain ⟨front, back, hs, hstop, hafter⟩ := scanFrom_behind hscan
    exact ⟨.start, front, back, .inl rfl, hs, by simpa using hstop, hafter⟩
  · rw [h, ← List.cons_append] at hscan
    obtain ⟨front, back, hs, hstop, hafter⟩ := scanFrom_behind hscan
    have hphase : Phase.start.after (number :: before ++ [t]) = Phase.numbered.after (before ++ [t]) := by
      rw [List.cons_append, Phase.after, List.foldl_cons, hkind]
      rfl
    rw [hphase] at hafter
    exact ⟨.numbered, front, back, .inr rfl, hs, by simpa using hstop, hafter⟩

theorem scanFrom_gaps {gap : Text} (hgap : ∀ c ∈ gap, isGap c = true) (phase : Phase) (offset : Nat)
    (s : Text) : scanFrom phase offset (gap ++ s) = scanFrom phase (offset + Text.byteLength gap) s := by
  induction gap generalizing offset with
  | nil => rfl
  | cons c gap ih =>
    rw [List.cons_append, scanFrom, if_pos (hgap c List.mem_cons_self),
      ih fun d hd => hgap d (List.mem_cons_of_mem c hd), Text.byteLength_cons, Nat.add_assoc]

theorem exists_firstLexeme_of_scanFrom_cons {phase : Phase} {offset : Nat} {s : Text} {t : Token}
    {ts : List Token} (h : scanFrom phase offset s = t :: ts) :
    ∃ c u, t.kind = (firstLexeme phase.operand c u).2 := by
  fun_induction scanFrom phase offset s with
  | case1 => cases h
  | case2 phase offset c s hgap ih => exact ih h
  | case3 phase offset c s hgap lexeme kind hlexeme stop ih =>
    obtain ⟨rfl, -⟩ := List.cons.inj h
    exact ⟨c, s, by rw [hlexeme]⟩

/-! ### The roles of signs -/

/-- The token stands right behind one that ends an operand, or right behind one that does not. The first
of the tokens is the command. -/
def StandsBehind (ts : List Token) (ends : Bool) (u : Token) : Prop :=
  ∃ before t after, ts = before ++ t :: u :: after ∧ t.kind.endsOperand before.isEmpty = ends

section Role

variable {s : Text} {command : Token} {letters : String} {ts : List Token}
  (hlex : lex s = command :: ts) (hcommand : command.kind = .name letters)
include hlex hcommand

theorem operand_behind {phase : Phase} (hphase : phase = .start ∨ phase = .numbered)
    {before after : List Token} {t : Token} (h : lex s = before ++ t :: after) :
    (phase.after (before ++ [t])).operand = !t.kind.endsOperand before.isEmpty := by
  refine Phase.operand_after hphase ⟨letters, ?_⟩
  have hhead : (before ++ [t]).head? = some command := by
    have hfirst := congrArg List.head? (h.symm.trans hlex)
    cases before <;> simpa using hfirst
  rw [List.head?_eq_some_head (by simp), Option.some.injEq] at hhead
  rw [hhead, hcommand]

/-- What follows the command was read where an operand is expected or not, as the token in front says. -/
theorem exists_standsBehind {u : Token} (hu : u ∈ lex s) (hname : ∀ w, u.kind ≠ .name w) :
    ∃ operand c t, u.kind = (firstLexeme operand c t).2 ∧ StandsBehind (lex s) (!operand) u := by
  obtain ⟨before, after, h⟩ := List.append_of_mem hu
  rcases List.eq_nil_or_concat before with rfl | ⟨before, t, rfl⟩
  · rw [hlex] at h
    obtain ⟨rfl, -⟩ := List.cons.inj h
    exact absurd hcommand (hname letters)
  · rw [List.concat_eq_append, List.append_assoc, List.singleton_append] at h
    obtain ⟨phase, front, back, hphase, -, -, hafter⟩ := lex_behind h
    obtain ⟨c, v, hkind⟩ := exists_firstLexeme_of_scanFrom_cons hafter.symm
    refine ⟨_, c, v, hkind, before, t, after, h, ?_⟩
    rw [operand_behind hlex hcommand hphase h, Bool.not_not]

/-- A sign behind a token, with nothing but gaps between them, is the next token or its first character.
Which of these, and which operation it is, depends on the token and on what follows the sign. -/
theorem exists_sign_behind {before after : List Token} {t : Token} (h : lex s = before ++ t :: after)
    {front gap back : Text} {c : Char} (hs : s = front ++ (gap ++ c :: back))
    (hfront : Text.byteLength front = t.span.stop) (hgap : ∀ g ∈ gap, isGap g = true)
    (hc : c = '+' ∨ c = '-') :
    ∃ u rest, after = u :: rest ∧ u.span.start = Text.byteLength (front ++ gap) ∧
      u.kind = (firstLexeme (!t.kind.endsOperand before.isEmpty) c back).2 := by
  obtain ⟨phase, front', back', hphase, hs', hfront', hafter⟩ := lex_behind h
  have hback : back' = gap ++ c :: back := by
    rw [← Text.dropBytes_append front' back', hfront', ← hs', hs, ← hfront, Text.dropBytes_append]
  have hcgap : ¬ isGap c = true := by obtain rfl | rfl := hc <;> decide
  rw [hback, scanFrom_gaps hgap, scanFrom, if_neg hcgap, operand_behind hlex hcommand hphase h] at hafter
  exact ⟨_, _, hafter, by rw [Text.byteLength_append, hfront], rfl⟩

/-- In a statement with a command, the token in front of a sign decides what the sign is. Behind one
that ends an operand it is an operation; behind any other it belongs to the number that follows it
immediately, or else a minus negates. -/
theorem roles_of_signs :
    (∀ u ∈ lex s, u.kind = .operator .minus → StandsBehind (lex s) true u) ∧
    (∀ u ∈ lex s, (u.kind = .operator .negate ∨
        ∃ c numeral, (c = '+' ∨ c = '-') ∧ u.kind = .number (c :: numeral)) →
      StandsBehind (lex s) false u) ∧
    ∀ before t after front gap c back, lex s = before ++ t :: after →
      s = front ++ (gap ++ c :: back) → Text.byteLength front = t.span.stop →
      (∀ g ∈ gap, isGap g = true) → (c = '+' ∨ c = '-') →
      ∃ u rest, after = u :: rest ∧ u.span.start = Text.byteLength (front ++ gap) ∧
        (t.kind.endsOperand before.isEmpty = true →
          u.kind = .operator (if c = '-' then .minus else .plus)) ∧
        (t.kind.endsOperand before.isEmpty = false →
          ((∃ numeral, u.kind = .number (c :: numeral)) ↔ startsDecimal back = true) ∧
          (startsDecimal back = false → u.kind = .operator (if c = '-' then .negate else .plus))) := by
  refine ⟨?_, ?_, ?_⟩
  · intro u hu hminus
    obtain ⟨operand, c, t, hkind, hbehind⟩ :=
      exists_standsBehind hlex hcommand hu fun w hw => by simp [hminus] at hw
    have hoperand : operand = false := operand_of_minus (hkind.symm.trans hminus)
    rwa [hoperand] at hbehind
  · intro u hu hsign
    obtain ⟨operand, c, t, hkind, hbehind⟩ :=
      exists_standsBehind hlex hcommand hu fun w hw => by simp [hw] at hsign
    have hoperand : operand = true := by
      rcases hsign with hnegate | ⟨d, numeral, hd, hnumber⟩
      · exact operand_of_minus (hkind.symm.trans hnegate)
      · exact operand_of_signed hd (hkind.symm.trans hnumber)
    rwa [hoperand] at hbehind
  · intro before t after front gap c back h hs hfront hgap hc
    obtain ⟨u, rest, hafter, hstart, hkind⟩ :=
      exists_sign_behind hlex hcommand h hs hfront hgap hc
    rw [firstLexeme_sign _ hc] at hkind
    refine ⟨u, rest, hafter, hstart, ?_, ?_⟩
    · intro hends
      rw [hkind, hends]
      obtain rfl | rfl := hc <;> rfl
    · intro hends
      rw [hends] at hkind
      cases hdecimal : startsDecimal back with
      | false =>
        rw [hdecimal] at hkind
        have hoperator : u.kind = .operator (if c = '-' then .negate else .plus) := by
          rw [hkind]
          obtain rfl | rfl := hc <;> rfl
        simp [hoperator]
      | true =>
        rw [hdecimal] at hkind
        have hnumber : u.kind = .number (c :: Text.upper (decimalPart back)) := by
          rw [hkind]
          rfl
        simp [hnumber]

end Role

/-- Behind a line number and a command: a minus behind a name, and then one that is the sign of a
number. -/
theorem roles_of_two_signs :
    let s := "10 LET A=B-  -.5".toList
    (∃ command ts, lex s = command :: ts ∧ command.kind = .name "LET") ∧
    StandsBehind (lex s) true ⟨⟨10, 11⟩, .operator .minus⟩ ∧
    StandsBehind (lex s) false ⟨⟨13, 16⟩, .number "-.5".toList⟩ := by
  intro s
  have hlex : lex s = ⟨⟨3, 6⟩, .name "LET"⟩ :: [⟨⟨7, 8⟩, .name "A"⟩, ⟨⟨8, 9⟩, .operator .equal⟩,
      ⟨⟨9, 10⟩, .name "B"⟩, ⟨⟨10, 11⟩, .operator .minus⟩, ⟨⟨13, 16⟩, .number "-.5".toList⟩] := by
    decide +kernel
  obtain ⟨hminus, hsigned, -⟩ := roles_of_signs hlex rfl
  refine ⟨⟨_, _, hlex, rfl⟩, hminus _ ?_ rfl, hsigned _ ?_ (.inr ⟨'-', ".5".toList, .inr rfl, rfl⟩)⟩
  · rw [hlex]
    simp
  · rw [hlex]
    simp

end SpectrumBasic.Token
