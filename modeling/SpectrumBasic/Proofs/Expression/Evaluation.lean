import SpectrumBasic.Proofs.Attempt
import SpectrumBasic.Proofs.Expression.Derivation

/-! The value of an expression is the value of its derivation. A tree that writes a formula is worth
what the formula is worth, drawing one number for each `RND` on the way; every other tree is a syntax
error. With the correspondence of trees and derivations this settles which lists of tokens have a
value and what it is. -/

namespace SpectrumBasic.Expression

open Attempt

/-! ### Operators and draws -/

theorem applyUnary_eq {o : Operator} (ho : o.isUnary = true) (x : Float) :
    o.applyUnary x = .ok (o.unaryValue x) := by
  cases o with
  | negate | sin | cos => rfl
  | _ => contradiction

theorem applyBinary_eq {o : Operator} (hu : o.isUnary = false) (hl : o ≠ .leftParen)
    (hr : o ≠ .rightParen) (x y : Float) : o.applyBinary x y = .ok (o.binaryValue x y) := by
  cases o with
  | negate | sin | cos | leftParen | rightParen => contradiction
  | _ => simp [Operator.applyBinary, Operator.binaryValue, Operator.truth]

theorem fetch_eq (vars : Variables) (name : String) :
    vars.fetch name = vars.table[name]?.getD 0.0 :=
  Std.TreeMap.getD_eq_getD_getElem?

theorem outcome_drawUnit (g : Generator) (n : Nat) :
    outcome drawUnit (g.skip n) = (.ok (g.draw n), g.skip (n + 1)) := rfl

@[simp] theorem randomCount_append (ks ms : List Token.Kind) :
    randomCount (ks ++ ms) = randomCount ks + randomCount ms := List.count_append

theorem randomCount_cons (k : Token.Kind) (ks : List Token.Kind) :
    randomCount (k :: ks) = randomCount [k] + randomCount ks := by
  rw [← List.singleton_append, randomCount_append]

theorem randomCount_operator (o : Operator) : randomCount [.operator o] = 0 := rfl

theorem randomCount_closer (t : Token) : randomCount (closer t) = 0 := by
  unfold closer
  split <;> rfl

theorem randomCount_node_operator {left right : Tree} {token : Token} {isOpen : Bool} {o : Operator}
    (hk : token.kind = .operator o) :
    randomCount (Tree.node left token isOpen right).kinds =
      randomCount left.kinds + randomCount right.kinds := by
  rw [Tree.kinds, randomCount_append, randomCount_cons, randomCount_append, hk, randomCount_operator,
    randomCount_closer]
  omega

theorem randomCount_of_isEmpty {t : Tree} (h : t.isEmpty = true) : randomCount t.kinds = 0 := by
  rw [Tree.isEmpty_iff.mp h]
  rfl

/-! ### The value of a node -/

namespace Tree

section Node

variable {left right : Tree} {token : Token} {isOpen : Bool} (vars : Variables) (missing : Fault)
  (g : Generator)

theorem outcome_value_parens (hk : token.kind = .operator .leftParen) :
    outcome ((node left token isOpen right).value vars missing) g =
      if left.isEmpty then outcome (right.value vars (.syntaxAt token.span .missingOperand)) g
      else (.error (.syntaxAt token.span .missingOperator), g) := by
  rw [value, hk]
  cases left.isEmpty <;> rfl

theorem outcome_value_unary {o : Operator} (hk : token.kind = .operator o) (ho : o.isUnary = true) :
    outcome ((node left token isOpen right).value vars missing) g =
      if left.isEmpty then
        outcome (right.value vars (.syntaxAt token.span .missingOperand) >>= fun x =>
          liftExcept (o.applyUnary x)) g
      else (.error (.syntaxAt token.span .missingOperator), g) := by
  have hp : o ≠ .leftParen := (priority_of_isUnary ho).1
  simp only [value, hk, if_neg hp, if_pos ho]
  cases left.isEmpty <;> rfl

theorem outcome_value_binary {o : Operator} (hk : token.kind = .operator o)
    (hu : o.isUnary = false) (hp : o ≠ .leftParen) :
    outcome ((node left token isOpen right).value vars missing) g =
      outcome (left.value vars (.syntaxAt token.span .missingOperand) >>= fun x =>
        right.value vars (.syntaxAt token.span .missingOperand) >>= fun y =>
          liftExcept (o.applyBinary x y)) g := by
  simp only [value, hk, if_neg hp, hu]
  rfl

theorem outcome_value_number {numeral : Text} (hk : token.kind = .number numeral) :
    outcome ((node left token isOpen right).value vars missing) g =
      if left.isEmpty && right.isEmpty then
        match Number.read? numeral with
        | some x => (.ok x, g)
        | none => (.error (.syntaxAt token.span .invalidNumber), g)
      else (.error (.syntaxAt token.span .missingOperator), g) := by
  simp only [value, hk]
  cases left.isEmpty && right.isEmpty
  · rfl
  · cases Number.read? numeral <;> rfl

theorem outcome_value_name {name : String} (hk : token.kind = .name name) :
    outcome ((node left token isOpen right).value vars missing) g =
      if left.isEmpty && right.isEmpty then
        if name = "RND" then outcome drawUnit g else (.ok (vars.fetch name), g)
      else (.error (.syntaxAt token.span .missingOperator), g) := by
  simp only [value, hk]
  cases left.isEmpty && right.isEmpty
  · rfl
  · by_cases hn : name = "RND"
    · simp only [if_pos, hn]
    · simp only [if_pos, hn]
      rfl

end Node

/-! ### Trees that write a formula and trees that do not -/

/-- A tree that writes a formula has its value, and each `RND` takes one draw. -/
theorem outcome_value_of_formula? {t : Tree} {n : Nat} {a : Formula} (ha : t.formula? n = some a)
    (vars : Variables) (missing : Fault) (g : Generator) :
    outcome (t.value vars missing) (g.skip n) =
      (.ok (a.value vars g.draw), g.skip (n + randomCount t.kinds)) := by
  induction t generalizing n a missing with
  | empty => simp [formula?] at ha
  | node left token isOpen right ihl ihr =>
    cases nodeWrites ha with
    | number hk hl hr hx =>
      subst hl hr
      rw [outcome_value_number _ _ _ hk, hx]
      simp [isEmpty, kinds, hk, closer, randomCount, Formula.value]
    | random hk hl hr =>
      subst hl hr
      rw [outcome_value_name _ _ _ hk]
      simp [isEmpty, outcome_drawUnit, kinds, hk, closer, randomCount, Formula.value]
    | fetch hk hn hl hr =>
      subst hl hr
      rw [outcome_value_name _ _ _ hk, if_neg hn, fetch_eq]
      simp [isEmpty, kinds, hk, closer, randomCount, Formula.value, hn]
    | parens hk hl hb =>
      have he := isEmpty_iff.mpr hl
      rw [outcome_value_parens _ _ _ hk, if_pos he, ihr hb, randomCount_node_operator hk,
        randomCount_of_isEmpty he, Nat.zero_add]
    | unary hk ho hl hb =>
      have he := isEmpty_iff.mpr hl
      rw [outcome_value_unary _ _ _ hk ho, if_pos he, outcome_bind_ok (ihr hb _), applyUnary_eq ho,
        outcome_liftExcept, Formula.value, randomCount_node_operator hk, randomCount_of_isEmpty he,
        Nat.zero_add]
    | binary hk ho hlp hrp hb hc =>
      rw [outcome_value_binary _ _ _ hk ho hlp, outcome_bind_ok (ihl hb _),
        outcome_bind_ok (ihr hc _), applyBinary_eq ho hlp hrp, outcome_liftExcept, Formula.value,
        randomCount_node_operator hk, Nat.add_assoc]

/-- The computation fails with a syntax error. -/
def Fails {α : Type} (x : Draw α) (g : Generator) : Prop :=
  ∃ f g', outcome x g = (.error f, g') ∧ f.kind = .syntaxError

theorem Fails.bind {α β : Type} {x : Draw α} {g : Generator} (h : Fails x g) (k : α → Draw β) :
    Fails (x >>= k) g := by
  obtain ⟨f, g', hf, hk⟩ := h
  exact ⟨f, g', outcome_bind_error hf, hk⟩

theorem Fails.bind_ok {α β : Type} {x : Draw α} {k : α → Draw β} {g g' : Generator} {a : α}
    (hx : outcome x g = (.ok a, g')) (h : Fails (k a) g') : Fails (x >>= k) g := by
  obtain ⟨f, g'', hf, hk⟩ := h
  exact ⟨f, g'', (outcome_bind_ok hx).trans hf, hk⟩

/-- A tree that writes no formula is a syntax error. -/
theorem fails_value {t : Tree} {n : Nat} (ha : t.formula? n = none) (vars : Variables)
    {missing : Fault} (hm : missing.kind = .syntaxError) (g : Generator) :
    Fails (t.value vars missing) (g.skip n) := by
  induction t generalizing n missing with
  | empty => exact ⟨missing, _, rfl, hm⟩
  | node left token isOpen right ihl ihr =>
    have hoperand : (Fault.syntaxAt token.span .missingOperand).kind = .syntaxError := rfl
    rw [formula?] at ha
    unfold Fails
    split at ha
    · next hk =>
      rw [outcome_value_parens _ _ _ hk]
      cases he : left.isEmpty with
      | false => exact ⟨_, _, rfl, rfl⟩
      | true => exact ihr (by simpa [he] using ha) hoperand
    · next hk =>
      -- no tree that was built holds a right parenthesis, but a tree with one has no value either
      rw [outcome_value_binary _ _ _ hk rfl (by simp)]
      cases hl : left.formula? n with
      | none => exact (ihl hl hoperand).bind _
      | some b =>
        apply Fails.bind_ok (outcome_value_of_formula? hl vars _ g)
        cases hr : right.formula? (n + randomCount left.kinds) with
        | none => exact (ihr hr hoperand).bind _
        | some c => exact Fails.bind_ok (outcome_value_of_formula? hr vars _ g) ⟨_, _, rfl, rfl⟩
    · next o hlp hrp hk =>
      split at ha
      · next hu =>
        rw [outcome_value_unary _ _ _ hk hu]
        cases he : left.isEmpty with
        | false => exact ⟨_, _, rfl, rfl⟩
        | true => exact (ihr (by simpa [he] using ha) hoperand).bind _
      · next hu =>
        rw [Bool.not_eq_true] at hu
        rw [outcome_value_binary _ _ _ hk hu hlp]
        cases hl : left.formula? n with
        | none => exact (ihl hl hoperand).bind _
        | some b =>
          apply Fails.bind_ok (outcome_value_of_formula? hl vars _ g)
          exact (ihr (by simpa [hl] using ha) hoperand).bind _
    · next numeral hk =>
      rw [outcome_value_number _ _ _ hk]
      cases he : left.isEmpty && right.isEmpty with
      | false => exact ⟨_, _, rfl, rfl⟩
      | true =>
        have hx : Number.read? numeral = none := by simpa [he] using ha
        rw [hx]
        exact ⟨_, _, rfl, rfl⟩
    · next name hk =>
      rw [outcome_value_name _ _ _ hk]
      cases he : left.isEmpty && right.isEmpty with
      | false => exact ⟨_, _, rfl, rfl⟩
      | true => simp [he] at ha
    · next hop hnum hname =>
      rw [value]
      cases hk : token.kind with
      | operator o => exact absurd hk (hop o)
      | number numeral => exact absurd hk (hnum numeral)
      | name letters => exact absurd hk (hname letters)
      | unknown c => exact ⟨_, _, rfl, rfl⟩
      | word w => exact ⟨_, _, rfl, rfl⟩
      | separator s => exact ⟨_, _, rfl, rfl⟩

end Tree

/-! ### Expressions -/

theorem outcome_evaluate_ok {ts : List Token} {t : Tree} (ht : Tree.build ts = .ok t)
    (vars : Variables) (g : Generator) :
    outcome (evaluate vars ts) g = outcome (t.value vars (.syntaxOf .expectedExpression)) g := by
  rw [evaluate, ht]
  rfl

theorem outcome_evaluate_error {ts : List Token} {f : Fault} (ht : Tree.build ts = .error f)
    (vars : Variables) (g : Generator) : outcome (evaluate vars ts) g = (.error f, g) := by
  rw [evaluate, ht]
  rfl

/-- Tokens that derive a formula once they are closed have its value. -/
theorem outcome_evaluate_of_derives {ts : List Token} {a : Formula}
    (h : Derives .comparison 0 (closed (ts.map Token.kind)) a) (vars : Variables) (g : Generator) :
    outcome (evaluate vars ts) g =
      (.ok (a.value vars g.draw), g.skip (randomCount (ts.map Token.kind))) := by
  obtain ⟨t, ht, ha⟩ := derives_iff_build.mp h
  have hk : randomCount t.kinds = randomCount (ts.map Token.kind) := by
    rw [(Tree.build_sound ht).1, closed, randomCount_append]
    simp [randomCount, List.count_replicate]
  have hv := Tree.outcome_value_of_formula? ha vars (.syntaxOf .expectedExpression) g
  rw [Nat.zero_add, hk] at hv
  exact (outcome_evaluate_ok ht vars g).trans hv

/-- Tokens that derive nothing are a syntax error. -/
theorem fails_evaluate {ts : List Token}
    (h : ¬ ∃ a, Derives .comparison 0 (closed (ts.map Token.kind)) a) (vars : Variables)
    (g : Generator) : Tree.Fails (evaluate vars ts) g := by
  cases ht : Tree.build ts with
  | error f => exact ⟨f, g, outcome_evaluate_error ht vars g, Tree.kind_of_build_error ht⟩
  | ok t =>
    have ha : t.formula? 0 = none := by
      rw [Option.eq_none_iff_forall_not_mem]
      intro a ha
      exact h ⟨a, derives_iff_build.mpr ⟨t, ht, ha⟩⟩
    have hm : (Fault.syntaxOf .expectedExpression).kind = .syntaxError := rfl
    obtain ⟨f, g', hf, hk⟩ := Tree.fails_value ha vars hm g
    exact ⟨f, g', (outcome_evaluate_ok ht vars g).trans hf, hk⟩

/-- An expression has a value exactly if its tokens, closed, are derived by the grammar. Then there
is one formula that they derive, the value is the value of that formula with the numbers that the
generator draws for its names `RND`, and as many numbers are drawn. Everything else is a syntax
error. -/
theorem evaluate_iff_derives (vars : Variables) (ts : List Token) (g : Generator) :
    ((∃ v, ((evaluate vars ts).run.run g).1 = .ok v) ↔
      ∃ a, Derives .comparison 0 (closed (ts.map Token.kind)) a) ∧
    (∀ a, Derives .comparison 0 (closed (ts.map Token.kind)) a →
      (∀ b, Derives .comparison 0 (closed (ts.map Token.kind)) b → b = a) ∧
      (evaluate vars ts).run.run g =
        (.ok (a.value vars g.draw), g.skip (randomCount (ts.map Token.kind)))) ∧
    ((¬ ∃ a, Derives .comparison 0 (closed (ts.map Token.kind)) a) →
      ∃ f, ((evaluate vars ts).run.run g).1 = .error f ∧ f.kind = .syntaxError) := by
  refine ⟨⟨?_, ?_⟩, ?_, ?_⟩
  · rintro ⟨v, hv⟩
    by_cases h : ∃ a, Derives .comparison 0 (closed (ts.map Token.kind)) a
    · exact h
    · obtain ⟨f, g', hf, -⟩ := fails_evaluate h vars g
      change (outcome (evaluate vars ts) g).1 = .ok v at hv
      rw [hf] at hv
      contradiction
  · rintro ⟨a, ha⟩
    exact ⟨_, congrArg Prod.fst (outcome_evaluate_of_derives ha vars g)⟩
  · intro a ha
    refine ⟨?_, outcome_evaluate_of_derives ha vars g⟩
    intro b hb
    obtain ⟨t, ht, hta⟩ := derives_iff_build.mp ha
    obtain ⟨u, hu, hub⟩ := derives_iff_build.mp hb
    rw [ht] at hu
    cases hu
    rw [hta] at hub
    exact (Option.some.inj hub).symm
  · intro h
    obtain ⟨f, g', hf, hk⟩ := fails_evaluate h vars g
    exact ⟨f, congrArg Prod.fst hf, hk⟩

/-- The tokens of `SIN(A+RND`, whose parenthesis is left open. -/
def openSum : List Token :=
  [⟨⟨4, 7⟩, .operator .sin⟩, ⟨⟨7, 8⟩, .operator .leftParen⟩, ⟨⟨8, 9⟩, .name "A"⟩,
    ⟨⟨9, 10⟩, .operator .plus⟩, ⟨⟨10, 13⟩, .name "RND"⟩]

theorem derives_openSum :
    Derives .comparison 0 (closed (openSum.map Token.kind))
      (.unary .sin (.binary .plus (.fetch "A") (.random 0))) := by
  have ha : Derives .sum 0 [.name "A"] (.fetch "A") := .single (.single (.fetch (by decide)))
  have hr : Derives .term 0 [.name "RND"] (.random 0) := .single .random
  have hsum : Derives .comparison 0 [.name "A", .operator .plus, .name "RND"]
      (.binary .plus (.fetch "A") (.random 0)) :=
    .single (.binary (by decide) ha hr)
  exact .single (.single (.single (.unary (by decide) (.parens hsum))))

/-- Without a variable stored, `SIN(A+RND` is the sine of zero plus the first draw. -/
theorem evaluate_openSum :
    (evaluate .empty openSum).run.run (.ofSeed 7) =
      (.ok (0.0 + (Generator.ofSeed 7).draw 0).sin, (Generator.ofSeed 7).skip 1) :=
  ((evaluate_iff_derives .empty openSum (.ofSeed 7)).2.1 _ derives_openSum).2

end SpectrumBasic.Expression
