import SpectrumBasic.Proofs.Expression.Arena
import SpectrumBasic.Proofs.Expression.Evaluation
import SpectrumBasic.Proofs.Expression.Parentheses

/-! Evaluation along the links of a listing. A walk goes from a node to the nodes that its links name,
and knows nothing of the tree they come from; it keeps a record of the nodes it visits. On the listing
of a tree it finds the value of the tree, and visits each node at most once. -/

namespace SpectrumBasic.Expression

open Attempt (outcome outcome_bind)

section NodeValue

variable {m : Type → Type} [Monad m] [MonadExceptOf Fault m]

/-- The value of a node with this token. `left` and `right` evaluate its children, given the fault of
a missing one. -/
def nodeValue (draw : m Float) (vars : Variables) (token : Token) (noLeft noRight : Bool)
    (left right : Fault → m Float) : m Float := do
  let noOperator : Fault := .syntaxAt token.span .missingOperator
  let noOperand : Fault := .syntaxAt token.span .missingOperand
  match token.kind with
  | .operator o =>
    if o = .leftParen then
      unless noLeft do throw noOperator
      right noOperand
    else if o.isUnary then
      unless noLeft do throw noOperator
      let x ← right noOperand
      liftExcept (o.applyUnary x)
    else
      let x ← left noOperand
      let y ← right noOperand
      liftExcept (o.applyBinary x y)
  | .number numeral =>
    unless noLeft && noRight do throw noOperator
    match Number.read? numeral with
    | some x => return x
    | none => throw (.syntaxAt token.span .invalidNumber)
  | .name name =>
    unless noLeft && noRight do throw noOperator
    if name = "RND" then draw else return vars.fetch name
  | _ => throw (.syntaxAt token.span .unexpectedToken)

end NodeValue

theorem Tree.value_node (vars : Variables) (missing : Fault) (left : Tree) (token : Token)
    (isOpen : Bool) (right : Tree) :
    (node left token isOpen right).value vars missing =
      nodeValue drawUnit vars token left.isEmpty right.isEmpty (left.value vars ·)
        (right.value vars ·) := by
  rw [Tree.value]
  rfl

/-- A computation that draws random numbers, may fail, and keeps a record of the nodes it visits. It
has no result at all if it goes on for too long or visits a node that does not exist. -/
abbrev Visit := ExceptT Fault (StateT (Generator × List Nat) Option)

namespace Visit

def record (i : Nat) : Visit Unit := modify fun (g, log) => (g, log ++ [i])

def drawUnit : Visit Float := do
  let (g, log) ← get
  let (x, g) := g.unit
  set (g, log)
  return x

def astray {α : Type} : Visit α := ExceptT.mk fun _ => none

end Visit

/-- Evaluates what a link leads to, with at most `bound` nodes inside one another. -/
def walk (es : List Entry) (vars : Variables) : Nat → Option Nat → Fault → Visit Float
  | _, none, missing => throw missing
  | 0, some _, _ => Visit.astray
  | bound + 1, some i, _ => do
    Visit.record i
    match es[i]? with
    | none => Visit.astray
    | some e =>
      match e.token with
      | none => throw (.syntaxOf .expectedExpression)
      | some token =>
        nodeValue Visit.drawUnit vars token e.left.isNone e.right.isNone (walk es vars bound e.left)
          (walk es vars bound e.right)

/-- Evaluates what the root leads to. -/
def walkFromRoot (es : List Entry) (vars : Variables) (bound : Nat) : Visit Float :=
  match es[0]? with
  | none => Visit.astray
  | some root => walk es vars bound root.right (.syntaxOf .expectedExpression)

/-! ### Walks and values -/

/-- What the computation comes to, the generator it leaves and the record. -/
def Visit.outcome {α : Type} (x : Visit α) (g : Generator) (log : List Nat) :
    Option (Except Fault α × Generator × List Nat) := x.run.run (g, log)

theorem Visit.outcome_bind {α β : Type} (x : Visit α) (k : α → Visit β) (g : Generator)
    (log : List Nat) :
    (x >>= k).outcome g log =
      match x.outcome g log with
      | some (.ok a, g, log) => (k a).outcome g log
      | some (.error f, g, log) => some (.error f, g, log)
      | none => none := by
  unfold outcome
  simp only [ExceptT.run_bind, StateT.run_bind]
  rcases x.run.run (g, log) with _ | ⟨_ | _, _, _⟩ <;> rfl

/-- The computation `x` comes to the same as `y`, and visits some of the nodes `ids` in their order. -/
def Follows {α : Type} (ids : List Nat) (x : Visit α) (y : Draw α) : Prop :=
  ∀ g log, ∃ seen, seen.Sublist ids ∧
    x.outcome g log = some ((outcome y g).1, (outcome y g).2, log ++ seen)

namespace Follows

variable {α β : Type} {ids ids' : List Nat}

theorem pure (a : α) : Follows ids (pure a) (pure a) :=
  fun g log => ⟨[], List.nil_sublist _, by rw [List.append_nil]; rfl⟩

theorem throw (f : Fault) : Follows ids (throw f : Visit α) (throw f) :=
  fun g log => ⟨[], List.nil_sublist _, by rw [List.append_nil]; rfl⟩

protected theorem liftExcept (r : Except Fault α) : Follows ids (liftExcept r) (liftExcept r) := by
  cases r with
  | ok a => exact pure a
  | error f => exact throw f

theorem drawUnit : Follows ids Visit.drawUnit drawUnit :=
  fun g log => ⟨[], List.nil_sublist _, by rw [List.append_nil]; rfl⟩

theorem mono {x : Visit α} {y : Draw α} (h : Follows ids x y) (hids : ids.Sublist ids') :
    Follows ids' x y := by
  intro g log
  obtain ⟨seen, hseen, hx⟩ := h g log
  exact ⟨seen, hseen.trans hids, hx⟩

theorem bind {x : Visit α} {y : Draw α} {k : α → Visit β} {l : α → Draw β} (hx : Follows ids x y)
    (hk : ∀ a, Follows ids' (k a) (l a)) : Follows (ids ++ ids') (x >>= k) (y >>= l) := by
  intro g log
  obtain ⟨seen, hseen, hx⟩ := hx g log
  rw [Visit.outcome_bind, hx, outcome_bind]
  rcases outcome y g with ⟨f | a, g₁⟩
  · exact ⟨seen, hseen.trans (List.sublist_append_left _ _), rfl⟩
  · obtain ⟨seen', hseen', hk⟩ := hk a g₁ (log ++ seen)
    refine ⟨seen ++ seen', hseen.append hseen', ?_⟩
    rw [← List.append_assoc]
    exact hk

theorem bind_liftExcept {x : Visit α} {y : Draw α} (hx : Follows ids x y) (r : α → Except Fault β) :
    Follows ids (x >>= fun a => liftExcept (r a)) (y >>= fun a => liftExcept (r a)) := by
  have h : Follows (ids ++ []) _ _ := bind hx fun a => .liftExcept (r a)
  rwa [List.append_nil] at h

theorem throw_bind (f : Fault) (k : α → Visit β) (l : α → Draw β) :
    Follows ids (MonadExcept.throw f >>= k) (MonadExcept.throw f >>= l) :=
  fun g log => ⟨[], List.nil_sublist _, by rw [List.append_nil]; rfl⟩

theorem ite {p : Prop} [Decidable p] {x x' : Visit α} {y y' : Draw α} (hx : Follows ids x y)
    (hx' : Follows ids x' y') : Follows ids (if p then x else x') (if p then y else y') := by
  split
  · exact hx
  · exact hx'

theorem record {x : Visit α} {y : Draw α} (h : Follows ids x y) (i : Nat) :
    Follows (i :: ids) (Visit.record i >>= fun _ => x) y := by
  intro g log
  obtain ⟨seen, hseen, hx⟩ := h g (log ++ [i])
  refine ⟨i :: seen, hseen.cons_cons i, ?_⟩
  rw [List.append_cons]
  exact hx

/-- A node is evaluated alike if its children are, and visits no nodes but theirs. -/
theorem nodeValue {vars : Variables} {token : Token} {noLeft noRight : Bool}
    {left right : Fault → Visit Float} {left' right' : Fault → Draw Float}
    (hleft : ∀ f, Follows ids (left f) (left' f)) (hright : ∀ f, Follows ids' (right f) (right' f)) :
    Follows (ids ++ ids') (nodeValue Visit.drawUnit vars token noLeft noRight left right)
      (nodeValue Expression.drawUnit vars token noLeft noRight left' right') := by
  have hright' (f : Fault) : Follows (ids ++ ids') (right f) (right' f) :=
    (hright f).mono (List.sublist_append_right _ _)
  unfold Expression.nodeValue
  dsimp only
  split
  · refine ite (ite (hright' _) (throw_bind _ _ _)) (ite (ite ?_ (throw_bind _ _ _)) ?_)
    · exact bind_liftExcept (hright' _) _
    · exact bind (hleft _) fun x => bind_liftExcept (hright _) _
  · refine ite ?_ (throw_bind _ _ _)
    split
    · exact pure _
    · exact throw _
  · exact ite (ite drawUnit (pure _)) (throw_bind _ _ _)
  · exact throw _

end Follows

namespace Tree

/-- The numbers of the nodes, each before those below it. -/
def preorder (first : Nat) : Tree → List Nat
  | empty => []
  | node left _ _ right =>
    (first + left.size) :: (left.preorder first ++ right.preorder (first + left.size + 1))

theorem mem_preorder {first i : Nat} {t : Tree} (h : i ∈ t.preorder first) :
    first ≤ i ∧ i < first + t.size := by
  induction t generalizing first with
  | empty => cases h
  | node left token isOpen right ihl ihr =>
    rw [size]
    rcases List.mem_cons.mp h with rfl | h
    · omega
    · rcases List.mem_append.mp h with h | h
      · have := ihl h
        omega
      · have := ihr h
        omega

theorem nodup_preorder (first : Nat) (t : Tree) : (t.preorder first).Nodup := by
  induction t generalizing first with
  | empty => exact List.nodup_nil
  | node left token isOpen right ihl ihr =>
    rw [preorder, List.nodup_cons, List.nodup_append]
    refine ⟨fun h => ?_, ihl _, ihr _, fun i hi j hj => ?_⟩
    · rcases List.mem_append.mp h with h | h
      · have := mem_preorder h
        omega
      · have := mem_preorder h
        omega
    · have := mem_preorder hi
      have := mem_preorder hj
      omega

theorem isNone_top? (first : Nat) (t : Tree) : (t.top? first).isNone = t.isEmpty := by
  cases t <;> rfl

/-- On the entries of a tree a walk finds the value of the tree. -/
theorem LiesIn.follows {es : List Entry} {first parent : Nat} {t : Tree} (h : LiesIn es first parent t)
    (vars : Variables) {bound : Nat} (hbound : t.size ≤ bound) (missing : Fault) :
    Follows (t.preorder first) (walk es vars bound (t.top? first) missing) (t.value vars missing) := by
  induction t generalizing first parent bound missing with
  | empty =>
    rw [top?, walk, value]
    exact .throw missing
  | node left token isOpen right ihl ihr =>
    cases bound with
    | zero => simp [size] at hbound
    | succ bound =>
      rw [size] at hbound
      have hleft : left.size ≤ bound := by omega
      have hright : right.size ≤ bound := by omega
      rw [value_node, top?, walk, h.getElem?_top, ← isNone_top? first left,
        ← isNone_top? (first + left.size + 1) right]
      exact .record (.nodeValue (ihl h.leftTree hleft) (ihr h.rightTree hright)) _

theorem follows_listing (t : Tree) (vars : Variables) {bound : Nat}
    (hbound : t.listing.length ≤ bound) :
    Follows (t.preorder 1) (walkFromRoot t.listing vars bound)
      (t.value vars (.syntaxOf .expectedExpression)) := by
  rw [length_listing] at hbound
  exact t.liesIn_listing.follows vars (by omega) _

theorem kind_of_mem_listing {ts : List Token} {t : Tree} (h : build ts = .ok t) {e : Entry}
    (he : e ∈ t.listing) {u : Token} (hu : e.token = some u) : u.kind ≠ .operator .rightParen := by
  rcases List.mem_cons.mp he with rfl | he
  · cases hu
  · have hmem : some u ∈ t.tokens.map some := by
      rw [← map_token_entries 1 0, ← hu]
      exact List.mem_map_of_mem he
    rw [tokens_build h] at hmem
    obtain ⟨v, hv, hvu⟩ := List.mem_map.mp hmem
    cases hvu
    simpa [hasNode] using (List.mem_filter.mp hv).2

end Tree

/-- Building a tree fails exactly if somewhere there are more right parentheses than left ones, and then
at the first place where this is so. Otherwise the nodes that grow in place are those of the tree, one
for each token but right parentheses, and make a binary tree that has the tokens in their order. So to
evaluate along the links ends on every expression, visits no node twice and finds its value. -/
theorem linked_tree_of_tokens (ts : List Token) :
    ((∃ f, Tree.build ts = .error f) ↔ ∃ us, us <+: ts ∧ Excess us) ∧
    (∀ front t, front ++ [t] <+: ts → Excess (front ++ [t]) → (∀ us, us <+: front → ¬ Excess us) →
      Tree.build ts = .error (.syntaxAt t.span .unmatchedRightParenthesis)) ∧
    Arena.build ts = (Tree.build ts).map Tree.listing ∧
    ∀ es, Arena.build ts = .ok es →
      es.length = 1 + (ts.filter hasNode).length ∧ IsLinkedTree es ∧
      (∀ e ∈ es, ∀ t, e.token = some t → t.kind ≠ .operator .rightParen) ∧
      (∀ root, es[0]? = some root → InOrder es root.right (ts.filter hasNode)) ∧
      ∀ vars g bound, es.length ≤ bound → ∃ visited : List Nat, visited.Nodup ∧
        (walkFromRoot es vars bound).outcome g [] =
          some ((outcome (evaluate vars ts) g).1, (outcome (evaluate vars ts) g).2, visited) := by
  refine ⟨Tree.exists_build_error_iff, fun front t hfront hexcess hshortest => ?_, Arena.build_eq ts,
    fun es hes => ?_⟩
  · exact Tree.build_eq_error_iff.mpr ⟨front, t, hfront, hexcess, hshortest, rfl⟩
  rw [Arena.build_eq] at hes
  cases hbuild : Tree.build ts with
  | error f =>
    rw [hbuild] at hes
    cases hes
  | ok t =>
    rw [hbuild] at hes
    cases hes
    have htokens := Tree.tokens_build hbuild
    refine ⟨?_, t.isLinkedTree_listing, fun e he u => Tree.kind_of_mem_listing hbuild he,
      fun root hroot => ?_, fun vars g bound hbound => ?_⟩
    · rw [Tree.length_listing, ← t.length_tokens, htokens]
    · cases hroot
      rw [← htokens]
      exact t.liesIn_listing.inOrder
    · obtain ⟨visited, hvisited, hwalk⟩ := t.follows_listing vars hbound g []
      rw [outcome_evaluate_ok hbuild]
      exact ⟨visited, hvisited.nodup (t.nodup_preorder 1), hwalk⟩

end SpectrumBasic.Expression
