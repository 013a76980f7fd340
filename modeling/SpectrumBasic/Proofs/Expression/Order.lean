import SpectrumBasic.Proofs.Expression.Growth

/-! The tokens of a tree from left to right. Growing a tree puts each token behind all others, and
closing a parenthesis moves none, so a tree holds the tokens it is built of in their order, right
parentheses apart. -/

namespace SpectrumBasic.Expression

/-- Every token but a right parenthesis gets a node of the tree. -/
def hasNode (t : Token) : Bool := t.kind ≠ .operator .rightParen

namespace Growth

/-- The tokens along the spine and in its left subtrees, from left to right. -/
def path : List Branch → List Token
  | [] => []
  | b :: spine => path spine ++ (b.left.tokens ++ [b.token])

/-- The tokens of a tree in growth, from left to right. -/
def tokens (g : Growth) : List Token := path g.spine ++ g.right.tokens

theorem tokens_finish (spine : List Branch) (right : Tree) :
    (finish spine right).tokens = tokens ⟨spine, right⟩ := by
  induction spine generalizing right with
  | nil => rfl
  | cons b spine ih => simp [finish, ih, tokens, path, Branch.join, Tree.tokens]

/-- Joining nodes of the spine moves no token. -/
theorem Joins.tokens_eq {spine outer : List Branch} {right inside : Tree}
    (h : Joins spine right outer inside) : tokens ⟨outer, inside⟩ = tokens ⟨spine, right⟩ := by
  rw [← tokens_finish, ← tokens_finish, h.finish_eq]

theorem tokens_insert (g : Growth) (t : Token) : (g.insert t).tokens = g.tokens ++ [t] := by
  have hclimb := (climb_joins (climbPriority t) g.spine g.right).tokens_eq
  unfold tokens at hclimb ⊢
  simp only [insert, path, Tree.tokens, List.append_nil, ← List.append_assoc, hclimb]

theorem tokens_close? {g g' : Growth} (h : close? g.spine g.right = some g') :
    g'.tokens = g.tokens := by
  obtain ⟨b, outer, inside, _, hjoins, rfl⟩ := close?_joins h
  exact hjoins.tokens_eq

theorem tokens_add {g g' : Growth} {t : Token} (h : g.add t = .ok g') :
    g'.tokens = g.tokens ++ [t].filter hasNode := by
  unfold add at h
  split at h
  · next ht =>
    split at h
    · next hclose =>
      cases h
      simp [tokens_close? hclose, hasNode, ht]
    · contradiction
  · next ht =>
    cases h
    simp [tokens_insert, hasNode, ht]

theorem tokens_foldlM {ts : List Token} {g g' : Growth} (h : ts.foldlM add g = .ok g') :
    g'.tokens = g.tokens ++ ts.filter hasNode := by
  induction ts generalizing g with
  | nil =>
    cases h
    simp
  | cons t ts ih =>
    rw [List.foldlM_cons] at h
    cases hadd : g.add t with
    | error f => simp [hadd, bind, Except.bind] at h
    | ok g₁ =>
      rw [hadd] at h
      rw [ih h, tokens_add hadd, List.append_assoc, ← List.filter_append, List.singleton_append]

end Growth

namespace Tree

/-- A tree holds the tokens that it is built of, in their order. -/
theorem tokens_build {ts : List Token} {t : Tree} (h : build ts = .ok t) :
    t.tokens = ts.filter hasNode := by
  obtain ⟨g, hg, rfl⟩ := build_eq_ok h
  rw [Growth.tokens_finish]
  exact Growth.tokens_foldlM hg

/-- What keeps a tree from being built is a right parenthesis, and the fault points at it. -/
theorem exists_of_build_error {ts : List Token} {f : Fault} (h : build ts = .error f) :
    ∃ t ∈ ts, f = .syntaxAt t.span .unmatchedRightParenthesis := by
  unfold build at h
  generalize Growth.start = g at h
  induction ts generalizing g with
  | nil => contradiction
  | cons t ts ih =>
    rw [List.foldlM_cons] at h
    cases hadd : g.add t with
    | ok g' =>
      rw [hadd] at h
      obtain ⟨u, hu, hf⟩ := ih g' h
      exact ⟨u, List.mem_cons_of_mem t hu, hf⟩
    | error e =>
      rw [hadd] at h
      cases h
      unfold Growth.add at hadd
      split at hadd
      · split at hadd
        · contradiction
        · cases hadd
          exact ⟨t, List.mem_cons_self, rfl⟩
      · contradiction

end Tree

end SpectrumBasic.Expression
