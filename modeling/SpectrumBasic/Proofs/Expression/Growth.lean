import SpectrumBasic.Proofs.Expression.Grammar

/-! What a tree in growth knows about the tokens it was grown from, whatever these are: the tokens can
be read off it from left to right, its open parentheses are the ones without a partner, and no node
binds tighter than a node below it. A right parenthesis is not kept as a node, so it is read off at
the end of the subtree of its partner. -/

namespace SpectrumBasic.Expression

/-- The right parenthesis that belongs to a token. -/
def closer (t : Token) : List Token.Kind :=
  if t.kind = .operator .leftParen then [.operator .rightParen] else []

/-- The least priority of what may hang to the right of a token. -/
def rightFloor (t : Token) : Nat :=
  match t.kind with
  | .operator .leftParen | .operator .rightParen => 0
  | .operator o => if o.isUnary then o.priority else o.priority + 1
  | _ => 0

namespace Tree

/-- The tokens from left to right, with every parenthesis closed. -/
def kinds : Tree → List Token.Kind
  | empty => []
  | node left token _ right => left.kinds ++ token.kind :: (right.kinds ++ closer token)

/-- The priority of the topmost node. -/
def rank : Tree → Nat
  | empty => operandPriority
  | node _ token _ _ => tokenPriority token

/-- Every node binds at most as tightly as the ones below it, and more loosely than those to its
right if it is a binary operator. -/
def Ordered : Tree → Prop
  | empty => True
  | node left token _ right =>
    left.Ordered ∧ climbPriority token ≤ left.rank ∧ right.Ordered ∧ rightFloor token ≤ right.rank

end Tree

theorem climbPriority_le (t : Token) : climbPriority t ≤ operandPriority := by
  unfold climbPriority
  split
  · next o _ => cases o <;> decide
  · exact Nat.le_refl _

theorem climbPriority_le_tokenPriority (t : Token) :
    climbPriority t ≤ tokenPriority t ∨ 4 ≤ tokenPriority t := by
  unfold climbPriority tokenPriority
  split
  · next o _ => cases o <;> decide
  · exact .inl (Nat.le_refl _)

theorem rightFloor_le (t : Token) : rightFloor t ≤ 4 ∧ rightFloor t ≤ tokenPriority t + 1 := by
  unfold rightFloor tokenPriority
  cases t.kind with
  | operator o => cases o <;> decide
  | _ => exact ⟨Nat.zero_le _, Nat.zero_le _⟩

theorem rightFloor_leftParen {t : Token} (ht : t.kind = .operator .leftParen) : rightFloor t = 0 := by
  simp [rightFloor, ht]

theorem tokenPriority_leftParen {t : Token} (ht : t.kind = .operator .leftParen) :
    tokenPriority t = operandPriority := by
  simp [tokenPriority, ht, Operator.priority]

/-- A token that stops below another one may hang to the right of it. -/
theorem rightFloor_le_of_stop {b t : Token} (h : tokenPriority b < climbPriority t) :
    rightFloor b ≤ tokenPriority t := by
  have hb := rightFloor_le b
  rcases climbPriority_le_tokenPriority t with ht | ht <;> omega

/-- A parenthesis that has its partner. -/
def Branch.IsClosedParen (b : Branch) : Prop :=
  b.isOpen = false ∧ b.token.kind = .operator .leftParen

/-! ### Growths -/

namespace Growth

/-- The tokens read off the spine, from the outermost node on, if `inside` is read off to the right of
the innermost one. -/
def readOff : List Branch → List Token.Kind → List Token.Kind
  | [], inside => inside
  | b :: spine, inside =>
    readOff spine (b.left.kinds ++ b.token.kind ::
      (inside ++ if b.isOpen then [] else closer b.token))

/-- The nodes of a spine are ordered, and what hangs to their right is if its priority is `rank`. -/
def Fits : List Branch → Nat → Prop
  | [], _ => True
  | b :: spine, rank =>
    b.left.Ordered ∧ climbPriority b.token ≤ b.left.rank ∧ rightFloor b.token ≤ rank ∧
      Fits spine (tokenPriority b.token)

/-- Nodes of a spine that are not open parentheses are joined to what hangs to their right, from
the innermost on. -/
inductive Joins : List Branch → Tree → List Branch → Tree → Prop
  | refl (spine : List Branch) (right : Tree) : Joins spine right spine right
  | step {b : Branch} {spine outer : List Branch} {right inside : Tree} (hb : b.isOpen = false)
      (h : Joins spine (b.join right) outer inside) : Joins (b :: spine) right outer inside

namespace Joins

variable {spine outer : List Branch} {right inside : Tree}

theorem suffix (h : Joins spine right outer inside) : outer <:+ spine := by
  induction h with
  | refl => exact List.suffix_rfl
  | step _ _ ih => exact ih.trans (List.suffix_cons _ _)

theorem readOff_eq (h : Joins spine right outer inside) :
    readOff outer inside.kinds = readOff spine right.kinds := by
  induction h with
  | refl => rfl
  | step hb _ ih => rw [ih, readOff, hb]; rfl

theorem countP_eq (h : Joins spine right outer inside) :
    outer.countP (·.isOpen) = spine.countP (·.isOpen) := by
  induction h with
  | refl => rfl
  | step hb _ ih => rw [ih, List.countP_cons_of_neg (by simp [hb])]

theorem finish_eq (h : Joins spine right outer inside) :
    finish outer inside = finish spine right := by
  induction h with
  | refl => rfl
  | step _ _ ih => rw [ih]; rfl

theorem fits (h : Joins spine right outer inside) (hr : right.Ordered)
    (hs : Fits spine right.rank) : inside.Ordered ∧ Fits outer inside.rank := by
  induction h with
  | refl => exact ⟨hr, hs⟩
  | step _ _ ih =>
    obtain ⟨hl, hc, hf, hs⟩ := hs
    exact ih ⟨hl, hc, hr, hf⟩ hs

end Joins

theorem climb_joins (p : Nat) (spine : List Branch) (right : Tree) :
    Joins spine right (climb p spine right).spine (climb p spine right).right := by
  fun_induction climb p spine right with
  | case1 right => exact .refl _ _
  | case2 b spine right _ => exact .refl _ _
  | case3 b spine right hb ih => exact .step (by simpa using (not_or.mp hb).1) ih

/-- A climb ends below an open parenthesis or a node that binds more loosely. -/
theorem climb_head (p : Nat) (spine : List Branch) (right : Tree) :
    ∀ b ∈ (climb p spine right).spine.head?, b.isOpen = true ∨ b.priority < p := by
  fun_induction climb p spine right with
  | case1 right => simp
  | case2 b spine right hb => simpa using hb
  | case3 b spine right _ ih => exact ih

theorem climb_rank (p : Nat) (spine : List Branch) (right : Tree) (h : p ≤ right.rank) :
    p ≤ (climb p spine right).right.rank := by
  fun_induction climb p spine right with
  | case1 right => exact h
  | case2 b spine right _ => exact h
  | case3 b spine right hb ih =>
    obtain ⟨ho, hp⟩ := not_or.mp hb
    apply ih
    show p ≤ tokenPriority b.token
    simpa [Branch.priority, nodePriority, ho] using hp

theorem close?_joins {spine : List Branch} {right : Tree} {g : Growth}
    (h : close? spine right = some g) :
    ∃ b outer inside, b.isOpen = true ∧ Joins spine right (b :: outer) inside ∧
      g = ⟨{ b with isOpen := false } :: outer, inside⟩ := by
  fun_induction close? spine right with
  | case1 right => contradiction
  | case2 b spine right hb =>
    exact ⟨b, spine, right, hb, .refl _ _, by simpa using h.symm⟩
  | case3 b spine right hb ih =>
    obtain ⟨b', outer, inside, ho, hj, hg⟩ := ih h
    exact ⟨b', outer, inside, ho, .step (by simpa using hb) hj, hg⟩

/-! ### What holds of every growth -/

theorem readOff_append {spine : List Branch} (h : ∀ b ∈ spine, ¬ b.IsClosedParen)
    (xs ys : List Token.Kind) : readOff spine (xs ++ ys) = readOff spine xs ++ ys := by
  induction spine generalizing xs ys with
  | nil => rfl
  | cons b spine ih =>
    have hb : (if b.isOpen then [] else closer b.token) = [] := by
      have := h b List.mem_cons_self
      simp only [Branch.IsClosedParen, not_and] at this
      cases ho : b.isOpen with
      | true => rfl
      | false => simp [closer, this ho]
    simp only [readOff, hb, List.append_nil]
    rw [← ih fun b' hb' => h b' (List.mem_cons_of_mem _ hb')]
    simp

/-- The growth `g` comes from the tokens `ks`. Only the innermost node can be a closed parenthesis,
and nothing hangs to the right of any other innermost node. -/
structure Sound (ks : List Token.Kind) (g : Growth) : Prop where
  reads : readOff g.spine g.right.kinds = ks
  opens : g.spine.countP (·.isOpen) = unclosed ks
  parens : ∀ b ∈ g.spine, b.isOpen = true → b.token.kind = .operator .leftParen
  outer : ∀ b ∈ g.spine.tail, ¬ b.IsClosedParen
  edge : g.right = .empty ∨ ∃ b spine, g.spine = b :: spine ∧ b.IsClosedParen
  ordered : g.right.Ordered
  fits : Fits g.spine g.right.rank

theorem sound_start : Sound [] start where
  reads := rfl
  opens := rfl
  parens := by simp [start]
  outer := by simp [start]
  edge := .inl rfl
  ordered := trivial
  fits := trivial

theorem unclosed_append (ks : List Token.Kind) (k : Token.Kind) :
    unclosed (ks ++ [k]) = depthAfter (unclosed ks) k := by
  simp [unclosed]

theorem mem_tail_of_suffix {b c : Branch} {outer spine : List Branch} (h : b :: outer <:+ spine)
    (hc : c ∈ outer) : c ∈ spine.tail := by
  obtain ⟨front, rfl⟩ := h
  cases front <;> simp [hc]

namespace Sound

variable {ks : List Token.Kind} {g : Growth}

theorem climb_rank_le (hg : Sound ks g) {p : Nat} (hp : p ≤ operandPriority) :
    p ≤ (climb p g.spine g.right).right.rank := by
  rcases hg.edge with he | ⟨b, spine, he, ho, hb⟩
  · apply climb_rank
    rwa [he]
  · have hr : b.priority = operandPriority := by
      rw [Branch.priority, nodePriority, ho]
      exact tokenPriority_leftParen hb
    rw [he, climb, if_neg (by rw [ho, hr]; simpa using hp)]
    apply climb_rank
    show p ≤ tokenPriority b.token
    rwa [tokenPriority_leftParen hb]

theorem climb_not_closed (hg : Sound ks g) {p : Nat} (hp : p ≤ operandPriority) :
    ∀ b ∈ (climb p g.spine g.right).spine, ¬ b.IsClosedParen := by
  have hh := climb_head p g.spine g.right
  have hs := (climb_joins p g.spine g.right).suffix
  cases hc : (climb p g.spine g.right).spine with
  | nil => simp
  | cons c spine =>
    rw [hc] at hh hs
    intro b hb hclosed
    rcases List.mem_cons.mp hb with rfl | hb
    · rcases hh b rfl with ho | hlt
      · simp [hclosed.1] at ho
      · rw [Branch.priority, nodePriority, hclosed.1] at hlt
        have := tokenPriority_leftParen hclosed.2
        simp only [Bool.false_eq_true, if_false] at hlt
        omega
    · exact hg.outer b (mem_tail_of_suffix hs hb) hclosed

/-- A token may hang to the right of the node that its climb stops at. -/
theorem floor_le_of_stop (hg : Sound ks g) {b : Branch} {t : Token} (hb : b ∈ g.spine)
    (h : b.isOpen = true ∨ b.priority < climbPriority t) : rightFloor b.token ≤ tokenPriority t := by
  cases ho : b.isOpen with
  | true =>
    rw [rightFloor_leftParen (hg.parens b hb ho)]
    exact Nat.zero_le _
  | false =>
    apply rightFloor_le_of_stop
    simpa [Branch.priority, nodePriority, ho] using h

/-- Adding a token that is not a right parenthesis. -/
theorem insert (hg : Sound ks g) {t : Token} (ht : t.kind ≠ .operator .rightParen) :
    Sound (ks ++ [t.kind]) (g.insert t) := by
  have hj := climb_joins (climbPriority t) g.spine g.right
  have hn := hg.climb_not_closed (climbPriority_le t)
  have hr := hg.climb_rank_le (climbPriority_le t)
  have hh := climb_head (climbPriority t) g.spine g.right
  obtain ⟨ho, hf⟩ := hj.fits hg.ordered hg.fits
  unfold Growth.insert
  generalize climb (climbPriority t) g.spine g.right = place at *
  have hcloser : (if decide (t.kind = .operator .leftParen) then [] else closer t) = [] := by
    unfold closer
    split <;> simp_all
  constructor
  · show readOff _ ([] : List Token.Kind) = _
    rw [readOff, hcloser, ← hg.reads, ← hj.readOff_eq, List.nil_append, readOff_append hn]
  · rw [unclosed_append, ← hg.opens, ← hj.countP_eq, List.countP_cons, depthAfter, if_neg ht]
    by_cases hp : t.kind = .operator .leftParen <;> simp [hp]
  · intro b hb hopen
    rcases List.mem_cons.mp hb with rfl | hb
    · simpa using hopen
    · exact hg.parens b (hj.suffix.subset hb) hopen
  · exact hn
  · exact .inl rfl
  · trivial
  · refine ⟨ho, hr, Nat.le_trans (rightFloor_le t).1 (by decide : 4 ≤ operandPriority), ?_⟩
    cases hs : place.spine with
    | nil => trivial
    | cons b spine =>
      rw [hs] at hf hh
      obtain ⟨hl, hc, -, hout⟩ := hf
      have hb := hg.floor_le_of_stop (hj.suffix.subset (hs ▸ List.mem_cons_self)) (hh b rfl)
      exact ⟨hl, hc, hb, hout⟩

/-- Adding a right parenthesis that has a partner. -/
theorem close (hg : Sound ks g) {g' : Growth} (h : close? g.spine g.right = some g') :
    Sound (ks ++ [.operator .rightParen]) g' := by
  obtain ⟨b, outer, inside, hopen, hj, rfl⟩ := close?_joins h
  have hb := hg.parens b (hj.suffix.subset List.mem_cons_self) hopen
  have hn : ∀ c ∈ outer, ¬ c.IsClosedParen := fun c hc =>
    hg.outer c (mem_tail_of_suffix hj.suffix hc)
  obtain ⟨ho, hf⟩ := hj.fits hg.ordered hg.fits
  constructor
  · rw [← hg.reads, ← hj.readOff_eq, readOff, readOff, hopen, ← readOff_append hn]
    simp [closer, hb]
  · have hcount := hj.countP_eq
    rw [List.countP_cons_of_pos hopen] at hcount
    rw [unclosed_append, ← hg.opens, ← hcount, List.countP_cons_of_neg (by simp)]
    rfl
  · intro c hc hco
    rcases List.mem_cons.mp hc with rfl | hc
    · simp at hco
    · exact hg.parens c (hj.suffix.subset (List.mem_cons_of_mem _ hc)) hco
  · exact hn
  · exact .inr ⟨_, _, rfl, rfl, hb⟩
  · exact ho
  · exact hf

end Sound

theorem sound_add {ks : List Token.Kind} {g g' : Growth} {t : Token} (hg : Sound ks g)
    (h : g.add t = .ok g') : Sound (ks ++ [t.kind]) g' := by
  unfold add at h
  split at h
  · next ht =>
    split at h
    · next hc =>
      cases h
      rw [ht]
      exact hg.close hc
    · contradiction
  · next ht =>
    cases h
    exact hg.insert ht

theorem sound_foldlM {ts : List Token} {ks : List Token.Kind} {g g' : Growth} (hg : Sound ks g)
    (h : ts.foldlM add g = .ok g') : Sound (ks ++ ts.map Token.kind) g' := by
  induction ts generalizing ks g with
  | nil =>
    cases h
    simpa using hg
  | cons t ts ih =>
    rw [List.foldlM_cons] at h
    cases ha : g.add t with
    | error f => simp [ha, bind, Except.bind] at h
    | ok g₁ =>
      rw [ha] at h
      simpa using ih (sound_add hg ha) h

/-! ### The finished tree -/

theorem kinds_finish {spine : List Branch} (right : Tree)
    (hp : ∀ b ∈ spine, b.isOpen = true → b.token.kind = .operator .leftParen)
    (ho : ∀ b ∈ spine.tail, ¬ b.IsClosedParen) :
    (finish spine right).kinds = readOff spine right.kinds ++
      List.replicate (spine.countP (·.isOpen)) (.operator .rightParen) := by
  induction spine generalizing right with
  | nil => simp [finish, readOff]
  | cons b spine ih =>
    rw [List.tail_cons] at ho
    rw [finish, ih _ (fun c hc => hp c (List.mem_cons_of_mem _ hc))
      (fun c hc => ho c (List.mem_of_mem_tail hc))]
    cases hb : b.isOpen with
    | false => simp [readOff, Branch.join, Tree.kinds, hb]
    | true =>
      -- the partner is missing, so what the tree reads off is one right parenthesis ahead
      have hk : (b.join right).kinds =
          (b.left.kinds ++ b.token.kind :: right.kinds) ++ [.operator .rightParen] := by
        simp [Branch.join, Tree.kinds, closer, hp b List.mem_cons_self hb]
      rw [hk, readOff_append ho, readOff, hb, List.countP_cons_of_pos hb, List.replicate_succ]
      simp

theorem ordered_finish {spine : List Branch} {right : Tree} (hr : right.Ordered)
    (hs : Fits spine right.rank) : (finish spine right).Ordered := by
  induction spine generalizing right with
  | nil => exact hr
  | cons b spine ih =>
    obtain ⟨hl, hc, hf, hs⟩ := hs
    exact ih ⟨hl, hc, hr, hf⟩ hs

end Growth

theorem Tree.build_eq_ok {ts : List Token} {t : Tree} (h : build ts = .ok t) :
    ∃ g, ts.foldlM Growth.add Growth.start = .ok g ∧ t = Growth.finish g.spine g.right := by
  unfold build at h
  cases hg : ts.foldlM Growth.add Growth.start with
  | error f => simp [hg, bind, Except.bind] at h
  | ok g =>
    rw [hg] at h
    cases h
    exact ⟨g, rfl, rfl⟩

/-- A tree holds its tokens in order, closed, and its nodes are ordered by priority. -/
theorem Tree.build_sound {ts : List Token} {t : Tree} (h : build ts = .ok t) :
    t.kinds = closed (ts.map Token.kind) ∧ t.Ordered := by
  obtain ⟨g, hg, rfl⟩ := build_eq_ok h
  have hs := Growth.sound_foldlM Growth.sound_start hg
  rw [List.nil_append] at hs
  refine ⟨?_, Growth.ordered_finish hs.ordered hs.fits⟩
  rw [Growth.kinds_finish _ hs.parens hs.outer, hs.reads, hs.opens, closed]

/-- Only a right parenthesis without a partner keeps a tree from being built. -/
theorem Tree.kind_of_build_error {ts : List Token} {f : Fault} (h : build ts = .error f) :
    f.kind = .syntaxError := by
  unfold build at h
  generalize Growth.start = g at h
  induction ts generalizing g with
  | nil => contradiction
  | cons t ts ih =>
    rw [List.foldlM_cons] at h
    cases ha : g.add t with
    | ok g' =>
      rw [ha] at h
      exact ih g' h
    | error e =>
      rw [ha] at h
      cases h
      unfold Growth.add at ha
      split at ha
      · split at ha
        · contradiction
        · cases ha
          rfl
      · contradiction

end SpectrumBasic.Expression
