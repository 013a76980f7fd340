import SpectrumBasic.Proofs.Expression.Growth

/-! Growing a tree is deriving. A tree in which every node has the operands that its token asks for
writes a formula, and the trees that do so are exactly the derivations of the grammar: a derivation
grows, token by token and whatever spine it starts from, a subtree that writes its formula, and a
grown tree that writes a formula is derived level by level from the priorities of its nodes. -/

namespace SpectrumBasic.Expression

namespace Tree

/-- The formula that a tree writes, if every node has its operands and nothing else. `n` is the
number of names `RND` in front of the tree. -/
def formula? : Tree → Nat → Option Formula
  | empty, _ => none
  | node left token _ right, n =>
    match token.kind with
    | .operator .leftParen => if left.isEmpty then right.formula? n else none
    | .operator .rightParen => none
    | .operator o =>
      if o.isUnary then
        if left.isEmpty then (right.formula? n).map (.unary o) else none
      else
        (left.formula? n).bind fun a =>
          (right.formula? (n + randomCount left.kinds)).map (.binary o a)
    | .number numeral =>
      if left.isEmpty && right.isEmpty then (Number.read? numeral).map .number else none
    | .name name =>
      if left.isEmpty && right.isEmpty then
        some (if name = "RND" then .random n else .fetch name)
      else none
    | _ => none

/-- The ways in which a node writes a formula. -/
inductive NodeWrites (left : Tree) (token : Token) (right : Tree) (n : Nat) : Formula → Prop
  | number {numeral : Text} {x : Float} (hk : token.kind = .number numeral) (hl : left = empty)
      (hr : right = empty) (hx : Number.read? numeral = some x) :
    NodeWrites left token right n (.number x)
  | random (hk : token.kind = .name "RND") (hl : left = empty) (hr : right = empty) :
    NodeWrites left token right n (.random n)
  | fetch {name : String} (hk : token.kind = .name name) (hn : name ≠ "RND") (hl : left = empty)
      (hr : right = empty) :
    NodeWrites left token right n (.fetch name)
  | parens {a : Formula} (hk : token.kind = .operator .leftParen) (hl : left = empty)
      (ha : right.formula? n = some a) :
    NodeWrites left token right n a
  | unary {o : Operator} {a : Formula} (hk : token.kind = .operator o) (ho : o.isUnary = true)
      (hl : left = empty) (ha : right.formula? n = some a) :
    NodeWrites left token right n (.unary o a)
  | binary {o : Operator} {a b : Formula} (hk : token.kind = .operator o)
      (ho : o.isUnary = false) (hlp : o ≠ .leftParen) (hrp : o ≠ .rightParen)
      (ha : left.formula? n = some a)
      (hb : right.formula? (n + randomCount left.kinds) = some b) :
    NodeWrites left token right n (.binary o a b)

theorem isEmpty_iff {t : Tree} : t.isEmpty = true ↔ t = empty := by
  cases t <;> simp [isEmpty]

theorem nodeWrites {left right : Tree} {token : Token} {isOpen : Bool} {n : Nat} {a : Formula}
    (ha : (node left token isOpen right).formula? n = some a) : NodeWrites left token right n a := by
  rw [formula?] at ha
  split at ha
  · next hk =>
    obtain ⟨he, ha⟩ := Option.ite_none_right_eq_some.mp ha
    exact .parens hk (isEmpty_iff.mp he) ha
  · contradiction
  · next o hlp hrp hk =>
    split at ha
    · next ho =>
      obtain ⟨he, ha⟩ := Option.ite_none_right_eq_some.mp ha
      obtain ⟨b, hb, rfl⟩ := Option.map_eq_some_iff.mp ha
      exact .unary hk ho (isEmpty_iff.mp he) hb
    · next ho =>
      obtain ⟨b, hb, ha⟩ := Option.bind_eq_some_iff.mp ha
      obtain ⟨c, hc, rfl⟩ := Option.map_eq_some_iff.mp ha
      exact .binary hk (Bool.not_eq_true _ ▸ ho) hlp hrp hb hc
  · next numeral hk =>
    obtain ⟨he, ha⟩ := Option.ite_none_right_eq_some.mp ha
    rw [Bool.and_eq_true, isEmpty_iff, isEmpty_iff] at he
    obtain ⟨x, hx, rfl⟩ := Option.map_eq_some_iff.mp ha
    exact .number hk he.1 he.2 hx
  · next name hk =>
    obtain ⟨he, ha⟩ := Option.ite_none_right_eq_some.mp ha
    rw [Bool.and_eq_true, isEmpty_iff, isEmpty_iff] at he
    cases ha
    by_cases hn : name = "RND"
    · rw [if_pos hn]
      exact .random (hn ▸ hk) he.1 he.2
    · rw [if_neg hn]
      exact .fetch hk hn he.1 he.2
  · contradiction

/-- The tree with all its parentheses closed. -/
def shut : Tree → Tree
  | empty => empty
  | node left token _ right => node left.shut token false right.shut

theorem isEmpty_shut (t : Tree) : t.shut.isEmpty = t.isEmpty := by
  cases t <;> rfl

theorem kinds_shut (t : Tree) : t.shut.kinds = t.kinds := by
  induction t with
  | empty => rfl
  | node left token isOpen right ihl ihr => simp only [shut, kinds, ihl, ihr]

theorem formula?_shut (t : Tree) (n : Nat) : t.shut.formula? n = t.formula? n := by
  induction t generalizing n with
  | empty => rfl
  | node left token isOpen right ihl ihr =>
    simp only [shut, formula?, ihl, ihr, isEmpty_shut, kinds_shut]

end Tree

/-! ### From a derivation to a tree -/

namespace Level

/-- The least priority of the nodes that a phrase of this level leaves on the spine. -/
def rank : Level → Nat
  | comparison => 1
  | sum => 2
  | term => 3
  | operand => 4

/-- A phrase of this level is added below nodes of lesser priority than this. -/
def entry : Level → Nat
  | comparison => 1
  | sum => 2
  | term => 3
  | operand => operandPriority

theorem rank_le_inner (l : Level) : l.rank ≤ l.inner.rank := by
  cases l <;> decide

theorem entry_le_inner (l : Level) : l.entry ≤ l.inner.entry := by
  cases l <;> decide

theorem rank_lt_entry_inner (l : Level) : l.rank < l.inner.entry := by
  cases l <;> decide

end Level

/-- An operator of a chain is binary and has the chain's priority. -/
theorem priority_of_mem_operators {l : Level} {o : Operator} (ho : o ∈ l.operators) :
    o.isUnary = false ∧ o ≠ .leftParen ∧ o ≠ .rightParen ∧ o.priority = l.rank ∧
      o.priority = l.entry := by
  cases l <;> cases o <;> simp_all [Level.operators] <;> decide

theorem isUnary_iff_mem {o : Operator} : o.isUnary = true ↔ o ∈ [Operator.negate, .sin, .cos] := by
  cases o <;> decide

theorem priority_of_isUnary {o : Operator} (ho : o.isUnary = true) :
    o ≠ .leftParen ∧ o ≠ .rightParen ∧ o.priority = Level.operand.rank := by
  cases o <;> simp_all [Operator.isUnary] <;> rfl

theorem priority_of_operator {left : Tree} {t : Token} {o : Operator} (ht : t.kind = .operator o) :
    Branch.priority ⟨left, t, false⟩ = o.priority := by
  simp [Branch.priority, nodePriority, tokenPriority, ht]

namespace Growth

/-- A climb to priority `p` does not get past the innermost node. -/
def Accepts (p : Nat) (spine : List Branch) : Prop :=
  ∀ b ∈ spine.head?, b.isOpen = true ∨ b.priority < p

theorem Accepts.mono {p q : Nat} {spine : List Branch} (h : Accepts p spine) (hpq : p ≤ q) :
    Accepts q spine := by
  intro b hb
  rcases h b hb with ho | hlt
  · exact .inl ho
  · exact .inr (Nat.lt_of_lt_of_le hlt hpq)

theorem climb_of_accepts {p : Nat} {spine : List Branch} (h : Accepts p spine) (right : Tree) :
    climb p spine right = ⟨spine, right⟩ := by
  cases spine with
  | nil => rfl
  | cons b spine => rw [climb, if_pos (h b rfl)]

theorem climb_append {p : Nat} {inner : List Branch}
    (h : ∀ b ∈ inner, b.isOpen = false ∧ p ≤ b.priority) (spine : List Branch) (right : Tree) :
    climb p (inner ++ spine) right = climb p spine (finish inner right) := by
  induction inner generalizing right with
  | nil => rfl
  | cons b inner ih =>
    obtain ⟨ho, hp⟩ := h b List.mem_cons_self
    rw [List.cons_append, climb, if_neg (by rw [ho]; simpa using hp),
      ih fun c hc => h c (List.mem_cons_of_mem _ hc)]
    rfl

theorem close?_append {inner : List Branch} (h : ∀ b ∈ inner, b.isOpen = false)
    (spine : List Branch) (right : Tree) :
    close? (inner ++ spine) right = close? spine (finish inner right) := by
  induction inner generalizing right with
  | nil => rfl
  | cons b inner ih =>
    rw [List.cons_append, close?, if_neg (by simp [h b List.mem_cons_self]),
      ih fun c hc => h c (List.mem_cons_of_mem _ hc)]
    rfl

theorem finish_append (inner spine : List Branch) (right : Tree) :
    finish (inner ++ spine) right = finish spine (finish inner right) := by
  induction inner generalizing right with
  | nil => rfl
  | cons b inner ih => exact ih _

theorem foldlM_trans {ts us : List Token} {g g' g'' : Growth} (h : ts.foldlM add g = .ok g')
    (h' : us.foldlM add g' = .ok g'') : (ts ++ us).foldlM add g = .ok g'' := by
  rw [List.foldlM_append, h]
  exact h'

theorem foldlM_singleton {t : Token} {g g' : Growth} (h : g.add t = .ok g') :
    [t].foldlM add g = .ok g' := by
  rw [List.foldlM_cons, h]
  rfl

/-- A token that gets past the nodes of `inner` and no further takes them as its left subtree. -/
theorem add_append {t : Token} {inner spine : List Branch} (right : Tree)
    (ht : t.kind ≠ .operator .rightParen)
    (hi : ∀ b ∈ inner, b.isOpen = false ∧ climbPriority t ≤ b.priority)
    (hs : Accepts (climbPriority t) spine) :
    add ⟨inner ++ spine, right⟩ t =
      .ok ⟨⟨finish inner right, t, t.kind = .operator .leftParen⟩ :: spine, .empty⟩ := by
  rw [add, if_neg ht, insert, climb_append hi, climb_of_accepts hs]

/-- A token that starts an operand has no left subtree where an operand is due. -/
theorem add_operand {t : Token} {spine : List Branch} (ht : t.kind ≠ .operator .rightParen)
    (hc : climbPriority t = operandPriority) (hs : Accepts operandPriority spine) :
    add ⟨spine, .empty⟩ t = .ok ⟨⟨.empty, t, t.kind = .operator .leftParen⟩ :: spine, .empty⟩ := by
  rw [add, if_neg ht, insert, hc, climb_of_accepts hs]

/-- Adding the tokens `ts` to a spine grows a subtree with the tokens `ks` that writes `a`. The
nodes that it leaves on the spine have at least the priority `rank`. -/
def Grows (rank n : Nat) (ks : List Token.Kind) (a : Formula) (ts : List Token)
    (spine : List Branch) : Prop :=
  ∃ inner right, ts.foldlM add ⟨spine, .empty⟩ = .ok ⟨inner ++ spine, right⟩ ∧
    (∀ b ∈ inner, b.isOpen = false ∧ rank ≤ b.priority) ∧
    (finish inner right).kinds = ks ∧ (finish inner right).formula? n = some a

theorem grows_leaf {t : Token} {n : Nat} {a : Formula} {spine : List Branch}
    (hp : ∀ o, t.kind ≠ .operator o) (hs : Accepts operandPriority spine)
    (ha : (Tree.node .empty t false .empty).formula? n = some a) :
    Grows Level.operand.rank n [t.kind] a [t] spine := by
  have hc : climbPriority t = operandPriority := by
    unfold climbPriority
    split
    · next o ho => exact absurd ho (hp o)
    · rfl
  have hadd := add_operand (hp .rightParen) hc hs
  simp only [hp, decide_false] at hadd
  refine ⟨[⟨.empty, t, false⟩], .empty, foldlM_singleton hadd, ?_, ?_, ha⟩
  · intro b hb
    obtain rfl := List.mem_singleton.mp hb
    have hk : tokenPriority t = operandPriority := by
      unfold tokenPriority
      split
      · next o ho => exact absurd ho (hp o)
      · rfl
    exact ⟨rfl, by simp [Branch.priority, nodePriority, hk]; decide⟩
  · simp [finish, Branch.join, Tree.kinds, closer, hp]

theorem grows_unary {t : Token} {o : Operator} {n : Nat} {ks : List Token.Kind} {a : Formula}
    {ts : List Token} {spine : List Branch} (ht : t.kind = .operator o) (ho : o.isUnary = true)
    (hs : Accepts operandPriority spine)
    (h : Grows Level.operand.rank n ks a ts (⟨.empty, t, false⟩ :: spine)) :
    Grows Level.operand.rank n (.operator o :: ks) (.unary o a) (t :: ts) spine := by
  obtain ⟨inner, right, hg, hi, hk, ha⟩ := h
  obtain ⟨hlp, hrp, hrank⟩ := priority_of_isUnary ho
  have hc : climbPriority t = operandPriority := by simp [climbPriority, ht, ho]
  have hadd := add_operand (by simp [ht, hrp]) hc hs
  simp only [ht, Token.Kind.operator.injEq, hlp, decide_false] at hadd
  refine ⟨inner ++ [⟨.empty, t, false⟩], right, ?_, ?_, ?_, ?_⟩
  · rw [List.append_assoc]
    exact foldlM_trans (foldlM_singleton hadd) hg
  · intro b hb
    rcases List.mem_append.mp hb with hb | hb
    · exact hi b hb
    · obtain rfl := List.mem_singleton.mp hb
      exact ⟨rfl, Nat.le_of_eq (hrank.symm.trans (priority_of_operator ht).symm)⟩
  · rw [finish_append]
    simp [finish, Branch.join, Tree.kinds, closer, ht, hlp, hk]
  · rw [finish_append]
    simp [finish, Branch.join, Tree.formula?, ht, ho, Tree.isEmpty, ha]

theorem grows_parens {t u : Token} {n : Nat} {ks : List Token.Kind} {a : Formula}
    {ts : List Token} {spine : List Branch} (ht : t.kind = .operator .leftParen)
    (hu : u.kind = .operator .rightParen) (hs : Accepts operandPriority spine)
    (h : Grows Level.comparison.rank n ks a ts (⟨.empty, t, true⟩ :: spine)) :
    Grows Level.operand.rank n (.operator .leftParen :: (ks ++ [.operator .rightParen])) a
      (t :: (ts ++ [u])) spine := by
  obtain ⟨inner, right, hg, hi, hk, ha⟩ := h
  have hc : climbPriority t = operandPriority := by simp [climbPriority, ht]
  have hadd := add_operand (by simp [ht]) hc hs
  simp only [ht, decide_true] at hadd
  have hclose : add ⟨inner ++ ⟨.empty, t, true⟩ :: spine, right⟩ u =
      .ok ⟨⟨.empty, t, false⟩ :: spine, finish inner right⟩ := by
    rw [add, if_pos hu, close?_append fun b hb => (hi b hb).1]
    rfl
  refine ⟨[⟨.empty, t, false⟩], finish inner right, ?_, ?_, ?_, ?_⟩
  · exact foldlM_trans (foldlM_singleton hadd) (foldlM_trans hg (foldlM_singleton hclose))
  · intro b hb
    obtain rfl := List.mem_singleton.mp hb
    exact ⟨rfl, by simp [Branch.priority, nodePriority, tokenPriority_leftParen ht]; decide⟩
  · simp [finish, Branch.join, Tree.kinds, closer, ht, hk]
  · simp [finish, Branch.join, Tree.formula?, ht, Tree.isEmpty, ha]

theorem grows_binary {l : Level} {t : Token} {o : Operator} {n : Nat} {ks ms : List Token.Kind}
    {a b : Formula} {ts us : List Token} {spine : List Branch} (ht : t.kind = .operator o)
    (ho : o ∈ l.operators) (hs : Accepts l.entry spine) (h : Grows l.rank n ks a ts spine)
    (h' : ∀ left, Grows l.inner.rank (n + randomCount ks) ms b us (⟨left, t, false⟩ :: spine)) :
    Grows l.rank n (ks ++ .operator o :: ms) (.binary o a b) (ts ++ t :: us) spine := by
  obtain ⟨inner, right, hg, hi, hk, ha⟩ := h
  obtain ⟨inner', right', hg', hi', hk', ha'⟩ := h' (finish inner right)
  obtain ⟨hun, hlp, hrp, hrank, hentry⟩ := priority_of_mem_operators ho
  have hc : climbPriority t = l.rank := by simp [climbPriority, ht, hun, hlp, hrank]
  have hadd := add_append right (by simp [ht, hrp]) (hc ▸ hi) (by rwa [hc, ← hrank, hentry])
  simp only [ht, Token.Kind.operator.injEq, hlp, decide_false] at hadd
  refine ⟨inner' ++ [⟨finish inner right, t, false⟩], right', ?_, ?_, ?_, ?_⟩
  · rw [List.append_assoc]
    exact foldlM_trans hg (foldlM_trans (foldlM_singleton hadd) hg')
  · intro c hc'
    rcases List.mem_append.mp hc' with hc' | hc'
    · exact ⟨(hi' c hc').1, Nat.le_trans l.rank_le_inner (hi' c hc').2⟩
    · obtain rfl := List.mem_singleton.mp hc'
      exact ⟨rfl, Nat.le_of_eq (hrank.symm.trans (priority_of_operator ht).symm)⟩
  · rw [finish_append]
    simp [finish, Branch.join, Tree.kinds, closer, ht, hlp, hk, hk']
  · rw [finish_append]
    simp [finish, Branch.join, Tree.formula?, ht, hun, ha, hk, ha']

end Growth

/-- A derivation grows a subtree that writes its formula, on any spine that takes its level. -/
theorem Derives.grows {l : Level} {n : Nat} {ks : List Token.Kind} {a : Formula}
    (h : Derives l n ks a) {ts : List Token} (hts : ts.map Token.kind = ks) {spine : List Branch}
    (hs : Growth.Accepts l.entry spine) : Growth.Grows l.rank n ks a ts spine := by
  induction h generalizing ts spine with
  | number hx =>
    obtain ⟨t, rfl, ht⟩ := List.map_eq_singleton_iff.mp hts
    rw [← ht]
    exact Growth.grows_leaf (by simp [ht]) hs (by simp [Tree.formula?, ht, hx, Tree.isEmpty])
  | random =>
    obtain ⟨t, rfl, ht⟩ := List.map_eq_singleton_iff.mp hts
    rw [← ht]
    exact Growth.grows_leaf (by simp [ht]) hs (by simp [Tree.formula?, ht, Tree.isEmpty])
  | fetch hn =>
    obtain ⟨t, rfl, ht⟩ := List.map_eq_singleton_iff.mp hts
    rw [← ht]
    exact Growth.grows_leaf (by simp [ht]) hs (by simp [Tree.formula?, ht, hn, Tree.isEmpty])
  | @unary n o ks a ho _ ih =>
    obtain ⟨t, us, rfl, ht, hus⟩ := List.map_eq_cons_iff.mp hts
    have hun := isUnary_iff_mem.mpr ho
    apply Growth.grows_unary ht hun hs
    apply ih hus
    rintro b ⟨⟩
    right
    rw [priority_of_operator ht, (priority_of_isUnary hun).2.2]
    decide
  | parens _ ih =>
    obtain ⟨t, us, rfl, ht, hus⟩ := List.map_eq_cons_iff.mp hts
    obtain ⟨vs, ws, rfl, hvs, hws⟩ := List.map_eq_append_iff.mp hus
    obtain ⟨u, rfl, hu⟩ := List.map_eq_singleton_iff.mp hws
    apply Growth.grows_parens ht hu hs
    apply ih hvs
    rintro b ⟨⟩
    exact .inl rfl
  | @single l _ _ _ _ ih =>
    obtain ⟨inner, right, hg, hi, hk⟩ := ih hts (hs.mono l.entry_le_inner)
    exact ⟨inner, right, hg, fun b hb => ⟨(hi b hb).1, Nat.le_trans l.rank_le_inner (hi b hb).2⟩, hk⟩
  | @binary l n o ks ms a b ho _ _ ih ih' =>
    obtain ⟨us, vs, rfl, hus, hvs⟩ := List.map_eq_append_iff.mp hts
    obtain ⟨t, vs, rfl, ht, hvs⟩ := List.map_eq_cons_iff.mp hvs
    apply Growth.grows_binary ht ho hs (ih hus hs)
    intro left
    apply ih' hvs
    rintro c ⟨⟩
    right
    rw [priority_of_operator ht, (priority_of_mem_operators ho).2.2.2.1]
    exact Level.rank_lt_entry_inner _

/-! ### Missing right parentheses -/

namespace Growth

theorem shut_finish_congr {spine : List Branch} {t u : Tree} (h : t.shut = u.shut) :
    (finish spine t).shut = (finish spine u).shut := by
  induction spine generalizing t u with
  | nil => exact h
  | cons b spine ih =>
    apply ih
    simp only [Branch.join, Tree.shut, h]

/-- A right parenthesis changes nothing but which parentheses are open. -/
theorem shut_finish_add {g g' : Growth} {t : Token} (ht : t.kind = .operator .rightParen)
    (h : g.add t = .ok g') :
    (finish g'.spine g'.right).shut = (finish g.spine g.right).shut := by
  rw [add, if_pos ht] at h
  split at h
  · next hc =>
    cases h
    obtain ⟨b, outer, inside, -, hj, rfl⟩ := close?_joins hc
    rw [← hj.finish_eq, finish, finish]
    exact shut_finish_congr rfl
  · contradiction

theorem shut_finish_foldlM {ts : List Token} (hts : ∀ t ∈ ts, t.kind = .operator .rightParen)
    {g g' : Growth} (h : ts.foldlM add g = .ok g') :
    (finish g'.spine g'.right).shut = (finish g.spine g.right).shut := by
  induction ts generalizing g with
  | nil =>
    cases h
    rfl
  | cons t ts ih =>
    rw [List.foldlM_cons] at h
    cases ha : g.add t with
    | error f => simp [ha, bind, Except.bind] at h
    | ok g₁ =>
      rw [ha] at h
      rw [ih (fun u hu => hts u (List.mem_cons_of_mem _ hu)) h,
        shut_finish_add (hts t List.mem_cons_self) ha]

end Growth

/-- Tokens that derive a formula once they are closed build a tree that writes it. -/
theorem Derives.build {ts : List Token} {a : Formula}
    (h : Derives .comparison 0 (closed (ts.map Token.kind)) a) :
    ∃ t, Tree.build ts = .ok t ∧ t.formula? 0 = some a := by
  -- the missing parentheses as tokens, wherever they may stand
  let missing : List Token := List.replicate (unclosed (ts.map Token.kind))
    ⟨.nowhere, .operator .rightParen⟩
  have hkinds : (ts ++ missing).map Token.kind = closed (ts.map Token.kind) := by
    simp [missing, closed]
  have hroot : Growth.Accepts Level.comparison.entry [] := by simp [Growth.Accepts]
  obtain ⟨inner, right, hg, -, -, ha⟩ := h.grows hkinds hroot
  change (ts ++ missing).foldlM Growth.add Growth.start = _ at hg
  rw [List.append_nil, List.foldlM_append] at hg
  cases hts : ts.foldlM Growth.add Growth.start with
  | error f => simp [hts, bind, Except.bind] at hg
  | ok g =>
    rw [hts] at hg
    have hshut := Growth.shut_finish_foldlM (by simp [missing]) hg
    refine ⟨Growth.finish g.spine g.right, ?_, ?_⟩
    · rw [Tree.build, hts]
      rfl
    · rw [← Tree.formula?_shut, ← hshut, Tree.formula?_shut, ha]

/-! ### From a tree to a derivation -/

theorem Derives.mono {l l' : Level} {n : Nat} {ks : List Token.Kind} {a : Formula}
    (h : Derives l' n ks a) (hl : l.rank ≤ l'.rank) : Derives l n ks a := by
  cases l with
  | comparison =>
    cases l' with
    | comparison => exact h
    | sum => exact .single h
    | term => exact .single (.single h)
    | operand => exact .single (.single (.single h))
  | sum =>
    cases l' with
    | sum => exact h
    | term => exact .single h
    | operand => exact .single (.single h)
    | comparison => exact absurd hl (by decide)
  | term =>
    cases l' with
    | term => exact h
    | operand => exact .single h
    | _ => exact absurd hl (by decide)
  | operand =>
    cases l' with
    | operand => exact h
    | _ => exact absurd hl (by decide)

/-- The level of the chains that a binary operator stands in. -/
theorem exists_level {o : Operator} (hu : o.isUnary = false) (hl : o ≠ .leftParen)
    (hr : o ≠ .rightParen) : ∃ l : Level, o ∈ l.operators := by
  cases o with
  | plus => exact ⟨.sum, by decide⟩
  | minus => exact ⟨.sum, by decide⟩
  | multiply => exact ⟨.term, by decide⟩
  | divide => exact ⟨.term, by decide⟩
  | negate => contradiction
  | sin => contradiction
  | cos => contradiction
  | leftParen => contradiction
  | rightParen => contradiction
  | _ => exact ⟨.comparison, by decide⟩

theorem Level.rank_inner {l : Level} {o : Operator} (ho : o ∈ l.operators) :
    l.inner.rank = l.rank + 1 := by
  cases l with
  | operand => simp [operators] at ho
  | _ => rfl

theorem Tree.rank_pos (t : Tree) : Level.comparison.rank ≤ t.rank := by
  cases t with
  | empty => decide
  | node left token isOpen right =>
    rw [rank, tokenPriority]
    split
    · next o _ => cases o <;> decide
    · decide

/-- An ordered tree that writes a formula is derived at every level up to that of its topmost
node. -/
theorem Tree.derives_of_formula? {t : Tree} (ht : t.Ordered) {n : Nat} {a : Formula}
    (ha : t.formula? n = some a) {l : Level} (hl : l.rank ≤ t.rank) : Derives l n t.kinds a := by
  induction t generalizing n a l with
  | empty => simp [formula?] at ha
  | node left token isOpen right ihl ihr =>
    obtain ⟨hleft, hclimb, hright, hfloor⟩ := ht
    have hoperand : l.rank ≤ Level.operand.rank := by cases l <;> decide
    have hcloser : token.kind ≠ .operator .leftParen → closer token = [] := fun h => if_neg h
    rw [kinds]
    cases nodeWrites ha with
    | number hk hel her hx =>
      subst hel her
      rw [hcloser (by simp [hk]), hk]
      exact (Derives.number hx).mono hoperand
    | random hk hel her =>
      subst hel her
      rw [hcloser (by simp [hk]), hk]
      exact Derives.random.mono hoperand
    | fetch hk hn hel her =>
      subst hel her
      rw [hcloser (by simp [hk]), hk]
      exact (Derives.fetch hn).mono hoperand
    | parens hk hel hb =>
      subst hel
      have hd : Derives .comparison n right.kinds a := ihr hright hb right.rank_pos
      rw [hk, closer, if_pos hk]
      exact hd.parens.mono hoperand
    | unary hk ho hel hb =>
      subst hel
      obtain ⟨hlp, hrp, hpriority⟩ := priority_of_isUnary ho
      have hrank : Level.operand.rank ≤ right.rank := by
        rw [← hpriority]
        simpa [rightFloor, hk, ho] using hfloor
      have hd := Derives.unary (isUnary_iff_mem.mp ho) (ihr hright hb hrank)
      rw [hcloser (by simpa [hk] using hlp), hk, List.append_nil]
      exact hd.mono hoperand
    | binary hk ho hlp hrp hb hc =>
      obtain ⟨l', hmem⟩ := exists_level ho hlp hrp
      obtain ⟨-, hne, -, hrank, -⟩ := priority_of_mem_operators hmem
      have hl' : l'.rank ≤ left.rank := by
        simpa [climbPriority, hk, ho, hne, hrank] using hclimb
      have hr' : l'.inner.rank ≤ right.rank := by
        simpa [rightFloor, hk, ho, hrank, Level.rank_inner hmem] using hfloor
      have hd := Derives.binary hmem (ihl hleft hb hl') (ihr hright hc hr')
      rw [hcloser (by simpa [hk] using hlp), hk, List.append_nil]
      apply hd.mono
      simpa [rank, tokenPriority, hk, hrank] using hl

/-- The derivations of the closed tokens are the formulas that their tree writes. -/
theorem derives_iff_build {ts : List Token} {a : Formula} :
    Derives .comparison 0 (closed (ts.map Token.kind)) a ↔
      ∃ t, Tree.build ts = .ok t ∧ t.formula? 0 = some a := by
  constructor
  · exact Derives.build
  · rintro ⟨t, ht, ha⟩
    obtain ⟨hk, ho⟩ := Tree.build_sound ht
    rw [← hk]
    exact Tree.derives_of_formula? ho ha t.rank_pos

end SpectrumBasic.Expression
