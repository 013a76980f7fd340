import SpectrumBasic.Proofs.Expression.Growth

/-! Which tokens no tree can be built of: those with a right parenthesis too many at some place. A tree
in growth has as many open parentheses as there are left parentheses more than right ones, so that
the first place with one too many is where it finds no partner. -/

namespace SpectrumBasic.Expression

/-- There are more right parentheses than left ones. -/
def Excess (ts : List Token) : Prop :=
  ts.countP (·.kind = .operator .leftParen) < ts.countP (·.kind = .operator .rightParen)

namespace Growth

/-- The number of parentheses that wait for a partner. -/
def opens (g : Growth) : Nat := g.spine.countP (·.isOpen)

theorem close?_eq_none_iff {spine : List Branch} {right : Tree} :
    close? spine right = none ↔ spine.countP (·.isOpen) = 0 := by
  fun_induction close? spine right with
  | case1 right => simp
  | case2 b spine right hb => simp [hb]
  | case3 b spine right hb ih => rw [ih, List.countP_cons_of_neg hb]

theorem add_eq_error_iff {g : Growth} {t : Token} {f : Fault} :
    g.add t = .error f ↔
      t.kind = .operator .rightParen ∧ g.opens = 0 ∧ f = .syntaxAt t.span .unmatchedRightParenthesis := by
  unfold add opens
  split
  · next ht =>
    cases hclose : close? g.spine g.right with
    | none => simp [ht, close?_eq_none_iff.mp hclose, eq_comm]
    | some g' =>
      have hopens : g.spine.countP (·.isOpen) ≠ 0 := fun hzero => by
        rw [close?_eq_none_iff.mpr hzero] at hclose
        cases hclose
      simp [hopens]
  · next ht => simp [ht]

theorem opens_insert (g : Growth) (t : Token) :
    (g.insert t).opens = g.opens + [t].countP (·.kind = .operator .leftParen) := by
  have hclimb := (climb_joins (climbPriority t) g.spine g.right).countP_eq
  simp only [opens, insert, List.countP_cons, List.countP_nil, hclimb]
  omega

theorem opens_close? {g g' : Growth} (h : close? g.spine g.right = some g') :
    g'.opens + 1 = g.opens := by
  obtain ⟨b, outer, inside, hopen, hjoins, rfl⟩ := close?_joins h
  have hcount := hjoins.countP_eq
  rw [List.countP_cons_of_pos hopen] at hcount
  rw [opens, opens, ← hcount, List.countP_cons_of_neg (by simp)]

/-- What one token does to the number of open parentheses. -/
theorem opens_add {g g' : Growth} {t : Token} (h : g.add t = .ok g') :
    g'.opens + [t].countP (·.kind = .operator .rightParen) =
      g.opens + [t].countP (·.kind = .operator .leftParen) := by
  unfold add at h
  split at h
  · next ht =>
    split at h
    · next hclose =>
      cases h
      simp [ht, opens_close? hclose]
    · contradiction
  · next ht =>
    cases h
    simp [opens_insert, ht]

theorem opens_foldlM {ts : List Token} {g g' : Growth} (h : ts.foldlM add g = .ok g') :
    g'.opens + ts.countP (·.kind = .operator .rightParen) =
      g.opens + ts.countP (·.kind = .operator .leftParen) := by
  induction ts generalizing g with
  | nil =>
    cases h
    rfl
  | cons t ts ih =>
    rw [List.foldlM_cons] at h
    cases hadd : g.add t with
    | error f => simp [hadd, bind, Except.bind] at h
    | ok g₁ =>
      rw [hadd] at h
      have hrest := ih h
      have hfirst := opens_add hadd
      rw [← List.singleton_append, List.countP_append, List.countP_append]
      omega

/-- Growth stops at the first token that cannot be added. -/
theorem exists_of_foldlM_error {ts : List Token} {g : Growth} {f : Fault}
    (h : ts.foldlM add g = .error f) :
    ∃ front t back g', ts = front ++ t :: back ∧ front.foldlM add g = .ok g' ∧ g'.add t = .error f := by
  induction ts generalizing g with
  | nil => cases h
  | cons t ts ih =>
    rw [List.foldlM_cons] at h
    cases hadd : g.add t with
    | error e =>
      rw [hadd] at h
      cases h
      exact ⟨[], t, ts, g, rfl, rfl, hadd⟩
    | ok g₁ =>
      rw [hadd] at h
      obtain ⟨front, u, back, g', rfl, hfront, hu⟩ := ih h
      refine ⟨t :: front, u, back, g', rfl, ?_, hu⟩
      rw [List.foldlM_cons, hadd]
      exact hfront

theorem opens_of_foldlM_start {ts : List Token} {g : Growth} (h : ts.foldlM add start = .ok g) :
    g.opens + ts.countP (·.kind = .operator .rightParen) =
      ts.countP (·.kind = .operator .leftParen) := by
  have hcount := opens_foldlM h
  rwa [show start.opens = 0 from rfl, Nat.zero_add] at hcount

/-- While a tree grows there is no right parenthesis too many. -/
theorem not_excess_of_foldlM {ts us : List Token} {g : Growth} (h : ts.foldlM add start = .ok g)
    (hus : us <+: ts) : ¬ Excess us := by
  obtain ⟨rest, rfl⟩ := hus
  rw [List.foldlM_append] at h
  cases hfirst : us.foldlM add start with
  | error f => simp [hfirst, bind, Except.bind] at h
  | ok g₁ =>
    have hcount := opens_of_foldlM_start hfirst
    unfold Excess
    omega

/-- The next token is one too many exactly if it cannot be added. -/
theorem excess_append_iff {ts : List Token} {g : Growth} (h : ts.foldlM add start = .ok g)
    (t : Token) : Excess (ts ++ [t]) ↔ t.kind = .operator .rightParen ∧ g.opens = 0 := by
  have hcount := opens_of_foldlM_start h
  unfold Excess
  rw [List.countP_append, List.countP_append]
  by_cases ht : t.kind = .operator .rightParen
  · have hright : [t].countP (·.kind = .operator .rightParen) = 1 := by simp [ht]
    have hleft : [t].countP (·.kind = .operator .leftParen) = 0 := by simp [ht]
    simp only [hright, hleft, ht, true_and]
    omega
  · have hright : [t].countP (·.kind = .operator .rightParen) = 0 := by simp [ht]
    simp only [hright, ht, false_and, iff_false]
    omega

end Growth

namespace Tree

theorem build_eq_error {ts : List Token} {f : Fault} :
    build ts = .error f ↔ ts.foldlM Growth.add Growth.start = .error f := by
  unfold build
  cases ts.foldlM Growth.add Growth.start with
  | ok g => simp [bind, Except.bind, pure, Except.pure]
  | error e => simp [bind, Except.bind]

theorem exists_excess_of_build_error {ts : List Token} {f : Fault} (h : build ts = .error f) :
    ∃ front t, front ++ [t] <+: ts ∧ Excess (front ++ [t]) ∧ (∀ us, us <+: front → ¬ Excess us) ∧
      f = .syntaxAt t.span .unmatchedRightParenthesis := by
  obtain ⟨front, t, back, g, rfl, hfront, hadd⟩ := Growth.exists_of_foldlM_error (build_eq_error.mp h)
  obtain ⟨ht, hopens, rfl⟩ := Growth.add_eq_error_iff.mp hadd
  exact ⟨front, t, ⟨back, by simp⟩, (Growth.excess_append_iff hfront t).mpr ⟨ht, hopens⟩,
    fun us => Growth.not_excess_of_foldlM hfront, rfl⟩

/-- The fault is at the last token of the shortest list from the front that has a right parenthesis too
many. -/
theorem build_eq_error_iff {ts : List Token} {f : Fault} :
    build ts = .error f ↔
      ∃ front t, front ++ [t] <+: ts ∧ Excess (front ++ [t]) ∧ (∀ us, us <+: front → ¬ Excess us) ∧
        f = .syntaxAt t.span .unmatchedRightParenthesis := by
  refine ⟨exists_excess_of_build_error, ?_⟩
  rintro ⟨front, t, ⟨back, rfl⟩, hexcess, hshortest, rfl⟩
  rw [build_eq_error, List.append_assoc, List.foldlM_append]
  cases hfront : front.foldlM Growth.add Growth.start with
  | error f =>
    obtain ⟨front', t', hprefix, hexcess', -, -⟩ :=
      exists_excess_of_build_error (build_eq_error.mpr hfront)
    exact absurd hexcess' (hshortest _ hprefix)
  | ok g =>
    obtain ⟨ht, hopens⟩ := (Growth.excess_append_iff hfront t).mp hexcess
    have hadd := Growth.add_eq_error_iff.mpr ⟨ht, hopens, rfl⟩
    simp [hadd, bind, Except.bind]

/-- A tree can be built exactly if no list from the front has a right parenthesis too many. -/
theorem exists_build_error_iff {ts : List Token} :
    (∃ f, build ts = .error f) ↔ ∃ us, us <+: ts ∧ Excess us := by
  constructor
  · rintro ⟨f, h⟩
    obtain ⟨front, t, hfront, hexcess, -⟩ := build_eq_error_iff.mp h
    exact ⟨_, hfront, hexcess⟩
  · rintro ⟨us, hus, hexcess⟩
    cases hbuild : ts.foldlM Growth.add Growth.start with
    | error f => exact ⟨f, build_eq_error.mpr hbuild⟩
    | ok g => exact absurd hexcess (Growth.not_excess_of_foldlM hbuild hus)

end Tree

end SpectrumBasic.Expression
