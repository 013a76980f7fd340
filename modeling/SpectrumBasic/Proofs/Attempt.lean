import SpectrumBasic.Fault

/-! Computations with a state that may fail, run from a state: the result and the state they leave.
A failure keeps the state it arose in. -/

namespace SpectrumBasic

/-- A computation on states of type `σ` that may fail. -/
abbrev Attempt (σ α : Type) := ExceptT Fault (StateM σ) α

namespace Attempt

variable {σ α β : Type}

/-- The result of a computation and the state it leaves. -/
def outcome (x : Attempt σ α) (s : σ) : Except Fault α × σ := x.run.run s

@[simp] theorem outcome_pure (a : α) (s : σ) : outcome (pure a) s = (.ok a, s) := rfl

@[simp] theorem outcome_throw (f : Fault) (s : σ) : outcome (throw f : Attempt σ α) s = (.error f, s) :=
  rfl

@[simp] theorem outcome_get (s : σ) : outcome (get : Attempt σ σ) s = (.ok s, s) := rfl

@[simp] theorem outcome_liftExcept (r : Except Fault α) (s : σ) :
    outcome (liftExcept r) s = (r, s) := by
  cases r <;> rfl

theorem outcome_bind (x : Attempt σ α) (k : α → Attempt σ β) (s : σ) :
    outcome (x >>= k) s =
      match outcome x s with
      | (.ok a, s) => outcome (k a) s
      | (.error f, s) => (.error f, s) := by
  unfold outcome
  simp only [ExceptT.run_bind, StateT.run_bind]
  cases h : x.run.run s with
  | mk r s' => cases r <;> rfl

theorem outcome_bind_ok {x : Attempt σ α} {k : α → Attempt σ β} {s s' : σ} {a : α}
    (h : outcome x s = (.ok a, s')) : outcome (x >>= k) s = outcome (k a) s' := by
  rw [outcome_bind, h]

theorem outcome_bind_error {x : Attempt σ α} {k : α → Attempt σ β} {s s' : σ} {f : Fault}
    (h : outcome x s = (.error f, s')) : outcome (x >>= k) s = (.error f, s') := by
  rw [outcome_bind, h]

/-- A sequence succeeds only if both parts do. -/
theorem exists_of_outcome_bind_ok {x : Attempt σ α} {k : α → Attempt σ β} {s s' : σ} {b : β}
    (h : outcome (x >>= k) s = (.ok b, s')) :
    ∃ a s₁, outcome x s = (.ok a, s₁) ∧ outcome (k a) s₁ = (.ok b, s') := by
  rw [outcome_bind] at h
  split at h
  · rename_i a s₁ hx
    exact ⟨a, s₁, hx, h⟩
  · cases h

/-- From every state with `P` the computation leads to one with `Q`, or fails in one with `E`. -/
def Triple (P : σ → Prop) (x : Attempt σ α) (Q : α → σ → Prop) (E : Fault → σ → Prop) : Prop :=
  ∀ s, P s →
    match outcome x s with
    | (.ok a, s) => Q a s
    | (.error f, s) => E f s

namespace Triple

variable {P : σ → Prop} {Q : α → σ → Prop} {R : β → σ → Prop} {E : Fault → σ → Prop}

theorem pure {a : α} (h : ∀ s, P s → Q a s) : Triple P (pure a) Q E := h

theorem throw {f : Fault} (h : ∀ s, P s → E f s) : Triple P (throw f) Q E := h

theorem bind {x : Attempt σ α} {k : α → Attempt σ β} (hx : Triple P x Q E)
    (hk : ∀ a, Triple (Q a) (k a) R E) : Triple P (x >>= k) R E := by
  intro s hs
  have hxs := hx s hs
  rw [outcome_bind]
  cases h : outcome x s with
  | mk result s' =>
    rw [h] at hxs
    cases result with
    | ok a => exact hk a s' hxs
    | error f => exact hxs

end Triple

/-! ### Two computations side by side -/

/-- Both results are values that `Q` relates, or both are faults that `E` relates. -/
inductive Alike {α β : Type} (E : Fault → Fault → Prop) (Q : α → β → Prop) :
    Except Fault α → Except Fault β → Prop
  | ok {a : α} {b : β} (h : Q a b) : Alike E Q (.ok a) (.ok b)
  | error {f f' : Fault} (h : E f f') : Alike E Q (.error f) (.error f')

/-- From states that `R` relates the computations lead to results that are alike, and to states that
`R` relates again. -/
def Agree {τ : Type} (R : σ → τ → Prop) (E : Fault → Fault → Prop) (Q : α → β → Prop)
    (x : Attempt σ α) (y : Attempt τ β) : Prop :=
  ∀ s t, R s t → Alike E Q (outcome x s).1 (outcome y t).1 ∧ R (outcome x s).2 (outcome y t).2

namespace Agree

variable {τ γ δ : Type} {R : σ → τ → Prop} {E : Fault → Fault → Prop} {Q : α → β → Prop}
  {S : γ → δ → Prop}

theorem pure {a : α} {b : β} (h : Q a b) : Agree R E Q (pure a) (pure b) :=
  fun _ _ hst => ⟨.ok h, hst⟩

theorem throw {f f' : Fault} (h : E f f') : Agree R E Q (throw f) (throw f') :=
  fun _ _ hst => ⟨.error h, hst⟩

theorem liftExcept {r : Except Fault α} {r' : Except Fault β} (h : Alike E Q r r') :
    Agree R E Q (liftExcept r) (liftExcept r') := by
  intro s t hst
  rw [outcome_liftExcept, outcome_liftExcept]
  exact ⟨h, hst⟩

theorem bind {x : Attempt σ α} {y : Attempt τ β} {k : α → Attempt σ γ} {l : β → Attempt τ δ}
    (hxy : Agree R E Q x y) (hkl : ∀ a b, Q a b → Agree R E S (k a) (l b)) :
    Agree R E S (x >>= k) (y >>= l) := by
  intro s t hst
  obtain ⟨hresult, hstate⟩ := hxy s t hst
  rw [outcome_bind, outcome_bind]
  generalize outcome x s = o at hresult hstate ⊢
  generalize outcome y t = o' at hresult hstate ⊢
  obtain ⟨r, s'⟩ := o
  obtain ⟨r', t'⟩ := o'
  cases hresult with
  | ok h => exact hkl _ _ h s' t' hstate
  | error h => exact ⟨.error h, hstate⟩

theorem ite {p : Prop} [Decidable p] {x x' : Attempt σ α} {y y' : Attempt τ β}
    (hx : Agree R E Q x y) (hx' : Agree R E Q x' y') :
    Agree R E Q (if p then x else x') (if p then y else y') := by
  split
  · exact hx
  · exact hx'

end Agree

end Attempt

end SpectrumBasic
