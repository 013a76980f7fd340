import Mathlib.Data.List.Induction
import Mathlib.Logic.ExistsUnique
import SpectrumBasic.Expression.Listing
import SpectrumBasic.Proofs.Expression.Order

/-! The numbered nodes of a tree and the links between them. Below the root every node is the topmost
one of a subtree whose entries lie side by side, so that its links are known from the places of its
left and right subtrees. The links make a binary tree: each leads back the way it came, and one way
only leads from the root to each node. -/

namespace SpectrumBasic.Expression

/-- The two links from a node downwards. -/
inductive Side
  | left
  | right
deriving DecidableEq, Repr

def Entry.child (e : Entry) : Side → Option Nat
  | .left => e.left
  | .right => e.right

/-- The node that is reached from node `i` downwards. -/
def follow (es : List Entry) (i : Nat) (path : List Side) : Option Nat :=
  path.foldlM (fun i side => do (← es[i]?).child side) i

section Follow

variable {es : List Entry} {i j : Nat}

theorem follow_cons {e : Entry} (side : Side) (he : es[i]? = some e) (hchild : e.child side = some j)
    (path : List Side) : follow es i (side :: path) = follow es j path := by
  rw [follow, List.foldlM_cons, he]
  simp only [Option.bind_eq_bind, Option.bind_some, hchild]
  rfl

theorem follow_concat_iff {path : List Side} {side : Side} :
    follow es i (path ++ [side]) = some j ↔
      ∃ (k : Nat) (e : Entry), follow es i path = some k ∧ es[k]? = some e ∧ e.child side = some j := by
  rw [follow, List.foldlM_append]
  simp only [List.foldlM_cons, List.foldlM_nil, Option.bind_eq_bind, Option.bind_eq_some_iff]
  simp [follow]

/-- Where links lead back the way they came and the two of a node lead apart, one way only leads from
the root to a node. -/
theorem path_unique (hroot : ∀ e, es[0]? = some e → e.parent = none)
    (hback : ∀ (i j : Nat) (side : Side) (e : Entry), es[i]? = some e → e.child side = some j →
      ∃ e' : Entry, es[j]? = some e' ∧ e'.parent = some i)
    (hapart : ∀ (i j : Nat) (side side' : Side) (e : Entry), es[i]? = some e →
      e.child side = some j → e.child side' = some j → side = side')
    {p q : List Side} (hp : follow es 0 p = some i) (hq : follow es 0 q = some i) : p = q := by
  have hstart {p : List Side} {side : Side} : follow es 0 (p ++ [side]) ≠ some 0 := by
    intro h
    obtain ⟨k, e, -, he, hchild⟩ := follow_concat_iff.mp h
    obtain ⟨e', he', hparent⟩ := hback k 0 side e he hchild
    rw [hroot e' he'] at hparent
    cases hparent
  -- both ways are taken apart from their ends, where the parent of the node tells the last step
  induction p using List.reverseRecOn generalizing q i with
  | nil =>
    cases hp
    rcases List.eq_nil_or_concat q with rfl | ⟨q, side, rfl⟩
    · rfl
    · rw [List.concat_eq_append] at hq
      exact absurd hq hstart
  | append_singleton p side ih =>
    rcases List.eq_nil_or_concat q with rfl | ⟨q, side', rfl⟩
    · cases hq
      exact absurd hp hstart
    · rw [List.concat_eq_append] at hq ⊢
      obtain ⟨k, e, hk, he, hchild⟩ := follow_concat_iff.mp hp
      obtain ⟨k', e', hk', he', hchild'⟩ := follow_concat_iff.mp hq
      obtain ⟨top, htop, hparent⟩ := hback k i side e he hchild
      obtain ⟨top', htop', hparent'⟩ := hback k' i side' e' he' hchild'
      rw [htop] at htop'
      cases htop'
      rw [hparent] at hparent'
      cases hparent'
      rw [he] at he'
      cases he'
      rw [ih hk hk', hapart k i side side' e he hchild hchild']

end Follow

/-- Node 0 is a root without a token and without a left child, children and parents name one another,
and one way leads from the root to each node. -/
structure IsLinkedTree (es : List Entry) : Prop where
  root : ∃ e : Entry, es[0]? = some e ∧ e.token = none ∧ e.left = none ∧ e.parent = none
  inverse : ∀ i j : Nat, (∃ (e : Entry) (side : Side), es[i]? = some e ∧ e.child side = some j) ↔
    ∃ e : Entry, es[j]? = some e ∧ e.parent = some i
  reached : ∀ i < es.length, ∃! path, follow es 0 path = some i

/-- The tokens from left to right of the nodes below a link, as the links lead to them. -/
inductive InOrder (es : List Entry) : Option Nat → List Token → Prop
  | none : InOrder es none []
  | node {i : Nat} {e : Entry} {token : Token} {before after : List Token} (he : es[i]? = some e)
      (htoken : e.token = some token) (hleft : InOrder es e.left before)
      (hright : InOrder es e.right after) : InOrder es (some i) (before ++ token :: after)

namespace Tree

theorem length_entries (first parent : Nat) (t : Tree) : (t.entries first parent).length = t.size := by
  induction t generalizing first parent with
  | empty => rfl
  | node left token isOpen right ihl ihr =>
    simp only [entries, List.length_append, List.length_cons, ihl, ihr, size]
    omega

theorem map_token_entries (first parent : Nat) (t : Tree) :
    (t.entries first parent).map (·.token) = t.tokens.map some := by
  induction t generalizing first parent with
  | empty => rfl
  | node left token isOpen right ihl ihr => simp [entries, tokens, ihl, ihr]

theorem length_tokens (t : Tree) : t.tokens.length = t.size := by
  have hlength := congrArg List.length (map_token_entries 0 0 t)
  rwa [List.length_map, List.length_map, length_entries, eq_comm] at hlength

/-! ### Subtrees in a list of entries -/

/-- The entries of the tree stand in `es` from number `first` on. -/
def LiesIn (es : List Entry) (first parent : Nat) (t : Tree) : Prop :=
  ∃ front back, front.length = first ∧ es = front ++ t.entries first parent ++ back

/-- The topmost entry of a tree. -/
def entry (first parent : Nat) (left : Tree) (token : Token) (isOpen : Bool) (right : Tree) : Entry :=
  ⟨some token, nodePriority token isOpen, left.top? first, right.top? (first + left.size + 1),
    some parent⟩

theorem liesIn_listing (t : Tree) : LiesIn t.listing 1 0 t :=
  ⟨[⟨none, 0, none, t.top? 1, none⟩], [], rfl, by simp [listing]⟩

theorem top?_range {first i : Nat} {t : Tree} (h : t.top? first = some i) :
    first ≤ i ∧ i < first + t.size := by
  cases t with
  | empty => cases h
  | node left token isOpen right =>
    cases h
    rw [size]
    omega

namespace LiesIn

variable {es : List Entry} {first parent : Nat} {left right : Tree} {token : Token} {isOpen : Bool}

theorem leftTree (h : LiesIn es first parent (node left token isOpen right)) :
    LiesIn es first (first + left.size) left := by
  obtain ⟨front, back, hfront, rfl⟩ := h
  refine ⟨front, entry first parent left token isOpen right ::
    right.entries (first + left.size + 1) (first + left.size) ++ back, hfront, ?_⟩
  simp [entries, entry]

theorem rightTree (h : LiesIn es first parent (node left token isOpen right)) :
    LiesIn es (first + left.size + 1) (first + left.size) right := by
  obtain ⟨front, back, hfront, rfl⟩ := h
  refine ⟨front ++ (left.entries first (first + left.size) ++
    [entry first parent left token isOpen right]), back, ?_, ?_⟩
  · simp [hfront, length_entries]
    omega
  · simp [entries, entry]

theorem getElem?_top (h : LiesIn es first parent (node left token isOpen right)) :
    es[first + left.size]? = some (entry first parent left token isOpen right) := by
  obtain ⟨front, back, hfront, rfl⟩ := h
  have hlength : (front ++ left.entries first (first + left.size)).length = first + left.size := by
    simp [hfront, length_entries]
  simp only [entries, List.append_assoc, List.cons_append]
  rw [← List.append_assoc, List.getElem?_append_right (Nat.le_of_eq hlength), hlength, Nat.sub_self]
  rfl

/-- A link to the top of a tree leads back to its parent. -/
theorem parent_of_top {t : Tree} (h : LiesIn es first parent t) {i : Nat} (hi : t.top? first = some i) :
    ∃ e : Entry, es[i]? = some e ∧ e.parent = some parent := by
  cases t with
  | empty => cases hi
  | node left token isOpen right =>
    cases hi
    exact ⟨_, h.getElem?_top, rfl⟩

theorem inOrder {t : Tree} (h : LiesIn es first parent t) : InOrder es (t.top? first) t.tokens := by
  induction t generalizing first parent with
  | empty => exact .none
  | node left token isOpen right ihl ihr =>
    exact .node h.getElem?_top rfl (ihl h.leftTree) (ihr h.rightTree)

/-- Links lead from the top of a tree to each of its nodes. -/
theorem exists_follow {t : Tree} (h : LiesIn es first parent t) {i : Nat} (hfirst : first ≤ i)
    (hlast : i < first + t.size) :
    ∃ top path, t.top? first = some top ∧ follow es top path = some i := by
  induction t generalizing first parent with
  | empty => exact absurd hlast (Nat.not_lt.mpr hfirst)
  | node left token isOpen right ihl ihr =>
    have htop := h.getElem?_top
    rcases Nat.lt_trichotomy i (first + left.size) with hi | rfl | hi
    · obtain ⟨top, path, hleft, hpath⟩ := ihl h.leftTree hfirst hi
      exact ⟨_, .left :: path, rfl, (follow_cons .left htop hleft path).trans hpath⟩
    · exact ⟨_, [], rfl, rfl⟩
    · have hsize : i < first + left.size + 1 + right.size := by
        rw [size] at hlast
        omega
      obtain ⟨top, path, hright, hpath⟩ := ihr h.rightTree hi hsize
      exact ⟨_, .right :: path, rfl, (follow_cons .right htop hright path).trans hpath⟩

end LiesIn

/-- Node `i` is the top of a tree that lies in `es` below node `parent`. -/
def Stands (es : List Entry) (i parent : Nat) : Prop :=
  ∃ first left token isOpen right,
    LiesIn es first parent (node left token isOpen right) ∧ i = first + left.size

/-- Each of the nodes of a tree is a top, of the tree itself or below a node that links to it. -/
theorem LiesIn.stands {es : List Entry} {first parent : Nat} {t : Tree} (h : LiesIn es first parent t)
    {i : Nat} (hfirst : first ≤ i) (hlast : i < first + t.size) :
    ∃ p, Stands es i p ∧ (t.top? first = some i ∧ p = parent ∨
      ∃ (e : Entry) (side : Side), es[p]? = some e ∧ e.child side = some i) := by
  induction t generalizing first parent with
  | empty => exact absurd hlast (Nat.not_lt.mpr hfirst)
  | node left token isOpen right ihl ihr =>
    have htop := h.getElem?_top
    rcases Nat.lt_trichotomy i (first + left.size) with hi | rfl | hi
    · obtain ⟨p, hp, ⟨hleft, rfl⟩ | hlink⟩ := ihl h.leftTree hfirst hi
      · exact ⟨_, hp, .inr ⟨_, .left, htop, hleft⟩⟩
      · exact ⟨p, hp, .inr hlink⟩
    · exact ⟨parent, ⟨first, left, token, isOpen, right, h, rfl⟩, .inl ⟨rfl, rfl⟩⟩
    · have hsize : i < first + left.size + 1 + right.size := by
        rw [size] at hlast
        omega
      obtain ⟨p, hp, ⟨hright, rfl⟩ | hlink⟩ := ihr h.rightTree hi hsize
      · exact ⟨_, hp, .inr ⟨_, .right, htop, hright⟩⟩
      · exact ⟨p, hp, .inr hlink⟩

namespace Stands

variable {es : List Entry} {i parent : Nat}

theorem parent_eq (h : Stands es i parent) {e : Entry} (he : es[i]? = some e) :
    e.parent = some parent := by
  obtain ⟨first, left, token, isOpen, right, hlies, rfl⟩ := h
  rw [hlies.getElem?_top] at he
  cases he
  rfl

theorem parent_of_child (h : Stands es i parent) {e : Entry} (he : es[i]? = some e) {side : Side}
    {j : Nat} (hchild : e.child side = some j) : ∃ e' : Entry, es[j]? = some e' ∧ e'.parent = some i := by
  obtain ⟨first, left, token, isOpen, right, hlies, rfl⟩ := h
  rw [hlies.getElem?_top] at he
  cases he
  cases side with
  | left => exact hlies.leftTree.parent_of_top hchild
  | right => exact hlies.rightTree.parent_of_top hchild

/-- A left child has a smaller number and a right child a greater one, so they differ. -/
theorem side_unique (h : Stands es i parent) {e : Entry} (he : es[i]? = some e) {side side' : Side}
    {j : Nat} (hchild : e.child side = some j) (hchild' : e.child side' = some j) : side = side' := by
  obtain ⟨first, left, token, isOpen, right, hlies, rfl⟩ := h
  rw [hlies.getElem?_top] at he
  cases he
  have hapart (hleft : left.top? first = some j)
      (hright : right.top? (first + left.size + 1) = some j) : False := by
    have := (top?_range hleft).2
    have := (top?_range hright).1
    omega
  cases side <;> cases side'
  · rfl
  · exact (hapart hchild hchild').elim
  · exact (hapart hchild' hchild).elim
  · rfl

end Stands

/-! ### The whole listing -/

section Listing

variable {t : Tree} {i j : Nat} {side side' : Side} {e : Entry}

theorem length_listing (t : Tree) : t.listing.length = 1 + t.size := by
  rw [listing, List.length_cons, length_entries, Nat.add_comm]

theorem stands_listing (h₀ : 0 < i) (h : i < t.listing.length) :
    ∃ p, Stands t.listing i p ∧
      ∃ (e : Entry) (side : Side), t.listing[p]? = some e ∧ e.child side = some i := by
  rw [length_listing] at h
  obtain ⟨p, hp, ⟨htop, rfl⟩ | hlink⟩ := t.liesIn_listing.stands h₀ h
  · exact ⟨0, hp, _, .right, rfl, htop⟩
  · exact ⟨p, hp, hlink⟩

theorem lt_length_of_getElem? (he : t.listing[i]? = some e) : i < t.listing.length :=
  (List.getElem?_eq_some_iff.mp he).choose

theorem parent_of_child_listing (he : t.listing[i]? = some e) (hchild : e.child side = some j) :
    ∃ e' : Entry, t.listing[j]? = some e' ∧ e'.parent = some i := by
  rcases Nat.eq_zero_or_pos i with rfl | hi
  · cases he
    cases side with
    | left => cases hchild
    | right => exact t.liesIn_listing.parent_of_top hchild
  · obtain ⟨p, hp, -⟩ := stands_listing hi (lt_length_of_getElem? he)
    exact hp.parent_of_child he hchild

theorem child_of_parent_listing (he : t.listing[j]? = some e) (hparent : e.parent = some i) :
    ∃ (e' : Entry) (side : Side), t.listing[i]? = some e' ∧ e'.child side = some j := by
  rcases Nat.eq_zero_or_pos j with rfl | hj
  · cases he
    cases hparent
  · obtain ⟨p, hp, hlink⟩ := stands_listing hj (lt_length_of_getElem? he)
    rw [hp.parent_eq he] at hparent
    cases hparent
    exact hlink

theorem side_unique_listing (he : t.listing[i]? = some e) (hchild : e.child side = some j)
    (hchild' : e.child side' = some j) : side = side' := by
  rcases Nat.eq_zero_or_pos i with rfl | hi
  · -- the root has a right child only
    cases he
    cases side with
    | left => cases hchild
    | right =>
      cases side' with
      | left => cases hchild'
      | right => rfl
  · obtain ⟨p, hp, -⟩ := stands_listing hi (lt_length_of_getElem? he)
    exact hp.side_unique he hchild hchild'

theorem exists_follow_listing (h : i < t.listing.length) :
    ∃ path, follow t.listing 0 path = some i := by
  rcases Nat.eq_zero_or_pos i with rfl | hi
  · exact ⟨[], rfl⟩
  · rw [length_listing] at h
    obtain ⟨top, path, htop, hpath⟩ := t.liesIn_listing.exists_follow hi h
    have hroot : t.listing[0]? = some ⟨none, 0, none, t.top? 1, none⟩ := rfl
    exact ⟨.right :: path, (follow_cons .right hroot htop path).trans hpath⟩

/-- The links of a listing make a tree. -/
theorem isLinkedTree_listing (t : Tree) : IsLinkedTree t.listing where
  root := ⟨_, rfl, rfl, rfl, rfl⟩
  inverse i j := by
    constructor
    · rintro ⟨e, side, he, hchild⟩
      exact parent_of_child_listing he hchild
    · rintro ⟨e, he, hparent⟩
      exact child_of_parent_listing he hparent
  reached i hi := by
    obtain ⟨path, hpath⟩ := exists_follow_listing hi
    refine ⟨path, hpath, fun other hother => ?_⟩
    refine path_unique (fun e he => ?_) (fun i j side e => parent_of_child_listing)
      (fun i j side side' e => side_unique_listing) hother hpath
    cases he
    rfl

end Listing

end Tree

end SpectrumBasic.Expression
