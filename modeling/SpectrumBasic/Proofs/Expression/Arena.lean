import SpectrumBasic.Proofs.Expression.Links

/-! Growing a listing in place. A new node is put at the end; it takes over the right child of the node
that its token stops at and becomes the right child of that node itself, so that two links of older
nodes change. The listing of a tree is what comes of this when the tokens are added one by one. -/

namespace SpectrumBasic.Expression

/-- The nodes so far, whether each of them is an open parenthesis, and the node that was added or closed
last. -/
structure Arena where
  entries : List Entry
  isOpen : List Bool
  current : Nat

namespace Arena

/-- The root alone. -/
def start : Arena := ⟨[⟨none, 0, none, none, none⟩], [false], 0⟩

/-- Goes up from node `i` as long as the nodes bind at least as tightly as `priority` and are not open,
for at most `bound` steps. -/
def climb (a : Arena) (priority : Nat) : Nat → Nat → Nat
  | 0, i => i
  | bound + 1, i =>
    match a.entries[i]? with
    | none => i
    | some e =>
      match e.parent with
      | none => i
      | some parent =>
        if a.isOpen[i]? = some true ∨ e.priority < priority then i else a.climb priority bound parent

/-- Goes up from node `i` to the first open parenthesis, for at most `bound` steps. -/
def openAbove? (a : Arena) : Nat → Nat → Option Nat
  | 0, _ => none
  | bound + 1, i =>
    if a.isOpen[i]? = some true then some i
    else
      match a.entries[i]? with
      | none => none
      | some e =>
        match e.parent with
        | none => none
        | some parent => a.openAbove? bound parent

/-- Makes `parent` the parent of the node that a link leads to. -/
def hang (parent : Nat) (link : Option Nat) (es : List Entry) : List Entry :=
  match link with
  | none => es
  | some i => es.modify i fun e => { e with parent := some parent }

/-- Puts a new node below node `place`, between it and its right child. -/
def put (a : Arena) (place : Nat) (t : Token) : Arena :=
  let self := a.entries.length
  let left := a.entries[place]?.bind (·.right)
  let isOpen : Bool := t.kind = .operator .leftParen
  let entries := hang self left a.entries ++ [⟨some t, nodePriority t isOpen, left, none, some place⟩]
  ⟨entries.modify place fun e => { e with right := some self }, a.isOpen ++ [isOpen], self⟩

/-- Adds a token that is not a right parenthesis. -/
def insert (a : Arena) (t : Token) : Arena :=
  a.put (a.climb (climbPriority t) a.entries.length a.current) t

/-- Closes the innermost open parenthesis, if there is one. -/
def close? (a : Arena) : Option Arena :=
  (a.openAbove? a.entries.length a.current).map fun i =>
    ⟨a.entries.modify i fun e => { e with priority := operandPriority }, a.isOpen.set i false, i⟩

/-- Adds a token. -/
def add (a : Arena) (t : Token) : Except Fault Arena :=
  if t.kind = .operator .rightParen then
    match a.close? with
    | some a => .ok a
    | none => .error (.syntaxAt t.span .unmatchedRightParenthesis)
  else .ok (a.insert t)

/-- The entries that the tokens of a list make. -/
def build (ts : List Token) : Except Fault (List Entry) := do
  return (← ts.foldlM add start).entries

end Arena

theorem modify_append_cons {α : Type} (f : α → α) (front : List α) (x : α) (back : List α) :
    (front ++ x :: back).modify front.length f = front ++ f x :: back := by
  induction front with
  | nil => rfl
  | cons y front ih => simp [ih]

/-- The links of a tree that is hung below another node change at its top only. -/
theorem Arena.hang_entries {first : Nat} {front : List Entry} (hfront : front.length = first)
    (t : Tree) (parent self : Nat) :
    hang self (t.top? first) (front ++ t.entries first parent) = front ++ t.entries first self := by
  cases t with
  | empty => rfl
  | node left token isOpen right =>
    have hlength : first + left.size = (front ++ left.entries first (first + left.size)).length := by
      simp [hfront, Tree.length_entries]
    rw [Tree.top?, Tree.entries, hang, ← List.append_assoc]
    conv_lhs => arg 2; rw [hlength]
    rw [modify_append_cons, List.append_assoc]
    rfl

/-! ### The arena of a growth -/

/-- Whether the nodes are open, from left to right. -/
def Tree.flags : Tree → List Bool
  | empty => []
  | node left _ isOpen right => left.flags ++ isOpen :: right.flags

theorem Tree.length_flags (t : Tree) : t.flags.length = t.size := by
  induction t with
  | empty => rfl
  | node left token isOpen right ihl ihr =>
    simp only [flags, List.length_append, List.length_cons, ihl, ihr, size]
    omega

namespace Growth

/-- The number of the innermost node of a spine, 0 for the root. -/
def place : List Branch → Nat
  | [] => 0
  | b :: spine => place spine + 1 + b.left.size

/-- The entry of the innermost node of a spine, whose right link is `right`. -/
def lastEntry (right : Option Nat) : List Branch → Entry
  | [] => ⟨none, 0, none, right, none⟩
  | b :: spine =>
    ⟨some b.token, b.priority, b.left.top? (place spine + 1), right, some (place spine)⟩

/-- The entries before that of the innermost node. -/
def frontEntries : List Branch → List Entry
  | [] => []
  | b :: spine =>
    frontEntries spine ++ lastEntry (some (place (b :: spine))) spine ::
      b.left.entries (place spine + 1) (place (b :: spine))

def lastFlag : List Branch → Bool
  | [] => false
  | b :: _ => b.isOpen

def frontFlags : List Branch → List Bool
  | [] => []
  | b :: spine => frontFlags spine ++ lastFlag spine :: b.left.flags

theorem length_frontEntries (spine : List Branch) : (frontEntries spine).length = place spine := by
  induction spine with
  | nil => rfl
  | cons b spine ih =>
    simp only [frontEntries, List.length_append, List.length_cons, ih, Tree.length_entries, place]
    omega

theorem length_frontFlags (spine : List Branch) : (frontFlags spine).length = place spine := by
  induction spine with
  | nil => rfl
  | cons b spine ih =>
    simp only [frontFlags, List.length_append, List.length_cons, ih, Tree.length_flags, place]
    omega

theorem listing_finish (spine : List Branch) (right : Tree) :
    (finish spine right).listing =
      frontEntries spine ++ lastEntry (right.top? (place spine + 1)) spine ::
        right.entries (place spine + 1) (place spine) := by
  induction spine generalizing right with
  | nil => rfl
  | cons b spine ih =>
    rw [finish, ih]
    simp [Branch.join, Tree.top?, Tree.entries, frontEntries, place, lastEntry, Branch.priority]

theorem flags_finish (spine : List Branch) (right : Tree) :
    false :: (finish spine right).flags = frontFlags spine ++ lastFlag spine :: right.flags := by
  induction spine generalizing right with
  | nil => rfl
  | cons b spine ih =>
    rw [finish, ih]
    simp [Branch.join, Tree.flags, frontFlags, lastFlag]

theorem right_lastEntry (right : Option Nat) (spine : List Branch) :
    (lastEntry right spine).right = right := by
  cases spine <;> rfl

theorem setRight_lastEntry (right right' : Option Nat) (spine : List Branch) :
    { lastEntry right spine with right := right' } = lastEntry right' spine := by
  cases spine <;> rfl

theorem modify_last (f : Entry → Entry) (spine : List Branch) (e : Entry) (back : List Entry) :
    (frontEntries spine ++ e :: back).modify (place spine) f = frontEntries spine ++ f e :: back := by
  rw [← length_frontEntries, modify_append_cons]

theorem set_last (spine : List Branch) (flag flag' : Bool) (back : List Bool) :
    (frontFlags spine ++ flag :: back).set (place spine) flag' = frontFlags spine ++ flag' :: back := by
  rw [← length_frontFlags, List.set_append_right _ _ (Nat.le_refl _), Nat.sub_self, List.set_cons_zero]

/-- The arena of a spine and of the tree to the right of its innermost node. -/
def arena (spine : List Branch) (right : Tree) : Arena :=
  ⟨(finish spine right).listing, false :: (finish spine right).flags, place spine⟩

/-- The arena has the nodes of this spine and tree, whichever of them is the current one. -/
structure HasNodes (a : Arena) (spine : List Branch) (right : Tree) : Prop where
  entries : a.entries = (finish spine right).listing
  isOpen : a.isOpen = false :: (finish spine right).flags

/-- Going up the spine leaves the nodes as they are. -/
theorem Joins.hasNodes {spine outer : List Branch} {right inside : Tree}
    (h : Joins spine right outer inside) : HasNodes (arena spine right) outer inside :=
  ⟨by rw [h.finish_eq]; rfl, by rw [h.finish_eq]; rfl⟩

namespace HasNodes

variable {a : Arena} {spine : List Branch} {right : Tree}

theorem join {b : Branch} (h : HasNodes a (b :: spine) right) : HasNodes a spine (b.join right) :=
  ⟨h.entries, h.isOpen⟩

theorem getElem?_entries (h : HasNodes a spine right) :
    a.entries[place spine]? = some (lastEntry (right.top? (place spine + 1)) spine) := by
  rw [h.entries, listing_finish, List.getElem?_append_right (Nat.le_of_eq (length_frontEntries spine)),
    length_frontEntries, Nat.sub_self, List.getElem?_cons_zero]

theorem getElem?_isOpen (h : HasNodes a spine right) : a.isOpen[place spine]? = some (lastFlag spine) := by
  rw [h.isOpen, flags_finish, List.getElem?_append_right (Nat.le_of_eq (length_frontFlags spine)),
    length_frontFlags, Nat.sub_self, List.getElem?_cons_zero]

theorem length_entries (h : HasNodes a spine right) :
    a.entries.length = place spine + 1 + right.size := by
  rw [h.entries, listing_finish, List.length_append, List.length_cons, length_frontEntries,
    Tree.length_entries]
  omega

/-- The spine is no longer than the list of nodes, which bounds the way up. -/
theorem length_le (h : HasNodes a spine right) : spine.length ≤ a.entries.length := by
  have hplace (spine : List Branch) : spine.length ≤ place spine := by
    induction spine with
    | nil => exact Nat.le_refl _
    | cons b spine ih =>
      rw [List.length_cons, place]
      omega
  have := hplace spine
  rw [h.length_entries]
  omega

/-- Parents lead up the spine, so that a climb stops at the same node. -/
theorem climb_eq (h : HasNodes a spine right) (p : Nat) {bound : Nat} (hbound : spine.length ≤ bound) :
    a.climb p bound (place spine) = place (climb p spine right).spine := by
  induction spine generalizing right bound with
  | nil =>
    cases bound with
    | zero => rfl
    | succ bound =>
      rw [Arena.climb, h.getElem?_entries]
      rfl
  | cons b spine ih =>
    cases bound with
    | zero => simp at hbound
    | succ bound =>
      rw [Arena.climb, h.getElem?_entries, h.getElem?_isOpen, climb]
      simp only [lastEntry, lastFlag, Option.some.injEq]
      split
      · rfl
      · exact ih h.join (by simpa using hbound)

theorem openAbove?_eq (h : HasNodes a spine right) {bound : Nat} (hbound : spine.length ≤ bound) :
    a.openAbove? bound (place spine) = (close? spine right).map fun g => place g.spine := by
  induction spine generalizing right bound with
  | nil =>
    cases bound with
    | zero => rfl
    | succ bound =>
      rw [Arena.openAbove?, h.getElem?_entries, h.getElem?_isOpen]
      rfl
  | cons b spine ih =>
    cases bound with
    | zero => simp at hbound
    | succ bound =>
      rw [Arena.openAbove?, h.getElem?_entries, h.getElem?_isOpen, close?]
      simp only [lastEntry, lastFlag, Option.some.injEq]
      split
      · rfl
      · exact ih h.join (by simpa using hbound)

/-- A node that is put below the innermost node of a spine becomes the innermost one. -/
theorem put_eq (h : HasNodes a spine right) (t : Token) :
    a.put (place spine) t = arena (⟨right, t, t.kind = .operator .leftParen⟩ :: spine) .empty := by
  have hfront : (frontEntries spine ++ [lastEntry (right.top? (place spine + 1)) spine]).length =
      place spine + 1 := by
    rw [List.length_append, length_frontEntries, List.length_singleton]
  have hhang := Arena.hang_entries hfront right (place spine) (place spine + 1 + right.size)
  simp only [Arena.put, arena, Arena.mk.injEq]
  refine ⟨?_, ?_, h.length_entries⟩
  · rw [h.getElem?_entries, h.length_entries, h.entries, listing_finish, listing_finish,
      Option.bind_some, right_lastEntry, List.append_cons (frontEntries spine), hhang,
      List.append_assoc, List.append_assoc, List.singleton_append, modify_last, setRight_lastEntry]
    simp [frontEntries, lastEntry, Tree.entries, place, Branch.priority, Tree.top?]
  · rw [h.isOpen, flags_finish, flags_finish]
    simp [frontFlags, lastFlag, Tree.flags]

end HasNodes

/-- Adding a token in place comes to the same as growing the tree. -/
theorem insert_arena (g : Growth) (t : Token) :
    (arena g.spine g.right).insert t = arena (g.insert t).spine (g.insert t).right := by
  have hnodes := (Joins.refl g.spine g.right).hasNodes
  have hstop := (climb_joins (climbPriority t) g.spine g.right).hasNodes
  calc
    _ = (arena g.spine g.right).put (place (climb (climbPriority t) g.spine g.right).spine) t := by
      rw [Arena.insert, ← hnodes.climb_eq _ hnodes.length_le]
      rfl
    _ = _ := hstop.put_eq t

/-- A parenthesis that is closed in place is closed in the tree. -/
theorem close?_arena {g : Growth}
    (hparens : ∀ b ∈ g.spine, b.isOpen = true → b.token.kind = .operator .leftParen) :
    (arena g.spine g.right).close? = (close? g.spine g.right).map fun g => arena g.spine g.right := by
  have hnodes := (Joins.refl g.spine g.right).hasNodes
  unfold Arena.close?
  rw [show (arena g.spine g.right).current = place g.spine from rfl,
    hnodes.openAbove?_eq hnodes.length_le, Option.map_map]
  cases hclose : close? g.spine g.right with
  | none => rfl
  | some g' =>
    obtain ⟨b, outer, inside, hopen, hjoins, rfl⟩ := close?_joins hclose
    have hpriority : ({ b with isOpen := false } : Branch).priority = operandPriority :=
      tokenPriority_leftParen (hparens b (hjoins.suffix.subset List.mem_cons_self) hopen)
    refine congrArg some ?_
    simp only [Function.comp_apply, arena, Arena.mk.injEq, and_true]
    constructor
    · rw [← hjoins.finish_eq, listing_finish, listing_finish]
      refine (modify_last _ (b :: outer) _ _).trans ?_
      simp only [lastEntry, hpriority]
      rfl
    · rw [← hjoins.finish_eq, flags_finish, flags_finish]
      exact set_last (b :: outer) _ false _

theorem add_arena {ks : List Token.Kind} {g : Growth} (hg : Sound ks g) (t : Token) :
    (arena g.spine g.right).add t = (g.add t).map fun g => arena g.spine g.right := by
  unfold Arena.add add
  split
  · rw [close?_arena hg.parens]
    cases close? g.spine g.right <;> rfl
  · rw [insert_arena]
    rfl

theorem foldlM_arena {ts : List Token} {ks : List Token.Kind} {g : Growth} (hg : Sound ks g) :
    ts.foldlM Arena.add (arena g.spine g.right) =
      (ts.foldlM add g).map fun g => arena g.spine g.right := by
  induction ts generalizing ks g with
  | nil => rfl
  | cons t ts ih =>
    rw [List.foldlM_cons, List.foldlM_cons, add_arena hg]
    cases hadd : g.add t with
    | error f => rfl
    | ok g' => exact ih (sound_add hg hadd)

end Growth

/-- The entries that grow in place are those of the tree. -/
theorem Arena.build_eq (ts : List Token) : build ts = (Tree.build ts).map Tree.listing := by
  unfold build Tree.build
  rw [show start = Growth.arena Growth.start.spine Growth.start.right from rfl,
    Growth.foldlM_arena Growth.sound_start]
  cases ts.foldlM Growth.add Growth.start <;> rfl

end SpectrumBasic.Expression
