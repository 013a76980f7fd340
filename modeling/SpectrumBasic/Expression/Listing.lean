import SpectrumBasic.Expression.Tree

/-! A tree as a numbered list of nodes. Number 0 is the root, which has no token and only a right
child; the nodes below it are numbered from left to right. Each entry names its children and its
parent by number. -/

namespace SpectrumBasic.Expression

structure Entry where
  token : Option Token
  priority : Nat
  left : Option Nat
  right : Option Nat
  parent : Option Nat
deriving DecidableEq, Repr

namespace Tree

/-- The number of the topmost node of a tree whose leftmost node has number `first`. -/
def top? (first : Nat) : Tree → Option Nat
  | empty => none
  | node left .. => some (first + left.size)

/-- The entries of a tree that hangs below node `parent` and whose leftmost node has number
`first`. -/
def entries (first parent : Nat) : Tree → List Entry
  | empty => []
  | node left token isOpen right =>
    let self := first + left.size
    left.entries first self ++
      ⟨some token, nodePriority token isOpen, left.top? first, right.top? (self + 1), some parent⟩ ::
        right.entries (self + 1) self

/-- The whole listing, the root first. -/
def listing (t : Tree) : List Entry := ⟨none, 0, none, t.top? 1, none⟩ :: t.entries 1 0

end Tree

end SpectrumBasic.Expression
