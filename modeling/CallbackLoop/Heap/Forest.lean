/-!
# Forests of marked trees

The trees of a Fibonacci heap. A root carries an item and its children; every
other node carries a mark besides, which says that it has lost a child since
it became a child itself. The children of a node form a `Forest`, read from
the child that is looked at first.

Severing a node cuts it from its parent. A marked node that loses a child this
way is cut as well, and so on upwards; an unmarked one is marked.
-/

namespace CallbackLoop

universe u

/-- A key with the arena slot and the serial number it was inserted under. -/
structure Item (κ : Type u) where
  slot : Nat
  serial : Nat
  key : κ

/-- A row of siblings: each is an item, its mark and the row of its children. -/
inductive Forest (κ : Type u) where
  | nil
  | cons (item : Item κ) (marked : Bool) (children siblings : Forest κ)

/-- A tree of the root row; roots carry no mark. -/
structure Tree (κ : Type u) where
  item : Item κ
  children : Forest κ

/-- What severing leaves of a row: the row without the cut nodes, the cut
nodes as trees of their own, the one cut last first, and whether the row
itself lost one of its members. -/
structure Severed (κ : Type u) where
  remaining : Forest κ
  cut : List (Tree κ)
  lost : Bool

namespace Forest

variable {κ : Type u}

/-- Number of trees in the row. -/
def length : Forest κ → Nat
  | nil => 0
  | cons _ _ _ siblings => siblings.length + 1

/-- Every item of the row and below, parents before children. -/
def items : Forest κ → List (Item κ)
  | nil => []
  | cons item _ children siblings => item :: (children.items ++ siblings.items)

/-- The members of the row as roots, which drops their marks. -/
def toTrees : Forest κ → List (Tree κ)
  | nil => []
  | cons item _ children siblings => ⟨item, children⟩ :: siblings.toTrees

/-- Gives the node in slot `slot` a new key, leaving the shape alone. -/
def setKey (slot : Nat) (key : κ) : Forest κ → Forest κ
  | nil => nil
  | cons item marked children siblings =>
      cons (if item.slot = slot then { item with key } else item) marked
        (children.setKey slot key) (siblings.setKey slot key)

/-- The parent of the node in slot `slot`, where `parent` is the parent of the
whole row. -/
def parent? (slot : Nat) (parent : Item κ) : Forest κ → Option (Item κ)
  | nil => none
  | cons item _ children siblings =>
      if item.slot = slot then some parent
      else
        match children.parent? slot item with
        | some found => some found
        | none => siblings.parent? slot parent

/-- Cuts the node in slot `slot` from its parent and cascades upwards: a
marked node that lost a child is cut in turn, an unmarked one is marked. -/
def sever (slot : Nat) : Forest κ → Option (Severed κ)
  | nil => none
  | cons item marked children siblings =>
      if item.slot = slot then
        some ⟨siblings, [⟨item, children⟩], true⟩
      else
        match children.sever slot with
        | some below =>
            if below.lost && marked then
              some ⟨siblings, ⟨item, below.remaining⟩ :: below.cut, true⟩
            else
              some ⟨cons item (marked || below.lost) below.remaining siblings,
                below.cut, false⟩
        | none =>
            match siblings.sever slot with
            | some beside =>
                some { beside with
                  remaining := cons item marked children beside.remaining }
            | none => none

end Forest

namespace Tree

variable {κ : Type u}

/-- The key at the root. -/
def key (t : Tree κ) : κ :=
  t.item.key

/-- Number of children of the root. -/
def degree (t : Tree κ) : Nat :=
  t.children.length

/-- Every item of the tree, the root's first. -/
def items (t : Tree κ) : List (Item κ) :=
  t.item :: t.children.items

/-- Makes `loser` the second child of `winner`, unmarked; a winner without
children gets it as its only child. -/
def link (winner loser : Tree κ) : Tree κ :=
  { winner with
    children :=
      match winner.children with
      | .nil => .cons loser.item false loser.children .nil
      | .cons first marked children siblings =>
          .cons first marked children
            (.cons loser.item false loser.children siblings) }

end Tree

namespace Forest

variable {κ : Type u}

@[simp] theorem length_toTrees (f : Forest κ) : f.toTrees.length = f.length := by
  induction f with
  | nil => rfl
  | cons item marked children siblings _ ih => simp [toTrees, length, ih]

@[simp] theorem items_toTrees (f : Forest κ) : f.toTrees.flatMap Tree.items = f.items := by
  induction f with
  | nil => rfl
  | cons item marked children siblings _ ih =>
      simp [toTrees, items, Tree.items, ih]

/-- Severing loses no item. -/
theorem items_sever_perm {slot : Nat} {f : Forest κ} {s : Severed κ}
    (h : f.sever slot = some s) :
    (s.cut.flatMap Tree.items ++ s.remaining.items).Perm f.items := by
  induction f generalizing s with
  | nil => simp [sever] at h
  | cons item marked children siblings below beside =>
      unfold sever at h
      split at h
      · cases h
        simp [Tree.items, items]
      · split at h
        next t found =>
          have perm := below found
          split at h <;> cases h
          · simpa [Tree.items, items, List.append_assoc] using
              (List.perm_append_comm.trans perm).append_right siblings.items
          · simp only [items]
            refine List.perm_middle.trans (.cons _ ?_)
            simpa [List.append_assoc] using perm.append_right siblings.items
        next =>
          split at h
          next t found =>
            cases h
            simp only [items]
            refine List.perm_middle.trans (.cons _ ?_)
            have perm := (beside found).append_left children.items
            refine List.Perm.trans ?_ perm
            have swap :
                (t.cut.flatMap Tree.items ++ children.items).Perm
                  (children.items ++ t.cut.flatMap Tree.items) :=
              List.perm_append_comm
            simpa [List.append_assoc] using swap.append_right t.remaining.items
          next => simp at h

end Forest

namespace Tree

variable {κ : Type u}

/-- The winner of a link gains one child. -/
@[simp] theorem degree_link (winner loser : Tree κ) :
    (winner.link loser).degree = winner.degree + 1 := by
  obtain ⟨item, children⟩ := winner
  cases children <;> rfl

/-- Linking loses no item. -/
theorem items_link_perm (winner loser : Tree κ) :
    (winner.link loser).items.Perm (winner.items ++ loser.items) := by
  obtain ⟨item, children⟩ := winner
  cases children with
  | nil => simp [link, items, Forest.items]
  | cons first marked below beside =>
      simp only [link, items, Forest.items, List.cons_append]
      refine .cons _ (.cons _ ?_)
      simp only [List.append_assoc]
      refine .append_left _ ?_
      have swap :
          (loser.item :: loser.children.items ++ beside.items).Perm
            (beside.items ++ loser.item :: loser.children.items) :=
        List.perm_append_comm
      exact swap

end Tree

end CallbackLoop
