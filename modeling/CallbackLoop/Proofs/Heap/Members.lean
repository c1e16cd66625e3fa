import CallbackLoop.Proofs.Heap.Ring
import Mathlib.Algebra.BigOperators.Group.List.Basic
import Mathlib.Algebra.Order.Group.Multiset
import Mathlib.Tactic.Abel

/-!
# The members of a forest

A member of a forest is a node together with its relatives: the slot of its parent, its
mark and the slots of its children in order.  A forest is the multiset of its members.

Linking and cutting trees changes few of them.  `members_…` and `below_…` say which.
-/

namespace CallbackLoop

universe u

variable {κ : Type u}

deriving instance DecidableEq for Item

/-- A node and its relatives. -/
structure Member (κ : Type u) where
  item : Item κ
  parent : Option Nat
  marked : Bool
  children : List Nat
deriving DecidableEq

/-- The slot of a member. -/
def Member.slot (m : Member κ) : Nat :=
  m.item.slot

namespace Forest

/-- The slots of the nodes in a row. -/
def row : Forest κ → List Nat
  | nil => []
  | cons item _ _ siblings => item.slot :: siblings.row

/-- The members of a row and below, where `parent` is the slot of the parent of the
whole row. -/
def members
    (parent : Nat) :
    Forest κ → Multiset (Member κ)
  | nil => 0
  | cons item marked children siblings =>
      ⟨item, some parent, marked, children.row⟩ ::ₘ
        (children.members item.slot + siblings.members parent)

@[simp] theorem length_row
    (f : Forest κ) :
    f.row.length = f.length := by
  induction f with
  | nil =>
      rfl
  | cons item marked children siblings _ ih =>
      simp [row, length, ih]

@[simp] theorem map_item_members
    (parent : Nat) (f : Forest κ) :
    (f.members parent).map Member.item = f.items := by
  induction f generalizing parent with
  | nil =>
      rfl
  | cons item marked children siblings below beside =>
      simp [members, items, below, beside, Multiset.coe_add]

theorem length_le_card_members
    (parent : Nat) (f : Forest κ) :
    f.length ≤ (f.members parent).card := by
  induction f with
  | nil =>
      exact Nat.le_refl _
  | cons item marked children siblings _ beside =>
      rw [members, Multiset.card_cons, Multiset.card_add, length]
      omega

end Forest

namespace Tree

/-- The root of a tree as a member. -/
def root (t : Tree κ) : Member κ :=
  ⟨t.item, none, false, t.children.row⟩

/-- The members of a tree below its root. -/
def below (t : Tree κ) : Multiset (Member κ) :=
  t.children.members t.item.slot

/-- The members of a tree. -/
def members (t : Tree κ) : Multiset (Member κ) :=
  t.root ::ₘ t.below

@[simp] theorem map_item_members
    (t : Tree κ) :
    t.members.map Member.item = t.items := by
  simp [members, root, below, items]

/-- The slots of the children of a node that gets another child. -/
def withSecond (slot : Nat) : List Nat → List Nat
  | [] => [slot]
  | first :: others => first :: slot :: others

theorem root_link
    (winner loser : Tree κ) :
    (winner.link loser).root =
      { winner.root with children := withSecond loser.item.slot winner.root.children } := by
  obtain ⟨item, children⟩ := winner
  cases children <;> rfl

/-- A link makes one member out of the root that loses. -/
theorem below_link
    (winner loser : Tree κ) :
    (winner.link loser).below =
      { loser.root with parent := some winner.item.slot } ::ₘ (winner.below + loser.below) := by
  obtain ⟨item, children⟩ := winner
  cases children with
  | nil =>
      simp [link, below, Forest.members, root]
  | cons first marked below beside =>
      simp only [link, Tree.below, Forest.members, root, ← Multiset.singleton_add]
      abel

end Tree

namespace Forest

/-- The members of a row are its nodes and what lies below them. -/
theorem members_eq
    (parent : Nat) (f : Forest κ) :
    ∃ tops : Multiset (Member κ), (∀ m ∈ tops, m.parent = some parent) ∧
      f.members parent = tops + (f.toTrees.map Tree.below).sum := by
  induction f with
  | nil =>
      exact ⟨0, by simp, rfl⟩
  | cons item marked children siblings _ ih =>
      obtain ⟨tops, htops, heq⟩ := ih
      refine ⟨⟨item, some parent, marked, children.row⟩ ::ₘ tops, ?_, ?_⟩
      · simpa using htops
      · simp only [members, toTrees, List.map_cons, List.sum_cons, heq, Tree.below,
          ← Multiset.singleton_add]
        abel

end Forest

namespace Heap

/-- The slots of the roots in a ring. -/
def row (ring : List (Tree κ)) : List Nat :=
  ring.map fun t => t.item.slot

@[simp] theorem row_nil :
    row ([] : List (Tree κ)) = [] :=
  rfl

@[simp] theorem row_cons
    (t : Tree κ) (ring : List (Tree κ)) :
    row (t :: ring) = t.item.slot :: row ring :=
  rfl

@[simp] theorem row_append
    (ring ring' : List (Tree κ)) :
    row (ring ++ ring') = row ring ++ row ring' :=
  List.map_append

/-- The members below the roots of a ring. -/
def below (ring : List (Tree κ)) : Multiset (Member κ) :=
  (ring.map Tree.below).sum

/-- The members of a ring of trees. -/
def ringMembers (ring : List (Tree κ)) : Multiset (Member κ) :=
  (ring.map Tree.members).sum

/-- The members of a heap. -/
def members {cmp : κ → κ → Ordering} (h : Heap κ cmp) : Multiset (Member κ) :=
  ringMembers h.roots

@[simp] theorem ringMembers_nil :
    ringMembers ([] : List (Tree κ)) = 0 :=
  rfl

@[simp] theorem ringMembers_cons
    (t : Tree κ) (ring : List (Tree κ)) :
    ringMembers (t :: ring) = t.members + ringMembers ring := by
  simp [ringMembers]

@[simp] theorem ringMembers_append
    (ring ring' : List (Tree κ)) :
    ringMembers (ring ++ ring') = ringMembers ring + ringMembers ring' := by
  simp [ringMembers]

theorem ringMembers_eq
    (ring : List (Tree κ)) :
    ringMembers ring = (ring.map Tree.root : List (Member κ)) + below ring := by
  induction ring with
  | nil =>
      rfl
  | cons t ring ih =>
      unfold ringMembers below at ih ⊢
      simp only [List.map_cons, List.sum_cons, ih, Tree.members, ← Multiset.cons_coe,
        ← Multiset.singleton_add]
      abel

theorem length_le_card_ringMembers
    (ring : List (Tree κ)) :
    ring.length ≤ (ringMembers ring).card := by
  rw [ringMembers_eq, Multiset.card_add, Multiset.coe_card, List.length_map]
  exact Nat.le_add_right _ _

theorem ringMembers_perm
    {ring ring' : List (Tree κ)} (h : ring.Perm ring') :
    ringMembers ring = ringMembers ring' := by
  unfold ringMembers
  exact (h.map _).sum_eq

theorem below_perm
    {ring ring' : List (Tree κ)} (h : ring.Perm ring') :
    below ring = below ring' := by
  unfold below
  exact (h.map _).sum_eq

@[simp] theorem map_item_ringMembers
    (ring : List (Tree κ)) :
    (ringMembers ring).map Member.item = ring.flatMap Tree.items := by
  induction ring with
  | nil =>
      rfl
  | cons t ring ih =>
      unfold ringMembers at ih ⊢
      simp [ih]

end Heap
end CallbackLoop
