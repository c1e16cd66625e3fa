import CallbackLoop.Arena
import CallbackLoop.Heap.Forest
import CallbackLoop.Sorting

/-!
# A Fibonacci heap with stable handles

A priority queue with insertion, extraction of a least key, decrease of a key
and deletion, the last two through a handle that stays good until its entry
leaves the heap. The serial number in a handle tells it from handles of later
entries in the same arena slot.

The roots form a ring. It is kept as a list that starts at the minimum, so a
new minimum turns the ring. Which of several equal keys comes out first hangs
on the shape of the forest, and every operation below fixes that shape: new
roots go right after the minimum, the children of an extracted root take its
place in reverse order, and consolidation keeps the surviving roots in ring
order.
-/

namespace CallbackLoop

universe u

/-- Names an entry of a heap: its arena slot and its serial number. -/
structure Handle where
  slot : Nat
  serial : Nat
deriving DecidableEq

/-- A Fibonacci heap whose keys are compared by `cmp`: the ring of roots from
the minimum on, the serial number of each occupied slot, and the serial number
of the next entry. -/
structure Heap (κ : Type u) (cmp : κ → κ → Ordering) where
  roots : List (Tree κ) := []
  slots : Arena Nat := .ofSize 16
  nextSerial : Nat := 0

namespace Heap

variable {κ : Type u}

/-- Why a key could not be decreased. Both hand the rejected key back. -/
inductive Rejection (κ : Type u) where
  | notDecreased (key : κ)
  | staleHandle (key : κ)

namespace Rejection

/-- The key that was rejected. -/
def key : Rejection κ → κ
  | notDecreased key => key
  | staleHandle key => key

/-- Short name of the rejection, the key left out. -/
def name : Rejection κ → String
  | notDecreased _ => "NotDecreased(..)"
  | staleHandle _ => "StaleHandle(..)"

/-- What the rejection means. -/
def message : Rejection κ → String
  | notDecreased _ => "new key does not compare less than the current key"
  | staleHandle _ => "node handle is not held by this heap"

end Rejection

/-- A root together with its place in the ring. -/
structure Placed (κ : Type u) where
  place : Nat
  tree : Tree κ

section Consolidation

variable (cmp : κ → κ → Ordering)

/-- Links two roots of equal degree. The newcomer loses only if the resident
compares strictly below it; the winner keeps its own place. -/
def join (resident newcomer : Placed κ) : Placed κ :=
  if (cmp resident.tree.key newcomer.tree.key).isLT then
    { resident with tree := resident.tree.link newcomer.tree }
  else
    { newcomer with tree := newcomer.tree.link resident.tree }

/-- Puts a root into the first bucket if that is empty; otherwise joins it with
the root there and carries the result to the next bucket. -/
def carry (root : Placed κ) : List (Option (Placed κ)) → List (Option (Placed κ))
  | [] => [some root]
  | none :: buckets => some root :: buckets
  | some resident :: buckets => none :: carry (join cmp resident root) buckets

/-- Carries a root into the buckets from number `degree` on. -/
def deposit (root : Placed κ) :
    (degree : Nat) → List (Option (Placed κ)) → List (Option (Placed κ))
  | 0, buckets => carry cmp root buckets
  | degree + 1, [] => none :: deposit root degree []
  | degree + 1, bucket :: buckets => bucket :: deposit root degree buckets

/-- The buckets after every root of the ring has been deposited: bucket `d`
holds the one root of degree `d`, if there is one. -/
def buckets (ring : List (Tree κ)) : List (Option (Placed κ)) :=
  ring.zipIdx.foldl
    (fun buckets (tree, place) => deposit cmp ⟨place, tree⟩ tree.degree buckets) []

/-- The first root that no later one compares strictly below. -/
def least (best : Placed κ) : List (Placed κ) → Placed κ
  | [] => best
  | root :: roots =>
      least (if (cmp root.tree.key best.tree.key).isLT then root else best) roots

end Consolidation

/-- Turns the ring so that it starts at the root in slot `slot`. -/
def turnTo (slot : Nat) (ring : List (Tree κ)) : List (Tree κ) :=
  ring.dropWhile (·.item.slot ≠ slot) ++ ring.takeWhile (·.item.slot ≠ slot)

/-- Merges roots until no two have the same degree. The survivors stay in ring
order, and the ring is turned to the least of them, the one of smallest degree
first among equals. -/
def consolidate (cmp : κ → κ → Ordering) (ring : List (Tree κ)) : List (Tree κ) :=
  match (buckets cmp ring).filterMap id with
  | [] => []
  | first :: others =>
      let survivors := sortBy (fun a b => a.place ≤ b.place) (first :: others)
      turnTo (least cmp first others).tree.item.slot (survivors.map (·.tree))

/-- Severs the node in slot `slot` from whichever tree of the ring it lies in,
the roots themselves excepted: the ring without the cut nodes, and these. -/
def severRoots (slot : Nat) : List (Tree κ) → Option (List (Tree κ) × List (Tree κ))
  | [] => none
  | tree :: ring =>
      match tree.children.sever slot with
      | some below => some ({ tree with children := below.remaining } :: ring, below.cut)
      | none =>
          match severRoots slot ring with
          | some (ring, cut) => some (tree :: ring, cut)
          | none => none

/-- Makes the node in slot `slot` a root: the cut trees go right after the
minimum, the one cut last first. A node that is a root already stays put. -/
def uproot (slot : Nat) (ring : List (Tree κ)) : List (Tree κ) :=
  match severRoots slot ring with
  | some (first :: others, cut) => first :: (cut ++ others)
  | _ => ring

variable {cmp : κ → κ → Ordering}

/-- Every entry of the heap. -/
def items (h : Heap κ cmp) : List (Item κ) :=
  h.roots.flatMap Tree.items

/-- Number of entries. -/
def size (h : Heap κ cmp) : Nat :=
  h.slots.size

/-- Whether the heap holds no entry. -/
def isEmpty (h : Heap κ cmp) : Bool :=
  h.roots.isEmpty

/-- Whether `id` names an entry of this heap. -/
def contains (h : Heap κ cmp) (id : Handle) : Bool :=
  h.slots.get? id.slot == some id.serial

/-- The key of the entry that `id` names. -/
def get? (h : Heap κ cmp) (id : Handle) : Option κ :=
  (h.items.find? fun item => item.slot = id.slot ∧ item.serial = id.serial).map (·.key)

/-- A least key. -/
def minimum? (h : Heap κ cmp) : Option κ :=
  h.roots.head?.map (·.key)

/-- The handle of the entry with the key that `minimum?` shows. -/
def minHandle? (h : Heap κ cmp) : Option Handle :=
  h.roots.head?.map fun tree => ⟨tree.item.slot, tree.item.serial⟩

/-- Adds a root right after the minimum, which it replaces if it compares
strictly below it. -/
def addRoot (cmp : κ → κ → Ordering) (tree : Tree κ) : List (Tree κ) → List (Tree κ)
  | [] => [tree]
  | first :: others =>
      if (cmp tree.key first.key).isLT then tree :: (others ++ [first])
      else first :: tree :: others

/-- Adds `key` and returns the handle of its entry. -/
def insert (h : Heap κ cmp) (key : κ) : Handle × Heap κ cmp :=
  let (slot, slots) := h.slots.insert h.nextSerial
  (⟨slot, h.nextSerial⟩,
    { roots := addRoot cmp ⟨⟨slot, h.nextSerial, key⟩, .nil⟩ h.roots
      slots
      nextSerial := h.nextSerial + 1 })

/-- Takes out the entry that `minHandle?` names. -/
def extractMin? (h : Heap κ cmp) : Option (κ × Heap κ cmp) :=
  match h.roots with
  | [] => none
  | first :: others =>
      some (first.key,
        { h with
          roots := consolidate cmp (first.children.toTrees.reverse ++ others)
          slots := h.slots.erase first.item.slot })

/-- The parent of the node in slot `slot`; roots have none. -/
def parent? (h : Heap κ cmp) (slot : Nat) : Option (Item κ) :=
  h.roots.findSome? fun tree => tree.children.parent? slot tree.item

/-- Gives the node in slot `slot` a new key, leaving the shape alone. -/
def setKey (slot : Nat) (key : κ) (ring : List (Tree κ)) : List (Tree κ) :=
  ring.map fun tree =>
    ⟨if tree.item.slot = slot then { tree.item with key } else tree.item,
      tree.children.setKey slot key⟩

/-- Lowers the key of the entry `id` names. The new key has to compare strictly
below the old one; else the heap stays as it is and the key is handed back. -/
def decreaseKey (h : Heap κ cmp) (id : Handle) (key : κ) :
    Except (Rejection κ) (Heap κ cmp) :=
  match h.get? id with
  | none => .error (.staleHandle key)
  | some old =>
      if (cmp key old).isLT then
        let ring := setKey id.slot key h.roots
        let ring :=
          match h.parent? id.slot with
          | some parent =>
              if (cmp key parent.key).isLT then uproot id.slot ring else ring
          | none => ring
        let ring :=
          match ring with
          | first :: _ =>
              if (cmp key first.key).isLT then turnTo id.slot ring else ring
          | [] => ring
        .ok { h with roots := ring }
      else .error (.notDecreased key)

/-- Takes out the entry that `id` names: its node is made the first root, as if
its key lay below all others, and then extracted. -/
def delete? (h : Heap κ cmp) (id : Handle) : Option (κ × Heap κ cmp) :=
  if h.contains id then
    { h with roots := turnTo id.slot (uproot id.slot h.roots) }.extractMin?
  else none

/-- At most `n` keys, each the least of what is left. -/
def drain : Nat → Heap κ cmp → List κ × Heap κ cmp
  | 0, h => ([], h)
  | n + 1, h =>
      match h.extractMin? with
      | none => ([], h)
      | some (key, h) =>
          let (keys, h) := drain n h
          (key :: keys, h)

/-- Takes out every entry, least key first. -/
def toSortedList (h : Heap κ cmp) : List κ × Heap κ cmp :=
  drain h.size h

end Heap

end CallbackLoop
