import CallbackLoop.Heap.Basic

/-!
# Linked heaps

How a Fibonacci heap lies in its arena. Each node holds the slot of its parent,
the slot of one of its children and the slots of its neighbours in the ring of
its siblings, and every operation is a sequence of reads and writes of single
nodes.

Here an operation can go wrong: it can access a vacant slot, take a child from
a node that has none, or go round a loop for ever. Whatever goes wrong ends it
with a `Defect`. No loop has to go round more often than the arena has slots,
or a bucket vector has buckets, so one that does counts as endless.
-/

namespace CallbackLoop

/-- What can be wrong with a linked heap. -/
inductive Defect where
  /-- A vacant slot was accessed. -/
  | vacantSlot
  /-- A node without children was to lose one. -/
  | degreeUnderflow
  | endlessLoop
  /-- The node to be deleted did not become the minimum. -/
  | misplacedMinimum
deriving DecidableEq

/-- What a node holds apart from its neighbours. -/
structure Vertex (κ : Type) where
  key : κ
  serial : Nat
  /-- Compares below every other node. -/
  lowest : Bool := false
  parent : Option Nat := none
  child : Option Nat := none
  degree : Nat := 0
  marked : Bool := false

/-- A node of a linked heap. One without siblings is its own neighbour. -/
structure Node (κ : Type) extends Vertex κ where
  left : Nat
  right : Nat

/-- A Fibonacci heap in an arena of nodes. -/
structure LinkedHeap (κ : Type) (cmp : κ → κ → Ordering) where
  nodes : Arena (Node κ) := .ofSize 16
  min : Option Nat := none
  nextSerial : Nat := 0

namespace LinkedHeap

variable {κ : Type}

/-- The node in slot `i`. -/
def node (a : Arena (Node κ)) (i : Nat) : Except Defect (Node κ) :=
  match a.get? i with
  | some n => .ok n
  | none => .error .vacantSlot

/-- Changes the node in slot `i`. -/
def alter (a : Arena (Node κ)) (i : Nat) (f : Node κ → Node κ) :
    Except Defect (Arena (Node κ)) := do
  let n ← node a i
  return a.set i (f n)

def setLeft (a : Arena (Node κ)) (i left : Nat) : Except Defect (Arena (Node κ)) :=
  alter a i ({ · with left })

def setRight (a : Arena (Node κ)) (i right : Nat) : Except Defect (Arena (Node κ)) :=
  alter a i ({ · with right })

/-- How often a loop over nodes may go round. -/
def rounds (a : Arena (Node κ)) : Nat :=
  a.slots.size + 1

/-- Puts a node into a vacant slot and leaves it alone. -/
def place (a : Arena (Node κ)) (v : Vertex κ) :
    Except Defect (Nat × Arena (Node κ)) := do
  let (i, a) := a.insert { v with left := 0, right := 0 }
  let a ← setLeft a i i
  let a ← setRight a i i
  return (i, a)

/-- Puts `x`, which is alone, into the ring right after `anchor`. -/
def spliceAfter (a : Arena (Node κ)) (anchor x : Nat) :
    Except Defect (Arena (Node κ)) := do
  let right := (← node a anchor).right
  let a ← setLeft a x anchor
  let a ← setRight a x right
  let a ← setRight a anchor x
  setLeft a right x

/-- Takes `x` out of its ring and leaves it alone. -/
def unlink (a : Arena (Node κ)) (x : Nat) : Except Defect (Arena (Node κ)) := do
  let n ← node a x
  let a ← setRight a n.left n.right
  let a ← setLeft a n.right n.left
  let a ← setLeft a x x
  setRight a x x

/-- The slots of a ring from `cursor` on, up to the one before `start`. -/
def ringFrom (a : Arena (Node κ)) (start : Nat) :
    (fuel cursor : Nat) → Except Defect (List Nat)
  | 0, _ => .error .endlessLoop
  | fuel + 1, cursor => do
      let n ← node a cursor
      if n.right = start then return [cursor]
      return cursor :: (← ringFrom a start fuel n.right)

/-- Takes `x` out of the ring of the children of `parent`. If it is the one that
`parent` shows, its right neighbour is shown from then on. -/
def leaveSiblings (a : Arena (Node κ)) (x parent : Nat) :
    Except Defect (Arena (Node κ)) := do
  let n ← node a x
  if n.right = x then alter a parent ({ · with child := none })
  else if (← node a parent).child = some x then
    let a ← alter a parent ({ · with child := some n.right })
    unlink a x
  else unlink a x

/-- Takes one off the degree of `parent`. -/
def lowerDegree (a : Arena (Node κ)) (parent : Nat) :
    Except Defect (Arena (Node κ)) := do
  if (← node a parent).degree = 0 then throw .degreeUnderflow
  else alter a parent fun p => { p with degree := p.degree - 1 }

/-- Takes `x` from the children of `parent` and leaves it alone. -/
def detachChild (a : Arena (Node κ)) (x parent : Nat) :
    Except Defect (Arena (Node κ)) := do
  let a ← leaveSiblings a x parent
  let a ← lowerDegree a parent
  alter a x ({ · with parent := none, marked := false })

/-- Puts `y`, which is alone, right after the child that `x` shows; if there is
none, `x` shows `y`. -/
def joinChildren (a : Arena (Node κ)) (x y : Nat) : Except Defect (Arena (Node κ)) := do
  match (← node a x).child with
  | none => alter a x ({ · with child := some y })
  | some child => spliceAfter a child y

/-- Makes root `y` the second child of root `x`, or its only one. -/
def adopt (a : Arena (Node κ)) (x y : Nat) : Except Defect (Arena (Node κ)) := do
  let a ← unlink a y
  let a ← joinChildren a x y
  let a ← alter a y ({ · with parent := some x, marked := false })
  alter a x fun n => { n with degree := n.degree + 1 }

/-- Makes `x`, a child of `parent`, the root right after the minimum. -/
def cut (min : Option Nat) (a : Arena (Node κ)) (x parent : Nat) :
    Except Defect (Arena (Node κ)) := do
  let a ← detachChild a x parent
  spliceAfter a (min.getD x) x

/-- Deals with the loss of a child: an unmarked node is marked, a marked one is
cut as well; a root stays as it is. -/
def cascade (min : Option Nat) :
    (fuel : Nat) → Arena (Node κ) → Nat → Except Defect (Arena (Node κ))
  | 0, _, _ => .error .endlessLoop
  | fuel + 1, a, y => do
      let n ← node a y
      match n.parent with
      | none => return a
      | some parent =>
          if n.marked then
            let a ← cut min a y parent
            cascade min fuel a parent
          else alter a y ({ · with marked := true })

/-- Makes `x`, a child of `parent`, a root, and then the ancestors that lose a
child for the second time. -/
def uproot (min : Option Nat) (a : Arena (Node κ)) (x parent : Nat) :
    Except Defect (Arena (Node κ)) := do
  let b ← cut min a x parent
  cascade min (rounds a) b parent

/-- Makes every child of `z` a root right after it, one after the other. -/
def release (z : Nat) :
    (fuel : Nat) → Arena (Node κ) → Except Defect (Arena (Node κ))
  | 0, _ => .error .endlessLoop
  | fuel + 1, a => do
      match (← node a z).child with
      | none => return a
      | some child =>
          let a ← detachChild a child z
          let a ← spliceAfter a z child
          release z fuel a

section Order

variable (cmp : κ → κ → Ordering)

/-- Whether the node in slot `i` compares strictly below that in slot `j`. -/
def less (a : Arena (Node κ)) (i j : Nat) : Except Defect Bool := do
  let m ← node a i
  let n ← node a j
  match m.lowest, n.lowest with
  | true, false => return true
  | _, true => return false
  | false, false => return (cmp m.key n.key).isLT

/-- The minimum, or `x` if that compares strictly below it. -/
def lesser (a : Arena (Node κ)) (min : Option Nat) (x : Nat) :
    Except Defect (Option Nat) := do
  match min with
  | none => return none
  | some m => if ← less cmp a x m then return some x else return some m

/-- Adds `x`, which is alone, to the roots. -/
def addRoot (a : Arena (Node κ)) (min : Option Nat) (x : Nat) :
    Except Defect (Arena (Node κ) × Option Nat) := do
  match min with
  | none => return (a, some x)
  | some m =>
      let a ← spliceAfter a m x
      return (a, ← lesser cmp a min x)

/-- Makes `x` a root if it compares strictly below its parent. -/
def loosen (a : Arena (Node κ)) (min : Option Nat) (x : Nat) :
    Except Defect (Arena (Node κ)) := do
  match (← node a x).parent with
  | none => return a
  | some parent =>
      if ← less cmp a x parent then uproot min a x parent
      else return a

/-- Puts things in order after the key of `x` was lowered. -/
def settle (a : Arena (Node κ)) (min : Option Nat) (x : Nat) :
    Except Defect (Arena (Node κ) × Option Nat) := do
  let a ← loosen cmp a min x
  return (a, ← lesser cmp a min x)

/-- The number of buckets to begin with: one more than a word has bits. -/
def bucketCount : Nat := 65

/-- The buckets, with empty ones added until there is one for `degree`. -/
def widen {α : Type} (buckets : List (Option α)) (degree : Nat) : List (Option α) :=
  buckets ++ List.replicate (degree + 1 - buckets.length) none

/-- Puts root `x` into the bucket of its degree. If another root is there, the
one is made a child of the other, which goes on to the next bucket. -/
def deposit :
    (fuel : Nat) → Arena (Node κ) → List (Option Nat) → (x degree : Nat) →
      Except Defect (List (Option Nat) × Arena (Node κ))
  | 0, _, _, _, _ => .error .endlessLoop
  | fuel + 1, a, buckets, x, degree => do
      let buckets := widen buckets degree
      match buckets[degree]?.join with
      | none => return (buckets.set degree (some x), a)
      | some y =>
          let buckets := buckets.set degree none
          if ← less cmp a y x then
            let a ← adopt a y x
            deposit fuel a buckets y (degree + 1)
          else
            let a ← adopt a x y
            deposit fuel a buckets x (degree + 1)

/-- Puts roots into the buckets one after the other. -/
def depositAll :
    List Nat → List (Option Nat) → Arena (Node κ) →
      Except Defect (List (Option Nat) × Arena (Node κ))
  | [], buckets, a => return (buckets, a)
  | x :: roots, buckets, a => do
      let n ← node a x
      let (buckets, a) ← deposit cmp (buckets.length + 1) a buckets x n.degree
      depositAll roots buckets a

/-- The first root that no later one compares strictly below. -/
def leastOf (a : Arena (Node κ)) : Option Nat → List Nat → Except Defect (Option Nat)
  | best, [] => return best
  | none, x :: roots => leastOf a (some x) roots
  | some best, x :: roots => do
      if ← less cmp a x best then leastOf a (some x) roots
      else leastOf a (some best) roots

/-- Merges the roots of the ring of `start` until no two have the same degree:
the buckets in the end, the nodes and the minimum. -/
def consolidate (a : Arena (Node κ)) (start : Nat) :
    Except Defect (List (Option Nat) × Arena (Node κ) × Option Nat) := do
  let roots ← ringFrom a start (rounds a) start
  let (buckets, a) ← depositAll cmp roots (List.replicate bucketCount none) a
  let min ← leastOf cmp a none (buckets.filterMap id)
  return (buckets, a, min)

/-- Merges the roots once `z` has left their ring, where `next` was its right
neighbour. -/
def closeRing (a : Arena (Node κ)) (z next : Nat) :
    Except Defect (List (Option Nat) × Arena (Node κ) × Option Nat) :=
  if next = z then return ([], a, none)
  else consolidate cmp a next

end Order

/-- Takes the node out of slot `i`. -/
def vacate (a : Arena (Node κ)) (i : Nat) : Except Defect (Node κ × Arena (Node κ)) :=
  match a.remove i with
  | .ok left => .ok left
  | .error _ => .error .vacantSlot

variable {cmp : κ → κ → Ordering}

/-- What an extraction leads to: the key, the buckets at the end of the
consolidation, if there was one, and the heap that is left. -/
structure Extraction (κ : Type) (cmp : κ → κ → Ordering) where
  key : κ
  buckets : List (Option Nat)
  heap : LinkedHeap κ cmp

/-- Number of nodes. -/
def size (h : LinkedHeap κ cmp) : Nat :=
  h.nodes.size

/-- Whether the heap has no node. -/
def isEmpty (h : LinkedHeap κ cmp) : Bool :=
  h.min.isNone

/-- The node that `id` names, if it is in the heap. -/
def resolve? (h : LinkedHeap κ cmp) (id : Handle) : Option (Node κ) :=
  (h.nodes.get? id.slot).filter (·.serial = id.serial)

/-- Whether `id` names a node of this heap. -/
def contains (h : LinkedHeap κ cmp) (id : Handle) : Bool :=
  (h.resolve? id).isSome

/-- The key of the node that `id` names. -/
def get? (h : LinkedHeap κ cmp) (id : Handle) : Option κ :=
  (h.resolve? id).map (·.key)

/-- The key of the minimum. -/
def minimum? (h : LinkedHeap κ cmp) : Except Defect (Option κ) :=
  match h.min with
  | none => return none
  | some m => return some (← node h.nodes m).key

/-- The handle of the minimum. -/
def minHandle? (h : LinkedHeap κ cmp) : Except Defect (Option Handle) :=
  match h.min with
  | none => return none
  | some m => return some ⟨m, (← node h.nodes m).serial⟩

/-- Adds `key` and returns the handle of its node. -/
def insert (h : LinkedHeap κ cmp) (key : κ) :
    Except Defect (Handle × LinkedHeap κ cmp) := do
  let (i, nodes) ← place h.nodes { key, serial := h.nextSerial }
  let (nodes, min) ← addRoot cmp nodes h.min i
  return (⟨i, h.nextSerial⟩, { nodes, min, nextSerial := h.nextSerial + 1 })

/-- Takes out the minimum. -/
def extractMin? (h : LinkedHeap κ cmp) : Except Defect (Option (Extraction κ cmp)) := do
  match h.min with
  | none => return none
  | some z =>
      let nodes ← release z (rounds h.nodes) h.nodes
      let next := (← node nodes z).right
      let nodes ← unlink nodes z
      let (buckets, nodes, min) ← closeRing cmp nodes z next
      let (n, nodes) ← vacate nodes z
      return some ⟨n.key, buckets, { h with nodes, min }⟩

/-- Lowers the key of the node `id` names. The new key has to compare strictly
below the old one; else the heap stays as it is and the key is handed back. -/
def decreaseKey (h : LinkedHeap κ cmp) (id : Handle) (key : κ) :
    Except Defect (Except (Heap.Rejection κ) (LinkedHeap κ cmp)) := do
  match h.resolve? id with
  | none => return .error (.staleHandle key)
  | some n =>
      if n.lowest || !(cmp key n.key).isLT then return .error (.notDecreased key)
      else
        let nodes ← alter h.nodes id.slot ({ · with key })
        let (nodes, min) ← settle cmp nodes h.min id.slot
        return .ok { h with nodes, min }

/-- Takes out the node that `id` names, after lowering it below all others. -/
def delete? (h : LinkedHeap κ cmp) (id : Handle) :
    Except Defect (Option (Extraction κ cmp)) := do
  match h.resolve? id with
  | none => return none
  | some _ =>
      let nodes ← alter h.nodes id.slot ({ · with lowest := true })
      let (nodes, min) ← settle cmp nodes h.min id.slot
      if min = some id.slot then extractMin? { h with nodes, min }
      else throw .misplacedMinimum

end LinkedHeap

end CallbackLoop
