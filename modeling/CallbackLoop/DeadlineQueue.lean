import CallbackLoop.Heap.Basic

/-!
# Inactivity deadlines

The instants by which descriptors have to show activity. A deadline is moved
many times and removed as soon as its descriptor becomes active.
-/

namespace CallbackLoop

/-- The instant by which a descriptor has to show activity. -/
structure Deadline where
  instant : Nat
  fd : Int
deriving DecidableEq

/-- Earlier instants first, then smaller descriptors. -/
def Deadline.compare (a b : Deadline) : Ordering :=
  (Ord.compare a.instant b.instant).then (Ord.compare a.fd b.fd)

/-- The armed deadlines. -/
structure DeadlineQueue where
  heap : Heap Deadline Deadline.compare := {}

namespace DeadlineQueue

/-- Arms `fd` for the given instant in place of the entry `existing`. An earlier
deadline is lowered in place; any other gets a new entry. -/
def arm (q : DeadlineQueue) (existing : Option Handle) (fd : Int) (instant : Nat) :
    Handle × DeadlineQueue :=
  let deadline : Deadline := ⟨instant, fd⟩
  let add (heap : Heap Deadline Deadline.compare) : Handle × DeadlineQueue :=
    let (id, heap) := heap.insert deadline
    (id, ⟨heap⟩)
  match existing with
  | none => add q.heap
  | some id =>
      match q.heap.decreaseKey id deadline with
      | .ok heap => (id, ⟨heap⟩)
      | .error (.notDecreased _) =>
          match q.heap.delete? id with
          | some (_, heap) => add heap
          | none => add q.heap
      | .error (.staleHandle _) => add q.heap

/-- Removes the entry `id`, if it is still there. -/
def disarm (q : DeadlineQueue) (id : Handle) : DeadlineQueue :=
  match q.heap.delete? id with
  | some (_, heap) => ⟨heap⟩
  | none => q

/-- Takes out the first deadline, if it is not after `now`, and names its
descriptor. -/
def takeDue? (q : DeadlineQueue) (now : Nat) : Option (Int × DeadlineQueue) :=
  match q.heap.minimum? with
  | none => none
  | some first =>
      if first.instant ≤ now then
        q.heap.extractMin?.map fun (deadline, heap) => (deadline.fd, ⟨heap⟩)
      else none

/-- The first instant. -/
def firstInstant? (q : DeadlineQueue) : Option Nat :=
  q.heap.minimum?.map (·.instant)

end DeadlineQueue

end CallbackLoop
