import CallbackLoop.Heap.Basic

/-!
# One-shot timers

Timers fire at the earliest deadline first; timers with the same deadline fire
in the order in which they were scheduled.
-/

namespace CallbackLoop

/-- A handler to run at an instant. -/
structure Timer (H : Type) where
  deadline : Nat
  /-- Number of timers scheduled before this one. -/
  order : Nat
  handler : H

/-- Earlier deadlines first, then the order of scheduling. -/
def Timer.compare {H : Type} (a b : Timer H) : Ordering :=
  (Ord.compare a.deadline b.deadline).then (Ord.compare a.order b.order)

/-- The timers that have neither fired nor been cancelled. -/
structure TimerQueue (H : Type) where
  heap : Heap (Timer H) Timer.compare := {}
  scheduled : Nat := 0

namespace TimerQueue

variable {H : Type}

/-- Adds a timer for the given instant. -/
def schedule (q : TimerQueue H) (deadline : Nat) (handler : H) : Handle × TimerQueue H :=
  let (id, heap) := q.heap.insert ⟨deadline, q.scheduled, handler⟩
  (id, { heap, scheduled := q.scheduled + 1 })

/-- Removes a pending timer. The answer is `false` if it fired or was cancelled
before. -/
def cancel (q : TimerQueue H) (id : Handle) : Bool × TimerQueue H :=
  match q.heap.delete? id with
  | some (_, heap) => (true, { q with heap })
  | none => (false, q)

/-- Takes out the first timer, if its deadline is not after `now`. -/
def takeDue? (q : TimerQueue H) (now : Nat) : Option (Timer H × TimerQueue H) :=
  match q.heap.minimum? with
  | none => none
  | some first =>
      if first.deadline ≤ now then
        q.heap.extractMin?.map fun (timer, heap) => (timer, { q with heap })
      else none

/-- The deadline of the first timer. -/
def firstDeadline? (q : TimerQueue H) : Option Nat :=
  q.heap.minimum?.map (·.deadline)

/-- Number of pending timers. -/
def size (q : TimerQueue H) : Nat :=
  q.heap.size

end TimerQueue

end CallbackLoop
