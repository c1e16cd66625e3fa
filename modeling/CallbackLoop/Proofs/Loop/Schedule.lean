import CallbackLoop.Proofs.Heap.Lookup
import CallbackLoop.TimerQueue

/-!
# Timers of a queue

A queue holds a timer under each handle that is pending.  Scheduling, cancelling and
taking out a due timer each change what is held under one handle, whatever the shape
of the heap.
-/

namespace CallbackLoop

variable {H : Type}

instance : Std.TransCmp (Timer.compare (H := H)) :=
  inferInstanceAs
    (Std.TransCmp (compareLex (compareOn Timer.deadline) (compareOn Timer.order)))

/-- A timer that does not compare later is not due later. -/
theorem Timer.deadline_le
    {a b : Timer H} (h : (Timer.compare a b).isLE = true) :
    a.deadline ≤ b.deadline := by
  rw [Timer.compare, Ordering.isLE_then_iff_and, Nat.isLE_compare] at h
  exact h.1

namespace TimerQueue

variable {q : TimerQueue H}

/-- The timer that is pending under a handle. -/
def timer? (q : TimerQueue H) (id : Handle) : Option (Timer H) :=
  q.heap.get? id

/-- The heap of a queue is settled. -/
def Settled (q : TimerQueue H) : Prop :=
  q.heap.Settled

/-- The serial number of the next timer. -/
def nextSerial (q : TimerQueue H) : Nat :=
  q.heap.nextSerial

theorem settled_empty :
    ({} : TimerQueue H).Settled :=
  Heap.settled_empty

theorem timer?_empty
    (id : Handle) :
    ({} : TimerQueue H).timer? id = none :=
  rfl

theorem serial_lt
    {id : Handle} {timer : Timer H} (h : q.Settled) (htimer : q.timer? id = some timer) :
    id.serial < q.nextSerial :=
  Heap.Sound.serial_lt h.toSound htimer

/-- A list that names every pending timer once is as long as the queue. -/
theorem length_eq_size
    (h : q.Settled) {ids : List Handle} (hnodup : ids.Nodup)
    (hids : ∀ id, id ∈ ids ↔ (q.timer? id).isSome = true) :
    ids.length = q.size :=
  Heap.Sound.length_eq_size h.toSound hnodup hids

theorem schedule_spec
    (h : q.Settled) (deadline : Nat) (handler : H) :
    (q.schedule deadline handler).2.Settled ∧
      (q.schedule deadline handler).2.timer? =
        Function.update q.timer? (q.schedule deadline handler).1
          (some ⟨deadline, q.scheduled, handler⟩) ∧
      (q.schedule deadline handler).1.serial = q.nextSerial ∧
      (q.schedule deadline handler).2.nextSerial = q.nextSerial + 1 :=
  Heap.Settled.get?_insert h ⟨deadline, q.scheduled, handler⟩

/-- Cancelling tells whether the timer was pending, which it no longer is. -/
theorem cancel_spec
    (h : q.Settled) (id : Handle) :
    (q.cancel id).1 = (q.timer? id).isSome ∧ (q.cancel id).2.Settled ∧
      (q.cancel id).2.timer? = Function.update q.timer? id none ∧
      (q.cancel id).2.nextSerial = q.nextSerial := by
  unfold cancel timer?
  rcases Heap.Settled.delete?_cases h id with ⟨hget, hdelete⟩ |
    ⟨timer, heap, hget, hdelete, hs, hlookup, hnext⟩
  · rw [hdelete, hget]
    exact ⟨rfl, h, (Function.update_eq_self_iff.2 hget.symm).symm, rfl⟩
  · rw [hdelete, hget]
    exact ⟨rfl, hs, hlookup, hnext⟩

/-- A first timer that is due is taken out; without one no timer is due. -/
theorem takeDue?_cases
    (h : q.Settled) (now : Nat) :
    (q.takeDue? now = none ∧ ∀ id timer, q.timer? id = some timer → now < timer.deadline) ∨
    ∃ id timer q', q.takeDue? now = some (timer, q') ∧ q'.Settled ∧
      q.timer? id = some timer ∧ timer.deadline ≤ now ∧
      q'.timer? = Function.update q.timer? id none ∧ q'.nextSerial = q.nextSerial := by
  unfold takeDue?
  rcases Heap.Settled.minimum?_cases h with ⟨hnone, hempty⟩ |
    ⟨id, first, heap, hfirst, hget, hextract, hs, hlookup, hnext, hleast⟩
  · refine .inl ⟨by rw [hnone], fun id timer htimer => ?_⟩
    rw [timer?, hempty] at htimer
    cases htimer
  · simp only [hfirst, hextract]
    by_cases hdue : first.deadline ≤ now
    · exact .inr ⟨id, first, { q with heap }, by simp [hdue], hs, hget, hdue, hlookup, hnext⟩
    · refine .inl ⟨by simp [hdue], fun other timer hother => ?_⟩
      have hle := Timer.deadline_le (hleast other timer hother)
      omega

end TimerQueue
end CallbackLoop
