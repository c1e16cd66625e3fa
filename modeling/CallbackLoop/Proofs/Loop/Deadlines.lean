import CallbackLoop.Proofs.Heap.Lookup
import CallbackLoop.Proofs.Loop.Operations

/-!
# Deadlines of a queue

A queue gives each of its entries a deadline.  Arming, disarming and taking out a due
deadline each change the deadline of one entry, whatever the shape of the heap.
-/

namespace CallbackLoop

instance : Std.TransCmp Deadline.compare :=
  inferInstanceAs (Std.TransCmp (compareLex (compareOn Deadline.instant) (compareOn Deadline.fd)))

/-- Deadlines that do not compare later are not later. -/
theorem Deadline.instant_le
    {a b : Deadline} (h : (Deadline.compare a b).isLE = true) :
    a.instant ≤ b.instant := by
  rw [Deadline.compare, Ordering.isLE_then_iff_and, Nat.isLE_compare] at h
  exact h.1

namespace DeadlineQueue

variable {q q' q'' : DeadlineQueue}

/-- The deadline of an entry, if it is in the queue. -/
def deadline? (q : DeadlineQueue) (id : Handle) : Option Deadline :=
  q.heap.get? id

/-- The heap of a queue is settled. -/
def Settled (q : DeadlineQueue) : Prop :=
  q.heap.Settled

/-- The serial number of the next entry. -/
def nextSerial (q : DeadlineQueue) : Nat :=
  q.heap.nextSerial

theorem settled_empty :
    ({} : DeadlineQueue).Settled :=
  Heap.settled_empty

theorem deadline?_empty
    (id : Handle) :
    ({} : DeadlineQueue).deadline? id = none :=
  rfl

theorem disarm_spec
    (h : q.Settled) (id : Handle) :
    (q.disarm id).Settled ∧ (q.disarm id).deadline? = Function.update q.deadline? id none ∧
      (q.disarm id).nextSerial = q.nextSerial := by
  unfold disarm
  rcases Heap.Settled.delete?_cases h id with ⟨hget, hdelete⟩ |
    ⟨key, heap, -, hdelete, hs, hget, hnext⟩
  · rw [hdelete]
    exact ⟨h, (Function.update_eq_self_iff.2 hget.symm).symm, rfl⟩
  · rw [hdelete]
    exact ⟨hs, hget, hnext⟩

theorem without_spec
    (h : q.Settled) (existing : Option Handle) :
    (q.without existing).Settled ∧ (q.without existing).nextSerial = q.nextSerial ∧
      ∀ id, (q.without existing).deadline? id =
        if existing = some id then none else q.deadline? id := by
  cases existing with
  | none =>
      exact ⟨h, rfl, fun _ => rfl⟩
  | some other =>
      obtain ⟨hs, hdeadline, hnext⟩ := disarm_spec h other
      refine ⟨hs, hnext, fun id => ?_⟩
      rw [without, hdeadline, Function.update_apply]
      simp only [Option.some.injEq, eq_comm]

/-- Arming lowers the existing deadline in place, or adds an entry in place of the
existing one. -/
theorem arm_cases
    (h : q.Settled) (existing : Option Handle) (fd : Int) (instant : Nat) :
    (q.arm existing fd instant).2.Settled ∧
      (q.arm existing fd instant).2.deadline? =
        Function.update (q.without existing).deadline? (q.arm existing fd instant).1
          (some ⟨instant, fd⟩) ∧
      ((∃ old, existing = some (q.arm existing fd instant).1 ∧
          q.deadline? (q.arm existing fd instant).1 = some old ∧
          Deadline.compare ⟨instant, fd⟩ old = .lt ∧
          (q.arm existing fd instant).2.nextSerial = q.nextSerial) ∨
        (q.arm existing fd instant).1.serial = q.nextSerial ∧
          (q.arm existing fd instant).2.nextSerial = q.nextSerial + 1) := by
  -- What is added after the existing entry was removed.
  have hadded : q.arm existing fd instant =
      (((q.without existing).heap.insert ⟨instant, fd⟩).1,
        ⟨((q.without existing).heap.insert ⟨instant, fd⟩).2⟩) →
      (q.arm existing fd instant).2.Settled ∧
      (q.arm existing fd instant).2.deadline? =
        Function.update (q.without existing).deadline? (q.arm existing fd instant).1
          (some ⟨instant, fd⟩) ∧
      ((∃ old, existing = some (q.arm existing fd instant).1 ∧
          q.deadline? (q.arm existing fd instant).1 = some old ∧
          Deadline.compare ⟨instant, fd⟩ old = .lt ∧
          (q.arm existing fd instant).2.nextSerial = q.nextSerial) ∨
        (q.arm existing fd instant).1.serial = q.nextSerial ∧
          (q.arm existing fd instant).2.nextSerial = q.nextSerial + 1) := by
    intro harm
    obtain ⟨hs, hsame, -⟩ := without_spec h existing
    obtain ⟨hs', hget, hserial, hnext⟩ := Heap.Settled.get?_insert hs ⟨instant, fd⟩
    rw [harm]
    exact ⟨hs', hget, .inr ⟨hserial.trans hsame, hnext.trans (congrArg (· + 1) hsame)⟩⟩
  cases existing with
  | none =>
      exact hadded rfl
  | some id =>
      cases hget : q.heap.get? id with
      | none =>
          refine hadded ?_
          rcases Heap.Settled.delete?_cases h id with ⟨-, hdelete⟩ | ⟨key, heap, hkey, -⟩
          · simp [arm, without, disarm, Heap.decreaseKey, hget, hdelete]
          · rw [hget] at hkey
            cases hkey
      | some old =>
          by_cases hlt : Deadline.compare ⟨instant, fd⟩ old = .lt
          · obtain ⟨heap, hdecrease, hs, hkey, hnext⟩ := Heap.Settled.get?_decreaseKey h hget hlt
            have harm : q.arm (some id) fd instant = (id, ⟨heap⟩) := by
              simp [arm, hdecrease]
            rw [harm]
            refine ⟨hs, ?_, .inl ⟨old, rfl, hget, hlt, hnext⟩⟩
            show heap.get? = Function.update (q.disarm id).deadline? id _
            rw [(disarm_spec h id).2.1, Function.update_idem, hkey]
            rfl
          · refine hadded ?_
            have hdecrease : q.heap.decreaseKey id ⟨instant, fd⟩ =
                .error (.notDecreased ⟨instant, fd⟩) := by
              simp [Heap.decreaseKey, hget, hlt]
            simp only [arm, without, disarm, hdecrease]
            split <;> rfl

/-- Arming gives one entry the deadline, in place of the existing one. -/
theorem arm_spec
    (h : q.Settled) (existing : Option Handle) (fd : Int) (instant : Nat) :
    (q.arm existing fd instant).2.Settled ∧
      (q.arm existing fd instant).2.deadline? =
        Function.update (q.without existing).deadline? (q.arm existing fd instant).1
          (some ⟨instant, fd⟩) ∧
      (q.without existing).deadline? (q.arm existing fd instant).1 = none := by
  obtain ⟨hs, hnext, hwithout⟩ := without_spec h existing
  obtain ⟨hs', hget, ⟨old, heq, -⟩ | ⟨hserial, -⟩⟩ := arm_cases h existing fd instant
  · exact ⟨hs', hget, (hwithout _).trans (if_pos heq)⟩
  · refine ⟨hs', hget, Option.eq_none_iff_forall_ne_some.2 fun old hold => ?_⟩
    have hlt := Heap.Sound.serial_lt hs.toSound hold
    rw [hserial, ← hnext] at hlt
    exact Nat.lt_irrefl _ hlt

/-- A first entry that is due is taken out; without one no entry is due. -/
theorem takeDue?_cases
    (h : q.Settled) (now : Nat) :
    (q.takeDue? now = none ∧ ∀ id deadline, q.deadline? id = some deadline →
      now < deadline.instant) ∨
    ∃ id instant fd q', q.takeDue? now = some (fd, q') ∧ q'.Settled ∧
      q.deadline? id = some ⟨instant, fd⟩ ∧ instant ≤ now ∧
      q'.deadline? = Function.update q.deadline? id none ∧ q'.nextSerial = q.nextSerial := by
  unfold takeDue?
  rcases Heap.Settled.minimum?_cases h with ⟨hnone, hempty⟩ |
    ⟨id, first, heap, hfirst, hget, hextract, hs, hdeadline, hnext, hleast⟩
  · refine .inl ⟨by rw [hnone], fun id deadline hdeadline => ?_⟩
    rw [deadline?, hempty] at hdeadline
    cases hdeadline
  · simp only [hfirst, hextract]
    by_cases hdue : first.instant ≤ now
    · exact .inr ⟨id, first.instant, first.fd, ⟨heap⟩, by simp [hdue], hs, hget, hdue, hdeadline,
        hnext⟩
    · refine .inl ⟨by simp [hdue], fun other deadline hother => ?_⟩
      have hle := Deadline.instant_le (hleast other deadline hother)
      omega

/-- The entry that is taken out has a deadline of the descriptor that is named. -/
theorem takeDue?_spec
    {now : Nat} {fd : Int} (h : q.Settled) (hdue : q.takeDue? now = some (fd, q')) :
    q'.Settled ∧ ∃ id instant, q.deadline? id = some ⟨instant, fd⟩ ∧
      q'.deadline? = Function.update q.deadline? id none := by
  rcases takeDue?_cases h now with ⟨hnone, -⟩ |
    ⟨id, instant, fd', q₁, hsome, hs, hget, -, hdeadline, -⟩
  · rw [hnone] at hdue
    cases hdue
  · cases hsome.symm.trans hdue
    exact ⟨hs, id, instant, hget, hdeadline⟩

end DeadlineQueue
end CallbackLoop
