import CallbackLoop.Proofs.Arena.Ledger
import CallbackLoop.Proofs.Heap.Ledger
import CallbackLoop.Proofs.Loop.Deadlines
import CallbackLoop.Proofs.Loop.WaitBounds

/-!
# A queue of deadlines is a finite map

The users of a queue of deadlines see a ledger: the deadline under each handle that is
still good, and the handles that were ever given out.  Arming in place of an entry takes
that entry away, if it is there, and adds the new one; whether the heap lowers a key, or
deletes and inserts, or only inserts shows in nothing but the handle of the new entry,
which is the old one or was never given out before.

The queue represents its ledger after every call, whatever the handles and the instants
(`run_follows_map`).
-/

namespace CallbackLoop
namespace DeadlineQueue

/-- One operation on a queue of deadlines. -/
inductive Call where
  | arm (existing : Option Handle) (fd : Int) (instant : Nat)
  | disarm (id : Handle)
  | takeDue (now : Nat)
  | firstInstant

/-- The answer to an operation. -/
inductive Answer where
  | handle (id : Handle)
  | done
  | due (fd : Option Int)
  | instant (first : Option Nat)

/-- Performs one operation. -/
def perform (q : DeadlineQueue) :
    Call → Answer × DeadlineQueue
  | .arm existing fd instant =>
      (.handle (q.arm existing fd instant).1, (q.arm existing fd instant).2)
  | .disarm id => (.done, q.disarm id)
  | .takeDue now =>
      match q.takeDue? now with
      | some (fd, q') => (.due (some fd), q')
      | none => (.due none, q)
  | .firstInstant => (.instant q.firstInstant?, q)

/-- Performs operations one after the other and returns them with their answers. -/
def run :
    List Call → DeadlineQueue → List (Call × Answer) × DeadlineQueue
  | [], q => ([], q)
  | call :: calls, q =>
      ((call, (q.perform call).1) :: (run calls (q.perform call).2).1,
        (run calls (q.perform call).2).2)

/-- What the users of a queue see of it. -/
structure Ledger where
  /-- The deadline under each handle that is still good. -/
  entries : Finmap fun _ : Handle => Deadline := ∅
  /-- Every handle that was ever given out. -/
  issued : Finset Handle := ∅

namespace Ledger

/-- The entries but for that under a handle, if one is given. -/
def without (L : Ledger) : Option Handle → Finmap fun _ : Handle => Deadline
  | some id => L.entries.erase id
  | none => L.entries

/-- The handle is good already and its deadline moves forward, so that it stays good. -/
def Lowers (L : Ledger) (existing : Option Handle) (id : Handle) (deadline : Deadline) : Prop :=
  existing = some id ∧
    ∃ old, L.entries.lookup id = some old ∧ Deadline.compare deadline old = .lt

/-- What a call may answer, and what becomes of the ledger. -/
inductive Step (L : Ledger) :
    Call → Answer → Ledger → Prop
  | arm {existing : Option Handle} {fd : Int} {instant : Nat} {id : Handle} :
      L.Lowers existing id ⟨instant, fd⟩ ∨ id ∉ L.issued →
      Step L (.arm existing fd instant) (.handle id)
        ⟨(L.without existing).insert id ⟨instant, fd⟩, Insert.insert id L.issued⟩
  | disarm {id : Handle} :
      Step L (.disarm id) .done { L with entries := L.entries.erase id }
  | takeDue {now : Nat} {id : Handle} {first : Deadline} :
      L.entries.lookup id = some first →
      (∀ other deadline, L.entries.lookup other = some deadline →
        (Deadline.compare first deadline).isLE = true) →
      first.instant ≤ now →
      Step L (.takeDue now) (.due (some first.fd)) { L with entries := L.entries.erase id }
  | takeNone {now : Nat} :
      (∀ id deadline, L.entries.lookup id = some deadline → now < deadline.instant) →
      Step L (.takeDue now) (.due none) L
  | firstInstant {first : Option Nat} :
      LeastOf {n | ∃ id deadline, L.entries.lookup id = some deadline ∧ deadline.instant = n}
        first →
      Step L .firstInstant (.instant first) L

/-- Steps one after the other. -/
inductive Run :
    Ledger → List (Call × Answer) → Ledger → Prop
  | nil {L : Ledger} :
      Run L [] L
  | cons {L L' L'' : Ledger} {call : Call} {answer : Answer} {log : List (Call × Answer)} :
      Step L call answer L' →
      Run L' log L'' →
      Run L ((call, answer) :: log) L''

theorem lookup_without
    (L : Ledger) (existing : Option Handle) (id : Handle) :
    (L.without existing).lookup id = if existing = some id then none else L.entries.lookup id := by
  cases existing with
  | none =>
      rfl
  | some other =>
      rw [without, lookup_erase_eq]
      simp

end Ledger

/-- The queue holds the entries of the ledger, and no handle to come was given out. -/
structure Represents (q : DeadlineQueue) (L : Ledger) : Prop where
  settled : q.Settled
  deadline? : ∀ id, q.deadline? id = L.entries.lookup id
  issued : ∀ id ∈ L.issued, id.serial < q.nextSerial
  good : ∀ id, id ∈ L.entries → id ∈ L.issued

variable {q : DeadlineQueue} {L : Ledger}

/-- What a call answers, and what it leaves behind, is a step of the ledger. -/
def Steps (q : DeadlineQueue) (L : Ledger) (call : Call) : Prop :=
  ∃ L', L.Step call (q.perform call).1 L' ∧ Represents (q.perform call).2 L'

/-- Entries that leave the queue leave the ledger. -/
theorem Represents.erase
    (hr : Represents q L) {q' : DeadlineQueue} {id : Handle} (hs : q'.Settled)
    (hget : q'.deadline? = Function.update q.deadline? id none)
    (hnext : q'.nextSerial = q.nextSerial) :
    Represents q' { L with entries := L.entries.erase id } := by
  refine ⟨hs, fun other => ?_, fun other hother => ?_, fun other hother => ?_⟩
  · rw [hget, Function.update_apply, lookup_erase_eq, hr.deadline?]
    simp only [eq_comm]
  · rw [hnext]
    exact hr.issued other hother
  · exact hr.good other (Finmap.mem_erase.1 hother).2

theorem steps_arm
    (hr : Represents q L) (existing : Option Handle) (fd : Int) (instant : Nat) :
    Steps q L (.arm existing fd instant) := by
  obtain ⟨-, -, hwithout⟩ := without_spec hr.settled existing
  obtain ⟨hs, hget, hhandle⟩ := arm_cases hr.settled existing fd instant
  show ∃ L', L.Step (.arm existing fd instant) (.handle (q.arm existing fd instant).1) L' ∧
    Represents (q.arm existing fd instant).2 L'
  generalize (q.arm existing fd instant).1 = id at hget hhandle ⊢
  generalize (q.arm existing fd instant).2 = q' at hs hget hhandle ⊢
  have hfresh : L.Lowers existing id ⟨instant, fd⟩ ∨ id ∉ L.issued := by
    rcases hhandle with ⟨old, hexisting, hold, hlt, -⟩ | ⟨hserial, -⟩
    · exact .inl ⟨hexisting, old, (hr.deadline? id).symm.trans hold, hlt⟩
    · exact .inr fun hmem => Nat.lt_irrefl _ (hserial ▸ hr.issued id hmem)
  have hserial : q.nextSerial ≤ q'.nextSerial ∧ id.serial < q'.nextSerial := by
    rcases hhandle with ⟨old, -, hold, -, hnext⟩ | ⟨hserial, hnext⟩
    · rw [hnext]
      exact ⟨Nat.le_refl _, Heap.Sound.serial_lt hr.settled.toSound hold⟩
    · rw [hnext, hserial]
      exact ⟨Nat.le_succ _, Nat.lt_succ_self _⟩
  refine ⟨_, .arm hfresh, hs, fun other => ?_, fun other hother => ?_, fun other hother => ?_⟩
  · rw [hget, Function.update_apply, lookup_insert_eq, Ledger.lookup_without, hwithout,
      hr.deadline?]
    simp only [eq_comm]
  · rcases Finset.mem_insert.1 hother with rfl | hother
    · exact hserial.2
    · exact Nat.lt_of_lt_of_le (hr.issued other hother) hserial.1
  · rcases (Finmap.mem_insert).1 hother with rfl | hother
    · exact Finset.mem_insert_self _ _
    · refine Finset.mem_insert_of_mem (hr.good other ?_)
      rw [← Finmap.lookup_isSome, Ledger.lookup_without] at hother
      split at hother
      · cases hother
      · exact Finmap.lookup_isSome.1 hother

theorem steps_disarm
    (hr : Represents q L) (id : Handle) :
    Steps q L (.disarm id) := by
  obtain ⟨hs, hget, hnext⟩ := disarm_spec hr.settled id
  exact ⟨_, .disarm, hr.erase hs hget hnext⟩

theorem steps_takeDue
    (hr : Represents q L) (now : Nat) :
    Steps q L (.takeDue now) := by
  have hlookup : ∀ id, q.heap.get? id = L.entries.lookup id := hr.deadline?
  rcases Heap.Settled.minimum?_cases hr.settled with ⟨hnone, hempty⟩ |
    ⟨id, first, heap, hfirst, hget, hextract, hs, hheap, hnext, hleast⟩
  · have hperform : q.perform (.takeDue now) = (.due none, q) := by
      simp [perform, takeDue?, hnone]
    unfold Steps
    rw [hperform]
    refine ⟨L, .takeNone fun id deadline hdeadline => ?_, hr⟩
    rw [← hlookup, hempty] at hdeadline
    cases hdeadline
  · by_cases hdue : first.instant ≤ now
    · have hperform : q.perform (.takeDue now) = (.due (some first.fd), ⟨heap⟩) := by
        simp [perform, takeDue?, hfirst, hextract, hdue]
      unfold Steps
      rw [hperform]
      refine ⟨_, .takeDue ((hlookup id).symm.trans hget) (fun other deadline hother => ?_) hdue,
        hr.erase hs hheap hnext⟩
      exact hleast other deadline ((hlookup other).trans hother)
    · have hperform : q.perform (.takeDue now) = (.due none, q) := by
        simp [perform, takeDue?, hfirst, hdue]
      unfold Steps
      rw [hperform]
      refine ⟨L, .takeNone fun other deadline hother => ?_, hr⟩
      have hle := Deadline.instant_le (hleast other deadline ((hlookup other).trans hother))
      omega

theorem steps_firstInstant
    (hr : Represents q L) :
    Steps q L .firstInstant := by
  refine ⟨L, .firstInstant ?_, hr⟩
  have hleast := leastOf_firstInstant? hr.settled
  unfold instants at hleast
  simpa only [hr.deadline?] using hleast

/-- Every call is a step of the ledger that the queue represents. -/
theorem perform_step
    (hr : Represents q L) (call : Call) :
    Steps q L call := by
  cases call with
  | arm existing fd instant =>
      exact steps_arm hr existing fd instant
  | disarm id =>
      exact steps_disarm hr id
  | takeDue now =>
      exact steps_takeDue hr now
  | firstInstant =>
      exact steps_firstInstant hr

/-- The calls on a queue are a run of its ledger. -/
theorem run_represents
    (calls : List Call) {q : DeadlineQueue} {L : Ledger} (hr : Represents q L) :
    ∃ L', Ledger.Run L (run calls q).1 L' ∧ Represents (run calls q).2 L' := by
  induction calls generalizing q L with
  | nil =>
      exact ⟨L, .nil, hr⟩
  | cons call calls ih =>
      obtain ⟨L', hstep, hr'⟩ := perform_step hr call
      obtain ⟨L'', hrun, hr''⟩ := ih hr'
      exact ⟨L'', .cons hstep hrun, hr''⟩

theorem represents_empty :
    Represents {} {} where
  settled := settled_empty
  deadline? id := by rw [deadline?_empty, Finmap.lookup_empty]
  issued id hid := absurd hid (Finset.notMem_empty id)
  good id hid := absurd hid Finmap.notMem_empty

/-- Whatever is asked of a queue that was empty at first, it answers as a finite map from
handles to deadlines does: arming takes the existing entry away and adds one, under a handle
that was good before or is new.  What the queue holds in the end are the entries of that
map, each under a handle that was given out. -/
theorem run_follows_map
    (calls : List Call) :
    ∃ L : Ledger,
      Ledger.Run {} (run calls {}).1 L ∧
      L.entries = (run calls {}).2.heap.toFinmap ∧
      ∀ id, id ∈ L.entries → id ∈ L.issued := by
  obtain ⟨L, hrun, hr⟩ := run_represents calls represents_empty
  refine ⟨L, hrun, Finmap.ext_lookup fun id => ?_, hr.good⟩
  rw [hr.settled.toSound.lookup_toFinmap_eq]
  exact (hr.deadline? id).symm

/-- An earlier instant keeps the handle, a later one gives a new handle, and then the old
one is stale. -/
example :
    (run [.arm none 3 50, .arm (some ⟨0, 0⟩) 3 20, .arm (some ⟨0, 0⟩) 3 90,
        .arm (some ⟨0, 0⟩) 4 70, .takeDue 69, .takeDue 90] {}).1.map Prod.snd =
      [.handle ⟨0, 0⟩, .handle ⟨0, 0⟩, .handle ⟨0, 1⟩, .handle ⟨1, 2⟩, .due none,
        .due (some 4)] := by
  rfl

end DeadlineQueue
end CallbackLoop
