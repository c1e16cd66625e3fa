/-!
# Directions of readiness

A descriptor becomes ready in three directions. Handlers run in the order in
which the directions are listed here: receive, send, error.
-/

namespace CallbackLoop

/-- What a descriptor can be ready for. -/
inductive Direction where
  | recv
  | send
  | error
deriving DecidableEq

/-- A set of directions. -/
structure Directions where
  recv : Bool := false
  send : Bool := false
  error : Bool := false
deriving DecidableEq

namespace Directions

instance : EmptyCollection Directions := ⟨{}⟩

instance : Inhabited Directions := ⟨∅⟩

/-- Every direction. -/
def all : Directions := ⟨true, true, true⟩

/-- Whether `d` belongs to the set. -/
def contains (s : Directions) : Direction → Bool
  | .recv => s.recv
  | .send => s.send
  | .error => s.error

instance : Union Directions :=
  ⟨fun s t => ⟨s.recv || t.recv, s.send || t.send, s.error || t.error⟩⟩

instance : Inter Directions :=
  ⟨fun s t => ⟨s.recv && t.recv, s.send && t.send, s.error && t.error⟩⟩

instance : SDiff Directions :=
  ⟨fun s t => ⟨s.recv && !t.recv, s.send && !t.send, s.error && !t.error⟩⟩

/-- The set that holds `d` alone. -/
def single : Direction → Directions
  | .recv => { recv := true }
  | .send => { send := true }
  | .error => { error := true }

/-- Whether the set has no member. -/
def isEmpty (s : Directions) : Bool :=
  !(s.recv || s.send || s.error)

/-- The members in the order in which their handlers run. -/
def toList (s : Directions) : List Direction :=
  [.recv, .send, .error].filter s.contains

/-- The member whose handler runs first. -/
def first? (s : Directions) : Option Direction :=
  s.toList.head?

/-- The set without `d`. -/
def erase (s : Directions) (d : Direction) : Directions :=
  s \ single d

@[ext] theorem ext {s t : Directions} (h : ∀ d, s.contains d = t.contains d) : s = t := by
  cases s
  cases t
  simpa [contains] using And.intro (h .recv) (And.intro (h .send) (h .error))

@[simp] theorem contains_empty (d : Direction) : (∅ : Directions).contains d = false := by
  cases d <;> rfl

@[simp] theorem contains_union (s t : Directions) (d : Direction) :
    (s ∪ t).contains d = (s.contains d || t.contains d) := by
  cases d <;> rfl

@[simp] theorem contains_inter (s t : Directions) (d : Direction) :
    (s ∩ t).contains d = (s.contains d && t.contains d) := by
  cases d <;> rfl

@[simp] theorem contains_sdiff (s t : Directions) (d : Direction) :
    (s \ t).contains d = (s.contains d && !t.contains d) := by
  cases d <;> rfl

@[simp] theorem contains_single (d e : Direction) :
    (single d).contains e = decide (d = e) := by
  cases d <;> cases e <;> rfl

@[simp] theorem mem_toList {s : Directions} {d : Direction} :
    d ∈ s.toList ↔ s.contains d = true := by
  cases d <;> simp [toList]

theorem isEmpty_iff {s : Directions} : s.isEmpty = true ↔ s = ∅ := by
  obtain ⟨recv, send, error⟩ := s
  cases recv <;> cases send <;> cases error <;> decide

theorem first?_eq_none_iff {s : Directions} : s.first? = none ↔ s = ∅ := by
  obtain ⟨recv, send, error⟩ := s
  cases recv <;> cases send <;> cases error <;> decide

/-- The first member comes before the members that are left without it. -/
theorem toList_eq_cons {s : Directions} {d : Direction} (h : s.first? = some d) :
    s.toList = d :: (s.erase d).toList := by
  obtain ⟨recv, send, error⟩ := s
  revert h
  cases d <;> cases recv <;> cases send <;> cases error <;> decide

end Directions

end CallbackLoop
