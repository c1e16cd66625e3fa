import CallbackLoop.Backend.Interest
import CallbackLoop.Heap.Basic

/-!
# Descriptors

Everything a loop knows about one file descriptor: the handler bound to each
direction, the handler for an expired timeout, the readiness that waits for its
turn, and the interest the host currently holds.

A descriptor that is cleared while one of its handlers runs stays in storage
until that handler returns.
-/

namespace CallbackLoop

/-- A handler bound to a direction, and whether it runs only once. -/
structure Binding (R : Type) where
  reaction : R
  oneshot : Bool

/-- The life of a descriptor with respect to clearing. -/
inductive Stage where
  /-- Registered and usable. -/
  | active
  /-- Cleared while one of its handlers runs, to be freed when that returns. -/
  | clearing
  /-- No longer in the table. -/
  | freed
deriving DecidableEq

/-- The name of a stage. -/
def Stage.text : Stage → String
  | active => "Active"
  | clearing => "PendingClear"
  | freed => "Freed"

/-- One descriptor of a loop whose directions run reactions of type `R` and
whose timeouts run handlers of type `H`. -/
structure Descriptor (R H : Type) where
  fd : Int
  recv : Option (Binding R) := none
  send : Option (Binding R) := none
  error : Option (Binding R) := none
  /-- Runs when the timeout expires. -/
  onTimeout : Option H := none
  /-- The entry in the loop's queue of deadlines. -/
  timeout : Option Handle := none
  /-- Directions reported ready whose turn has not come. -/
  ready : Directions := ∅
  /-- One of the descriptor's handlers is running. -/
  busy : Bool := false
  stage : Stage := .active
  /-- How often the descriptor was cleared. -/
  clears : Nat := 0
  /-- Iteration of the loop in which readiness was last dispatched. -/
  lastTurn : Nat := 0
  /-- The interest the host holds. -/
  held : Option Interest := none

namespace Descriptor

variable {R H : Type}

/-- The handler bound to a direction. -/
def binding? (d : Descriptor R H) : Direction → Option (Binding R)
  | .recv => d.recv
  | .send => d.send
  | .error => d.error

/-- Binds a direction, or unbinds it. -/
def setBinding (d : Descriptor R H) (direction : Direction)
    (binding : Option (Binding R)) : Descriptor R H :=
  match direction with
  | .recv => { d with recv := binding }
  | .send => { d with send := binding }
  | .error => { d with error := binding }

/-- The directions that have a handler. -/
def registered (d : Descriptor R H) : Directions :=
  ⟨d.recv.isSome, d.send.isSome, d.error.isSome⟩

/-- The directions bound to run once. -/
def oneshots (d : Descriptor R H) : Directions :=
  ⟨d.recv.any (·.oneshot), d.send.any (·.oneshot), d.error.any (·.oneshot)⟩

/-- The interest that the host should hold. A oneshot direction that was
reported and waits for its turn is left out: it must not be reported again. -/
def wanted (d : Descriptor R H) : Interest :=
  let fired := d.oneshots ∩ d.ready
  { directions := d.registered \ fired
    oneshot := d.oneshots \ fired }

/-- Unbinds every direction. -/
def unbindAll (d : Descriptor R H) : Descriptor R H :=
  { d with recv := none, send := none, error := none }

/-- Binds the given directions to one reaction. -/
def bindAll (d : Descriptor R H) (directions : Directions) (binding : Binding R) :
    Descriptor R H :=
  { d with
    recv := if directions.recv then some binding else d.recv
    send := if directions.send then some binding else d.send
    error := if directions.error then some binding else d.error }

/-- Whether the descriptor was cleared from one of its own handlers. -/
def isClearing (d : Descriptor R H) : Bool :=
  d.stage == .clearing

@[simp] theorem binding?_setBinding (d : Descriptor R H) (a b : Direction)
    (binding : Option (Binding R)) :
    (d.setBinding a binding).binding? b = if a = b then binding else d.binding? b := by
  cases a <;> cases b <;> rfl

@[simp] theorem binding?_unbindAll (d : Descriptor R H) (a : Direction) :
    d.unbindAll.binding? a = none := by
  cases a <;> rfl

@[simp] theorem binding?_bindAll (d : Descriptor R H) (directions : Directions)
    (binding : Binding R) (a : Direction) :
    (d.bindAll directions binding).binding? a =
      if directions.contains a then some binding else d.binding? a := by
  cases a <;> rfl

@[simp] theorem contains_registered (d : Descriptor R H) (a : Direction) :
    d.registered.contains a = (d.binding? a).isSome := by
  cases a <;> rfl

@[simp] theorem contains_oneshots (d : Descriptor R H) (a : Direction) :
    d.oneshots.contains a = (d.binding? a).any (·.oneshot) := by
  cases a <;> rfl

/-- Only registered directions are wanted. -/
theorem registered_of_wanted {d : Descriptor R H} {a : Direction}
    (h : d.wanted.directions.contains a = true) : d.registered.contains a = true := by
  unfold wanted at h
  rw [Directions.contains_sdiff, Bool.and_eq_true] at h
  exact h.1

end Descriptor

end CallbackLoop
