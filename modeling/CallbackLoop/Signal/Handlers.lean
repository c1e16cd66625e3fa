import CallbackLoop.Sorting

/-!
# The signal handlers of a loop

Handlers are kept in registration order. A key names one registration and is
never given out twice.
-/

namespace CallbackLoop

/-- A handler registered for a signal number under a key. -/
structure Registration (H : Type) where
  signo : Int
  key : Nat
  handler : H

/-- The registrations of a loop, oldest first, and the next key. -/
structure SignalHandlers (H : Type) where
  registrations : List (Registration H) := []
  nextKey : Nat := 0

namespace SignalHandlers

variable {H : Type}

/-- Registers a handler under a new key. -/
def insert (t : SignalHandlers H) (signo : Int) (handler : H) : Nat × SignalHandlers H :=
  (t.nextKey, ⟨t.registrations ++ [⟨signo, t.nextKey, handler⟩], t.nextKey + 1⟩)

/-- Whether `key` names a registration for `signo`. -/
def contains (t : SignalHandlers H) (signo : Int) (key : Nat) : Bool :=
  t.registrations.any fun r => r.signo == signo && r.key == key

/-- Removes the registration that `key` names, provided it is for `signo`. -/
def erase (t : SignalHandlers H) (signo : Int) (key : Nat) : SignalHandlers H :=
  { t with
    registrations := t.registrations.eraseP fun r => r.signo == signo && r.key == key }

/-- The registrations for `signo`, oldest first. -/
def registeredFor (t : SignalHandlers H) (signo : Int) : List (Registration H) :=
  t.registrations.filter (·.signo == signo)

/-- The signal numbers in ascending order, one for each registration. -/
def signos (t : SignalHandlers H) : List Int :=
  sortBy (· ≤ ·) (t.registrations.map (·.signo))

end SignalHandlers

end CallbackLoop
