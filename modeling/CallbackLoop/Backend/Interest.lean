import CallbackLoop.Flags

/-!
# Interest and events

What a loop asks a backend to watch for, and what the backend reports.
-/

namespace CallbackLoop

/-- The directions to watch on a descriptor, and those of them that disarm
after firing once. -/
structure Interest where
  directions : Directions := ∅
  oneshot : Directions := ∅
deriving DecidableEq

namespace Interest

/-- Whether there is nothing to watch. -/
def isEmpty (i : Interest) : Bool :=
  i.directions.isEmpty

/-- The interest that two sets of flags describe. Backends only ask whether
any direction is oneshot, so a oneshot set without directions counts for
all of them. -/
def ofFlags (directions oneshot : Flags) : Interest :=
  { directions := directions.directions
    oneshot :=
      if oneshot.directions.isEmpty && !oneshot.isEmpty then .all
      else oneshot.directions }

end Interest

/-- Readiness of one descriptor as a backend reports it. It may name
directions that nobody asked for. -/
structure Event where
  fd : Int
  ready : Directions
deriving DecidableEq

end CallbackLoop
