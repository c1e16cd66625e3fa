import CallbackLoop.Backend.Interest

/-!
# Conditions of a descriptor

The host speaks of readiness in conditions. Epoll takes and reports them as a
mask of bits; select only tells readable, writable and exceptional descriptors.
-/

namespace CallbackLoop

/-- The bits of an epoll mask. -/
structure Conditions where
  input : Bool := false
  priority : Bool := false
  output : Bool := false
  error : Bool := false
  hangup : Bool := false
  /-- Disarm the entry after one report. -/
  oneshot : Bool := false
deriving DecidableEq

namespace Conditions

/-- The numbers of the bits. -/
def bits : Conditions → List (Bool × Nat)
  | c => [(c.input, 0), (c.priority, 1), (c.output, 2), (c.error, 3), (c.hangup, 4),
      (c.oneshot, 30)]

/-- The mask as a number. -/
def toNat (c : Conditions) : Nat :=
  c.bits.foldl (fun mask (set, bit) => if set then mask + 1 <<< bit else mask) 0

/-- The bits that a number has. -/
def ofNat (mask : Nat) : Conditions where
  input := mask.testBit 0
  priority := mask.testBit 1
  output := mask.testBit 2
  error := mask.testBit 3
  hangup := mask.testBit 4
  oneshot := mask.testBit 30

instance : Inter Conditions where
  inter a b :=
    { input := a.input && b.input
      priority := a.priority && b.priority
      output := a.output && b.output
      error := a.error && b.error
      hangup := a.hangup && b.hangup
      oneshot := a.oneshot && b.oneshot }

/-- Whether no bit is set. -/
def isEmpty (c : Conditions) : Bool :=
  c == {}

/-- The mask by which epoll watches for an interest. One oneshot direction makes
the whole entry oneshot. -/
def ofInterest (i : Interest) : Conditions where
  input := i.directions.recv
  priority := i.directions.error
  output := i.directions.send
  error := i.directions.error
  oneshot := !i.oneshot.isEmpty

/-- What epoll reports of a descriptor in the given condition to an entry with
the given mask: errors and hang-ups need not be asked for. -/
def reported (mask condition : Conditions) : Conditions :=
  condition ∩ { mask with error := true, hangup := true }

/-- The directions that an epoll report makes ready. -/
def directions (c : Conditions) : Directions where
  recv := c.input || c.hangup || c.error
  send := c.output || c.error
  error := c.error || c.hangup || c.priority

/-- What select says of a descriptor in this condition: readable, writable and
exceptional. -/
def exposed (c : Conditions) : Directions where
  recv := c.input || c.hangup || c.error
  send := c.output || c.error
  error := c.priority

end Conditions

end CallbackLoop
