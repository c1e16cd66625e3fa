import CallbackLoop.Kernel.Call
import CallbackLoop.Kernel.Fault
import CallbackLoop.Time
import Std.Data.TreeMap
import Std.Data.TreeSet

/-!
# The scripted kernel

The part of the host that loops call: a clock, descriptors, pipes, signal
dispositions and epoll tables. It is deterministic. What happens during its
waits is laid down by a script, and faults make chosen calls fail.

Every descriptor exists until it is closed. A failed call sets the error
number, which nothing else resets.
-/

namespace CallbackLoop

/-- What happens during one wait. -/
structure WaitEntry where
  /-- Conditions of descriptors, in the order of their report. -/
  events : List (Int × Conditions) := []
  /-- Report the conditions as they are, asked for or not. -/
  raw : Bool := false
  /-- How long the wait takes. -/
  duration : Option Nat := none
  /-- The wait fails with this number. -/
  failure : Option Errno := none
  closed : List Int := []
  opened : List Int := []
  raised : List Int := []

/-- An entry of an epoll table. A disarmed entry reports nothing until it is
modified. -/
structure EpollEntry where
  mask : Conditions
  disarmed : Bool := false
deriving DecidableEq

/-- The descriptors that an epoll instance watches. -/
abbrev EpollTable := Std.TreeMap Int EpollEntry

/-- The state of the scripted kernel. -/
structure Kernel where
  clock : Nat := 0
  /-- The error number of the last failed call. -/
  errno : Errno := ⟨0⟩
  /-- File status flags that differ from reading and writing. -/
  statusFlags : Std.TreeMap Int Nat := ∅
  closed : Std.TreeSet Int := ∅
  /-- The bytes in each pipe, oldest first. -/
  pipes : Array (List UInt8) := #[]
  pipeCapacity : Nat := 65536
  faults : List Fault := []
  /-- The signals with the hubs' handler installed. -/
  caught : Std.TreeSet Int := ∅
  /-- Open epoll instances. -/
  epolls : Std.TreeMap Nat EpollTable := ∅
  epollsCreated : Nat := 0
  /-- What the waits to come bring. -/
  script : List WaitEntry := []
  /-- Waits that may still be made. -/
  waitsLeft : Nat := 200
  /-- Recorded calls, the last one first. -/
  record : List CallRecord := []

namespace Kernel

/-- A call that fails: it sets the error number and returns it. -/
def fail {α : Type} (k : Kernel) (cause : Errno) : Except Errno α × Kernel :=
  (.error cause, { k with errno := cause })

/-- Records a call. -/
def note (k : Kernel) (call : Call) (failure : Option Errno := none) : Kernel :=
  { k with record := ⟨call, failure⟩ :: k.record }

/-- Asks the faults whether a call fails. -/
def strike (k : Kernel) (site : CallSite) : Option Errno × Kernel :=
  let (hit, faults) := Fault.strike site k.faults
  (hit, { k with faults })

/-- Whether a call on the descriptor fails: it does if the descriptor is
closed, else if a fault says so. -/
def obstacle (k : Kernel) (name : CallName) (fd : Int)
    (variant : Option CallVariant := none) : Option Errno × Kernel :=
  if k.closed.contains fd then (some .badDescriptor, k)
  else k.strike { name, subject := some fd, variant }

/-- Moves the clock. -/
def advance (k : Kernel) (duration : Nat) : Kernel :=
  { k with clock := k.clock + duration }

/-- Closes a descriptor, which removes it from every epoll table. -/
def close (k : Kernel) (fd : Int) : Kernel :=
  { k with
    closed := k.closed.insert fd
    epolls := k.epolls.map fun _ table => table.erase fd }

/-- Opens a descriptor again. -/
def reopen (k : Kernel) (fd : Int) : Kernel :=
  { k with closed := k.closed.erase fd }

/-- The recorded calls in the order in which they were made, and the kernel
with an empty record. -/
def takeRecord (k : Kernel) : List CallRecord × Kernel :=
  (k.record.reverse, { k with record := [] })

end Kernel

end CallbackLoop
