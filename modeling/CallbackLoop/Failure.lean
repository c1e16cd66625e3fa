import CallbackLoop.Backend.Kind
import CallbackLoop.Errno
import CallbackLoop.Flags

/-!
# Refusals and panics

A refusal is an answer: the caller can react to it, and the loop is as it was.
A panic ends the program. It is raised by misuse of the registration
operations, and by a host that rejects a change which the loop has already
made on its own side.
-/

namespace CallbackLoop

/-- Why the host did not provide something. -/
inductive HostError where
  /-- A call failed. -/
  | call (cause : Errno)
  /-- The host has no such backend. -/
  | unavailable (kind : BackendKind)
deriving DecidableEq

/-- The words for a host error. -/
def HostError.message : HostError → String
  | call cause => cause.message
  | unavailable kind => s!"{kind.text} backend is not available on this target"

/-- Why an operation was refused. -/
inductive Refusal where
  /-- The host did not provide a resource. -/
  | host (cause : HostError)
  /-- The backend cannot watch the descriptor. -/
  | fdOutOfRange (fd : Int) (limit : Nat)
  /-- The signal number is out of range or cannot be caught. -/
  | invalidSignal (signo : Int)
  /-- Another hub handles the signal. -/
  | signalOwned (signo : Int)
  /-- The loop does not receive signals. -/
  | notPrimary
  /-- No handler is registered for the signal under this key. -/
  | unknownSignalHandler (signo : Int)
  /-- The hub has no place for another loop. -/
  | tooManyLoops (limit : Nat)
  /-- The loop is being dispatched already. -/
  | reentrant
deriving DecidableEq

/-- The words for a refusal. -/
def Refusal.message : Refusal → String
  | host cause => s!"IO error: {cause.message}"
  | fdOutOfRange fd limit => s!"fd {fd} exceeds the backend limit of {limit}"
  | invalidSignal signo => s!"signal {signo} cannot be handled"
  | signalOwned signo => s!"signal {signo} is owned by another signal hub"
  | notPrimary => "signal handlers require a primary event loop"
  | unknownSignalHandler signo =>
      s!"no handler registered for signal {signo} with this key"
  | tooManyLoops limit => s!"signal hub supports at most {limit} primary loops"
  | reentrant => "dispatch called re-entrantly from a handler"

/-- What the loop was changing on the host when the host rejected it. -/
inductive HostChange where
  /-- The blocking mode of a descriptor. -/
  | mode
  /-- The removal of a descriptor from the backend. -/
  | removal
  /-- The interest in a descriptor. -/
  | interest
deriving DecidableEq

/-- The word for a change on the host. -/
def HostChange.text : HostChange → String
  | mode => "fcntl"
  | removal => "unregister"
  | interest => "sync"

/-- Why the program ended. -/
inductive Panic where
  | negativeFd (fd : Int)
  | clearCombined (flags : Flags)
  | contradictoryModes
  | notOneDirection (flags : Flags)
  | handlerForUnregistered (fd : Int)
  | timeoutForUnregistered (fd : Int)
  | deadlineOverflow
  | rejected (change : HostChange) (fd : Int) (cause : Errno)
  | waitFailed (cause : Errno)
  | dispositionStuck (signo : Int) (cause : Errno)
  | hubPlaceOutOfRange (limit place : Nat)
  | vacantSlot
  | slotOutOfRange
  | slotNotSet
  | zeroTick
  | zeroCapacity
deriving DecidableEq

/-- The words for a panic. -/
def Panic.message : Panic → String
  | negativeFd fd => s!"negative fd {fd}"
  | clearCombined flags => s!"CLR cannot be combined with other flags: {flags.text}"
  | contradictoryModes => "NONBLOCK and BLOCK are mutually exclusive"
  | notOneDirection flags => s!"not a single direction: {flags.text}"
  | handlerForUnregistered fd => s!"timeout handler for unregistered fd {fd}"
  | timeoutForUnregistered fd => s!"fd timeout fired for unregistered fd {fd}"
  | deadlineOverflow => "overflow when adding duration to instant"
  | rejected change fd cause => s!"{change.text} failed for fd {fd}: {cause.message}"
  | waitFailed cause => s!"backend wait failed: {cause.message}"
  | dispositionStuck signo cause =>
      s!"sigaction({signo}, SIG_DFL) failed: {cause.message}"
  | hubPlaceOutOfRange limit place =>
      s!"index out of bounds: the len is {limit} but the index is {place}"
  | vacantSlot => "vacant slab slot"
  | slotOutOfRange => "Index out of range"
  | slotNotSet => "Item is not set"
  | zeroTick => "tick must be > 0"
  | zeroCapacity => "event_capacity must be > 0"

end CallbackLoop
