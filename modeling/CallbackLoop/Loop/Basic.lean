import CallbackLoop.Backend.Basic
import CallbackLoop.DeadlineQueue
import CallbackLoop.DescriptorTable
import CallbackLoop.Signal.SelfPipe
import CallbackLoop.Signal.Handlers
import CallbackLoop.TimerQueue

/-!
# Callback loops

The state of a loop, and of the machine that dispatches it.

A loop does not run its handlers itself. The machine stops at an invocation,
says which handler is to run and with which arguments, and goes on with its
next phase once the handler has returned. Between the two the handler may use
every operation of the loop.
-/

namespace CallbackLoop

/-- What a ready direction sets off. -/
inductive Reaction (H : Type) where
  /-- Deliver the signals that wait in the notification pipe. -/
  | deliver
  | call (handler : H)

/-- What to do with the timeout of a descriptor. -/
inductive FdTimeout where
  /-- Remove it. -/
  | unlimited
  /-- Leave it, or its absence, as it is. -/
  | unmodified
  /-- Arm it, or arm it anew, to expire this long from now. -/
  | after (delay : Nat)
deriving DecidableEq

/-- The state of a loop with handlers of type `H`. -/
structure Loop (H : Type) where
  backend : Backend
  table : DescriptorTable (Reaction H) H := {}
  timers : TimerQueue H := {}
  timeouts : DeadlineQueue := {}
  hub : Nat
  signals : SignalHandlers H := {}
  /-- The notification pipe; a loop that has one is primary. -/
  pipe : Option SelfPipe := none
  callback : Option H := none
  /-- Longest wait while timers or timeouts are pending. -/
  tick : Nat
  /-- A break was requested. -/
  broken : Bool := false
  dispatching : Bool := false
  iteration : Nat := 0

/-- A handler that is to run, and its arguments. -/
inductive Invocation (H : Type) where
  | callback (handler : H)
  | timer (handler : H)
  | ready (handler : H) (fd : Int) (direction : Direction)
  | timeout (handler : H) (fd : Int)
  | signal (handler : H) (signo : Int)

/-- The handler of an invocation. -/
def Invocation.handler {H : Type} : Invocation H → H
  | callback h => h
  | timer h => h
  | ready h _ _ => h
  | timeout h _ => h
  | signal h _ => h

/-- The turn of one ready descriptor: where it is stored, its number, how often
it had been cleared when its turn began, and the directions still to run. -/
structure Turn where
  slot : Nat
  fd : Int
  clears : Nat
  pending : Directions
deriving DecidableEq

/-- The two passes over due timers in one iteration. -/
inductive TimerPass where
  /-- Before ready descriptors. -/
  | early
  /-- After expired timeouts. -/
  | late
deriving DecidableEq

/-- Where the dispatcher stands in an iteration. -/
inductive Phase (H : Type) where
  | start
  /-- The callback has run. -/
  | called
  /-- Firing the timers that were due at `now`. -/
  | timers (pass : TimerPass) (now : Nat)
  /-- Taking the next descriptor off the active list. -/
  | ready
  /-- Running the pending directions of a descriptor. -/
  | turn (turn : Turn)
  /-- Delivering signals during the turn of the notification pipe. -/
  | deliver (signos : List Int) (turn : Turn)
  /-- Running the handlers of one signal. -/
  | signal (signo : Int) (left : List (Registration H)) (signos : List Int) (turn : Turn)
  /-- Firing the timeouts that were due at `now`. The deferred descriptors were
  active in this iteration and expire in the next one. -/
  | timeouts (now : Nat) (deferred : List Int)
  /-- The handler of an expired timeout has returned. -/
  | timedOut (slot clears now : Nat) (deferred : List Int)
  /-- Nothing is left to run in this iteration. -/
  | settled
  | wait

/-- Who is in control of a loop. -/
inductive Control (H : Type) where
  /-- Code outside of dispatch. -/
  | idle
  /-- The dispatcher. -/
  | dispatching (phase : Phase H)
  /-- A handler; the dispatcher goes on with `next` when it returns. -/
  | running (invocation : Invocation H) (next : Phase H)

/-- A loop on its host. -/
structure Machine (H : Type) where
  host : Host
  loop : Loop H
  control : Control H := .idle

namespace Loop

variable {H : Type}

/-- Whether the loop receives signals. -/
def isPrimary (l : Loop H) : Bool :=
  l.pipe.isSome

/-- Number of registered descriptors, the notification pipe included. -/
def fdCount (l : Loop H) : Nat :=
  l.table.watched

/-- Number of timers waiting to fire. -/
def timerCount (l : Loop H) : Nat :=
  l.timers.size

/-- The directions registered for a descriptor; none at all if it is unknown or
was cleared. -/
def interest? (l : Loop H) (fd : Int) : Option Directions :=
  match l.table.find? fd with
  | none => none
  | some d => if d.isClearing then none else some d.registered

/-- The earliest instant at which a timer or a timeout is due. -/
def nextInstant? (l : Loop H) : Option Nat :=
  match l.timers.firstDeadline?, l.timeouts.firstInstant? with
  | some a, some b => some (min a b)
  | some a, none => some a
  | none, b => b

/-- How long a wait that starts at `now` may take: until the next instant, but no
longer than a tick. Without such an instant there is no bound. -/
def waitBound (l : Loop H) (now : Nat) : Option Nat :=
  l.nextInstant?.map fun next => min (next - now) l.tick

end Loop

namespace Machine

variable {H : Type}

/-- Ends the program. -/
def crash {α : Type} (m : Machine H) (panic : Panic) : Except Crash α :=
  .error ⟨panic, m.host⟩

/-- Changes the descriptors of the loop. -/
def withTable (m : Machine H) (table : DescriptorTable (Reaction H) H) : Machine H :=
  { m with loop := { m.loop with table } }

/-- The descriptor in a slot, which has to be occupied. -/
def descriptor (m : Machine H) (slot : Nat) :
    Except Crash (Descriptor (Reaction H) H) :=
  match m.loop.table.get? slot with
  | some d => .ok d
  | none => m.crash .vacantSlot

/-- Replaces the descriptor in a slot. -/
def setDescriptor (m : Machine H) (slot : Nat) (d : Descriptor (Reaction H) H) :
    Machine H :=
  m.withTable (m.loop.table.set slot d)

/-- Removes an entry from the queue of timeouts. -/
def disarm (m : Machine H) (timeout : Option Handle) : Machine H :=
  match timeout with
  | some id => { m with loop := { m.loop with timeouts := m.loop.timeouts.disarm id } }
  | none => m

/-- Takes over what a change of the backend leads to; a rejected change ends the
program. -/
def adopt (m : Machine H) (change : HostChange) (fd : Int) :
    Except Errno Unit × Backend × Kernel → Except Crash (Machine H)
  | (.ok (), backend, kernel) =>
      .ok { m with host := { m.host with kernel }, loop := { m.loop with backend } }
  | (.error cause, _, kernel) =>
      .error ⟨.rejected change fd cause, { m.host with kernel }⟩

/-- Brings the interest that the host holds for a descriptor in line with its
registrations. With `force` an unchanged interest is passed on again. -/
def align (m : Machine H) (slot : Nat) (force : Bool) : Except Crash (Machine H) := do
  let d ← m.descriptor slot
  let wanted := d.wanted
  let backend := m.loop.backend
  let kernel := m.host.kernel
  match d.held with
  | none =>
      if wanted.isEmpty then return m
      let m ← m.adopt .interest d.fd (backend.register kernel d.fd wanted)
      return m.setDescriptor slot { d with held := some wanted }
  | some held =>
      if wanted.isEmpty then
        let m ← m.adopt .interest d.fd (backend.unregister kernel d.fd)
        return m.setDescriptor slot { d with held := none }
      if held ≠ wanted || force then
        let m ← m.adopt .interest d.fd (backend.modify kernel d.fd wanted)
        return m.setDescriptor slot { d with held := some wanted }
      return m

end Machine

end CallbackLoop
