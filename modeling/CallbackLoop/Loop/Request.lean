import CallbackLoop.Loop.Registration

/-!
# The operations of a loop

A request is one call of a loop's operations, made by code outside of dispatch
or by a running handler. Every request is answered by a reply, or ends the
program.
-/

namespace CallbackLoop

/-- A call of one of a loop's operations. -/
inductive Request (H : Type) where
  | setFd (fd : Int) (flags : Flags) (timeout : FdTimeout) (handler : H)
  | clearFd (fd : Int)
  | setTimeoutHandler (fd : Int) (handler : H)
  | interest (fd : Int)
  | setTimer (delay : Nat) (handler : H)
  | cancelTimer (id : Handle)
  | setSignal (signo : Int) (handler : H)
  | unsetSignal (signo : Int) (key : Nat)
  | setBreak
  | setCallback (handler : H)
  | clearCallback
  | dispatch

/-- The answer to a request. -/
inductive Reply where
  | done
  | refused (refusal : Refusal)
  | interest (directions : Option Directions)
  | timer (id : Handle)
  | cancelled (wasPending : Bool)
  | key (key : Nat)
deriving DecidableEq

/-- The reply to an operation that has no result of its own. -/
def Reply.ofExcept : Except Refusal Unit → Reply
  | .ok () => done
  | .error refusal => refused refusal

namespace Machine

variable {H : Type}

/-- Runs `handler` once, `delay` from now. -/
def setTimer (m : Machine H) (delay : Nat) (handler : H) :
    Except Crash (Handle × Machine H) :=
  match Time.after? m.host.kernel.clock delay with
  | none => m.crash .deadlineOverflow
  | some instant =>
      let (id, timers) := m.loop.timers.schedule instant handler
      .ok (id, { m with loop := { m.loop with timers } })

/-- Cancels a timer that has not fired yet. -/
def cancelTimer (m : Machine H) (id : Handle) : Bool × Machine H :=
  let (wasPending, timers) := m.loop.timers.cancel id
  (wasPending, { m with loop := { m.loop with timers } })

/-- Registers a handler for a signal and returns its key. -/
def setSignal (m : Machine H) (signo : Int) (handler : H) :
    Except Refusal Nat × Machine H :=
  if m.loop.isPrimary then
    match m.host.acquire m.loop.hub signo with
    | (.error refusal, host) => (.error refusal, { m with host })
    | (.ok (), host) =>
        let (key, signals) := m.loop.signals.insert signo handler
        (.ok key, { m with host, loop := { m.loop with signals } })
  else (.error .notPrimary, m)

/-- Removes the registration that `key` names. -/
def unsetSignal (m : Machine H) (signo : Int) (key : Nat) :
    Except Crash (Except Refusal Unit × Machine H) :=
  if !m.loop.isPrimary then .ok (.error .notPrimary, m)
  else if !m.loop.signals.contains signo key then
    .ok (.error (.unknownSignalHandler signo), m)
  else do
    let host ← m.host.release m.loop.hub signo
    let signals := m.loop.signals.erase signo key
    return (.ok (), { m with host, loop := { m.loop with signals } })

/-- Makes dispatch return after the running handler. -/
def setBreak (m : Machine H) : Machine H :=
  { m with loop := { m.loop with broken := true } }

/-- Hands control to the dispatcher, unless it has it already. -/
def dispatch (m : Machine H) : Except Refusal (Machine H) :=
  if m.loop.dispatching then .error .reentrant
  else
    .ok { m with
      loop := { m.loop with dispatching := true }
      control := .dispatching .start }

/-- Performs a request. The reply to `dispatch` says whether dispatch has begun;
it is over when the machine is idle again. -/
def perform (m : Machine H) : Request H → Except Crash (Reply × Machine H)
  | .setFd fd flags timeout handler => do
      let (result, m) ← m.setFd fd flags timeout (.call handler)
      return (.ofExcept result, m)
  | .clearFd fd => do
      let m ← m.clearFd fd
      return (.done, m)
  | .setTimeoutHandler fd handler => do
      let m ← m.setTimeoutHandler fd handler
      return (.done, m)
  | .interest fd => .ok (.interest (m.loop.interest? fd), m)
  | .setTimer delay handler => do
      let (id, m) ← m.setTimer delay handler
      return (.timer id, m)
  | .cancelTimer id =>
      let (wasPending, m) := m.cancelTimer id
      .ok (.cancelled wasPending, m)
  | .setSignal signo handler =>
      match m.setSignal signo handler with
      | (.ok key, m) => .ok (.key key, m)
      | (.error refusal, m) => .ok (.refused refusal, m)
  | .unsetSignal signo key => do
      let (result, m) ← m.unsetSignal signo key
      return (.ofExcept result, m)
  | .setBreak => .ok (.done, m.setBreak)
  | .setCallback handler =>
      .ok (.done, { m with loop := { m.loop with callback := some handler } })
  | .clearCallback => .ok (.done, { m with loop := { m.loop with callback := none } })
  | .dispatch =>
      match m.dispatch with
      | .ok m => .ok (.done, m)
      | .error refusal => .ok (.refused refusal, m)

end Machine

end CallbackLoop
