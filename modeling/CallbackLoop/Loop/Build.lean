import CallbackLoop.Loop.Holdings
import CallbackLoop.Loop.Registration

/-!
# Building loops
-/

namespace CallbackLoop

/-- How to build a loop. -/
structure LoopOptions where
  backend : BackendKind := .auto
  /-- Longest wait while timers or timeouts are pending. -/
  tick : Nat := 10 * Time.milli
  /-- Whether the loop receives signals. -/
  primary : Bool := false
  /-- Events taken from one wait. -/
  capacity : Nat := 64
  hub : Nat := 0

namespace LoopOptions

/-- The panic that the options cause by themselves. -/
def misuse? (o : LoopOptions) : Option Panic :=
  if o.tick = 0 then some .zeroTick
  else if o.capacity = 0 then some .zeroCapacity
  else none

/-- Opens the notification pipe of a primary loop and registers its read end. On
a refusal nothing of the loop is left. -/
def buildPrimary {H : Type} (host : Host) (loop : Loop H) :
    Except Crash (Except Refusal (Loop H) × Host) :=
  match SelfPipe.acquire? host loop.hub with
  | (.error refusal, host) => do
      let (_, host) ← loop.discard host
      return (.error refusal, host)
  | (.ok pipe, host) => do
      let m : Machine H := { host, loop := { loop with pipe := some pipe } }
      let (result, m) ←
        m.setFd pipe.reader (.recv ∪ .nonblock) .unlimited .deliver
      match result with
      | .ok () => return (.ok m.loop, m.host)
      | .error refusal =>
          let (_, host) ← m.loop.discard m.host
          return (.error refusal, host)

/-- Builds a loop. -/
def build (H : Type) (o : LoopOptions) (host : Host) :
    Except Crash (Except Refusal (Loop H) × Host) :=
  match o.misuse? with
  | some panic => .error ⟨panic, host⟩
  | none =>
      match Backend.create host.kernel o.backend o.capacity with
      | (.error cause, kernel) => .ok (.error (.host cause), { host with kernel })
      | (.ok backend, kernel) =>
          let host := { host with kernel }
          let loop : Loop H := { backend, hub := o.hub, tick := o.tick }
          if o.primary then buildPrimary host loop else .ok (.ok loop, host)

end LoopOptions

end CallbackLoop
