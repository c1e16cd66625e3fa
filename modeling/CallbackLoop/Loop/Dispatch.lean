import CallbackLoop.Loop.Registration

/-!
# Dispatching a loop

One iteration runs the callback, due timers, ready descriptors, expired
timeouts and due timers again, and then waits. A break ends dispatch after the
running handler; directions of a descriptor that it leaves unrun are queued
again.

`Machine.step` makes one move of the dispatcher. It does nothing while other
code is in control, and `Machine.resume` gives control back when a handler
returns.
-/

namespace CallbackLoop

namespace Machine

variable {H : Type}

/-- Goes on with a phase. -/
def goTo (m : Machine H) (phase : Phase H) : Machine H :=
  { m with control := .dispatching phase }

/-- Stops at an invocation, to go on with `next`. -/
def invoke (m : Machine H) (invocation : Invocation H) (next : Phase H) : Machine H :=
  { m with control := .running invocation next }

/-- Goes on after a handler has returned. -/
def resume (m : Machine H) : Machine H :=
  match m.control with
  | .running _ next => m.goTo next
  | _ => m

/-- Returns from dispatch, which uses up the break. -/
def finish (m : Machine H) : Machine H :=
  { m with
    loop := { m.loop with broken := false, dispatching := false }
    control := .idle }

/-- Settles a descriptor after its handlers ran: frees it if it was cleared,
queues the directions that a break left unrun, and brings the host in line. -/
def settle (m : Machine H) (slot clears : Nat) (pending : Directions) :
    Except Crash (Machine H) := do
  let d ← m.descriptor slot
  let d := { d with busy := false }
  if d.isClearing then
    (m.setDescriptor slot d).free slot
  else if d.clears = clears && !pending.isEmpty then
    let d := { d with ready := d.ready ∪ (pending ∩ d.registered) }
    let m := m.setDescriptor slot d
    let m := if d.ready.isEmpty then m else m.withTable (m.loop.table.activate slot)
    m.align slot false
  else
    (m.setDescriptor slot d).align slot false

/-- Starts the turn of an active descriptor, which ends its wait for activity. -/
def beginTurn (m : Machine H) (slot : Nat) : Except Crash (Machine H) := do
  let d ← m.descriptor slot
  let m := m.disarm d.timeout
  let m := m.setDescriptor slot
    { d with
      ready := ∅
      busy := true
      lastTurn := m.loop.iteration
      timeout := none }
  return m.goTo (.turn ⟨slot, d.fd, d.clears, d.ready⟩)

/-- Ends the turn of a descriptor. -/
def endTurn (m : Machine H) (turn : Turn) : Except Crash (Machine H) := do
  let m ← m.settle turn.slot turn.clears turn.pending
  return m.goTo .ready

/-- Runs the next pending direction of a turn. A break or a clear of the
descriptor ends the turn early. -/
def advanceTurn (m : Machine H) (turn : Turn) : Except Crash (Machine H) := do
  let d ← m.descriptor turn.slot
  match turn.pending.first? with
  | none => m.endTurn turn
  | some direction =>
      if m.loop.broken || d.clears ≠ turn.clears then m.endTurn turn
      else
        let turn := { turn with pending := turn.pending.erase direction }
        match d.binding? direction with
        | none => return m.goTo (.turn turn)
        | some binding =>
            let m :=
              if binding.oneshot then
                m.setDescriptor turn.slot (d.setBinding direction none)
              else m
            match binding.reaction with
            | .call handler =>
                return m.invoke (.ready handler turn.fd direction) (.turn turn)
            | .deliver =>
                let (signos, kernel) := m.host.kernel.drain turn.fd
                let m := { m with host := { m.host with kernel } }
                return m.goTo (.deliver signos turn)

/-- Fires an expired timeout. A descriptor that was active in this iteration is
deferred; one without a timeout handler is passed over. -/
def expire (m : Machine H) (fd : Int) (now : Nat) (deferred : List Int) :
    Except Crash (Machine H) :=
  match m.loop.table.slotOf? fd with
  | none => m.crash (.timeoutForUnregistered fd)
  | some slot => do
      let d ← m.descriptor slot
      let d := { d with timeout := none }
      if d.lastTurn = m.loop.iteration then
        return (m.setDescriptor slot d).goTo (.timeouts now (deferred ++ [fd]))
      match d.onTimeout with
      | none => return (m.setDescriptor slot d).goTo (.timeouts now deferred)
      | some handler =>
          let m := m.setDescriptor slot { d with busy := true }
          return m.invoke (.timeout handler fd) (.timedOut slot d.clears now deferred)

/-- Arms a deferred timeout again, unless the descriptor was cleared or got a
timeout of its own since. -/
def postpone (now : Nat) (m : Machine H) (fd : Int) : Machine H :=
  match m.loop.table.slotOf? fd with
  | none => m
  | some slot =>
      match m.loop.table.get? slot with
      | none => m
      | some d =>
          if d.isClearing || d.timeout.isSome then m
          else
            let (id, timeouts) := m.loop.timeouts.arm none fd now
            let m := { m with loop := { m.loop with timeouts } }
            m.setDescriptor slot { d with timeout := some id }

/-- Queues the readiness that one event reports, as far as anyone asked for it.
If the report may have disarmed the host's entry, the interest is passed on
again. -/
def enqueue (m : Machine H) (event : Event) : Except Crash (Machine H) :=
  match m.loop.table.slotOf? event.fd with
  | none => .ok m
  | some slot => do
      let d ← m.descriptor slot
      if d.isClearing then return m
      let ready := event.ready ∩ d.wanted.directions
      if ready.isEmpty then return m
      let m := m.setDescriptor slot { d with ready := d.ready ∪ ready }
      let m := m.withTable (m.loop.table.activate slot)
      if d.held.any (!·.oneshot.isEmpty) then m.align slot true else return m

/-- Waits for events and queues what they report. -/
def awaitEvents (m : Machine H) : Except Crash (Machine H) :=
  match m.loop.backend.wait m.host (m.loop.waitBound m.host.kernel.clock) with
  | (.error cause, host) => .error ⟨.waitFailed cause, host⟩
  | (.ok events, host) => events.foldlM enqueue { m with host }

/-- One move of the dispatcher in the given phase. -/
def advance (m : Machine H) : Phase H → Except Crash (Machine H)
  | .start =>
      if m.loop.broken then .ok m.finish
      else
        let m := { m with loop := { m.loop with iteration := m.loop.iteration + 1 } }
        match m.loop.callback with
        | some handler => .ok (m.invoke (.callback handler) .called)
        | none => .ok (m.goTo .called)
  | .called =>
      .ok (if m.loop.broken then m.finish
        else m.goTo (.timers .early m.host.kernel.clock))
  | .timers pass now =>
      let next : Phase H :=
        match pass with
        | .early => .ready
        | .late => .settled
      if m.loop.broken then .ok (m.goTo next)
      else
        match m.loop.timers.takeDue? now with
        | none => .ok (m.goTo next)
        | some (timer, timers) =>
            let m := { m with loop := { m.loop with timers } }
            .ok (m.invoke (.timer timer.handler) (.timers pass now))
  | .ready =>
      if m.loop.broken then .ok (m.goTo (.timeouts m.host.kernel.clock []))
      else
        match m.loop.table.takeActive? with
        | none => .ok (m.goTo (.timeouts m.host.kernel.clock []))
        | some (slot, table) => (m.withTable table).beginTurn slot
  | .turn turn => m.advanceTurn turn
  | .deliver [] turn => .ok (m.goTo (.turn turn))
  | .deliver (signo :: signos) turn =>
      .ok (m.goTo (.signal signo (m.loop.signals.registeredFor signo) signos turn))
  | .signal _ [] signos turn => .ok (m.goTo (.deliver signos turn))
  | .signal signo (r :: left) signos turn =>
      let next := Phase.signal signo left signos turn
      .ok (if m.loop.signals.contains signo r.key then
        m.invoke (.signal r.handler signo) next
      else m.goTo next)
  | .timeouts now deferred =>
      let ended := (deferred.foldl (postpone now) m).goTo (.timers .late m.host.kernel.clock)
      if m.loop.broken then .ok ended
      else
        match m.loop.timeouts.takeDue? now with
        | none => .ok ended
        | some (fd, timeouts) =>
            { m with loop := { m.loop with timeouts } }.expire fd now deferred
  | .timedOut slot clears now deferred => do
      let m ← m.settle slot clears ∅
      return m.goTo (.timeouts now deferred)
  | .settled => .ok (if m.loop.broken then m.finish else m.goTo .wait)
  | .wait => do
      let m ← m.awaitEvents
      return m.goTo .start

/-- One move of the dispatcher; nothing happens unless it is in control. -/
def step (m : Machine H) : Except Crash (Machine H) :=
  match m.control with
  | .dispatching phase => m.advance phase
  | _ => .ok m

end Machine

end CallbackLoop
