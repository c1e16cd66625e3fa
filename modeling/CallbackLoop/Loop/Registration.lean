import CallbackLoop.Loop.Basic

/-!
# Registering descriptors

Registering, changing and clearing the interest in a descriptor. A descriptor
that is cleared by one of its own handlers counts as unregistered at once but
stays in storage until the handler returns; registering it in between revives
it.
-/

namespace CallbackLoop

namespace Machine

variable {H : Type}

/-- Switches the mode of a descriptor if the flags ask for it. -/
def applyMode (m : Machine H) (fd : Int) (flags : Flags) : Except Crash (Machine H) :=
  if flags.intersects (.nonblock ∪ .block) then
    match m.host.kernel.setNonblocking fd (flags.contains .nonblock) with
    | (.ok (), kernel) => .ok { m with host := { m.host with kernel } }
    | (.error cause, kernel) =>
        .error ⟨.rejected .mode fd cause, { m.host with kernel }⟩
  else .ok m

/-- Finds or creates the descriptor `fd`, puts it on the waiting list and revives
it if it was cleared. -/
def enroll (m : Machine H) (fd : Int) : Except Crash (Nat × Machine H) := do
  let (slot, table) := m.loop.table.ensure fd
  let m := m.withTable (table.watch slot)
  let d ← m.descriptor slot
  if d.isClearing then
    return (slot, m.setDescriptor slot { d with stage := .active, ready := ∅ })
  return (slot, m)

/-- Binds the directions that the flags name. Without `append` every other
direction is unbound. Readiness reported for the named directions before is
dropped. -/
def bind (m : Machine H) (slot : Nat) (flags : Flags) (reaction : Reaction H) :
    Except Crash (Machine H) := do
  let d ← m.descriptor slot
  let directions := flags.directions
  if directions.isEmpty then return m
  let d := if flags.contains .append then d else d.unbindAll
  let d := d.bindAll directions ⟨reaction, flags.contains .oneshot⟩
  return m.setDescriptor slot { d with ready := d.ready \ directions }

/-- Arms, removes or keeps the timeout of a descriptor. -/
def applyTimeout (m : Machine H) (slot : Nat) (fd : Int) (timeout : FdTimeout) :
    Except Crash (Machine H) := do
  let d ← m.descriptor slot
  match timeout with
  | .unmodified => return m
  | .unlimited => return (m.disarm d.timeout).setDescriptor slot { d with timeout := none }
  | .after delay =>
      match Time.after? m.host.kernel.clock delay with
      | none => m.crash .deadlineOverflow
      | some instant =>
          let (id, timeouts) := m.loop.timeouts.arm d.timeout fd instant
          let m := { m with loop := { m.loop with timeouts } }
          return m.setDescriptor slot { d with timeout := some id }

/-- Whether the backend cannot watch a descriptor, and the bound it breaks. -/
def beyondLimit? (m : Machine H) (fd : Int) : Option Nat :=
  m.loop.backend.fdLimit?.filter fun limit => (limit : Int) ≤ fd

/-- Frees a descriptor. -/
def free (m : Machine H) (slot : Nat) : Except Crash (Machine H) :=
  match m.loop.table.free? slot with
  | some (_, table) => .ok (m.withTable table)
  | none => m.crash .vacantSlot

/-- Removes every registration of a descriptor with its timeout. The host stops
to report it at once. -/
def clearFd (m : Machine H) (fd : Int) : Except Crash (Machine H) :=
  match m.loop.table.slotOf? fd with
  | none => .ok m
  | some slot => do
      let d ← m.descriptor slot
      let m ←
        if d.held.isSome then
          m.adopt .removal fd (m.loop.backend.unregister m.host.kernel fd)
        else .ok m
      let m := m.disarm d.timeout
      let cleared :=
        { d.unbindAll with
          held := none
          clears := d.clears + 1
          onTimeout := none
          timeout := none }
      if d.busy then
        let m := m.setDescriptor slot { cleared with stage := .clearing, ready := ∅ }
        return m.withTable ((m.loop.table.unwatch slot).deactivate slot)
      (m.setDescriptor slot cleared).free slot

/-- Registers, changes or clears the interest in a descriptor. -/
def setFd (m : Machine H) (fd : Int) (flags : Flags) (timeout : FdTimeout)
    (reaction : Reaction H) : Except Crash (Except Refusal Unit × Machine H) :=
  if fd < 0 then m.crash (.negativeFd fd)
  else if flags.contains .clear then
    if flags = .clear then do
      let m ← m.clearFd fd
      return (.ok (), m)
    else m.crash (.clearCombined flags)
  else if flags.contains (.nonblock ∪ .block) then m.crash .contradictoryModes
  else
    match m.beyondLimit? fd with
    | some limit => .ok (.error (.fdOutOfRange fd limit), m)
    | none => do
        let m ← m.applyMode fd flags
        let (slot, m) ← m.enroll fd
        let m ← m.bind slot flags reaction
        let m ← m.applyTimeout slot fd timeout
        let m ← m.align slot false
        return (.ok (), m)

/-- Installs the handler that runs when the timeout of a descriptor expires. -/
def setTimeoutHandler (m : Machine H) (fd : Int) (handler : H) :
    Except Crash (Machine H) :=
  match m.loop.table.slotOf? fd with
  | none => m.crash (.handlerForUnregistered fd)
  | some slot => do
      let d ← m.descriptor slot
      return m.setDescriptor slot { d with onTimeout := some handler }

end Machine

end CallbackLoop
