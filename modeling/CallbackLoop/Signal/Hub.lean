import CallbackLoop.Failure
import CallbackLoop.Kernel.Files

/-!
# Signal hubs

The handler of a signal belongs to the whole process, so the registrations of
all loops are counted in hubs. The process handler is installed for the first
registration of a signal and taken away with the last one. A signal belongs to
one hub at a time.

A loop that receives signals joins a hub with the write end of its pipe. When
a signal arrives, its hub writes the signal number to every joined pipe.
-/

namespace CallbackLoop

/-- Registrations counted by signal number, and the places of joined loops. -/
structure Hub where
  refcounts : Std.TreeMap Int Nat := ∅
  /-- The write end that each place holds. -/
  places : Array (Option Int) := Array.replicate 64 none

namespace Hub

/-- Number of loops that a hub has room for. -/
def capacity : Nat := 64

/-- Number of registrations for a signal. -/
def refcount (hub : Hub) (signo : Int) : Nat :=
  hub.refcounts.getD signo 0

/-- Puts a write end into the first vacant place. The number `-1` names no
descriptor and leaves the place vacant. -/
def join (hub : Hub) (writer : Int) : Except Refusal (Nat × Hub) :=
  match hub.places.findIdx? (·.isNone) with
  | none => .error (.tooManyLoops capacity)
  | some place =>
      let occupant := if writer = -1 then none else some writer
      .ok (place, { hub with places := hub.places.setIfInBounds place occupant })

/-- Vacates a place. -/
def leave (hub : Hub) (place : Nat) : Hub :=
  { hub with places := hub.places.setIfInBounds place none }

/-- The write ends of the joined loops in the order of their places. -/
def members (hub : Hub) : List Int :=
  (hub.places.toList.filterMap id).filter (0 ≤ ·)

end Hub

/-- The process as its loops see it: the kernel, the hubs by number, and the
hub that owns each signal with an installed handler. -/
structure Host where
  kernel : Kernel := {}
  hubs : Std.TreeMap Nat Hub := ∅
  owners : Std.TreeMap Int Nat := ∅

/-- A panic, and the host as it was then. -/
structure Crash where
  panic : Panic
  host : Host

/-- The signals that a process can catch: 1 to 64 except 9 and 19, which end
and stop it. -/
def isCatchable (signo : Int) : Bool :=
  0 < signo && signo < 65 && signo != 9 && signo != 19

namespace Kernel

/-- Changes the disposition of a signal. Signals 32 and 33 are reserved. -/
def setDisposition (k : Kernel) (signo : Int) (disposition : Disposition) :
    Except Errno Unit × Kernel :=
  let call := Call.setDisposition signo disposition
  let variant : CallVariant :=
    match disposition with
    | .handler => .handler
    | .default => .default
  let (hit, k) :=
    if signo = 32 || signo = 33 then (some Errno.invalidArgument, k)
    else k.strike { name := .sigaction, subject := some signo, variant := some variant }
  match hit with
  | some cause => (k.note call cause).fail cause
  | none =>
      let k := k.note call
      match disposition with
      | .handler => (.ok (), { k with caught := k.caught.insert signo })
      | .default => (.ok (), { k with caught := k.caught.erase signo })

end Kernel

namespace Host

/-- The hub with the given number; a hub that was never used is empty. -/
def hub (h : Host) (id : Nat) : Hub :=
  h.hubs.getD id {}

/-- Replaces a hub. -/
def setHub (h : Host) (id : Nat) (hub : Hub) : Host :=
  { h with hubs := h.hubs.insert id hub }

/-- Counts one more registration for a signal. The first one makes the hub the
owner of the signal and installs the handler. -/
def acquire (h : Host) (id : Nat) (signo : Int) : Except Refusal Unit × Host :=
  if !isCatchable signo then (.error (.invalidSignal signo), h)
  else
    let hub := h.hub id
    let count := hub.refcount signo
    let counted (h : Host) : Host :=
      h.setHub id { hub with refcounts := hub.refcounts.insert signo (count + 1) }
    if count ≠ 0 then (.ok (), counted h)
    else if h.owners.contains signo then (.error (.signalOwned signo), h)
    else
      match h.kernel.setDisposition signo .handler with
      | (.ok (), kernel) =>
          (.ok (), counted { h with kernel, owners := h.owners.insert signo id })
      | (.error cause, kernel) =>
          let refusal :=
            if cause = .invalidArgument then .invalidSignal signo else .host (.call cause)
          (.error refusal, { h with kernel })

/-- Drops one registration for a signal. The last one takes the handler away; if
the host refuses that, the program ends. Dropping a registration that was
never counted does nothing. -/
def release (h : Host) (id : Nat) (signo : Int) : Except Crash Host :=
  let hub := h.hub id
  let count := hub.refcount signo
  if !isCatchable signo || count = 0 then .ok h
  else if count ≠ 1 then
    .ok (h.setHub id { hub with refcounts := hub.refcounts.insert signo (count - 1) })
  else
    let h := h.setHub id { hub with refcounts := hub.refcounts.erase signo }
    match h.kernel.setDisposition signo .default with
    | (.ok (), kernel) => .ok { h with kernel, owners := h.owners.erase signo }
    | (.error cause, kernel) =>
        .error ⟨.dispositionStuck signo cause, { h with kernel }⟩

/-- Joins a hub with the write end of a pipe and returns the place. -/
def join (h : Host) (id : Nat) (writer : Int) : Except Refusal (Nat × Host) :=
  match (h.hub id).join writer with
  | .error refusal => .error refusal
  | .ok (place, hub) => .ok (place, h.setHub id hub)

/-- Leaves a place of a hub. -/
def leave (h : Host) (id : Nat) (place : Nat) : Except Crash Host :=
  if place < Hub.capacity then .ok (h.setHub id ((h.hub id).leave place))
  else .error ⟨.hubPlaceOutOfRange Hub.capacity place, h⟩

/-- Writes one byte to each of the given descriptors, whether or not it gets
through. -/
def broadcast (k : Kernel) (byte : UInt8) (members : List Int) : Kernel :=
  members.foldl (fun k fd => (k.write fd [byte]).2) k

/-- The process handler of a signal: the owning hub writes the number to every
joined pipe. The error number of the interrupted code is kept. -/
def catchSignal (h : Host) (signo : Int) : Host :=
  match h.owners[signo]? with
  | none => h
  | some id =>
      let kernel := broadcast h.kernel signo.toNat.toUInt8 (h.hub id).members
      { h with kernel := { kernel with errno := h.kernel.errno } }

/-- Raises a signal. Without a handler nothing happens. -/
def raise (h : Host) (signo : Int) : Host :=
  if h.kernel.caught.contains signo then
    { h with kernel := h.kernel.note (.signal signo .handler) }.catchSignal signo
  else { h with kernel := h.kernel.note (.signal signo .default) }

end Host

end CallbackLoop
