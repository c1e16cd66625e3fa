import CallbackLoop.Kernel.Epoll
import CallbackLoop.Signal.Hub

/-!
# Waiting for readiness

A wait takes the next entry of the kernel's script. Descriptors close and open
and signals are raised while it lasts; then it fails, or reports readiness, or
times out. The number of waits is bounded.
-/

namespace CallbackLoop

namespace Kernel

/-- The next entry of the script; past its end nothing happens. -/
def nextEntry (k : Kernel) : WaitEntry × Kernel :=
  let k := { k with waitsLeft := k.waitsLeft - 1 }
  match k.script with
  | [] => ({}, k)
  | entry :: script => (entry, { k with script })

/-- The shortest time that an unanswered wait takes. -/
def shortestWait : Nat := 1000

end Kernel

/-- What a wait reported: whether there was anything, and what. -/
structure Report (β : Type) where
  any : Bool
  value : β

namespace Host

/-- Everything that happens to the process during a wait. -/
def happen (h : Host) (entry : WaitEntry) : Host :=
  let kernel := entry.closed.foldl Kernel.close h.kernel
  let kernel := entry.opened.foldl Kernel.reopen kernel
  entry.raised.foldl Host.raise { h with kernel }

/-- A failed wait. -/
def failWait {β : Type} (h : Host) (cause : Errno) : Except Errno β × Host :=
  let (result, kernel) := h.kernel.fail cause
  (result, { h with kernel })

/-- Waits, at most for `timeout` if there is one. `collect` makes a report of
the conditions that hold at the end: those of the script, then those of pipes
that can be read. A wait that nothing could end fails. -/
def await {β : Type} (h : Host) (timeout : Option Nat)
    (collect : Bool → List (Int × Conditions) → Kernel → Report β × Kernel) :
    Except Errno β × Host :=
  if h.kernel.waitsLeft = 0 then h.failWait .deadlock
  else
    let (entry, kernel) := h.kernel.nextEntry
    let h := { h with kernel }.happen entry
    match entry.failure with
    | some cause =>
        { h with kernel := h.kernel.advance (entry.duration.getD 0) }.failWait cause
    | none =>
        let ready := entry.events ++ h.kernel.readablePipes (entry.events.map Prod.fst)
        let (report, kernel) := collect entry.raw ready h.kernel
        let h := { h with kernel }
        let lasting (duration : Nat) : Except Errno β × Host :=
          (.ok report.value, { h with kernel := h.kernel.advance duration })
        match entry.duration, timeout with
        | some duration, _ => lasting duration
        | none, some timeout =>
            lasting (if report.any then 0 else max timeout Kernel.shortestWait)
        | none, none => if report.any then lasting 0 else h.failWait .deadlock

/-- Waits on an epoll instance for at most `capacity` reports. -/
def epollWait (h : Host) (number : Nat) (timeoutMillis : Int) (capacity : Nat) :
    Except Errno (List (Int × Conditions)) × Host :=
  let kernel := h.kernel.note (.epollWait h.kernel.clock timeoutMillis capacity)
  let timeout :=
    if timeoutMillis < 0 then none else some (timeoutMillis.toNat * Time.milli)
  { h with kernel }.await timeout fun raw ready k =>
    if raw then (⟨!(ready.take capacity).isEmpty, ready.take capacity⟩, k)
    else
      let (reports, table) :=
        Kernel.epollReport k.closed capacity ready (k.epollTable number)
      (⟨!reports.isEmpty, reports⟩,
        if reports.isEmpty then k else { k with epolls := k.epolls.insert number table })

end Host

/-- The three sets of descriptors that select takes and returns. -/
structure SelectSets where
  read : List Int := []
  write : List Int := []
  except : List Int := []

namespace SelectSets

/-- Descriptors that select cannot represent start here. -/
def limit : Nat := 1024

/-- Whether a descriptor is in none of the sets. -/
def isEmpty (s : SelectSets) : Bool :=
  s.read.isEmpty && s.write.isEmpty && s.except.isEmpty

/-- The directions in whose sets a descriptor is. -/
def directions (s : SelectSets) (fd : Int) : Directions :=
  ⟨s.read.contains fd, s.write.contains fd, s.except.contains fd⟩

/-- Adds a descriptor to the sets of the given directions. -/
def add (s : SelectSets) (fd : Int) (directions : Directions) : SelectSets where
  read := if directions.recv then fd :: s.read else s.read
  write := if directions.send then fd :: s.write else s.write
  except := if directions.error then fd :: s.except else s.except

/-- What select reports of the given conditions: those that were asked for, or
all of them if `raw`. Closed descriptors and those beyond the limit are
passed over. -/
def report (asked : SelectSets) (closed : Std.TreeSet Int) (raw : Bool)
    (ready : List (Int × Conditions)) : SelectSets :=
  ready.foldr (fun (fd, condition) reported =>
    if closed.contains fd || fd < 0 || (limit : Int) ≤ fd then reported
    else
      let exposed := condition.exposed
      reported.add fd (if raw then exposed else exposed ∩ asked.directions fd)) {}

end SelectSets

namespace Host

/-- Waits on sets of descriptors below `width`. A closed descriptor in any of
them makes the wait fail at once. -/
def select (h : Host) (timeoutMicros : Option Nat) (width : Int) (asked : SelectSets) :
    Except Errno SelectSets × Host :=
  let kernel := h.kernel.note
    (.select h.kernel.clock timeoutMicros width asked.read asked.write asked.except)
  let h := { h with kernel }
  if (asked.read ++ asked.write ++ asked.except).any kernel.closed.contains then
    h.failWait .badDescriptor
  else
    h.await (timeoutMicros.map (· * Time.micro)) fun raw ready k =>
      let reported := asked.report k.closed raw ready
      (⟨!reported.isEmpty, reported⟩, k)

end Host

end CallbackLoop
