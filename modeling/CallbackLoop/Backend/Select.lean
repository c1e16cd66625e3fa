import CallbackLoop.Wait

/-!
# The select backend

Select has no state in the kernel: the sets are made anew from the registered
descriptors for every wait.
-/

namespace CallbackLoop

/-- The registered descriptors in ascending order, and a bound one above the
greatest of them. -/
structure SelectTable where
  registered : Std.TreeMap Int Interest := ∅
  width : Int := 0

namespace SelectTable

/-- The least width that covers the registered descriptors. -/
def leastWidth (registered : Std.TreeMap Int Interest) : Int :=
  match registered.maxKey? with
  | some fd => fd + 1
  | none => 0

/-- Starts to watch a descriptor; those beyond the limit are refused. -/
def register (t : SelectTable) (fd : Int) (interest : Interest) :
    Except Errno SelectTable :=
  if fd < 0 || (SelectSets.limit : Int) ≤ fd then .error .invalidArgument
  else .ok ⟨t.registered.insert fd interest, max t.width (fd + 1)⟩

/-- Changes the interest in a registered descriptor. -/
def modify (t : SelectTable) (fd : Int) (interest : Interest) :
    Except Errno SelectTable :=
  if t.registered.contains fd then
    .ok { t with registered := t.registered.insert fd interest }
  else .error .notFound

/-- Stops watching a descriptor, registered or not. -/
def unregister (t : SelectTable) (fd : Int) : SelectTable :=
  if t.registered.contains fd then
    let registered := t.registered.erase fd
    ⟨registered, if fd + 1 = t.width then leastWidth registered else t.width⟩
  else t

/-- The registered descriptors whose interest has a direction. -/
def watching (t : SelectTable) (direction : Direction) : List Int :=
  (t.registered.toList.filter fun (_, interest) =>
    interest.directions.contains direction).map Prod.fst

/-- The sets to wait on. -/
def sets (t : SelectTable) : SelectSets :=
  ⟨t.watching .recv, t.watching .send, t.watching .error⟩

/-- The events that the reported sets mean for the registered descriptors, in
ascending order. -/
def events (t : SelectTable) (reported : SelectSets) : List Event :=
  t.registered.keys.filterMap fun fd =>
    let ready := reported.directions fd
    if ready.isEmpty then none else some ⟨fd, ready⟩

/-- Waits for events. An interruption counts as no events. -/
def wait (t : SelectTable) (h : Host) (timeout : Option Nat) :
    Except Errno (List Event) × Host :=
  match h.select (timeout.map Time.cappedMicros) t.width t.sets with
  | (.ok reported, h) => (.ok (t.events reported), h)
  | (.error cause, h) =>
      (if cause = .interrupted then .ok [] else .error cause, h)

end SelectTable

end CallbackLoop
