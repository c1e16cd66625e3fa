import CallbackLoop.Backend.Select

/-!
# The select backend in the host's words

How a select table meets the host. A descriptor is a signed word of 32 bits, and a set
of descriptors is a mask with a bit for each that the host can represent. The masks are
made anew for every wait. The host looks at their bits below the width it is given,
and answers with masks.

Here an operation can go wrong: it can count past the greatest word, or touch a bit
outside a mask. Whatever goes wrong ends it with a `SelectDefect`. To be refused is not
a defect but an answer.
-/

namespace CallbackLoop

/-- What can be wrong with a select backend. -/
inductive SelectDefect where
  /-- The greatest word was counted up. -/
  | overflow
  /-- A bit outside a mask was set or tested. -/
  | outsideMask
deriving DecidableEq

/-- A set of descriptors, with a bit for each below the limit. -/
structure FdMask where
  bits : BitVec SelectSets.limit := 0

namespace FdMask

/-- The place of a descriptor's bit. -/
def place (fd : Int32) : Except SelectDefect Nat :=
  if 0 ≤ fd.toInt ∧ fd.toInt < SelectSets.limit then .ok fd.toInt.toNat
  else .error .outsideMask

/-- Sets the bit of a descriptor. -/
def insert (m : FdMask) (fd : Int32) : Except SelectDefect FdMask := do
  let i ← place fd
  return ⟨m.bits ||| BitVec.twoPow _ i⟩

/-- Sets the bit of a descriptor on a condition. -/
def insertIf (m : FdMask) (condition : Bool) (fd : Int32) : Except SelectDefect FdMask :=
  if condition then m.insert fd else .ok m

/-- Tests the bit of a descriptor. -/
def contains (m : FdMask) (fd : Int32) : Except SelectDefect Bool := do
  return m.bits.getLsbD (← place fd)

/-- The descriptors below `width` whose bits are set, in ascending order. -/
def below (m : FdMask) (width : Int32) : List Int :=
  ((List.range width.toInt.toNat).filter m.bits.getLsbD).map Int.ofNat

/-- The mask of listed descriptors. Those outside the range of a mask are passed over. -/
def ofList : List Int → FdMask
  | [] => {}
  | fd :: fds =>
      if fd < 0 then ofList fds else ⟨(ofList fds).bits ||| BitVec.twoPow _ fd.toNat⟩

end FdMask

/-- The three masks that select takes and returns. -/
structure FdMasks where
  read : FdMask := {}
  write : FdMask := {}
  except : FdMask := {}

namespace FdMasks

/-- The mask of a direction. -/
def mask (m : FdMasks) : Direction → FdMask
  | .recv => m.read
  | .send => m.write
  | .error => m.except

/-- Sets the bits of a descriptor in the masks of the given directions. -/
def insert (m : FdMasks) (fd : Int32) (directions : Directions) :
    Except SelectDefect FdMasks := do
  let read ← m.read.insertIf directions.recv fd
  let write ← m.write.insertIf directions.send fd
  let except ← m.except.insertIf directions.error fd
  return { read, write, except }

/-- The directions in whose masks the bit of a descriptor is set. -/
def directions (m : FdMasks) (fd : Int32) : Except SelectDefect Directions := do
  return ⟨← m.read.contains fd, ← m.write.contains fd, ← m.except.contains fd⟩

/-- Whether no bit is set. -/
def isEmpty (m : FdMasks) : Bool :=
  m.read.bits == 0 && m.write.bits == 0 && m.except.bits == 0

/-- What the host sees of masks if it looks below `width`. -/
def below (m : FdMasks) (width : Int32) : SelectSets :=
  ⟨m.read.below width, m.write.below width, m.except.below width⟩

/-- The masks of the sets that the host reports. -/
def ofSets (s : SelectSets) : FdMasks :=
  ⟨.ofList s.read, .ofList s.write, .ofList s.except⟩

end FdMasks

/-- Waits on masks, of which the bits below `width` count. -/
def Host.selectMasks (h : Host) (timeoutMicros : Option Nat) (width : Int32)
    (masks : FdMasks) : Except Errno FdMasks × Host :=
  match h.select timeoutMicros width.toInt (masks.below width) with
  | (.ok reported, h) => (.ok (.ofSets reported), h)
  | (.error cause, h) => (.error cause, h)

/-- The registered descriptors in ascending order, and the width that is passed to the
host. -/
structure NativeSelect where
  registered : Std.TreeMap Int32 Interest := ∅
  width : Int32 := 0

namespace NativeSelect

/-- The number after that of a descriptor. -/
def after (fd : Int32) : Except SelectDefect Int32 :=
  if fd = Int32.maxValue then .error .overflow else .ok (fd + 1)

/-- The number of a descriptor read as an unsigned word of 64 bits. -/
def unsigned (fd : Int32) : UInt64 :=
  fd.toInt64.toUInt64

/-- Starts to watch a descriptor. As unsigned numbers the negative ones are beyond the
limit too. -/
def register (p : NativeSelect) (fd : Int32) (interest : Interest) :
    Except SelectDefect (Except Errno Unit × NativeSelect) := do
  if SelectSets.limit ≤ (unsigned fd).toNat then return (.error .invalidArgument, p)
  let registered := p.registered.insert fd interest
  let width := max p.width (← after fd)
  return (.ok (), { registered, width })

/-- Changes the interest in a registered descriptor. -/
def modify (p : NativeSelect) (fd : Int32) (interest : Interest) :
    Except Errno Unit × NativeSelect :=
  match p.registered[fd]? with
  | some _ => (.ok (), { p with registered := p.registered.insert fd interest })
  | none => (.error .notFound, p)

/-- Makes the width the least one that covers what is registered. -/
def refreshWidth (p : NativeSelect) : Except SelectDefect NativeSelect := do
  match p.registered.maxKey? with
  | some fd => return { p with width := ← after fd }
  | none => return { p with width := 0 }

/-- Stops watching a descriptor, registered or not. The width is made anew if the
descriptor was registered and reached it. -/
def unregister (p : NativeSelect) (fd : Int32) :
    Except SelectDefect (Except Errno Unit × NativeSelect) := do
  if p.registered.contains fd then
    let p := { p with registered := p.registered.erase fd }
    if (← after fd) = p.width then return (.ok (), ← p.refreshWidth)
    return (.ok (), p)
  return (.ok (), p)

/-- Sets the bits of descriptors in the masks that their interests name. -/
def fill : List (Int32 × Interest) → FdMasks → Except SelectDefect FdMasks
  | [], masks => return masks
  | (fd, interest) :: entries, masks => do
      let masks ← masks.insert fd interest.directions
      fill entries masks

/-- The masks to wait on. -/
def masks (p : NativeSelect) : Except SelectDefect FdMasks :=
  fill p.registered.toList {}

/-- The events of those descriptors that have a bit in the masks. -/
def collect (reported : FdMasks) : List Int32 → Except SelectDefect (List Event)
  | [] => return []
  | fd :: fds => do
      let ready ← reported.directions fd
      let events ← collect reported fds
      return if ready.isEmpty then events else ⟨fd.toInt, ready⟩ :: events

/-- Waits for events. An interruption counts as no events. -/
def wait (p : NativeSelect) (h : Host) (timeout : Option Nat) :
    Except SelectDefect (Except Errno (List Event) × Host) := do
  let masks ← p.masks
  match h.selectMasks (timeout.map Time.cappedMicros) p.width masks with
  | (.error cause, h) =>
      return (if cause = .interrupted then .ok [] else .error cause, h)
  | (.ok reported, h) =>
      if reported.isEmpty then return (.ok [], h)
      return (.ok (← collect reported p.registered.keys), h)

end NativeSelect

end CallbackLoop
