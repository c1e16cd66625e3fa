import CallbackLoop.DescriptorTable
import Std.Data.TreeMap.Basic

/-!
# Linked descriptor tables

How a table of descriptors lies in its arena. A map finds the slot of a number.
The waiting and the active list are rings: every descriptor holds the slots of
its neighbours on each list, and the table knows where a ring is entered and how
many are on it. Every operation is a sequence of reads and writes of single
entries.

Here an operation can go wrong: it can access a vacant slot, take a descriptor
off a list whose length is zero, or go round a ring for ever. Whatever goes wrong
ends it with a `Defect`.
-/

namespace CallbackLoop

/-- The lists of a table. -/
inductive Roll where
  /-- Every registered descriptor. -/
  | waiting
  /-- Descriptors with readiness to dispatch. -/
  | active
deriving DecidableEq

/-- Where a descriptor stands on a list. -/
structure Place where
  listed : Bool := false
  prev : Nat := 0
  next : Nat := 0

/-- A stored descriptor and its places on both lists. -/
structure Entry (R H : Type) where
  descriptor : Descriptor R H
  waiting : Place := {}
  active : Place := {}

namespace Entry

variable {R H : Type}

/-- The place on a list. -/
def place (e : Entry R H) : Roll → Place
  | .waiting => e.waiting
  | .active => e.active

def setPlace (e : Entry R H) (roll : Roll) (p : Place) : Entry R H :=
  match roll with
  | .waiting => { e with waiting := p }
  | .active => { e with active := p }

@[simp] theorem place_setPlace (e : Entry R H) (roll other : Roll) (p : Place) :
    (e.setPlace roll p).place other = if other = roll then p else e.place other := by
  cases roll <;> cases other <;> rfl

@[simp] theorem descriptor_setPlace (e : Entry R H) (roll : Roll) (p : Place) :
    (e.setPlace roll p).descriptor = e.descriptor := by
  cases roll <;> rfl

end Entry

/-- Where the ring of a list is entered, and how many are on it. -/
structure RingHead where
  head : Option Nat := none
  length : Nat := 0

/-- Stored descriptors with their links, and the slot of each number. -/
structure LinkedTable (R H : Type) where
  entries : Arena (Entry R H) := .ofSize 64
  slots : Std.TreeMap Int Nat := {}
  waiting : RingHead := {}
  active : RingHead := {}

namespace LinkedTable

variable {R H : Type}

/-- What can be wrong with a linked table. -/
inductive Defect where
  /-- A vacant slot was accessed. -/
  | vacantSlot
  /-- A list of length zero was to lose a member. -/
  | lengthUnderflow
  | endlessWalk
deriving DecidableEq

/-- The ring of a list. -/
def ring (l : LinkedTable R H) : Roll → RingHead
  | .waiting => l.waiting
  | .active => l.active

def setRing (l : LinkedTable R H) (roll : Roll) (r : RingHead) : LinkedTable R H :=
  match roll with
  | .waiting => { l with waiting := r }
  | .active => { l with active := r }

/-- The entry in slot `i`. -/
def entry (l : LinkedTable R H) (i : Nat) : Except Defect (Entry R H) :=
  match l.entries.get? i with
  | some e => .ok e
  | none => .error .vacantSlot

/-- Replaces the entry in slot `i`. -/
def setEntry (l : LinkedTable R H) (i : Nat) (e : Entry R H) : LinkedTable R H :=
  { l with entries := l.entries.set i e }

/-- Where the descriptor in slot `i` stands on a list. -/
def place (l : LinkedTable R H) (roll : Roll) (i : Nat) : Except Defect Place := do
  return (← l.entry i).place roll

/-- Changes where the descriptor in slot `i` stands on a list. -/
def alter (l : LinkedTable R H) (roll : Roll) (i : Nat) (f : Place → Place) :
    Except Defect (LinkedTable R H) := do
  let e ← l.entry i
  return l.setEntry i (e.setPlace roll (f (e.place roll)))

/-- Puts slot `i` at the end of a ring. -/
def pushBack (l : LinkedTable R H) (roll : Roll) (i : Nat) :
    Except Defect (LinkedTable R H) := do
  let l ← match (l.ring roll).head with
    | none => do
        let l ← l.alter roll i ({ · with prev := i, next := i })
        pure (l.setRing roll { l.ring roll with head := some i })
    | some head => do
        let tail := (← l.place roll head).prev
        let l ← l.alter roll i ({ · with prev := tail, next := head })
        let l ← l.alter roll tail ({ · with next := i })
        l.alter roll head ({ · with prev := i })
  return l.setRing roll { l.ring roll with length := (l.ring roll).length + 1 }

/-- Makes the neighbours of slot `i` each other's. If the ring is entered at `i`, it
is entered at the next slot from then on. -/
def bypass (l : LinkedTable R H) (roll : Roll) (i : Nat) :
    Except Defect (LinkedTable R H) := do
  let p ← l.place roll i
  if p.next = i then return l.setRing roll { l.ring roll with head := none }
  let l ← l.alter roll p.prev ({ · with next := p.next })
  let l ← l.alter roll p.next ({ · with prev := p.prev })
  if (l.ring roll).head = some i then
    return l.setRing roll { l.ring roll with head := some p.next }
  return l

/-- Takes slot `i` out of a ring and leaves it alone. -/
def unlink (l : LinkedTable R H) (roll : Roll) (i : Nat) :
    Except Defect (LinkedTable R H) := do
  let l ← l.bypass roll i
  let l ← l.alter roll i ({ · with prev := i, next := i })
  if (l.ring roll).length = 0 then throw .lengthUnderflow
  return l.setRing roll { l.ring roll with length := (l.ring roll).length - 1 }

/-- The slots of a ring from `cursor` on, up to the one before `start`. -/
def walk (l : LinkedTable R H) (roll : Roll) (step : Place → Nat) (start : Nat) :
    (fuel cursor : Nat) → Except Defect (List Nat)
  | 0, _ => .error .endlessWalk
  | fuel + 1, cursor => do
      let p ← l.place roll cursor
      if step p = start then return [cursor]
      return cursor :: (← walk l roll step start fuel (step p))

/-- How often a walk may go on. -/
def rounds (l : LinkedTable R H) : Nat :=
  l.entries.slots.size + 1

/-- The slots on a list, read from its head on. -/
def read (l : LinkedTable R H) (roll : Roll) : Except Defect (List Nat) :=
  match (l.ring roll).head with
  | none => return []
  | some head => l.walk roll Place.next head l.rounds head

/-- The slots on a list, read backwards from its end. -/
def readBack (l : LinkedTable R H) (roll : Roll) : Except Defect (List Nat) := do
  match (l.ring roll).head with
  | none => return []
  | some head =>
      let tail := (← l.place roll head).prev
      l.walk roll Place.prev tail l.rounds tail

/-- The slot of the descriptor with number `fd`. -/
def slotOf? (l : LinkedTable R H) (fd : Int) : Option Nat :=
  l.slots[fd]?

/-- The descriptor in a slot. -/
def get? (l : LinkedTable R H) (i : Nat) : Option (Descriptor R H) :=
  (l.entries.get? i).map Entry.descriptor

/-- Changes the descriptor in slot `i`, but for its number. -/
def revise (l : LinkedTable R H) (i : Nat) (f : Descriptor R H → Descriptor R H) :
    Except Defect (LinkedTable R H) := do
  let e ← l.entry i
  return l.setEntry i { e with descriptor := { f e.descriptor with fd := e.descriptor.fd } }

/-- The slot of the descriptor with number `fd`, which is created on its first
use. -/
def ensure (l : LinkedTable R H) (fd : Int) : Nat × LinkedTable R H :=
  match l.slotOf? fd with
  | some i => (i, l)
  | none =>
      let (i, entries) := l.entries.insert { descriptor := { fd } }
      (i, { l with entries, slots := l.slots.insert fd i })

/-- Puts slot `i` at the end of a list, if it is not on it. -/
def join (l : LinkedTable R H) (roll : Roll) (i : Nat) :
    Except Defect (LinkedTable R H) := do
  if (← l.place roll i).listed then return l
  let l ← l.pushBack roll i
  l.alter roll i ({ · with listed := true })

/-- Takes slot `i` off a list it is on. -/
def drop (l : LinkedTable R H) (roll : Roll) (i : Nat) :
    Except Defect (LinkedTable R H) := do
  let l ← l.unlink roll i
  l.alter roll i ({ · with listed := false })

/-- Takes slot `i` off a list, if it is on it. -/
def leave (l : LinkedTable R H) (roll : Roll) (i : Nat) :
    Except Defect (LinkedTable R H) := do
  if (← l.place roll i).listed then l.drop roll i
  else return l

/-- Takes the oldest slot off the active list. -/
def takeActive? (l : LinkedTable R H) :
    Except Defect (Option (Nat × LinkedTable R H)) := do
  match l.active.head with
  | none => return none
  | some i => return some (i, ← l.drop .active i)

/-- Takes a descriptor off both lists, out of storage and out of the map. -/
def free (l : LinkedTable R H) (i : Nat) :
    Except Defect (Descriptor R H × LinkedTable R H) := do
  let l ← l.leave .waiting i
  let l ← l.leave .active i
  match l.entries.remove i with
  | .error _ => throw .vacantSlot
  | .ok (e, entries) =>
      return ({ e.descriptor with stage := .freed },
        { l with entries, slots := l.slots.erase e.descriptor.fd })

/-- Number of descriptors in storage. -/
def size (l : LinkedTable R H) : Nat :=
  l.entries.size

/-- Number of registered descriptors. -/
def watched (l : LinkedTable R H) : Nat :=
  l.waiting.length

end LinkedTable

end CallbackLoop
