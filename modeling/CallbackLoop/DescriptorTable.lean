import CallbackLoop.Arena
import CallbackLoop.Descriptor

/-!
# The descriptors of a loop

Descriptors live in an arena and are found by number. Two lists of slots go
with them: the waiting list holds the registered descriptors, the active list
those with readiness to dispatch, both in the order in which they were added.
-/

namespace CallbackLoop

/-- Stored descriptors, and the slots on the waiting and the active list. -/
structure DescriptorTable (R H : Type) where
  arena : Arena (Descriptor R H) := .ofSize 64
  waiting : List Nat := []
  active : List Nat := []

/-- Appends a slot to a list unless it is on the list already. -/
def enlist (list : List Nat) (slot : Nat) : List Nat :=
  if slot ∈ list then list else list ++ [slot]

@[simp] theorem mem_enlist {list : List Nat} {slot other : Nat} :
    other ∈ enlist list slot ↔ other ∈ list ∨ other = slot := by
  unfold enlist
  split
  next member =>
    constructor
    · exact .inl
    · rintro (h | rfl)
      · exact h
      · exact member
  next => simp

/-- Enlisting keeps a list free of repetitions. -/
theorem nodup_enlist {list : List Nat} (h : list.Nodup) (slot : Nat) :
    (enlist list slot).Nodup := by
  unfold enlist
  split
  next => exact h
  next fresh =>
    refine List.nodup_append.2 ⟨h, by simp, ?_⟩
    rintro x member y single rfl
    exact fresh (List.mem_singleton.1 single ▸ member)

namespace DescriptorTable

variable {R H : Type}

/-- The descriptor in a slot. -/
def get? (t : DescriptorTable R H) (slot : Nat) : Option (Descriptor R H) :=
  t.arena.get? slot

/-- Replaces the descriptor in an occupied slot. -/
def set (t : DescriptorTable R H) (slot : Nat) (d : Descriptor R H) :
    DescriptorTable R H :=
  { t with arena := t.arena.set slot d }

/-- The slot of the descriptor with number `fd`. -/
def slotOf? (t : DescriptorTable R H) (fd : Int) : Option Nat :=
  t.arena.slots.findIdx? (·.any (·.fd == fd))

/-- The descriptor with number `fd`. -/
def find? (t : DescriptorTable R H) (fd : Int) : Option (Descriptor R H) :=
  (t.slotOf? fd).bind t.get?

/-- The slot of the descriptor with number `fd`, which is created on its first
use. -/
def ensure (t : DescriptorTable R H) (fd : Int) : Nat × DescriptorTable R H :=
  match t.slotOf? fd with
  | some slot => (slot, t)
  | none =>
      let (slot, arena) := t.arena.insert { fd }
      (slot, { t with arena })

/-- Puts a slot at the end of the waiting list, if it is not on it. -/
def watch (t : DescriptorTable R H) (slot : Nat) : DescriptorTable R H :=
  { t with waiting := enlist t.waiting slot }

/-- Takes a slot off the waiting list. -/
def unwatch (t : DescriptorTable R H) (slot : Nat) : DescriptorTable R H :=
  { t with waiting := t.waiting.erase slot }

/-- Puts a slot at the end of the active list, if it is not on it. -/
def activate (t : DescriptorTable R H) (slot : Nat) : DescriptorTable R H :=
  { t with active := enlist t.active slot }

/-- Takes a slot off the active list. -/
def deactivate (t : DescriptorTable R H) (slot : Nat) : DescriptorTable R H :=
  { t with active := t.active.erase slot }

/-- Takes the oldest slot off the active list. -/
def takeActive? (t : DescriptorTable R H) : Option (Nat × DescriptorTable R H) :=
  match t.active with
  | [] => none
  | slot :: active => some (slot, { t with active })

/-- Takes a descriptor off both lists and out of storage. -/
def free? (t : DescriptorTable R H) (slot : Nat) :
    Option (Descriptor R H × DescriptorTable R H) :=
  match t.get? slot with
  | none => none
  | some d =>
      let t := (t.unwatch slot).deactivate slot
      some ({ d with stage := .freed }, { t with arena := t.arena.erase slot })

/-- Number of descriptors in storage. -/
def size (t : DescriptorTable R H) : Nat :=
  t.arena.size

/-- Number of registered descriptors. -/
def watched (t : DescriptorTable R H) : Nat :=
  t.waiting.length

end DescriptorTable

end CallbackLoop
