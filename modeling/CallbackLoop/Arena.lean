/-!
# Arenas

An arena keeps values in numbered slots. A value stays in the slot it was put
into until it is removed, and the number of a removed value's slot is given out
again by a later insertion. Whoever keeps slot numbers across removals pairs
them with a serial number of its own.

Vacant slots are kept on a stack: the slot vacated last is used first, and a
new arena gives out its slots in ascending order. When the stack is empty the
arena doubles.
-/

namespace CallbackLoop

universe u

/-- Numbered slots, and the vacant ones in the order in which they are used. -/
structure Arena (α : Type u) where
  slots : Array (Option α)
  free : List Nat

namespace Arena

variable {α : Type u}

/-- Why a slot has no value to remove. -/
inductive Missing where
  | outOfRange
  | vacant
deriving DecidableEq

/-- An arena with `n` vacant slots, the lowest to be used first. -/
def ofSize (n : Nat) : Arena α :=
  ⟨Array.replicate n none, List.range n⟩

/-- The value in slot `i`, if that slot is occupied. -/
def get? (a : Arena α) (i : Nat) : Option α :=
  a.slots[i]?.join

/-- Whether slot `i` is occupied. -/
def contains (a : Arena α) (i : Nat) : Bool :=
  (a.get? i).isSome

/-- Number of occupied slots. -/
def size (a : Arena α) : Nat :=
  a.slots.size - a.free.length

/-- Puts `x` into the slot vacated last, or doubles the arena and uses the
first new slot. -/
def insert (a : Arena α) (x : α) : Nat × Arena α :=
  match a.free with
  | i :: free =>
      (i, ⟨a.slots.setIfInBounds i (some x), free⟩)
  | [] =>
      let n := a.slots.size
      (n, ⟨a.slots.push (some x) ++ Array.replicate (n - 1) none,
        List.range' (n + 1) (n - 1)⟩)

/-- Replaces the value in an occupied slot; a vacant slot stays vacant. -/
def set (a : Arena α) (i : Nat) (x : α) : Arena α :=
  if a.contains i then
    { a with slots := a.slots.setIfInBounds i (some x) }
  else a

/-- Vacates slot `i` and makes it the next one to be used. -/
def erase (a : Arena α) (i : Nat) : Arena α :=
  ⟨a.slots.setIfInBounds i none, i :: a.free⟩

/-- Takes the value out of slot `i`. -/
def remove (a : Arena α) (i : Nat) : Except Missing (α × Arena α) :=
  if a.slots.size ≤ i then .error .outOfRange
  else
    match a.get? i with
    | some x => .ok (x, a.erase i)
    | none => .error .vacant

@[simp] theorem get?_ofSize (n i : Nat) : (ofSize n : Arena α).get? i = none := by
  simp only [get?, ofSize, Array.getElem?_replicate]
  split <;> rfl

theorem contains_iff {a : Arena α} {i : Nat} :
    a.contains i = true ↔ ∃ x, a.get? i = some x := by
  simp [contains, Option.isSome_iff_exists]

/-- An occupied slot is one of the arena's. -/
theorem lt_size_of_get? {a : Arena α} {i : Nat} {x : α} (h : a.get? i = some x) :
    i < a.slots.size := by
  rcases Nat.lt_or_ge i a.slots.size with below | above
  · exact below
  · simp [get?, Array.getElem?_eq_none above] at h

theorem get?_set (a : Arena α) (i j : Nat) (x : α) :
    (a.set i x).get? j = if i = j ∧ a.contains i = true then some x else a.get? j := by
  by_cases occupied : a.contains i = true
  · obtain ⟨y, h⟩ := contains_iff.1 occupied
    have below := lt_size_of_get? h
    simp only [set, occupied, if_true, get?, Array.getElem?_setIfInBounds, below]
    split
    next same => simp [same]
    next differ => simp [differ]
  · simp [set, occupied]

theorem get?_erase (a : Arena α) (i j : Nat) :
    (a.erase i).get? j = if i = j then none else a.get? j := by
  simp only [erase, get?, Array.getElem?_setIfInBounds]
  split
  · split <;> rfl
  · rfl

end Arena

end CallbackLoop
