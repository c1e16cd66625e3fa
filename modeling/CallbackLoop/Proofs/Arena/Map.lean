import CallbackLoop.Proofs.Arena

/-!
# Arenas of larger values

The values of an arena may carry more than somebody looks at.  What is left when `f` is
applied to every value is an arena again, with the same slots vacant, and every operation
on the larger values is the same operation on the smaller ones.
-/

namespace CallbackLoop
namespace Arena

universe u v

variable {α : Type u} {β : Type v} (f : α → β) (a : Arena α)

/-- Applies `f` to every value. -/
def map : Arena β where
  slots := a.slots.map (Option.map f)
  free := a.free

@[simp] theorem get?_map
    (i : Nat) :
    (a.map f).get? i = (a.get? i).map f := by
  simp only [get?, map, Array.getElem?_map]
  cases a.slots[i]? with
  | none =>
      rfl
  | some cell =>
      rfl

@[simp] theorem contains_map
    (i : Nat) :
    (a.map f).contains i = a.contains i := by
  simp [contains]

@[simp] theorem size_map :
    (a.map f).size = a.size := by
  simp [size, map]

theorem map_ofSize
    (n : Nat) :
    (ofSize n : Arena α).map f = ofSize n := by
  simp [map, ofSize]

theorem map_insert
    (x : α) :
    (a.map f).insert (f x) = ((a.insert x).1, (a.insert x).2.map f) := by
  cases hfree : a.free with
  | nil =>
      simp [insert, map, hfree]
  | cons i free =>
      simp [insert, map, hfree, Array.map_setIfInBounds]

theorem map_erase
    (i : Nat) :
    (a.erase i).map f = (a.map f).erase i := by
  simp [erase, map, Array.map_setIfInBounds]

theorem map_set
    (i : Nat) (x : α) :
    (a.set i x).map f = (a.map f).set i (f x) := by
  unfold set
  rw [contains_map]
  split
  · simp [map, Array.map_setIfInBounds]
  · rfl

/-- What `f` does not see may change. -/
theorem map_set_of_eq
    {i : Nat} {x y : α} (hx : a.get? i = some x) (hy : f y = f x) :
    (a.set i y).map f = a.map f := by
  rw [map_set, hy]
  exact set_eq_self (by rw [get?_map, hx]; rfl)

theorem sound_map_iff :
    (a.map f).Sound ↔ a.Sound := by
  have hmem : ∀ i, (i < (a.map f).slots.size ∧ (a.map f).get? i = none) ↔
      i < a.slots.size ∧ a.get? i = none := by
    intro i
    rw [get?_map, Option.map_eq_none_iff]
    simp [map]
  constructor
  · intro h
    exact ⟨h.nodup, fun i => (h.mem_free i).trans (hmem i)⟩
  · intro h
    exact ⟨h.nodup, fun i => (h.mem_free i).trans (hmem i).symm⟩

end Arena
end CallbackLoop
