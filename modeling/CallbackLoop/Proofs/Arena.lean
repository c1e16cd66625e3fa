import CallbackLoop.Arena
import Mathlib.Data.Finset.Card
import Mathlib.Data.Finset.Range
import Mathlib.Data.List.Nodup

/-!
# Arenas as partial maps

An arena is sound when its stack of vacant slots has no repetitions and holds
exactly the slots without a value.  A new arena is sound, and every operation
keeps it so.

For a sound arena the operations are those of a partial map from slots to
values: `get?_insert` together with `get?_insert_fst` says that insertion
changes one slot only, which was vacant before, and `size_insert` and
`size_erase` say that `size` counts the occupied slots.
-/

namespace CallbackLoop
namespace Arena

universe u

variable {α : Type u} {a : Arena α}

/-- The stack of vacant slots holds each slot without a value once. -/
structure Sound (a : Arena α) : Prop where
  nodup : a.free.Nodup
  mem_free : ∀ i, i ∈ a.free ↔ i < a.slots.size ∧ a.get? i = none

theorem sound_ofSize
    (n : Nat) :
    (ofSize n : Arena α).Sound where
  nodup := List.nodup_range
  mem_free i := by
    rw [get?_ofSize]
    simp [ofSize]

/-- The vacant slots are no more than there are slots. -/
theorem Sound.length_free_le
    (h : a.Sound) :
    a.free.length ≤ a.slots.size := by
  have hsub : a.free.toFinset ⊆ Finset.range a.slots.size := by
    intro i hi
    exact Finset.mem_range.2 ((h.mem_free i).1 (List.mem_toFinset.1 hi)).1
  have hcard := Finset.card_le_card hsub
  rwa [List.toFinset_card_of_nodup h.nodup, Finset.card_range] at hcard

/-- The size is the length of a list that names every occupied slot once. -/
theorem Sound.size_eq_length
    (h : a.Sound) {l : List Nat} (hnodup : l.Nodup)
    (hl : ∀ i, i ∈ l ↔ ∃ x, a.get? i = some x) :
    a.size = l.length := by
  have hdisjoint : ∀ i ∈ a.free, ∀ j ∈ l, i ≠ j := by
    rintro i hi j hj rfl
    obtain ⟨x, hx⟩ := (hl i).1 hj
    rw [((h.mem_free i).1 hi).2] at hx
    cases hx
  have hperm : (a.free ++ l).Perm (List.range a.slots.size) := by
    rw [List.perm_ext_iff_of_nodup (List.nodup_append.2 ⟨h.nodup, hnodup, hdisjoint⟩)
      List.nodup_range]
    intro i
    rw [List.mem_append, h.mem_free, hl, List.mem_range]
    constructor
    · rintro (⟨hlt, -⟩ | ⟨x, hx⟩)
      · exact hlt
      · exact lt_size_of_get? hx
    · intro hlt
      cases hget : a.get? i with
      | none =>
          exact .inl ⟨hlt, rfl⟩
      | some x =>
          exact .inr ⟨x, rfl⟩
  have hlength := hperm.length_eq
  rw [List.length_append, List.length_range] at hlength
  unfold size
  omega

/-- Insertion uses a slot that was vacant. -/
theorem get?_insert_fst
    (h : a.Sound) (x : α) :
    a.get? (a.insert x).1 = none := by
  unfold insert
  split
  next i free heq =>
      exact ((h.mem_free i).1 (by rw [heq]; exact List.mem_cons_self)).2
  next =>
      simp [get?]

/-- Insertion changes no slot but the one it uses. -/
theorem get?_insert
    (h : a.Sound) (x : α) (j : Nat) :
    (a.insert x).2.get? j =
      if (a.insert x).1 = j then some x else a.get? j := by
  unfold insert
  split
  next i free heq =>
      have hlt : i < a.slots.size :=
        ((h.mem_free i).1 (by rw [heq]; exact List.mem_cons_self)).1
      simp only [get?, Array.getElem?_setIfInBounds, hlt, if_true]
      split <;> rfl
  next =>
      simp only [get?, Array.getElem?_append, Array.size_push, Array.getElem?_push,
        Array.getElem?_replicate]
      rcases Nat.lt_trichotomy j a.slots.size with hj | hj | hj
      · have hne : a.slots.size ≠ j := by omega
        simp [hne, Nat.lt_succ_of_lt hj, Nat.ne_of_lt hj]
      · subst hj
        simp
      · have hne : a.slots.size ≠ j := by omega
        have hge : ¬ j < a.slots.size + 1 := by omega
        have hnone : a.slots[j]? = none :=
          Array.getElem?_eq_none (Nat.le_of_lt hj)
        simp only [hge, if_false, hne, hnone, Option.join_none]
        split <;> rfl

theorem sound_insert
    (h : a.Sound) (x : α) :
    (a.insert x).2.Sound := by
  have hget := get?_insert h x
  cases heq : a.free with
  | cons i free =>
      have hnodup : (i :: free).Nodup := heq ▸ h.nodup
      have hins : a.insert x = (i, ⟨a.slots.setIfInBounds i (some x), free⟩) := by
        simp [insert, heq]
      rw [hins] at hget ⊢
      refine ⟨hnodup.of_cons, ?_⟩
      intro j
      have hj := h.mem_free j
      rw [heq, List.mem_cons] at hj
      rw [hget j]
      by_cases hij : i = j
      · subst hij
        simpa using (List.nodup_cons.1 hnodup).1
      · have hji : ¬ j = i := fun e => hij e.symm
        simp only [hji, false_or] at hj
        simpa [hij] using hj
  | nil =>
      have hocc : ∀ j, j < a.slots.size → a.get? j ≠ none := by
        intro j hj hnone
        have hmem := (h.mem_free j).2 ⟨hj, hnone⟩
        rw [heq] at hmem
        exact List.not_mem_nil hmem
      have hins : a.insert x =
          (a.slots.size,
            ⟨a.slots.push (some x) ++ Array.replicate (a.slots.size - 1) none,
              List.range' (a.slots.size + 1) (a.slots.size - 1)⟩) := by
        simp [insert, heq]
      rw [hins] at hget ⊢
      refine ⟨List.nodup_range', ?_⟩
      intro j
      rw [hget j, List.mem_range'_1]
      simp only [Array.size_append, Array.size_push, Array.size_replicate]
      rcases Nat.lt_trichotomy j a.slots.size with hj | hj | hj
      · have hne : ¬ a.slots.size = j := by omega
        simp only [hne, if_false, hocc j hj, and_false, iff_false]
        omega
      · subst hj
        simp
      · have hne : ¬ a.slots.size = j := by omega
        have hnone : a.get? j = none := by
          simp [get?, Array.getElem?_eq_none (Nat.le_of_lt hj)]
        simp only [hne, if_false, hnone, and_true]
        omega

theorem size_insert
    (h : a.Sound) (x : α) :
    (a.insert x).2.size = a.size + 1 := by
  have hle := h.length_free_le
  unfold insert
  split
  next i free heq =>
      rw [heq, List.length_cons] at hle
      simp only [size, Array.size_setIfInBounds, heq, List.length_cons]
      omega
  next heq =>
      simp only [size, heq, List.length_nil, List.length_range', Array.size_append,
        Array.size_push, Array.size_replicate]
      omega

theorem sound_set
    (h : a.Sound) (i : Nat) (x : α) :
    (a.set i x).Sound := by
  by_cases hocc : a.contains i = true
  · refine ⟨by simpa [set, hocc] using h.nodup, ?_⟩
    intro j
    have hfree : (a.set i x).free = a.free := by simp [set, hocc]
    have hsize : (a.set i x).slots.size = a.slots.size := by simp [set, hocc]
    rw [hfree, hsize, get?_set, h.mem_free j]
    obtain ⟨y, hy⟩ := contains_iff.1 hocc
    by_cases hij : i = j
    · subst hij
      simp [hocc, hy]
    · simp [hij]
  · simpa [set, hocc] using h

/-- Nothing changes when a value is replaced by itself. -/
theorem set_eq_self
    {i : Nat} {x : α} (h : a.get? i = some x) :
    a.set i x = a := by
  have hocc : a.contains i = true := contains_iff.2 ⟨x, h⟩
  have hlt := lt_size_of_get? h
  have hslot : a.slots[i] = some x := by
    simpa [get?, Array.getElem?_eq_getElem hlt] using h
  have hslots : a.slots.setIfInBounds i (some x) = a.slots := by
    rw [← hslot, Array.setIfInBounds_def, dif_pos hlt, Array.set_getElem_self]
  rw [set, if_pos hocc, hslots]

@[simp] theorem size_set
    (a : Arena α) (i : Nat) (x : α) :
    (a.set i x).size = a.size := by
  unfold set
  split <;> simp [size]

theorem sound_erase
    (h : a.Sound) {i : Nat} {x : α} (hi : a.get? i = some x) :
    (a.erase i).Sound := by
  refine ⟨List.nodup_cons.2 ⟨?_, h.nodup⟩, ?_⟩
  · intro hmem
    have hnone := ((h.mem_free i).1 hmem).2
    rw [hi] at hnone
    cases hnone
  · intro j
    rw [get?_erase]
    have hsize : (a.erase i).slots.size = a.slots.size := by simp [erase]
    rw [hsize]
    show j ∈ i :: a.free ↔ _
    rw [List.mem_cons, h.mem_free j]
    by_cases hij : i = j
    · subst hij
      simp [lt_size_of_get? hi]
    · have hji : ¬ j = i := fun e => hij e.symm
      simp [hij, hji]

/-- Vacating an occupied slot takes one off the count. -/
theorem size_erase
    (h : a.Sound) {i : Nat} {x : α} (hi : a.get? i = some x) :
    (a.erase i).size + 1 = a.size := by
  have hle := (sound_erase h hi).length_free_le
  simp only [erase, List.length_cons, Array.size_setIfInBounds] at hle
  simp only [size, erase, List.length_cons, Array.size_setIfInBounds]
  omega

end Arena
end CallbackLoop
