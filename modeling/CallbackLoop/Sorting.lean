/-!
# Sorting short lists

An insertion sort by structural recursion. It is stable: elements that are
equivalent under `le` keep their order.
-/

namespace CallbackLoop

universe u

variable {α : Type u}

/-- Puts `x` in front of the first element that it is `le` to. -/
def insertBy (le : α → α → Bool) (x : α) : List α → List α
  | [] => [x]
  | y :: ys => if le x y then x :: y :: ys else y :: insertBy le x ys

/-- The elements of a list in the order of `le`. -/
def sortBy (le : α → α → Bool) : List α → List α
  | [] => []
  | x :: xs => insertBy le x (sortBy le xs)

theorem insertBy_perm (le : α → α → Bool) (x : α) (xs : List α) :
    (insertBy le x xs).Perm (x :: xs) := by
  induction xs with
  | nil => exact .refl _
  | cons y ys ih =>
      unfold insertBy
      split
      · exact .refl _
      · exact (ih.cons y).trans (.swap x y ys)

/-- Sorting keeps every element. -/
theorem sortBy_perm (le : α → α → Bool) (xs : List α) : (sortBy le xs).Perm xs := by
  induction xs with
  | nil => exact .refl _
  | cons x xs ih => exact (insertBy_perm le x _).trans (ih.cons x)

/-- Inserting into a sorted list keeps it sorted. -/
theorem pairwise_insertBy {le : α → α → Bool}
    (trans : ∀ a b c, le a b = true → le b c = true → le a c = true)
    (total : ∀ a b, le a b = true ∨ le b a = true)
    (x : α) {xs : List α} (sorted : xs.Pairwise (le · · = true)) :
    (insertBy le x xs).Pairwise (le · · = true) := by
  induction xs with
  | nil => simp [insertBy]
  | cons y ys ih =>
      obtain ⟨first, rest⟩ := List.pairwise_cons.1 sorted
      unfold insertBy
      split
      next below =>
        refine List.pairwise_cons.2 ⟨?_, sorted⟩
        intro z member
        rcases List.mem_cons.1 member with rfl | member
        · exact below
        · exact trans _ _ _ below (first z member)
      next notBelow =>
        refine List.pairwise_cons.2 ⟨?_, ih rest⟩
        intro z member
        rcases List.mem_cons.1 ((insertBy_perm le x ys).mem_iff.1 member) with rfl | member
        · exact (total z y).resolve_left notBelow
        · exact first z member

/-- A total preorder is respected by the result. -/
theorem pairwise_sortBy {le : α → α → Bool}
    (trans : ∀ a b c, le a b = true → le b c = true → le a c = true)
    (total : ∀ a b, le a b = true ∨ le b a = true) (xs : List α) :
    (sortBy le xs).Pairwise (le · · = true) := by
  induction xs with
  | nil => exact .nil
  | cons x xs ih => exact pairwise_insertBy trans total x ih

end CallbackLoop
