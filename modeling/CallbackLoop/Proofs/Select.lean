import CallbackLoop.Proofs.Backend

/-!
# The width of a select table

A wait looks at the descriptors below the width only.  Registering raises the width where
it has to; unregistering lowers it only if the descriptor was the greatest one, and then to
what the rest needs.  So the width is always the least one that covers what is registered.
-/

namespace CallbackLoop
namespace SelectTable

variable {t t' : SelectTable} {registered : Std.TreeMap Int Interest} {fd : Int}
  {interest : Interest}

/-- The width is no greater than the registered descriptors need. -/
def Tight (t : SelectTable) : Prop :=
  t.width = leastWidth t.registered

theorem tight_empty :
    ({} : SelectTable).Tight := by
  show 0 = leastWidth ∅
  rw [leastWidth, Std.TreeMap.maxKey?_eq_none_iff.2 Std.TreeMap.isEmpty_emptyc]

theorem leastWidth_of_maxKey?
    {greatest : Int} (h : registered.maxKey? = some greatest) :
    leastWidth registered = greatest + 1 := by
  rw [leastWidth, h]

/-- A new descriptor raises the least width if it is not below it. -/
theorem leastWidth_insert
    (h : 0 ≤ fd) :
    leastWidth (registered.insert fd interest) = max (leastWidth registered) (fd + 1) := by
  rw [leastWidth_of_maxKey? Std.TreeMap.maxKey?_insert]
  cases hmax : registered.maxKey? with
  | none =>
      have hzero : leastWidth registered = 0 := by
        rw [leastWidth, hmax]
      rw [hzero, Option.elim_none]
      omega
  | some greatest =>
      rw [leastWidth_of_maxKey? hmax, Option.elim_some]
      split
      next hle =>
          rw [Int.isLE_compare] at hle
          omega
      next hle =>
          rw [Int.isLE_compare] at hle
          omega

/-- A descriptor that is registered anew leaves the least width. -/
theorem leastWidth_insert_of_contains
    (h : registered.contains fd = true) :
    leastWidth (registered.insert fd interest) = leastWidth registered := by
  cases hmax : registered.maxKey? with
  | none =>
      rw [Std.TreeMap.maxKey?_eq_none_iff] at hmax
      rw [Std.TreeMap.contains_of_isEmpty hmax] at h
      cases h
  | some greatest =>
      obtain ⟨-, hgreatest⟩ := Std.TreeMap.maxKey?_eq_some_iff_mem_and_forall.1 hmax
      have hle := hgreatest fd (Std.TreeMap.contains_iff_mem.1 h)
      rw [Int.isLE_compare] at hle
      rw [leastWidth_of_maxKey? Std.TreeMap.maxKey?_insert, leastWidth_of_maxKey? hmax, hmax,
        Option.elim_some]
      split
      next hge =>
          rw [Int.isLE_compare] at hge
          omega
      next =>
          rfl

/-- Any descriptor but the greatest can go without a change of the least width. -/
theorem leastWidth_erase
    (h : fd + 1 ≠ leastWidth registered) :
    leastWidth (registered.erase fd) = leastWidth registered := by
  have hsame : (registered.erase fd).maxKey? = registered.maxKey? := by
    refine Std.TreeMap.maxKey?_erase_eq_of_not_compare_eq_maxKey? ?_
    intro greatest hmax heq
    rw [leastWidth_of_maxKey? hmax, Std.LawfulEqCmp.compare_eq_iff_eq.1 heq] at h
    exact h rfl
  rw [leastWidth, leastWidth, hsame]

theorem Tight.register
    (h : t.Tight) (hregister : t.register fd interest = .ok t') :
    t'.Tight := by
  unfold SelectTable.register at hregister
  split at hregister
  next =>
      cases hregister
  next hrange =>
      rw [Bool.or_eq_true, decide_eq_true_eq, decide_eq_true_eq] at hrange
      cases hregister
      show max t.width (fd + 1) = leastWidth (t.registered.insert fd interest)
      rw [leastWidth_insert (by omega), ← h]

theorem Tight.modify
    (h : t.Tight) (hmodify : t.modify fd interest = .ok t') :
    t'.Tight := by
  unfold SelectTable.modify at hmodify
  split at hmodify
  next hcontains =>
      cases hmodify
      exact h.trans (leastWidth_insert_of_contains hcontains).symm
  next =>
      cases hmodify

theorem Tight.unregister
    (h : t.Tight) (fd : Int) :
    (t.unregister fd).Tight := by
  unfold SelectTable.unregister
  split
  next =>
      dsimp only [Tight]
      split
      next =>
          rfl
      next hne =>
          rw [h] at hne ⊢
          exact (leastWidth_erase hne).symm
  next =>
      exact h

end SelectTable
end CallbackLoop
