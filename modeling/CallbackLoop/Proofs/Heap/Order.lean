import CallbackLoop.Proofs.Heap.Ring

/-!
# Heap order and consolidation

A ring is ordered when no parent compares greater than one of its children.
Consolidation keeps the items and the order of a ring, and the ring that it
returns starts at a root that no other root compares below.
-/

namespace CallbackLoop
namespace Heap

universe u

variable {κ : Type u} {cmp : κ → κ → Ordering}

/-- Along every edge of the ring the parent does not compare greater than the
child. -/
def Ordered
    (cmp : κ → κ → Ordering) (ring : List (Tree κ)) : Prop :=
  ∀ e ∈ ring.flatMap Tree.edges, (cmp e.1.key e.2.key).isLE = true

theorem Ordered.of_subset
    {ring ring' : List (Tree κ)} (h : Ordered cmp ring)
    (hsub : ring'.flatMap Tree.edges ⊆ ring.flatMap Tree.edges) :
    Ordered cmp ring' :=
  fun e he => h e (hsub he)

theorem Ordered.perm
    {ring ring' : List (Tree κ)} (h : Ordered cmp ring) (hperm : ring'.Perm ring) :
    Ordered cmp ring' :=
  h.of_subset (hperm.flatMap_right _).subset

theorem ordered_cons_iff
    {t : Tree κ} {ring : List (Tree κ)} :
    Ordered cmp (t :: ring) ↔
      (∀ e ∈ t.edges, (cmp e.1.key e.2.key).isLE = true) ∧ Ordered cmp ring := by
  simp only [Ordered, List.flatMap_cons, List.forall_mem_append]

theorem ordered_iff
    {ring : List (Tree κ)} :
    Ordered cmp ring ↔
      ∀ t ∈ ring, ∀ e ∈ t.edges, (cmp e.1.key e.2.key).isLE = true := by
  simp only [Ordered, List.mem_flatMap]
  constructor
  · intro h t ht e he
    exact h e ⟨t, ht, he⟩
  · rintro h e ⟨t, ht, he⟩
    exact h t ht e he

/-- The root slots of a ring do not repeat if no slot does. -/
theorem eq_of_slot_eq
    {ring : List (Tree κ)} (hnodup : ((ring.flatMap Tree.items).map Item.slot).Nodup)
    {s t : Tree κ} (hs : s ∈ ring) (ht : t ∈ ring) (heq : s.item.slot = t.item.slot) :
    s = t := by
  have hsub : (ring.map Tree.item).Sublist (ring.flatMap Tree.items) := by
    clear hnodup hs ht
    induction ring with
    | nil =>
        exact .refl _
    | cons r ring ih =>
        exact .cons_cons _ (ih.trans (List.sublist_append_right _ _))
  have hroots : (ring.map fun t => t.item.slot).Nodup := by
    have := (hsub.map Item.slot).nodup hnodup
    rwa [List.map_map] at this
  exact List.inj_on_of_nodup_map hroots hs ht heq

section Transitive

variable [Std.TransCmp cmp]

theorem isLE_of_mem_row
    {parent : Item κ} {f : Forest κ}
    (h : ∀ e ∈ f.edges parent, (cmp e.1.key e.2.key).isLE = true)
    {item : Item κ} (hitem : item ∈ f.items) :
    (cmp parent.key item.key).isLE = true := by
  induction f generalizing parent with
  | nil =>
      cases hitem
  | cons top marked children siblings below beside =>
      simp only [Forest.edges, List.forall_mem_cons, List.forall_mem_append] at h
      obtain ⟨htop, hbelow, hbeside⟩ := h
      simp only [Forest.items, List.mem_cons, List.mem_append] at hitem
      rcases hitem with rfl | hitem | hitem
      · exact htop
      · exact Std.TransCmp.isLE_trans htop (below hbelow hitem)
      · exact beside hbeside hitem

/-- No item of an ordered tree compares below its root. -/
theorem isLE_of_mem_items
    {t : Tree κ} (h : ∀ e ∈ t.edges, (cmp e.1.key e.2.key).isLE = true)
    {item : Item κ} (hitem : item ∈ t.items) :
    (cmp t.key item.key).isLE = true := by
  rcases List.mem_cons.1 hitem with rfl | hitem
  · exact Std.ReflCmp.isLE_rfl
  · exact isLE_of_mem_row h hitem

/-- A key that is least among the roots of an ordered ring is least in it. -/
theorem Ordered.isLE_of_mem
    {ring : List (Tree κ)} (h : Ordered cmp ring) {key : κ}
    (hroots : ∀ t ∈ ring, (cmp key t.key).isLE = true)
    {item : Item κ} (hitem : item ∈ ring.flatMap Tree.items) :
    (cmp key item.key).isLE = true := by
  obtain ⟨t, ht, hmem⟩ := List.mem_flatMap.1 hitem
  exact Std.TransCmp.isLE_trans (hroots t ht)
    (isLE_of_mem_items (ordered_iff.1 h t ht) hmem)

end Transitive

theorem items_join_perm
    (cmp : κ → κ → Ordering) (resident newcomer : Placed κ) :
    (join cmp resident newcomer).tree.items.Perm
      (resident.tree.items ++ newcomer.tree.items) := by
  unfold join
  split
  · exact Tree.items_link_perm _ _
  · exact (Tree.items_link_perm _ _).trans List.perm_append_comm

/-- Joining links the root that compares greater below the other one. -/
theorem edges_join
    [Std.OrientedCmp cmp] {resident newcomer : Placed κ}
    (hr : ∀ e ∈ resident.tree.edges, (cmp e.1.key e.2.key).isLE = true)
    (hn : ∀ e ∈ newcomer.tree.edges, (cmp e.1.key e.2.key).isLE = true) :
    ∀ e ∈ (join cmp resident newcomer).tree.edges, (cmp e.1.key e.2.key).isLE = true := by
  intro e he
  unfold join at he
  split at he
  next hlt =>
      have hmem := (Tree.edges_link_perm _ _).subset he
      rcases List.mem_cons.1 hmem with rfl | hmem
      · exact Ordering.isLE_of_eq_lt (Ordering.isLT_iff_eq_lt.1 hlt)
      · rcases List.mem_append.1 hmem with hmem | hmem
        · exact hr e hmem
        · exact hn e hmem
  next hge =>
      have hmem := (Tree.edges_link_perm _ _).subset he
      rcases List.mem_cons.1 hmem with rfl | hmem
      · by_contra hle
        have hlt := Std.OrientedCmp.lt_of_not_isLE hle
        exact hge (Ordering.isLT_iff_eq_lt.2 hlt)
      · rcases List.mem_append.1 hmem with hmem | hmem
        · exact hn e hmem
        · exact hr e hmem

/-- The items of the trees that the buckets hold. -/
def bucketItems
    (buckets : List (Option (Placed κ))) :
    List (Item κ) :=
  (buckets.filterMap id).flatMap (·.tree.items)

@[simp] theorem bucketItems_none
    (buckets : List (Option (Placed κ))) :
    bucketItems (none :: buckets) = bucketItems buckets :=
  rfl

@[simp] theorem bucketItems_some
    (root : Placed κ) (buckets : List (Option (Placed κ))) :
    bucketItems (some root :: buckets) = root.tree.items ++ bucketItems buckets :=
  rfl

theorem items_carry_perm
    (cmp : κ → κ → Ordering) (root : Placed κ) (buckets : List (Option (Placed κ))) :
    (bucketItems (carry cmp root buckets)).Perm
      (root.tree.items ++ bucketItems buckets) := by
  induction buckets generalizing root with
  | nil =>
      exact .refl _
  | cons bucket buckets ih =>
      cases bucket with
      | none =>
          exact .refl _
      | some resident =>
          refine (ih _).trans (((items_join_perm cmp _ _).append_right _).trans ?_)
          rw [bucketItems_some, List.append_assoc]
          exact List.perm_append_comm_assoc _ _ _

theorem items_deposit_perm
    (cmp : κ → κ → Ordering) (root : Placed κ) (degree : Nat)
    (buckets : List (Option (Placed κ))) :
    (bucketItems (deposit cmp root degree buckets)).Perm
      (root.tree.items ++ bucketItems buckets) := by
  induction degree generalizing buckets with
  | zero =>
      cases buckets <;> exact items_carry_perm cmp root _
  | succ degree ih =>
      cases buckets with
      | nil =>
          exact ih []
      | cons bucket buckets =>
          cases bucket with
          | none =>
              exact ih buckets
          | some resident =>
              simp only [deposit, bucketItems_some]
              exact ((ih buckets).append_left _).trans (List.perm_append_comm_assoc _ _ _)

/-- What every joined tree has if the two that are joined have it holds in all
buckets once it holds of what goes into them. -/
theorem forall_mem_carry
    {p : Placed κ → Prop}
    (hjoin : ∀ r n, p r → p n → p (join cmp r n))
    {root : Placed κ} {buckets : List (Option (Placed κ))}
    (hroot : p root) (hbuckets : ∀ b ∈ buckets.filterMap id, p b) :
    ∀ b ∈ (carry cmp root buckets).filterMap id, p b := by
  induction buckets generalizing root with
  | nil =>
      simpa [carry] using hroot
  | cons bucket buckets ih =>
      cases bucket with
      | none =>
          intro b hb
          rcases List.mem_cons.1 hb with rfl | hb
          · exact hroot
          · exact hbuckets b hb
      | some resident =>
          have hres := hbuckets resident List.mem_cons_self
          exact ih (hjoin _ _ hres hroot) fun b hb => hbuckets b (List.mem_cons_of_mem _ hb)

theorem forall_mem_deposit
    {p : Placed κ → Prop}
    (hjoin : ∀ r n, p r → p n → p (join cmp r n))
    {root : Placed κ} (degree : Nat) {buckets : List (Option (Placed κ))}
    (hroot : p root) (hbuckets : ∀ b ∈ buckets.filterMap id, p b) :
    ∀ b ∈ (deposit cmp root degree buckets).filterMap id, p b := by
  induction degree generalizing buckets with
  | zero =>
      cases buckets <;> exact forall_mem_carry hjoin hroot hbuckets
  | succ degree ih =>
      cases buckets with
      | nil =>
          exact ih hbuckets
      | cons bucket buckets =>
          cases bucket with
          | none =>
              exact ih hbuckets
          | some resident =>
              intro b hb
              rcases List.mem_cons.1 hb with rfl | hb
              · exact hbuckets b List.mem_cons_self
              · exact ih (fun b hb => hbuckets b (List.mem_cons_of_mem _ hb)) b hb

/-- The buckets hold every item of the ring. -/
theorem items_buckets_perm
    (cmp : κ → κ → Ordering) (ring : List (Tree κ)) :
    (bucketItems (buckets cmp ring)).Perm (ring.flatMap Tree.items) := by
  have hfold : ∀ (roots : List (Tree κ × Nat)) (bs : List (Option (Placed κ))),
      (bucketItems (roots.foldl
        (fun bs root => deposit cmp ⟨root.2, root.1⟩ root.1.degree bs) bs)).Perm
        ((roots.map Prod.fst).flatMap Tree.items ++ bucketItems bs) := by
    intro roots
    induction roots with
    | nil =>
        intro bs
        exact .refl _
    | cons root roots ih =>
        intro bs
        refine (ih _).trans (((items_deposit_perm cmp _ _ bs).append_left _).trans ?_)
        simp only [List.map_cons, List.flatMap_cons, List.append_assoc]
        exact List.perm_append_comm_assoc _ _ _
  have hperm := hfold ring.zipIdx []
  have hnil : bucketItems ([] : List (Option (Placed κ))) = [] := rfl
  rwa [List.zipIdx_map_fst, hnil, List.append_nil] at hperm

theorem forall_mem_buckets
    {p : Placed κ → Prop}
    (hjoin : ∀ r n, p r → p n → p (join cmp r n))
    {ring : List (Tree κ)} (hring : ∀ t ∈ ring, ∀ place, p ⟨place, t⟩) :
    ∀ b ∈ (buckets cmp ring).filterMap id, p b := by
  have hfold : ∀ (roots : List (Tree κ × Nat)) (bs : List (Option (Placed κ))),
      (∀ root ∈ roots, p ⟨root.2, root.1⟩) → (∀ b ∈ bs.filterMap id, p b) →
      ∀ b ∈ (roots.foldl
        (fun bs root => deposit cmp ⟨root.2, root.1⟩ root.1.degree bs) bs).filterMap id,
        p b := by
    intro roots
    induction roots with
    | nil =>
        intro bs _ hbs
        exact hbs
    | cons root roots ih =>
        intro bs hroots hbs
        obtain ⟨hroot, hroots⟩ := List.forall_mem_cons.1 hroots
        exact ih _ hroots (forall_mem_deposit hjoin _ hroot hbs)
  refine hfold ring.zipIdx [] ?_ (by simp)
  intro root hroot
  refine hring root.1 ?_ root.2
  rw [← List.zipIdx_map_fst 0 ring]
  exact List.mem_map_of_mem hroot

theorem least_mem
    (cmp : κ → κ → Ordering) (best : Placed κ) (roots : List (Placed κ)) :
    least cmp best roots ∈ best :: roots := by
  induction roots generalizing best with
  | nil =>
      exact List.mem_cons_self
  | cons root roots ih =>
      unfold least
      rcases List.mem_cons.1 (ih (if (cmp root.tree.key best.tree.key).isLT then root else best))
        with h | h
      · rw [h]
        split <;> simp
      · exact List.mem_cons_of_mem _ (List.mem_cons_of_mem _ h)

theorem isLE_least
    [Std.TransCmp cmp] (best : Placed κ) (roots : List (Placed κ)) :
    ∀ root ∈ best :: roots,
      (cmp (least cmp best roots).tree.key root.tree.key).isLE = true := by
  induction roots generalizing best with
  | nil =>
      intro root hroot
      rw [List.mem_singleton.1 hroot]
      exact Std.ReflCmp.isLE_rfl
  | cons second roots ih =>
      unfold least
      have hbest := ih (if (cmp second.tree.key best.tree.key).isLT then second else best)
      have hhead := hbest _ List.mem_cons_self
      intro root hroot
      rcases List.mem_cons.1 hroot with rfl | hroot
      · refine Std.TransCmp.isLE_trans hhead ?_
        split
        next hlt => exact Ordering.isLE_of_eq_lt (Ordering.isLT_iff_eq_lt.1 hlt)
        next => exact Std.ReflCmp.isLE_rfl
      · rcases List.mem_cons.1 hroot with rfl | hroot
        · refine Std.TransCmp.isLE_trans hhead ?_
          split
          next => exact Std.ReflCmp.isLE_rfl
          next hge =>
              by_contra hle
              exact hge (Ordering.isLT_iff_eq_lt.2 (Std.OrientedCmp.lt_of_not_isLE hle))
        · exact hbest root (List.mem_cons_of_mem _ hroot)

/-- Consolidation returns the trees of the buckets, from a least one on. -/
theorem consolidate_cases
    (cmp : κ → κ → Ordering) (ring : List (Tree κ)) :
    ((buckets cmp ring).filterMap id = [] ∧ consolidate cmp ring = []) ∨
    ∃ first others,
      (buckets cmp ring).filterMap id = first :: others ∧
      consolidate cmp ring =
        turnTo (least cmp first others).tree.item.slot
          ((sortBy (fun a b => a.place ≤ b.place) (first :: others)).map (·.tree)) := by
  unfold consolidate
  cases (buckets cmp ring).filterMap id with
  | nil => exact .inl ⟨rfl, rfl⟩
  | cons first others => exact .inr ⟨first, others, rfl, rfl⟩

/-- Consolidation only changes the order of the trees in the buckets. -/
theorem consolidate_perm
    (cmp : κ → κ → Ordering) (ring : List (Tree κ)) :
    (consolidate cmp ring).Perm (((buckets cmp ring).filterMap id).map (·.tree)) := by
  rcases consolidate_cases cmp ring with ⟨hheld, hring⟩ | ⟨first, others, hheld, hring⟩
  · rw [hheld, hring]
    exact .refl _
  · rw [hheld, hring]
    exact (turnTo_perm _ _).trans ((sortBy_perm _ _).map _)

/-- Consolidation loses no item. -/
theorem items_consolidate_perm
    (cmp : κ → κ → Ordering) (ring : List (Tree κ)) :
    ((consolidate cmp ring).flatMap Tree.items).Perm (ring.flatMap Tree.items) := by
  refine ((consolidate_perm cmp ring).flatMap_right _).trans ?_
  rw [List.flatMap_map]
  exact items_buckets_perm cmp ring

theorem ordered_consolidate
    [Std.OrientedCmp cmp] {ring : List (Tree κ)} (h : Ordered cmp ring) :
    Ordered cmp (consolidate cmp ring) := by
  rw [ordered_iff] at h ⊢
  intro t ht
  obtain ⟨b, hb, rfl⟩ := List.mem_map.1 ((consolidate_perm cmp ring).subset ht)
  exact forall_mem_buckets
    (p := fun b => ∀ e ∈ b.tree.edges, (cmp e.1.key e.2.key).isLE = true)
    (fun r n hr hn => edges_join hr hn) (fun t ht _ => h t ht) b hb

/-- The consolidated ring starts at a least root. -/
theorem isLE_head_consolidate
    [Std.TransCmp cmp] {ring : List (Tree κ)}
    (hnodup : ((ring.flatMap Tree.items).map Item.slot).Nodup)
    {first : Tree κ} {others : List (Tree κ)}
    (h : consolidate cmp ring = first :: others) :
    ∀ t ∈ first :: others, (cmp first.key t.key).isLE = true := by
  have hperm := consolidate_perm cmp ring
  have hnodup' : (((consolidate cmp ring).flatMap Tree.items).map Item.slot).Nodup :=
    ((items_consolidate_perm cmp ring).map Item.slot).nodup_iff.2 hnodup
  rcases consolidate_cases cmp ring with ⟨-, hring⟩ | ⟨b, bs, hheld, hring⟩
  · rw [hring] at h
    cases h
  · -- The ring was turned to the slot of the least tree, and no other root has it.
    have hleast : (least cmp b bs).tree ∈ consolidate cmp ring := by
      refine hperm.symm.subset ?_
      rw [hheld]
      exact List.mem_map_of_mem (least_mem cmp b bs)
    have hfirst : first = (least cmp b bs).tree := by
      have hmem : (least cmp b bs).tree ∈
          (sortBy (fun a b => a.place ≤ b.place) (b :: bs)).map (·.tree) := by
        refine List.mem_map_of_mem ?_
        exact (sortBy_perm _ _).symm.subset (least_mem cmp b bs)
      obtain ⟨t, rest, hturn, hslot⟩ := turnTo_eq_cons ⟨_, hmem, rfl⟩
      rw [← hring, h] at hturn
      rw [← (List.cons.inj hturn).1] at hslot
      exact eq_of_slot_eq hnodup' (by rw [h]; exact List.mem_cons_self) hleast hslot
    intro t ht
    rw [← h] at ht
    obtain ⟨root, hroot, rfl⟩ := List.mem_map.1 (hperm.subset ht)
    rw [hfirst]
    rw [hheld] at hroot
    exact isLE_least b bs root hroot

end Heap
end CallbackLoop
