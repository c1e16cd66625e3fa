import CallbackLoop.Proofs.Heap.Edges

/-!
# The ring of roots

What turning the ring, adding a root, replacing a key and cutting a node do to
the items and edges of a ring.  Cutting a node out of the tree that it lies in
makes it a root and removes the edge above it; the roots that were there before
keep their items, the first of them its place.
-/

namespace CallbackLoop
namespace Heap

universe u

variable {κ : Type u}

theorem turnTo_perm
    (slot : Nat) (ring : List (Tree κ)) :
    (turnTo slot ring).Perm ring := by
  unfold turnTo
  refine List.perm_append_comm.trans ?_
  rw [List.takeWhile_append_dropWhile]

/-- Turning brings what lies before the first root in the slot to the end. -/
theorem turnTo_append
    {slot : Nat} {before after : List (Tree κ)} {t : Tree κ}
    (hbefore : ∀ s ∈ before, s.item.slot ≠ slot) (ht : t.item.slot = slot) :
    turnTo slot (before ++ t :: after) = t :: (after ++ before) := by
  have hall : ∀ s ∈ before, decide (s.item.slot ≠ slot) = true := by
    simpa using hbefore
  unfold turnTo
  rw [List.dropWhile_append_of_pos hall, List.takeWhile_append_of_pos hall,
    List.dropWhile_cons_of_neg (by simpa using ht),
    List.takeWhile_cons_of_neg (by simpa using ht)]
  simp

/-- The turned ring starts at a root in the given slot, if there is one. -/
theorem turnTo_eq_cons
    {slot : Nat} {ring : List (Tree κ)}
    (h : ∃ t ∈ ring, t.item.slot = slot) :
    ∃ t rest, turnTo slot ring = t :: rest ∧ t.item.slot = slot := by
  have hfind : (ring.find? (·.item.slot = slot)).isSome := by
    simpa using h
  obtain ⟨t, ht⟩ := Option.isSome_iff_exists.1 hfind
  obtain ⟨hslot, before, after, rfl, hbefore⟩ := List.find?_eq_some_iff_append.1 ht
  refine ⟨t, after ++ before, turnTo_append ?_ (by simpa using hslot), by simpa using hslot⟩
  intro s hs
  simpa using hbefore s hs

theorem addRoot_perm
    (cmp : κ → κ → Ordering) (t : Tree κ) (ring : List (Tree κ)) :
    (addRoot cmp t ring).Perm (t :: ring) := by
  unfold addRoot
  split
  · exact .refl _
  · split
    · exact .cons _ (List.perm_append_singleton _ _)
    · exact .swap _ _ _

theorem items_setKey
    (slot : Nat) (key : κ) (ring : List (Tree κ)) :
    (setKey slot key ring).flatMap Tree.items =
      (ring.flatMap Tree.items).map (Item.rekey slot key) := by
  induction ring with
  | nil =>
      rfl
  | cons t ring ih =>
      unfold setKey at ih ⊢
      simp [Tree.items, Forest.items_setKey, ih, Item.rekey]

theorem edges_setKey
    (slot : Nat) (key : κ) (ring : List (Tree κ)) :
    (setKey slot key ring).flatMap Tree.edges =
      (ring.flatMap Tree.edges).map
        (Prod.map (Item.rekey slot key) (Item.rekey slot key)) := by
  induction ring with
  | nil =>
      rfl
  | cons t ring ih =>
      unfold setKey at ih ⊢
      rw [List.map_cons, List.flatMap_cons, ih, List.flatMap_cons, List.map_append]
      exact congrArg (· ++ _) (Forest.edges_setKey slot key t.item t.children)

/-- The parent of a node, in whichever tree it lies, is the upper end of the
edge above it. -/
theorem parent?_eq_find?_edges
    {cmp : κ → κ → Ordering} (h : Heap κ cmp) (slot : Nat) :
    h.parent? slot =
      ((h.roots.flatMap Tree.edges).find? (·.2.slot = slot)).map Prod.fst := by
  unfold parent?
  induction h.roots with
  | nil =>
      rfl
  | cons t ring ih =>
      rw [List.findSome?_cons, Forest.parent?_eq_find?_edges, List.flatMap_cons,
        List.find?_append, ih]
      show _ = Option.map Prod.fst
        (((t.children.edges t.item).find? _).or _)
      cases (t.children.edges t.item).find? (·.2.slot = slot) <;> simp

theorem severRoots_eq_none_iff
    (slot : Nat) (ring : List (Tree κ)) :
    severRoots slot ring = none ↔
      ∀ t ∈ ring, slot ∉ t.children.items.map Item.slot := by
  induction ring with
  | nil =>
      simp [severRoots]
  | cons t ring ih =>
      rw [List.forall_mem_cons, ← ih, ← Forest.sever_eq_none_iff, severRoots]
      cases t.children.sever slot with
      | some s =>
          simp
      | none =>
          cases severRoots slot ring <;> simp

section Severed

variable {slot : Nat} {ring rest cut : List (Tree κ)}
  (h : severRoots slot ring = some (rest, cut))
include h

/-- The two ways in which a node is cut out of a ring. -/
theorem severRoots_cases :
    ∃ before t after,
      ring = before ++ t :: after ∧
      (∀ s ∈ before, slot ∉ s.children.items.map Item.slot) ∧
      ∃ below, t.children.sever slot = some below ∧
        rest = before ++ { t with children := below.remaining } :: after ∧
        cut = below.cut := by
  induction ring generalizing rest cut with
  | nil =>
      simp [severRoots] at h
  | cons t ring ih =>
      unfold severRoots at h
      split at h
      next below hbelow =>
          cases h
          exact ⟨[], t, ring, rfl, by simp, below, hbelow, rfl, rfl⟩
      next hnone =>
          split at h
          next rest' cut' hrest =>
              obtain ⟨before, s, after, rfl, hbefore, below, hbelow, rfl, rfl⟩ :=
                ih hrest
              cases h
              refine ⟨t :: before, s, after, rfl, ?_, below, hbelow, rfl, rfl⟩
              exact List.forall_mem_cons.2
                ⟨(Forest.sever_eq_none_iff slot t.children).1 hnone, hbefore⟩
          next =>
              cases h

theorem items_severRoots_perm :
    (cut.flatMap Tree.items ++ rest.flatMap Tree.items).Perm
      (ring.flatMap Tree.items) := by
  obtain ⟨before, t, after, rfl, -, below, hbelow, rfl, rfl⟩ := severRoots_cases h
  have hperm := Forest.items_sever_perm hbelow
  simp only [List.flatMap_append, List.flatMap_cons, Tree.items, List.cons_append]
  have hmid :
      (t.item :: (below.cut.flatMap Tree.items ++ below.remaining.items)).Perm
        (t.item :: t.children.items) :=
    hperm.cons _
  refine (List.perm_append_comm_assoc _ _ _).trans (.append_left _ ?_)
  refine List.perm_middle.trans ?_
  rw [← List.append_assoc]
  exact hmid.append_right (after.flatMap Tree.items)

theorem map_item_severRoots :
    rest.map Tree.item = ring.map Tree.item := by
  obtain ⟨before, t, after, rfl, -, below, hbelow, rfl, rfl⟩ := severRoots_cases h
  simp

theorem exists_mem_cut_of_severRoots :
    ∃ t ∈ cut, t.item.slot = slot := by
  obtain ⟨before, t, after, rfl, -, below, hbelow, rfl, rfl⟩ := severRoots_cases h
  exact Forest.exists_mem_cut_of_sever hbelow

theorem mem_edges_of_severRoots
    (hnodup : ((ring.flatMap Tree.items).map Item.slot).Nodup)
    {e : Item κ × Item κ}
    (he : e ∈ cut.flatMap Tree.edges ++ rest.flatMap Tree.edges) :
    e ∈ ring.flatMap Tree.edges ∧ e.2.slot ≠ slot := by
  obtain ⟨before, t, after, rfl, hbefore, below, hbelow, rfl, rfl⟩ := severRoots_cases h
  simp only [List.flatMap_append, List.flatMap_cons, List.map_append, Tree.items,
    List.map_cons] at hnodup
  obtain ⟨-, htail, -⟩ := List.nodup_append.1 hnodup
  obtain ⟨htree, -, hdisj⟩ := List.nodup_append.1 htail
  simp only [List.flatMap_append, List.flatMap_cons, List.mem_append] at he ⊢
  -- The edges of the tree itself are those that severing its children leaves.
  have htouched :
      e ∈ below.cut.flatMap Tree.edges ++ below.remaining.edges t.item →
        e ∈ t.edges ∧ e.2.slot ≠ slot :=
    Forest.mem_edges_of_sever hbelow (List.nodup_cons.1 htree).2
  rcases he with he | he | he | he
  · have := htouched (List.mem_append_left _ he)
    exact ⟨.inr (.inl this.1), this.2⟩
  · refine ⟨.inl he, ?_⟩
    obtain ⟨s, hs, hes⟩ := List.mem_flatMap.1 he
    intro heq
    exact hbefore s hs (heq ▸ List.mem_map_of_mem (Forest.mem_items_of_mem_edges hes))
  · have := htouched (List.mem_append_right _ he)
    exact ⟨.inr (.inl this.1), this.2⟩
  · refine ⟨.inr (.inr he), ?_⟩
    obtain ⟨s, hs, hes⟩ := List.mem_flatMap.1 he
    intro heq
    refine hdisj slot (List.mem_cons_of_mem _ (Forest.mem_slots_of_sever hbelow)) slot ?_ rfl
    rw [← heq]
    exact List.mem_map_of_mem
      (List.mem_flatMap.2 ⟨s, hs, (Tree.mem_items_of_mem_edges hes).2⟩)

end Severed

/-- Either the node is cut out of a tree and goes right after the first root, or
it lies below no root and nothing changes. -/
theorem uproot_cases
    (slot : Nat) (ring : List (Tree κ)) :
    (∃ first others cut,
      severRoots slot ring = some (first :: others, cut) ∧
      uproot slot ring = first :: (cut ++ others)) ∨
    ((∀ t ∈ ring, slot ∉ t.children.items.map Item.slot) ∧ uproot slot ring = ring) := by
  cases h : severRoots slot ring with
  | none =>
      refine .inr ⟨(severRoots_eq_none_iff slot ring).1 h, ?_⟩
      simp [uproot, h]
  | some p =>
      obtain ⟨rest, cut⟩ := p
      obtain ⟨before, t, after, -, -, below, -, hrest, -⟩ := severRoots_cases h
      cases rest with
      | nil =>
          simp at hrest
      | cons first others =>
          exact .inl ⟨first, others, cut, rfl, by simp [uproot, h]⟩

/-- Making a node a root loses no item. -/
theorem items_uproot_perm
    (slot : Nat) (ring : List (Tree κ)) :
    ((uproot slot ring).flatMap Tree.items).Perm (ring.flatMap Tree.items) := by
  rcases uproot_cases slot ring with ⟨first, others, cut, h, hring⟩ | ⟨-, hring⟩
  · rw [hring]
    refine List.Perm.trans ?_ (items_severRoots_perm h)
    simp only [List.flatMap_cons, List.flatMap_append]
    exact List.perm_append_comm_assoc _ _ _
  · rw [hring]

/-- The first root stays first. -/
theorem head_uproot
    (slot : Nat) (ring : List (Tree κ)) :
    (uproot slot ring).head?.map Tree.item = ring.head?.map Tree.item := by
  rcases uproot_cases slot ring with ⟨first, others, cut, h, hring⟩ | ⟨-, hring⟩
  · rw [hring, ← List.head?_map, ← List.head?_map, ← map_item_severRoots h]
    rfl
  · rw [hring]

theorem exists_root_uproot
    {slot : Nat} {ring : List (Tree κ)}
    (hslot : slot ∈ (ring.flatMap Tree.items).map Item.slot) :
    ∃ t ∈ uproot slot ring, t.item.slot = slot := by
  rcases uproot_cases slot ring with ⟨first, others, cut, h, hring⟩ | ⟨hnone, hring⟩
  · obtain ⟨t, ht, heq⟩ := exists_mem_cut_of_severRoots h
    exact ⟨t, by simp [hring, ht], heq⟩
  · obtain ⟨item, hitem, rfl⟩ := List.mem_map.1 hslot
    obtain ⟨t, ht, hmem⟩ := List.mem_flatMap.1 hitem
    refine ⟨t, by rw [hring]; exact ht, ?_⟩
    rcases List.mem_cons.1 hmem with rfl | hmem
    · rfl
    · exact absurd (List.mem_map_of_mem hmem) (hnone t ht)

/-- Making a node a root creates no edge and removes the one above it. -/
theorem mem_edges_uproot
    {slot : Nat} {ring : List (Tree κ)}
    (hnodup : ((ring.flatMap Tree.items).map Item.slot).Nodup)
    {e : Item κ × Item κ} (he : e ∈ (uproot slot ring).flatMap Tree.edges) :
    e ∈ ring.flatMap Tree.edges ∧ e.2.slot ≠ slot := by
  rcases uproot_cases slot ring with ⟨first, others, cut, h, hring⟩ | ⟨hnone, hring⟩
  · rw [hring] at he
    refine mem_edges_of_severRoots h hnodup ?_
    simp only [List.flatMap_cons, List.flatMap_append, List.mem_append] at he ⊢
    rcases he with he | he | he
    · exact .inr (.inl he)
    · exact .inl he
    · exact .inr (.inr he)
  · rw [hring] at he
    obtain ⟨t, ht, hmem⟩ := List.mem_flatMap.1 he
    refine ⟨he, ?_⟩
    intro heq
    exact hnone t ht (heq ▸ List.mem_map_of_mem (Forest.mem_items_of_mem_edges hmem))

end Heap
end CallbackLoop
