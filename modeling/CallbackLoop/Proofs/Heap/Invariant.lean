import CallbackLoop.Proofs.Arena
import CallbackLoop.Proofs.Heap.Order

/-!
# The invariant of a heap

A heap is sound when its arena knows exactly the items in its trees, slots do
not repeat, serial numbers lie below the next one, and the ring is ordered.  It
is settled when the ring starts at a least root besides.

Every operation takes a settled heap to a settled heap.  Its effect is stated
on the list of items, up to order:

* `insert_spec` adds an item,
* `extractMin?_spec` removes the item of the first root,
* `decreaseKey_spec` replaces the key of one item,
* `delete?_spec` removes the item that a handle names.

A deletion passes through a heap that is sound but not settled: the node that
is to go is turned to the front whatever its key.
-/

namespace CallbackLoop

universe u

variable {κ : Type u} {cmp : κ → κ → Ordering}

/-- The handle under which an item was inserted. -/
def Item.handle (item : Item κ) : Handle :=
  ⟨item.slot, item.serial⟩

theorem Item.handle_eq_iff
    {item : Item κ} {id : Handle} :
    item.handle = id ↔ item.slot = id.slot ∧ item.serial = id.serial := by
  cases id
  simp [handle]

@[simp] theorem Item.handle_rekey
    (slot : Nat) (key : κ) (item : Item κ) :
    (item.rekey slot key).handle = item.handle := by
  simp [handle]

namespace Heap

/-- The arena and the trees agree, and the ring is ordered. -/
structure Sound (h : Heap κ cmp) : Prop where
  slots : h.slots.Sound
  stored : ∀ slot serial, h.slots.get? slot = some serial ↔
    ∃ item ∈ h.items, item.slot = slot ∧ item.serial = serial
  nodup : (h.items.map Item.slot).Nodup
  fresh : ∀ item ∈ h.items, item.serial < h.nextSerial
  size_eq : h.size = h.items.length
  ordered : Ordered cmp h.roots

/-- The ring starts at a root that no other root compares below. -/
def HeadLeast
    (cmp : κ → κ → Ordering) (ring : List (Tree κ)) : Prop :=
  ∀ first ∈ ring.head?, ∀ t ∈ ring, (cmp first.key t.key).isLE = true

/-- A sound heap whose first root is least. -/
structure Settled (h : Heap κ cmp) : Prop extends h.Sound where
  least : HeadLeast cmp h.roots

theorem settled_empty :
    ({} : Heap κ cmp).Settled where
  slots := Arena.sound_ofSize 16
  stored slot serial := by
    constructor
    · intro h
      rw [Arena.get?_ofSize] at h
      cases h
    · rintro ⟨item, hitem, _⟩
      cases hitem
  nodup := List.nodup_nil
  fresh item hitem := by cases hitem
  size_eq := rfl
  ordered e he := by cases he
  least first hfirst := by cases hfirst

section Views

/-- A search for a key that no two members share finds the one that has it. -/
theorem find?_eq_some_iff_of_inj
    {α β : Type*} [DecidableEq β] {f : α → β} {l : List α}
    (hinj : ∀ a ∈ l, ∀ b ∈ l, f a = f b → a = b) {k : β} {a : α} :
    l.find? (fun x => f x = k) = some a ↔ a ∈ l ∧ f a = k := by
  constructor
  · intro h
    exact ⟨List.mem_of_find?_eq_some h, by simpa using List.find?_some h⟩
  · rintro ⟨ha, hk⟩
    have hsome : (l.find? fun x => f x = k).isSome := by
      rw [List.find?_isSome]
      exact ⟨a, ha, by simpa using hk⟩
    obtain ⟨b, hb⟩ := Option.isSome_iff_exists.1 hsome
    have hbk : f b = k := by simpa using List.find?_some hb
    rw [hb, hinj b (List.mem_of_find?_eq_some hb) a ha (hbk.trans hk.symm)]

variable {h : Heap κ cmp}

/-- A slot holds one item at most. -/
theorem Sound.item_ext
    (hs : h.Sound) {i j : Item κ} (hi : i ∈ h.items) (hj : j ∈ h.items)
    (heq : i.slot = j.slot) :
    i = j :=
  List.inj_on_of_nodup_map hs.nodup hi hj heq

theorem Sound.contains_iff
    (hs : h.Sound) (id : Handle) :
    h.contains id = true ↔ ∃ item ∈ h.items, item.handle = id := by
  unfold contains
  rw [beq_iff_eq, hs.stored]
  simp only [Item.handle_eq_iff]

theorem Sound.get?_eq_some_iff
    (hs : h.Sound) {id : Handle} {key : κ} :
    h.get? id = some key ↔ ∃ item ∈ h.items, item.handle = id ∧ item.key = key := by
  have hinj : ∀ i ∈ h.items, ∀ j ∈ h.items, i.handle = j.handle → i = j :=
    fun i hi j hj heq => hs.item_ext hi hj (Item.handle_eq_iff.1 heq).1
  unfold get?
  simp only [← Item.handle_eq_iff]
  rw [Option.map_eq_some_iff]
  simp only [find?_eq_some_iff_of_inj hinj, and_assoc]

/-- No key in a settled heap compares below the first root's. -/
theorem Settled.isLE_of_mem
    [Std.TransCmp cmp] (hs : h.Settled) {first : Tree κ} {others : List (Tree κ)}
    (hroots : h.roots = first :: others) {item : Item κ} (hitem : item ∈ h.items) :
    (cmp first.key item.key).isLE = true :=
  hs.ordered.isLE_of_mem (hs.least first (by rw [hroots]; rfl)) hitem

theorem roots_eq_nil_iff
    (h : Heap κ cmp) :
    h.roots = [] ↔ h.items = [] := by
  unfold items
  cases h.roots with
  | nil => simp
  | cons first others => simp [Tree.items]

end Views

theorem headLeast_addRoot
    [Std.TransCmp cmp] {ring : List (Tree κ)} (h : HeadLeast cmp ring) (t : Tree κ) :
    HeadLeast cmp (addRoot cmp t ring) := by
  cases ring with
  | nil =>
      intro first hfirst s hs
      cases hfirst
      rw [List.mem_singleton.1 hs]
      exact Std.ReflCmp.isLE_rfl
  | cons top others =>
      have htop := h top rfl
      simp only [addRoot]
      split
      next hlt =>
          have hle := Ordering.isLE_of_eq_lt (Ordering.isLT_iff_eq_lt.1 hlt)
          intro first hfirst s hs
          cases hfirst
          rcases List.mem_cons.1 hs with rfl | hs
          · exact Std.ReflCmp.isLE_rfl
          · refine Std.TransCmp.isLE_trans hle (htop s ?_)
            rcases List.mem_append.1 hs with hs | hs
            · exact List.mem_cons_of_mem _ hs
            · rw [List.mem_singleton.1 hs]
              exact List.mem_cons_self
      next hge =>
          intro first hfirst s hs
          cases hfirst
          rcases List.mem_cons.1 hs with rfl | hs
          · exact Std.ReflCmp.isLE_rfl
          · rcases List.mem_cons.1 hs with rfl | hs
            · by_contra hle
              exact hge (Ordering.isLT_iff_eq_lt.2 (Std.OrientedCmp.lt_of_not_isLE hle))
            · exact htop s (List.mem_cons_of_mem _ hs)

/-- Insertion adds one item, under a slot that no other item has and with the
next serial number. -/
theorem insert_spec
    [Std.TransCmp cmp] {h : Heap κ cmp} (hs : h.Settled) (key : κ) :
    (h.insert key).2.Settled ∧
    (h.insert key).2.items.Perm
      (⟨(h.insert key).1.slot, h.nextSerial, key⟩ :: h.items) ∧
    (h.insert key).1.serial = h.nextSerial ∧
    (h.insert key).2.nextSerial = h.nextSerial + 1 ∧
    ∀ item ∈ h.items, item.slot ≠ (h.insert key).1.slot := by
  generalize hslot : (h.slots.insert h.nextSerial).1 = slot
  have hfst : (h.insert key).1 = ⟨slot, h.nextSerial⟩ := by rw [← hslot]; rfl
  have hroots : (h.insert key).2.roots =
      addRoot cmp ⟨⟨slot, h.nextSerial, key⟩, .nil⟩ h.roots := by rw [← hslot]; rfl
  have hslots : (h.insert key).2.slots = (h.slots.insert h.nextSerial).2 := rfl
  have hnext : (h.insert key).2.nextSerial = h.nextSerial + 1 := rfl
  have hperm : (h.insert key).2.items.Perm (⟨slot, h.nextSerial, key⟩ :: h.items) := by
    unfold items
    rw [hroots]
    exact (addRoot_perm cmp _ h.roots).flatMap_right _
  have hvacant : ∀ item ∈ h.items, item.slot ≠ slot := by
    intro item hitem heq
    have hnone := Arena.get?_insert_fst hs.slots h.nextSerial
    rw [hslot, ← heq, (hs.stored _ _).2 ⟨item, hitem, rfl, rfl⟩] at hnone
    cases hnone
  rw [hfst]
  refine ⟨?_, hperm, rfl, hnext, hvacant⟩
  refine ⟨⟨?slots, ?stored, ?nodup, ?fresh, ?size, ?ordered⟩, ?least⟩
  case slots =>
    rw [hslots]
    exact Arena.sound_insert hs.slots _
  case stored =>
    intro i n
    rw [hslots, Arena.get?_insert hs.slots, hslot]
    simp only [hperm.mem_iff, List.mem_cons, exists_eq_or_imp]
    by_cases hi : slot = i
    · subst hi
      have hno : ¬ ∃ item ∈ h.items, item.slot = slot ∧ item.serial = n := by
        rintro ⟨item, hitem, heq, -⟩
        exact hvacant item hitem heq
      simp [hno]
    · simp [hi, hs.stored]
  case nodup =>
    rw [(hperm.map Item.slot).nodup_iff, List.map_cons, List.nodup_cons]
    refine ⟨?_, hs.nodup⟩
    intro hmem
    obtain ⟨item, hitem, heq⟩ := List.mem_map.1 hmem
    exact hvacant item hitem heq
  case fresh =>
    intro item hitem
    rw [hnext]
    rcases List.mem_cons.1 (hperm.subset hitem) with rfl | hitem
    · exact Nat.lt_succ_self _
    · exact Nat.lt_succ_of_lt (hs.fresh item hitem)
  case size =>
    rw [size, hslots, Arena.size_insert hs.slots, hperm.length_eq, List.length_cons]
    exact congrArg (· + 1) hs.size_eq
  case ordered =>
    rw [hroots]
    refine Ordered.perm ?_ (addRoot_perm cmp _ h.roots)
    exact ordered_cons_iff.2 ⟨by simp [Tree.edges, Forest.edges], hs.ordered⟩
  case least =>
    rw [hroots]
    exact headLeast_addRoot hs.least _

/-- A heap stays sound when one item leaves the arena and its trees. -/
theorem Sound.erase
    {h : Heap κ cmp} (hs : h.Sound) {item : Item κ} {roots : List (Tree κ)}
    (hperm : (item :: roots.flatMap Tree.items).Perm h.items) (hord : Ordered cmp roots) :
    Sound ({ h with roots, slots := h.slots.erase item.slot } : Heap κ cmp) := by
  have hmem : item ∈ h.items := hperm.subset List.mem_cons_self
  have hnodup : ((item :: roots.flatMap Tree.items).map Item.slot).Nodup :=
    (hperm.map Item.slot).nodup_iff.2 hs.nodup
  have hgone : ∀ other ∈ roots.flatMap Tree.items, other.slot ≠ item.slot := by
    intro other hother heq
    exact (List.nodup_cons.1 hnodup).1 (heq ▸ List.mem_map_of_mem hother)
  have hget : h.slots.get? item.slot = some item.serial :=
    (hs.stored _ _).2 ⟨_, hmem, rfl, rfl⟩
  refine ⟨?slots, ?stored, ?nodup, ?fresh, ?size, hord⟩
  case slots =>
    exact Arena.sound_erase hs.slots hget
  case stored =>
    intro slot serial
    show (h.slots.erase item.slot).get? slot = some serial ↔
      ∃ other ∈ roots.flatMap Tree.items, other.slot = slot ∧ other.serial = serial
    rw [Arena.get?_erase]
    by_cases heq : item.slot = slot
    · simp only [heq, if_true]
      constructor
      · intro hnone
        cases hnone
      · rintro ⟨other, hother, hslot, -⟩
        exact absurd (hslot.trans heq.symm) (hgone other hother)
    · simp only [heq, if_false, hs.stored]
      constructor
      · rintro ⟨other, hother, hslot, hserial⟩
        rcases List.mem_cons.1 (hperm.symm.subset hother) with rfl | hother
        · exact absurd hslot heq
        · exact ⟨other, hother, hslot, hserial⟩
      · rintro ⟨other, hother, hslot, hserial⟩
        exact ⟨other, hperm.subset (List.mem_cons_of_mem _ hother), hslot, hserial⟩
  case nodup =>
    exact (List.nodup_cons.1 hnodup).2
  case fresh =>
    intro other hother
    exact hs.fresh other (hperm.subset (List.mem_cons_of_mem _ hother))
  case size =>
    have hsize := Arena.size_erase hs.slots hget
    have hlen := hperm.length_eq
    have heq := hs.size_eq
    rw [List.length_cons] at hlen
    show (h.slots.erase item.slot).size = (roots.flatMap Tree.items).length
    unfold size at heq
    omega

/-- Extraction removes the item of the first root.  It only needs a sound heap
and returns a settled one. -/
theorem extractMin?_spec
    [Std.TransCmp cmp] {h : Heap κ cmp} (hs : h.Sound)
    {first : Tree κ} {others : List (Tree κ)} (hroots : h.roots = first :: others) :
    ∃ h', h.extractMin? = some (first.key, h') ∧ h'.Settled ∧
      (first.item :: h'.items).Perm h.items ∧ h'.nextSerial = h.nextSerial := by
  have hextract : h.extractMin? = some (first.key,
      { h with
        roots := consolidate cmp (first.children.toTrees.reverse ++ others)
        slots := h.slots.erase first.item.slot }) := by
    unfold extractMin?
    rw [hroots]
  refine ⟨_, hextract, ?_⟩
  generalize hring : first.children.toTrees.reverse ++ others = ring
  have hitems : (first.item :: ring.flatMap Tree.items).Perm h.items := by
    unfold items
    rw [hroots, List.flatMap_cons, ← hring, List.flatMap_append]
    refine .cons _ (List.Perm.append_right _ ?_)
    refine ((List.reverse_perm _).flatMap_right _).trans ?_
    rw [Forest.items_toTrees]
  have hperm : (first.item :: (consolidate cmp ring).flatMap Tree.items).Perm h.items :=
    ((items_consolidate_perm cmp ring).cons _).trans hitems
  have hord : Ordered cmp ring := by
    have hsub : ring.flatMap Tree.edges ⊆ h.roots.flatMap Tree.edges := by
      rw [hroots, ← hring, List.flatMap_append, List.flatMap_cons]
      refine List.append_subset.2 ⟨?_, List.subset_append_right _ _⟩
      refine List.Subset.trans ?_ (List.subset_append_left _ _)
      exact List.Subset.trans ((List.reverse_perm _).flatMap_right _).subset
        (Forest.edges_toTrees_sublist _ _).subset
    exact hs.ordered.of_subset hsub
  refine ⟨⟨hs.erase hperm (ordered_consolidate hord), ?_⟩, hperm, rfl⟩
  intro top htop t ht
  obtain ⟨rest, hcons⟩ := List.head?_eq_some_iff.1 htop
  have hcons' : consolidate cmp ring = top :: rest := hcons
  have hnodup : (ring.flatMap Tree.items |>.map Item.slot).Nodup :=
    (List.nodup_cons.1 ((hitems.map Item.slot).nodup_iff.2 hs.nodup)).2
  refine isLE_head_consolidate hnodup hcons' t ?_
  rw [← hcons']
  exact ht

end Heap
end CallbackLoop
