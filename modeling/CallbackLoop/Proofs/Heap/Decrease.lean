import CallbackLoop.Proofs.Heap.Invariant

/-!
# Lowering a key and removing an entry

Lowering a key can break the order only at the edge above its node.  If it
does, the node is cut, which removes that edge; the ring is then turned to the
node if the new key compares below the first root's.

Removing an entry makes its node the first root, whatever its key, and
extracts it.
-/

namespace CallbackLoop
namespace Heap

universe u

variable {κ : Type u} {cmp : κ → κ → Ordering}

/-- The ring with the new key in place, and the node made a root if the key
compares below its parent's. -/
def loosen
    (h : Heap κ cmp) (slot : Nat) (key : κ) :
    List (Tree κ) :=
  match h.parent? slot with
  | some parent =>
      if (cmp key parent.key).isLT then uproot slot (setKey slot key h.roots)
      else setKey slot key h.roots
  | none => setKey slot key h.roots

/-- The ring turned to the node in the slot, if its key compares below the first
root's. -/
def promote
    (cmp : κ → κ → Ordering) (slot : Nat) (key : κ) (ring : List (Tree κ)) :
    List (Tree κ) :=
  match ring with
  | first :: _ => if (cmp key first.key).isLT then turnTo slot ring else ring
  | [] => ring

theorem decreaseKey_eq_ok
    {h : Heap κ cmp} {id : Handle} {old key : κ}
    (hget : h.get? id = some old) (hlt : cmp key old = .lt) :
    h.decreaseKey id key =
      .ok { h with roots := promote cmp id.slot key (h.loosen id.slot key) } := by
  unfold decreaseKey
  rw [hget]
  simp only [hlt, Ordering.isLT_lt, if_true]
  rfl

theorem promote_perm
    (cmp : κ → κ → Ordering) (slot : Nat) (key : κ) (ring : List (Tree κ)) :
    (promote cmp slot key ring).Perm ring := by
  unfold promote
  split
  · split
    · exact turnTo_perm _ _
    · exact .refl _
  · exact .refl _

theorem items_loosen_perm
    (h : Heap κ cmp) (slot : Nat) (key : κ) :
    ((h.loosen slot key).flatMap Tree.items).Perm
      (h.items.map (Item.rekey slot key)) := by
  have hset := items_setKey slot key h.roots
  unfold loosen
  split
  · split
    · rw [items, ← hset]
      exact items_uproot_perm _ _
    · rw [items, ← hset]
  · rw [items, ← hset]

theorem head_loosen
    (h : Heap κ cmp) (slot : Nat) (key : κ) :
    (h.loosen slot key).head?.map Tree.item =
      h.roots.head?.map fun t => t.item.rekey slot key := by
  have hset : (setKey slot key h.roots).head?.map Tree.item =
      h.roots.head?.map fun t => t.item.rekey slot key := by
    cases h.roots <;> rfl
  unfold loosen
  split
  · split
    · rw [head_uproot, hset]
    · exact hset
  · exact hset

/-- The items at the lower ends of the edges are items below the roots. -/
theorem map_snd_edges_sublist
    (ring : List (Tree κ)) :
    ((ring.flatMap Tree.edges).map Prod.snd).Sublist (ring.flatMap Tree.items) := by
  induction ring with
  | nil =>
      exact .refl _
  | cons t ring ih =>
      rw [List.flatMap_cons, List.map_append, List.flatMap_cons]
      refine List.Sublist.append ?_ ih
      rw [Tree.edges, Forest.map_snd_edges]
      exact List.sublist_cons_self _ _

section Parent

variable {h : Heap κ cmp} (hs : h.Sound)
include hs

/-- There is one edge at most above the node in a slot. -/
theorem Sound.edge_ext
    {d e : Item κ × Item κ}
    (hd : d ∈ h.roots.flatMap Tree.edges) (he : e ∈ h.roots.flatMap Tree.edges)
    (heq : d.2.slot = e.2.slot) :
    d = e := by
  have hnodup : ((h.roots.flatMap Tree.edges).map fun e => e.2.slot).Nodup := by
    have := ((map_snd_edges_sublist h.roots).map Item.slot).nodup hs.nodup
    rwa [List.map_map] at this
  exact List.inj_on_of_nodup_map hnodup hd he heq

theorem Sound.parent?_eq_some_iff
    {slot : Nat} {parent : Item κ} :
    h.parent? slot = some parent ↔
      ∃ e ∈ h.roots.flatMap Tree.edges, e.2.slot = slot ∧ e.1 = parent := by
  have hinj : ∀ d ∈ h.roots.flatMap Tree.edges, ∀ e ∈ h.roots.flatMap Tree.edges,
      d.2.slot = e.2.slot → d = e :=
    fun d hd e he heq => hs.edge_ext hd he heq
  rw [parent?_eq_find?_edges, Option.map_eq_some_iff]
  simp only [find?_eq_some_iff_of_inj hinj, and_assoc]

/-- A node without a parent is a root. -/
theorem Sound.exists_root_of_parent?_eq_none
    {item : Item κ} (hitem : item ∈ h.items) (hnone : h.parent? item.slot = none) :
    ∃ t ∈ h.roots, t.item = item := by
  obtain ⟨t, ht, hmem⟩ := List.mem_flatMap.1 hitem
  rcases List.mem_cons.1 hmem with rfl | hmem
  · exact ⟨t, ht, rfl⟩
  · rw [← Forest.map_snd_edges t.item] at hmem
    obtain ⟨e, he, rfl⟩ := List.mem_map.1 hmem
    have hsome := hs.parent?_eq_some_iff.2
      ⟨e, List.mem_flatMap.2 ⟨t, ht, he⟩, rfl, rfl⟩
    rw [hnone] at hsome
    cases hsome

end Parent

section Lower

variable [Std.TransCmp cmp] {h : Heap κ cmp} (hs : h.Settled)
  {item : Item κ} (hitem : item ∈ h.items) {key : κ} (hlt : cmp key item.key = .lt)
include hs hitem hlt

/-- With the new key in place every edge is in order but the one above its node,
and that one too if the key does not compare below the parent's. -/
theorem isLE_of_mem_edges_setKey
    {e : Item κ × Item κ}
    (he : e ∈ (setKey item.slot key h.roots).flatMap Tree.edges)
    (hparent : e.2.slot = item.slot →
      ∀ parent, h.parent? item.slot = some parent → (cmp parent.key key).isLE = true) :
    (cmp e.1.key e.2.key).isLE = true := by
  rw [edges_setKey] at he
  obtain ⟨d, hd, rfl⟩ := List.mem_map.1 he
  have hle := hs.ordered d hd
  obtain ⟨t, ht, hdt⟩ := List.mem_flatMap.1 hd
  have hmem := Tree.mem_items_of_mem_edges hdt
  show (cmp (d.1.rekey item.slot key).key (d.2.rekey item.slot key).key).isLE = true
  by_cases hfst : d.1.slot = item.slot
  · rw [Item.key_rekey_of_eq hfst]
    by_cases hsnd : d.2.slot = item.slot
    · rw [Item.key_rekey_of_eq hsnd]
      exact Std.ReflCmp.isLE_rfl
    · have hsame : d.1 = item :=
        hs.item_ext (List.mem_flatMap.2 ⟨t, ht, hmem.1⟩) hitem hfst
      rw [Item.rekey_of_ne hsnd]
      rw [hsame] at hle
      exact Std.TransCmp.isLE_trans (Ordering.isLE_of_eq_lt hlt) hle
  · rw [Item.rekey_of_ne hfst]
    by_cases hsnd : d.2.slot = item.slot
    · rw [Item.key_rekey_of_eq hsnd]
      refine hparent (by simpa using hsnd) _ ?_
      exact hs.parent?_eq_some_iff.2 ⟨d, hd, hsnd, rfl⟩
    · rw [Item.rekey_of_ne hsnd]
      exact hle

theorem ordered_loosen :
    Ordered cmp (h.loosen item.slot key) := by
  have hnodup :
      (((setKey item.slot key h.roots).flatMap Tree.items).map Item.slot).Nodup := by
    rw [items_setKey, List.map_map]
    have hcomp : Item.slot ∘ Item.rekey item.slot key = (Item.slot : Item κ → Nat) := by
      funext i
      simp
    rw [hcomp]
    exact hs.nodup
  unfold loosen
  split
  next parent hparent =>
      split
      next =>
          intro e he
          obtain ⟨hmem, hne⟩ := mem_edges_uproot hnodup he
          exact isLE_of_mem_edges_setKey hs hitem hlt hmem fun heq => absurd heq hne
      next hge =>
          intro e he
          refine isLE_of_mem_edges_setKey hs hitem hlt he ?_
          intro _ p hp
          rw [hparent] at hp
          cases hp
          by_contra hle
          exact hge (Ordering.isLT_iff_eq_lt.2 (Std.OrientedCmp.lt_of_not_isLE hle))
  next hparent =>
      intro e he
      refine isLE_of_mem_edges_setKey hs hitem hlt he ?_
      intro _ p hp
      rw [hparent] at hp
      cases hp

omit hlt in
/-- A key that compares below the first root's is at a root. -/
theorem exists_root_loosen
    {first : Tree κ} {others : List (Tree κ)} (hroots : h.roots = first :: others)
    (hfirst : cmp key first.key = .lt) :
    ∃ t ∈ h.loosen item.slot key, t.item.slot = item.slot := by
  unfold loosen
  split
  next parent hparent =>
      have hbelow : cmp key parent.key = .lt := by
        obtain ⟨e, he, -, rfl⟩ := hs.parent?_eq_some_iff.1 hparent
        obtain ⟨t, ht, het⟩ := List.mem_flatMap.1 he
        have hmem := (Tree.mem_items_of_mem_edges het).1
        exact Std.TransCmp.lt_of_lt_of_isLE hfirst
          (hs.isLE_of_mem hroots (List.mem_flatMap.2 ⟨t, ht, hmem⟩))
      rw [if_pos (Ordering.isLT_iff_eq_lt.2 hbelow)]
      refine exists_root_uproot ?_
      rw [items_setKey, List.map_map]
      exact List.mem_map.2 ⟨item, hitem, by simp⟩
  next hparent =>
      obtain ⟨t, ht, heq⟩ := hs.exists_root_of_parent?_eq_none hitem hparent
      refine ⟨_, List.mem_map_of_mem ht, ?_⟩
      simp [heq]

theorem headLeast_promote :
    HeadLeast cmp (promote cmp item.slot key (h.loosen item.slot key)) := by
  obtain ⟨first, others, hroots⟩ : ∃ first others, h.roots = first :: others := by
    cases hr : h.roots with
    | nil =>
        rw [(roots_eq_nil_iff h).1 hr] at hitem
        cases hitem
    | cons first others =>
        exact ⟨first, others, rfl⟩
  have hhead : (h.loosen item.slot key).head?.map Tree.item =
      some (first.item.rekey item.slot key) := by
    rw [head_loosen, hroots]
    rfl
  obtain ⟨top, htop, hitemTop⟩ := Option.map_eq_some_iff.1 hhead
  obtain ⟨rest, hring⟩ := List.head?_eq_some_iff.1 htop
  -- A root of the new ring has the new key or one that was there before.
  have hkeys : ∀ t ∈ h.loosen item.slot key,
      t.key = key ∨ (cmp first.key t.key).isLE = true := by
    intro t ht
    have hmem := (items_loosen_perm h item.slot key).subset
      (List.mem_flatMap.2 ⟨t, ht, t.item_mem_items⟩)
    obtain ⟨i, hi, heq⟩ := List.mem_map.1 hmem
    show t.item.key = key ∨ (cmp first.key t.item.key).isLE = true
    rw [← heq]
    by_cases hslot : i.slot = item.slot
    · exact .inl (Item.key_rekey_of_eq hslot key)
    · rw [Item.rekey_of_ne hslot]
      exact .inr (hs.isLE_of_mem hroots hi)
  -- The first root's key is not above its old one.
  have hfirst : (cmp top.key first.key).isLE = true := by
    show (cmp top.item.key first.key).isLE = true
    rw [hitemTop]
    by_cases hslot : first.item.slot = item.slot
    · rw [Item.key_rekey_of_eq hslot]
      have hsame : first.item = item :=
        hs.item_ext (by simp [items, hroots, Tree.items]) hitem hslot
      exact Ordering.isLE_of_eq_lt (by rw [Tree.key, hsame]; exact hlt)
    · rw [Item.rekey_of_ne hslot]
      exact Std.ReflCmp.isLE_rfl
  intro best hbest t ht
  have hmem := (promote_perm cmp item.slot key _).subset ht
  rw [hring] at hbest
  simp only [promote] at hbest
  split at hbest
  next hbelow =>
      -- The ring starts at the node with the new key.
      have hkey : cmp key first.key = .lt :=
        Std.TransCmp.lt_of_lt_of_isLE (Ordering.isLT_iff_eq_lt.1 hbelow) hfirst
      have hroot := exists_root_loosen hs hitem hroots hkey
      rw [hring] at hroot
      obtain ⟨s, tail, hturn, hslot⟩ := turnTo_eq_cons hroot
      rw [hturn] at hbest
      obtain rfl : s = best := Option.some.inj hbest
      have hskey : s.key = key := by
        have hs' : s ∈ h.loosen item.slot key := by
          rw [hring]
          exact (turnTo_perm _ _).subset (by rw [hturn]; exact List.mem_cons_self)
        have hsmem := (items_loosen_perm h item.slot key).subset
          (List.mem_flatMap.2 ⟨s, hs', s.item_mem_items⟩)
        obtain ⟨i, -, heq⟩ := List.mem_map.1 hsmem
        rw [← heq, Item.slot_rekey] at hslot
        rw [Tree.key, ← heq]
        exact Item.key_rekey_of_eq hslot key
      rw [hskey]
      rcases hkeys t hmem with heq | hle
      · rw [heq]
        exact Std.ReflCmp.isLE_rfl
      · exact Std.TransCmp.isLE_trans (Ordering.isLE_of_eq_lt hkey) hle
  next hge =>
      cases hbest
      rcases hkeys t hmem with heq | hle
      · rw [heq]
        by_contra hle
        exact hge (Ordering.isLT_iff_eq_lt.2 (Std.OrientedCmp.lt_of_not_isLE hle))
      · exact Std.TransCmp.isLE_trans hfirst hle

end Lower

/-- A heap that differs in its ring is sound if the new ring is ordered and its
items are the old ones, up to their order and keys. -/
theorem Sound.withRoots
    {h : Heap κ cmp} (hs : h.Sound) {f : Item κ → Item κ}
    (hslot : ∀ i, (f i).slot = i.slot) (hserial : ∀ i, (f i).serial = i.serial)
    {ring : List (Tree κ)} (hperm : (ring.flatMap Tree.items).Perm (h.items.map f))
    (hord : Ordered cmp ring) :
    ({ h with roots := ring } : Heap κ cmp).Sound := by
  refine ⟨hs.slots, ?stored, ?nodup, ?fresh, ?size, hord⟩
  case stored =>
    intro slot serial
    rw [hs.stored]
    constructor
    · rintro ⟨i, hi, rfl, rfl⟩
      exact ⟨f i, hperm.symm.subset (List.mem_map_of_mem hi), hslot i, hserial i⟩
    · rintro ⟨j, hj, rfl, rfl⟩
      obtain ⟨i, hi, rfl⟩ := List.mem_map.1 (hperm.subset hj)
      exact ⟨i, hi, (hslot i).symm, (hserial i).symm⟩
  case nodup =>
    refine (hperm.map Item.slot).nodup_iff.2 ?_
    rw [List.map_map]
    have hcomp : Item.slot ∘ f = Item.slot := funext hslot
    rw [hcomp]
    exact hs.nodup
  case fresh =>
    intro j hj
    obtain ⟨i, hi, rfl⟩ := List.mem_map.1 (hperm.subset hj)
    rw [hserial]
    exact hs.fresh i hi
  case size =>
    have hlen := hperm.length_eq
    rw [List.length_map] at hlen
    exact hs.size_eq.trans hlen.symm

/-- Lowering a key changes the key of one item. -/
theorem decreaseKey_spec
    [Std.TransCmp cmp] {h : Heap κ cmp} (hs : h.Settled)
    {item : Item κ} (hitem : item ∈ h.items) {key : κ} (hlt : cmp key item.key = .lt) :
    ∃ h', h.decreaseKey item.handle key = .ok h' ∧ h'.Settled ∧
      h'.items.Perm (h.items.map (Item.rekey item.slot key)) ∧
      h'.nextSerial = h.nextSerial := by
  have hget : h.get? item.handle = some item.key :=
    hs.get?_eq_some_iff.2 ⟨item, hitem, rfl, rfl⟩
  refine ⟨_, decreaseKey_eq_ok hget hlt, ?_, ?_, rfl⟩
  · have hperm := (promote_perm cmp item.slot key (h.loosen item.slot key))
    refine ⟨hs.withRoots (Item.slot_rekey item.slot key) (Item.serial_rekey item.slot key)
      ?_ ?_, ?_⟩
    · exact (hperm.flatMap_right _).trans (items_loosen_perm h item.slot key)
    · exact (ordered_loosen hs hitem hlt).perm hperm
    · exact headLeast_promote hs hitem hlt
  · exact ((promote_perm cmp item.slot key _).flatMap_right _).trans
      (items_loosen_perm h item.slot key)

/-- Deletion removes the item that the handle names. -/
theorem delete?_spec
    [Std.TransCmp cmp] {h : Heap κ cmp} (hs : h.Sound)
    {item : Item κ} (hitem : item ∈ h.items) :
    ∃ h', h.delete? item.handle = some (item.key, h') ∧ h'.Settled ∧
      (item :: h'.items).Perm h.items ∧ h'.nextSerial = h.nextSerial := by
  have hcontains : h.contains item.handle = true :=
    (hs.contains_iff _).2 ⟨item, hitem, rfl⟩
  have hslot : item.slot ∈ (h.roots.flatMap Tree.items).map Item.slot :=
    List.mem_map_of_mem hitem
  generalize hring : turnTo item.slot (uproot item.slot h.roots) = ring
  have hdelete : h.delete? item.handle = extractMin? { h with roots := ring } := by
    rw [delete?, if_pos hcontains, ← hring]
    rfl
  have hperm : (ring.flatMap Tree.items).Perm h.items := by
    rw [← hring]
    exact ((turnTo_perm _ _).flatMap_right _).trans (items_uproot_perm _ _)
  have hord : Ordered cmp ring := by
    rw [← hring]
    refine Ordered.perm ?_ (turnTo_perm _ _)
    exact hs.ordered.of_subset fun e he => (mem_edges_uproot hs.nodup he).1
  have hsound : Sound { h with roots := ring } :=
    hs.withRoots (f := id) (fun _ => rfl) (fun _ => rfl) (by rwa [List.map_id]) hord
  obtain ⟨first, others, hcons, hfirst⟩ := turnTo_eq_cons (exists_root_uproot hslot)
  rw [hring] at hcons
  obtain ⟨h', hextract, hsettled, hitems, hnext⟩ := extractMin?_spec hsound hcons
  have hsame : first.item = item := by
    refine hs.item_ext ?_ hitem hfirst
    exact hperm.subset (by rw [hcons]; exact List.mem_cons_self)
  refine ⟨h', ?_, hsettled, ?_, hnext⟩
  · rw [hdelete, hextract, Tree.key, hsame]
  · rw [← hsame]
    exact hitems.trans hperm

end Heap
end CallbackLoop
