import CallbackLoop.Proofs.Heap.Embodiment
import CallbackLoop.Proofs.Heap.Lookup

/-!
# Lowering keys in the arena

A new key changes one member.  If it compares below the key of the parent the node is cut,
and it becomes the minimum if it compares below that.  A node that is to be deleted is
flagged as lowest instead; it then passes both comparisons whatever its key, and the flag
goes with it.
-/

namespace CallbackLoop

variable {κ : Type} {cmp : κ → κ → Ordering}

/-- The member with the new key, if it lies in the given slot. -/
def Member.rekey (slot : Nat) (key : κ) (m : Member κ) : Member κ :=
  { m with item := m.item.rekey slot key }

namespace Forest

@[simp] theorem row_setKey
    (slot : Nat) (key : κ) (f : Forest κ) :
    (f.setKey slot key).row = f.row := by
  induction f with
  | nil =>
      rfl
  | cons item marked children siblings _ beside =>
      simp only [setKey, row, beside]
      split <;> rfl

theorem members_setKey
    (slot : Nat) (key : κ) (parent : Nat) (f : Forest κ) :
    (f.setKey slot key).members parent = (f.members parent).map (Member.rekey slot key) := by
  induction f generalizing parent with
  | nil =>
      rfl
  | cons item marked children siblings below beside =>
      have hslot : (item.rekey slot key).slot = item.slot := item.slot_rekey slot key
      rw [members, Multiset.map_cons, Multiset.map_add, ← below, ← beside, setKey, members]
      change (⟨item.rekey slot key, some parent, marked, _⟩ : Member κ) ::ₘ
        ((children.setKey slot key).members (item.rekey slot key).slot + _) = _
      rw [hslot, row_setKey]
      rfl

/-- No node is the parent of itself. -/
theorem slot_ne_of_mem_edges
    {parent : Item κ} {f : Forest κ} (hnodup : ((parent :: f.items).map Item.slot).Nodup)
    {e : Item κ × Item κ} (he : e ∈ f.edges parent) :
    e.1.slot ≠ e.2.slot := by
  induction f generalizing parent with
  | nil =>
      cases he
  | cons item marked children siblings below beside =>
      simp only [items, List.map_cons, List.map_append, List.nodup_cons, List.mem_cons,
        List.mem_append, not_or] at hnodup
      obtain ⟨⟨hne, -, hbeside⟩, ⟨hbelow, -⟩, hrest⟩ := hnodup
      obtain ⟨hchildren, hsiblings, -⟩ := List.nodup_append.1 hrest
      simp only [edges, List.mem_cons, List.mem_append] at he
      rcases he with rfl | he | he
      · exact hne
      · exact below (List.nodup_cons.2 ⟨hbelow, hchildren⟩) he
      · exact beside (List.nodup_cons.2 ⟨hbeside, hsiblings⟩) he

end Forest

namespace Heap

@[simp] theorem row_setKey
    (slot : Nat) (key : κ) (ring : List (Tree κ)) :
    row (setKey slot key ring) = row ring := by
  unfold row setKey
  rw [List.map_map]
  refine List.map_congr_left fun t _ => ?_
  exact t.item.slot_rekey slot key

theorem ringMembers_setKey
    (slot : Nat) (key : κ) (ring : List (Tree κ)) :
    ringMembers (setKey slot key ring) = (ringMembers ring).map (Member.rekey slot key) := by
  induction ring with
  | nil =>
      rfl
  | cons t ring ih =>
      have hslot : (t.item.rekey slot key).slot = t.item.slot := t.item.slot_rekey slot key
      rw [ringMembers_cons, Multiset.map_add, ← ih, Tree.members, Multiset.map_cons, Tree.below,
        ← Forest.members_setKey]
      change (⟨t.item.rekey slot key, none, false, (t.children.setKey slot key).row⟩ : Member κ) ::ₘ
        ((t.children.setKey slot key).members (t.item.rekey slot key).slot) + _ = _
      rw [hslot, Forest.row_setKey]
      rfl

/-- A new key changes no parent but its own node. -/
theorem parent?_setKey
    (h : Heap κ cmp) (slot : Nat) (key : κ) :
    ({ h with roots := setKey slot key h.roots } : Heap κ cmp).parent? slot =
      (h.parent? slot).map (Item.rekey slot key) := by
  rw [parent?_eq_find?_edges, parent?_eq_find?_edges, edges_setKey, List.find?_map,
    Option.map_map, Option.map_map]
  have hpred : (fun e : Item κ × Item κ => decide (e.2.slot = slot)) ∘
      Prod.map (Item.rekey slot key) (Item.rekey slot key) = fun e => decide (e.2.slot = slot) := by
    funext e
    simp
  rw [hpred]
  rfl

theorem mem_items_iff_exists_member
    {ring : List (Tree κ)} {item : Item κ} :
    item ∈ ring.flatMap Tree.items ↔ ∃ m ∈ ringMembers ring, m.item = item := by
  rw [← Multiset.mem_coe, ← map_item_ringMembers, Multiset.mem_map]

theorem head?_row_turnTo
    {slot : Nat} {ring : List (Tree κ)} (h : ∃ t ∈ ring, t.item.slot = slot) :
    (row (turnTo slot ring)).head? = some slot := by
  obtain ⟨t, rest, hturn, rfl⟩ := turnTo_eq_cons h
  rw [hturn]
  rfl

section Parent

variable {h : Heap κ cmp} {slot : Nat} {q : Item κ}

/-- The parent of a node is the one that its member names. -/
theorem exists_mem_ringMembers_of_parent?
    (hq : h.parent? slot = some q) :
    ∃ m ∈ ringMembers h.roots, m.slot = slot ∧ m.parent = some q.slot := by
  obtain ⟨t, ht, hparent⟩ := List.exists_of_findSome?_eq_some hq
  obtain ⟨m, hm, hslot⟩ := Forest.exists_mem_members_of_parent? hparent
  obtain ⟨before, after, hring⟩ := List.append_of_mem ht
  refine ⟨m, ?_, hslot⟩
  rw [hring, ringMembers_append, ringMembers_cons, Tree.members, Tree.below]
  simp [hm]

theorem exists_mem_children_of_parent?
    (hq : h.parent? slot = some q) :
    ∃ t ∈ h.roots, slot ∈ t.children.items.map Item.slot := by
  obtain ⟨t, ht, hparent⟩ := List.exists_of_findSome?_eq_some hq
  refine ⟨t, ht, ?_⟩
  by_contra hnot
  rw [(Forest.parent?_eq_none_iff slot t.item t.children).2 hnot] at hparent
  cases hparent

/-- A node without a parent stays where it is. -/
theorem uproot_of_parent?_eq_none
    (hnone : h.parent? slot = none) :
    uproot slot h.roots = h.roots := by
  rcases uproot_cases slot h.roots with ⟨first, others, cut, hsever, -⟩ | ⟨-, heq⟩
  · obtain ⟨before, t, after, hring, -, below, hbelow, -⟩ := severRoots_cases hsever
    have ht := List.findSome?_eq_none_iff.1 hnone t (by simp [hring])
    exact absurd (Forest.mem_slots_of_sever hbelow) ((Forest.parent?_eq_none_iff _ _ _).1 ht)
  · exact heq

theorem Sound.parent_ne
    (hs : h.Sound) (hq : h.parent? slot = some q) :
    q ∈ h.items ∧ q.slot ≠ slot := by
  obtain ⟨e, he, rfl, rfl⟩ := hs.parent?_eq_some_iff.1 hq
  obtain ⟨t, ht, het⟩ := List.mem_flatMap.1 he
  have hsub : t.items.Sublist h.items := by
    obtain ⟨before, after, hring⟩ := List.append_of_mem ht
    rw [items, hring, List.flatMap_append, List.flatMap_cons]
    exact (List.sublist_append_left _ _).trans (List.sublist_append_right _ _)
  exact ⟨hsub.subset (Tree.mem_items_of_mem_edges het).1,
    Forest.slot_ne_of_mem_edges ((hsub.map _).nodup hs.nodup) het⟩

end Parent

end Heap

namespace LinkedHeap

variable {free : List Nat} {n : Nat} {flag : Option Nat} {R : Multiset (List Nat)}
  {M : Multiset (Member κ)} {a : Arena (Node κ)} {ring : List (Tree κ)}

namespace Layout

/-- A new key is written into one node. -/
theorem ensures_rekey
    (h : Layout free n flag R M a) {m : Member κ} (hm : m ∈ M) (key : κ) :
    Ensures (alter a m.slot ({ · with key }))
      (Layout free n flag R (M.map (Member.rekey m.slot key))) := by
  obtain ⟨M, rfl⟩ := Multiset.exists_cons_of_mem hm
  have hothers : M.map (Member.rekey m.slot key) = M := by
    have hnodup := h.nodup
    rw [Multiset.map_cons, Multiset.nodup_cons] at hnodup
    conv_rhs => rw [← Multiset.map_id M]
    refine Multiset.map_congr rfl fun m' hm' => ?_
    have hne : m'.slot ≠ m.slot := fun heq => hnodup.1 (heq ▸ Multiset.mem_map_of_mem _ hm')
    simp only [Member.rekey, Item.rekey_of_ne hne, id_eq]
  rw [Multiset.map_cons, hothers]
  have hslot : (m.rekey m.slot key).slot = m.slot := m.item.slot_rekey _ _
  refine h.ensures_alter hslot rfl fun left right => ?_
  simp only [Member.vertex, Member.vertexOf, hslot]
  simp [Member.rekey, Item.rekey, Member.slot]

/-- A node is flagged as lowest. -/
theorem ensures_flag
    (h : Layout free n none R M a) {m : Member κ} (hm : m ∈ M) :
    Ensures (alter a m.slot ({ · with lowest := true })) (Layout free n (some m.slot) R M) := by
  obtain ⟨M, rfl⟩ := Multiset.exists_cons_of_mem hm
  have hholds := Holds.congr h (entries_cons _ _ _) rfl rfl
  refine (hholds.ensures_revise (w := m.vertex (some m.slot)) fun left right => ?_).mono
    fun b hb => Linked.congr hb ?_ rfl
  · simp [Member.vertex, Member.vertexOf]
  · have hnodup := h.nodup
    rw [Multiset.map_cons, Multiset.nodup_cons] at hnodup
    rw [entries_cons]
    refine congrArg _ (Multiset.map_congr rfl fun m' hm' => ?_)
    have hne : m.slot ≠ m'.slot := fun heq => hnodup.1 (heq ▸ Multiset.mem_map_of_mem _ hm')
    simp [Member.vertex, Member.vertexOf, hne]

end Layout

/-- The node is made a root if it compares below its parent. -/
theorem Planted.ensures_loosen
    {h : Heap κ cmp} (hp : Planted free n flag h.roots a) {slot first : Nat}
    (hfirst : (Heap.row h.roots).head? = some first) (hslot : slot ∈ h.items.map Item.slot)
    {p : Item κ → Bool}
    (hless : ∀ q, h.parent? slot = some q → Ensures (less cmp a slot q.slot) (· = p q)) :
    Ensures (loosen cmp a (some first) slot)
      (Planted free n flag
        (match h.parent? slot with
        | some q => if p q then Heap.uproot slot h.roots else h.roots
        | none => h.roots)) := by
  cases hparent : h.parent? slot with
  | none =>
      have hroot : ∃ t ∈ h.roots, t.item.slot = slot := by
        have hexists := Heap.exists_root_uproot hslot
        rwa [Heap.uproot_of_parent?_eq_none hparent] at hexists
      obtain ⟨t, ht, rfl⟩ := hroot
      refine (Layout.ensures_node hp (root_mem_ringMembers ht)).bind fun x hx => ?_
      rw [show x.parent = none from congrArg Vertex.parent hx]
      exact .pure hp
  | some q =>
      obtain ⟨m, hm, rfl, hq⟩ := Heap.exists_mem_ringMembers_of_parent? hparent
      refine (Layout.ensures_node hp hm).bind fun x hx => ?_
      rw [show x.parent = some q.slot from (congrArg Vertex.parent hx).trans hq]
      refine (hless q hparent).bind ?_
      rintro _ rfl
      show Ensures _ (Planted free n flag
        (if p q then Heap.uproot m.slot h.roots else h.roots))
      cases p q with
      | false =>
          exact .pure hp
      | true =>
          obtain ⟨q', hq', huproot⟩ := hp.ensures_uproot hfirst
            (Heap.exists_mem_children_of_parent? hparent)
          obtain rfl : q = q' := Option.some.inj (hparent.symm.trans hq')
          exact huproot

/-- Turning the ring changes no node. -/
theorem Planted.turn
    (hp : Planted free n flag ring a) (slot : Nat) :
    Planted free n flag (Heap.turnTo slot ring) a :=
  (Layout.turn (M := 0) (Layout.congr hp rfl (add_zero _).symm) slot).congr rfl (add_zero _)

section Decrease

variable {l : LinkedHeap κ cmp} {h : Heap κ cmp} {item : Item κ} {key : κ}

/-- The node whose key is lowered compares by its new key. -/
theorem ensures_less_rekeyed
    (hp : Planted free n none ring a)
    (hperm : (ring.flatMap Tree.items).Perm (h.items.map (Item.rekey item.slot key)))
    (hitem : item ∈ h.items) {other : Item κ} (hother : other ∈ ring.flatMap Tree.items) :
    Ensures (less cmp a item.slot other.slot) (· = (cmp key other.key).isLT) := by
  obtain ⟨m, hm, hmitem⟩ := Heap.mem_items_iff_exists_member.1
    (hperm.symm.subset (List.mem_map_of_mem hitem))
  obtain ⟨m', hm', rfl⟩ := Heap.mem_items_iff_exists_member.1 hother
  have hslot : m.slot = item.slot := by rw [Member.slot, hmitem, Item.slot_rekey]
  have hkey : m.item.key = key := by rw [hmitem, Item.key_rekey_of_eq rfl]
  have hless : Ensures (less cmp a m.slot m'.slot) _ := hp.ensures_less hm hm' (by simp) (by simp)
  rwa [hslot, hkey] at hless

variable [Std.TransCmp cmp]

/-- A node whose key compares below the first root's is a root. -/
theorem exists_root_of_loosen
    (hs : h.Settled) (hitem : item ∈ h.items) {top : Tree κ} {rest : List (Tree κ)}
    (hring : h.loosen item.slot key = top :: rest) (hbelow : cmp key top.key = .lt) :
    ∃ t ∈ h.loosen item.slot key, t.item.slot = item.slot := by
  cases hroots : h.roots with
  | nil =>
      rw [(Heap.roots_eq_nil_iff h).1 hroots] at hitem
      cases hitem
  | cons first others =>
      have htop : top.item = first.item.rekey item.slot key := by
        have hhead := Heap.head_loosen h item.slot key
        rw [hring, hroots] at hhead
        exact Option.some.inj hhead
      by_cases hslot : first.item.slot = item.slot
      · exact ⟨top, by rw [hring]; exact List.mem_cons_self, by rw [htop, Item.slot_rekey, hslot]⟩
      · refine Heap.exists_root_loosen hs hitem hroots ?_
        rwa [Tree.key, htop, Item.rekey_of_ne hslot] at hbelow

/-- Restoring the order after a key was lowered. -/
theorem ensures_settle_rekeyed
    (hs : h.Settled) (hitem : item ∈ h.items)
    (hp : Planted free n none (Heap.setKey item.slot key h.roots) a) :
    Ensures (settle cmp a (Heap.row h.roots).head? item.slot) fun left =>
      Planted free n none (Heap.promote cmp item.slot key (h.loosen item.slot key)) left.1 ∧
      left.2 = (Heap.row (Heap.promote cmp item.slot key (h.loosen item.slot key))).head? := by
  obtain ⟨first, others, hroots⟩ : ∃ first others, h.roots = first :: others := by
    refine List.exists_cons_of_ne_nil fun hnil => ?_
    rw [(Heap.roots_eq_nil_iff h).1 hnil] at hitem
    cases hitem
  have hparent : ∀ q, h.parent? item.slot = some q → q.rekey item.slot key = q :=
    fun q hq => Item.rekey_of_ne (hs.parent_ne hq).2 key
  have hloosen : Ensures (loosen cmp a (Heap.row h.roots).head? item.slot)
      (Planted free n none (h.loosen item.slot key)) := by
    rw [hroots]
    refine (Planted.ensures_loosen (h := { h with roots := Heap.setKey item.slot key h.roots })
      (p := fun q => (cmp key q.key).isLT) hp (by rw [Heap.row_setKey, hroots]; rfl) ?_
      fun q hq => ?_).mono fun b hb => ?_
    · rw [Heap.items, Heap.items_setKey, List.map_map]
      exact List.mem_map.2 ⟨item, hitem, Item.slot_rekey _ _ _⟩
    · rw [Heap.parent?_setKey, Option.map_eq_some_iff] at hq
      obtain ⟨q, hq, rfl⟩ := hq
      refine ensures_less_rekeyed hp (Heap.items_setKey _ _ _ ▸ .refl _) hitem ?_
      rw [Heap.items_setKey]
      exact List.mem_map_of_mem (hs.parent_ne hq).1
    · rw [Heap.parent?_setKey] at hb
      unfold Heap.loosen
      cases hq : h.parent? item.slot with
      | none =>
          rwa [hq] at hb
      | some q =>
          rw [hq, Option.map_some, hparent q hq] at hb
          exact hb
  refine hloosen.bind fun b hb => ?_
  have hhead := Heap.head_loosen h item.slot key
  have hperm := Heap.items_loosen_perm h item.slot key
  cases hring : h.loosen item.slot key with
  | nil =>
      rw [hring, hroots] at hhead
      cases hhead
  | cons top rest =>
      rw [hring, hroots] at hhead
      rw [hring] at hb hperm
      have htop : top.item.slot = first.item.slot :=
        (congrArg Item.slot (Option.some.inj hhead)).trans (Item.slot_rekey _ _ _)
      have hless : Ensures (less cmp b item.slot top.item.slot) _ :=
        ensures_less_rekeyed hb hperm hitem (by simp [Tree.items])
      rw [hroots, Heap.row_cons, List.head?_cons, ← htop]
      refine (ensures_lesser hless).bind ?_
      rintro _ rfl
      rw [Heap.promote, show top.item.key = top.key from rfl]
      cases hbelow : (cmp key top.key).isLT with
      | false =>
          exact .pure ⟨hb, rfl⟩
      | true =>
          have hroot := exists_root_of_loosen hs hitem hring (Ordering.isLT_iff_eq_lt.1 hbelow)
          rw [hring] at hroot
          exact .pure ⟨Planted.turn hb item.slot, (Heap.head?_row_turnTo hroot).symm⟩

end Decrease

section Operations

variable {l : LinkedHeap κ cmp} {h : Heap κ cmp}

/-- A handle names a node exactly if it names an entry. -/
theorem Embodies.resolve?_cases
    (he : Embodies none l h) (hs : h.Sound) (id : Handle) :
    (h.get? id = none ∧ l.resolve? id = none) ∨
      ∃ m ∈ Heap.ringMembers h.roots, m.item.handle = id ∧ h.get? id = some m.item.key ∧
        ∃ x, l.resolve? id = some x ∧ x.toVertex = m.vertex none := by
  have hnot : (∀ m ∈ Heap.ringMembers h.roots, m.item.handle ≠ id) → h.get? id = none := by
    intro hnone
    refine Option.eq_none_iff_forall_ne_some.2 fun key hkey => ?_
    obtain ⟨item, hitem, hid, -⟩ := hs.get?_eq_some_iff.1 hkey
    obtain ⟨m, hm, rfl⟩ := Heap.mem_items_iff_exists_member.1 hitem
    exact hnone m hm hid
  unfold resolve?
  cases hget : l.nodes.get? id.slot with
  | none =>
      refine .inl ⟨hnot fun m hm hid => ?_, rfl⟩
      exact (Layout.get?_eq_none_iff he.planted _).1 hget m hm (congrArg Handle.slot hid)
  | some x =>
      obtain ⟨m, hm, hslot, hx⟩ := Layout.exists_member he.planted hget
      have hitem := Heap.mem_items_iff_exists_member.2 ⟨m, hm, rfl⟩
      have hserial : x.serial = m.item.serial := congrArg Vertex.serial hx
      by_cases hsame : m.item.serial = id.serial
      · have hid : m.item.handle = id := Item.handle_eq_iff.2 ⟨hslot, hsame⟩
        refine .inr ⟨m, hm, hid, hs.get?_eq_some_iff.2 ⟨m.item, hitem, hid, rfl⟩, x, ?_, hx⟩
        simp [Option.filter, hserial, hsame]
      · refine .inl ⟨hnot fun m' hm' hid => hsame ?_, ?_⟩
        · rw [← hs.item_ext (Heap.mem_items_iff_exists_member.2 ⟨m', hm', rfl⟩) hitem
            ((congrArg Handle.slot hid).trans hslot.symm)]
          exact congrArg Handle.serial hid
        · simp [Option.filter, hserial, hsame]

/-- The node that is to be deleted becomes the first root. -/
theorem Embodies.ensures_settle_flagged
    (he : Embodies none l h) (hs : h.Sound) {m : Member κ} (hm : m ∈ Heap.ringMembers h.roots)
    (hp : Planted free n (some m.slot) h.roots a) :
    Ensures (settle cmp a l.min m.slot) fun left =>
      Planted free n (some m.slot) (Heap.turnTo m.slot (Heap.uproot m.slot h.roots)) left.1 ∧
      left.2 = some m.slot := by
  have hitem := Heap.mem_items_iff_exists_member.2 ⟨m, hm, rfl⟩
  have hslot : m.slot ∈ h.items.map Item.slot := List.mem_map_of_mem hitem
  obtain ⟨first, others, hroots⟩ : ∃ first others, h.roots = first :: others := by
    refine List.exists_cons_of_ne_nil fun hnil => ?_
    rw [hnil] at hm
    cases hm
  rw [he.min, show (Heap.row h.roots).head? = some first.item.slot by rw [hroots]; rfl]
  have hloosen : Ensures (loosen cmp a (some first.item.slot) m.slot)
      (Planted free n (some m.slot) (Heap.uproot m.slot h.roots)) := by
    refine (hp.ensures_loosen (p := fun _ => true) (by rw [hroots]; rfl) hslot
      fun q hq => ?_).mono fun b hb => ?_
    · obtain ⟨hmem, hne⟩ := hs.parent_ne hq
      obtain ⟨m', hm', rfl⟩ := Heap.mem_items_iff_exists_member.1 hmem
      refine (hp.ensures_less_lowest hm hm').mono ?_
      rintro _ rfl
      simpa using fun heq => hne heq.symm
    · cases hq : h.parent? m.slot with
      | none =>
          rw [hq] at hb
          rwa [Heap.uproot_of_parent?_eq_none hq]
      | some q =>
          rwa [hq] at hb
  refine hloosen.bind fun b hb => ?_
  -- The first root has stayed the first one, and the node has become a root.
  obtain ⟨top, htop, hfirst⟩ : ∃ top ∈ Heap.uproot m.slot h.roots, top.item = first.item := by
    have hhead := Heap.head_uproot m.slot h.roots
    rw [hroots] at hhead
    obtain ⟨top, htop, hfirst⟩ := Option.map_eq_some_iff.1 hhead
    exact ⟨top, List.mem_of_mem_head? (hroots ▸ htop), hfirst⟩
  obtain ⟨t, ht, hslot⟩ := Heap.exists_root_uproot hslot
  have hless : Ensures (less cmp b m.slot first.item.slot)
      (· = decide (m.slot ≠ first.item.slot)) := by
    have hnode : t.root.slot = m.slot := hslot
    have hroot : top.root.slot = first.item.slot := congrArg Item.slot hfirst
    rw [← hnode, ← hroot]
    rw [← hnode] at hb
    exact Layout.ensures_less_lowest hb (root_mem_ringMembers (hnode ▸ ht))
      (root_mem_ringMembers (hnode ▸ htop))
  refine (ensures_lesser hless).bind ?_
  rintro _ rfl
  refine .pure ⟨hb.turn m.slot, ?_⟩
  by_cases heq : m.slot = first.item.slot <;> simp [heq]

variable [Std.TransCmp cmp]

/-- Decreasing a key in the arena and among the trees. -/
theorem Embodies.ensures_decreaseKey
    (he : Embodies none l h) (hs : h.Settled) (id : Handle) (key : κ) :
    Ensures (l.decreaseKey id key) fun r =>
      (∃ rejection, r = .error rejection ∧ h.decreaseKey id key = .error rejection) ∨
        ∃ l' h', r = .ok l' ∧ h.decreaseKey id key = .ok h' ∧ Embodies none l' h' := by
  unfold LinkedHeap.decreaseKey
  rcases he.resolve?_cases hs.toSound id with ⟨hget, hnone⟩ | ⟨m, hm, rfl, hget, x, hx, hxm⟩
  · rw [hnone]
    refine .pure (.inl ⟨_, rfl, ?_⟩)
    rw [Heap.decreaseKey, hget]
  · rw [hx]
    have hlowest : x.lowest = false := congrArg Vertex.lowest hxm
    have hkey : x.key = m.item.key := congrArg Vertex.key hxm
    cases hlt : (cmp key m.item.key).isLT with
    | false =>
        simp only [hlowest, hkey, hlt, Bool.not_false, Bool.or_true, if_true]
        refine .pure (.inl ⟨_, rfl, ?_⟩)
        simp [Heap.decreaseKey, hget, hlt]
    | true =>
        simp only [hlowest, hkey, hlt, Bool.not_true, Bool.or_false, Bool.false_eq_true, if_false]
        have hitem := Heap.mem_items_iff_exists_member.2 ⟨m, hm, rfl⟩
        refine (Layout.ensures_rekey he.planted hm key).bind fun b hb => ?_
        have hb : Planted _ _ none (Heap.setKey m.item.slot key h.roots) b :=
          hb.congr (by rw [Heap.row_setKey]) (by rw [Heap.ringMembers_setKey]; rfl)
        rw [he.min]
        refine (ensures_settle_rekeyed hs hitem hb).bind ?_
        rintro ⟨c, min⟩ ⟨hc, hmin⟩
        exact .pure (.inr ⟨_, _, rfl,
          Heap.decreaseKey_eq_ok hget (Ordering.isLT_iff_eq_lt.1 hlt), hc, hmin, he.nextSerial⟩)

/-- Deletion in the arena and among the trees. -/
theorem Embodies.ensures_delete?
    (he : Embodies none l h) (hs : h.Settled) (id : Handle) :
    Ensures (l.delete? id) fun r =>
      (r = none ∧ h.delete? id = none) ∨
        ∃ e h', r = some e ∧ h.delete? id = some (e.key, h') ∧
          Extracted { h with roots := Heap.turnTo id.slot (Heap.uproot id.slot h.roots) } e h' := by
  unfold LinkedHeap.delete?
  rcases he.resolve?_cases hs.toSound id with ⟨hget, hnone⟩ | ⟨m, hm, rfl, hget, x, hx, hxm⟩
  · rw [hnone]
    refine .pure (.inl ⟨rfl, ?_⟩)
    rcases hs.delete?_cases id with ⟨-, hdelete⟩ | ⟨key, h', hsome, -⟩
    · exact hdelete
    · cases hget.symm.trans hsome
  · rw [hx]
    have hitem := Heap.mem_items_iff_exists_member.2 ⟨m, hm, rfl⟩
    refine (Layout.ensures_flag he.planted hm).bind fun b hb => ?_
    refine (he.ensures_settle_flagged hs.toSound hm hb).bind ?_
    rintro ⟨c, min⟩ ⟨hc, rfl⟩
    have hroot := Heap.exists_root_uproot (List.mem_map_of_mem (f := Item.slot) hitem)
    obtain ⟨t, rest, hturn, hslot⟩ := Heap.turnTo_eq_cons hroot
    have hflagged : Embodies (some m.slot)
        ({ l with nodes := c, min := some m.slot } : LinkedHeap κ cmp)
        { h with roots := Heap.turnTo m.slot (Heap.uproot m.slot h.roots) } :=
      ⟨hc, (Heap.head?_row_turnTo hroot).symm, he.nextSerial⟩
    have hcontains : h.contains m.item.handle = true :=
      (hs.contains_iff _).2 ⟨m.item, hitem, rfl⟩
    show Ensures (if some m.slot = some m.slot then _ else _) _
    rw [if_pos rfl]
    refine (hflagged.ensures_extractMin? hturn fun slot hflag => ?_).mono ?_
    · exact (Option.some.inj hflag).symm.trans hslot.symm
    · rintro r ⟨e, h', rfl, hextracted⟩
      refine .inr ⟨e, h', rfl, ?_, hextracted⟩
      rw [Heap.delete?, if_pos hcontains]
      exact hextracted.extract

end Operations

end LinkedHeap
end CallbackLoop
