import CallbackLoop.Proofs.Heap.WellLinked

/-!
# Removals from a linked heap

What an extraction or a deletion leaves in the arena: all nodes but one with their keys, roots
of different degrees, and a least root as the minimum.  An extraction touches the relatives of
the roots and of the children of the minimum only; every other node keeps its parent, its mark
and the ring of its children.  `run_merges` says this of every linked heap that was empty at
first.
-/

namespace CallbackLoop

variable {κ : Type} {cmp : κ → κ → Ordering}

namespace LinkedHeap

/-- A node stands in its slot with its serial number and its key. -/
def Stores (l : LinkedHeap κ cmp) (item : Item κ) : Prop :=
  ∃ x, l.nodes.get? item.slot = some x ∧ x.serial = item.serial ∧ x.key = item.key

/-- What the removal of the node in slot `i` leaves behind. -/
structure Merged (i : Nat) (l l' : LinkedHeap κ cmp) : Prop where
  /-- The other nodes are still there with their keys, and there are no more. -/
  stores_iff : ∀ item, l'.Stores item ↔ l.Stores item ∧ item.slot ≠ i
  /-- No two roots have the same degree. -/
  degrees : ∀ j x k y, l'.nodes.get? j = some x → l'.nodes.get? k = some y →
    x.parent = none → y.parent = none → x.degree = y.degree → j = k
  /-- The minimum is a root that no root compares below. -/
  least : ∀ k, l'.min = some k → ∃ y, l'.nodes.get? k = some y ∧ y.parent = none ∧
    ∀ j x, l'.nodes.get? j = some x → x.parent = none → cmp x.key y.key ≠ .lt
  none : l'.min = none → ∀ item, ¬l'.Stores item

/-- The nodes that are neither roots nor children of the node in slot `i` keep their parents,
their marks and the rings of their children. -/
def KeepsRelatives (i : Nat) (l l' : LinkedHeap κ cmp) : Prop :=
  ∀ j x, l.nodes.get? j = some x → x.parent ≠ none → x.parent ≠ some i →
    ∃ y, l'.nodes.get? j = some y ∧ y.toVertex = x.toVertex ∧
      l'.ring (some j) = l.ring (some j)

/-- Every removal from a linked heap goes well and merges its trees completely. -/
structure Merges (l : LinkedHeap κ cmp) : Prop where
  extract : ∀ i, l.min = some i → ∃ x e, l.nodes.get? i = some x ∧
    l.extractMin? = .ok (some e) ∧ e.key = x.key ∧ Merged i l e.heap ∧
      KeepsRelatives i l e.heap
  delete : ∀ i x, l.nodes.get? i = some x → ∃ e, l.delete? ⟨i, x.serial⟩ = .ok (some e) ∧
    e.key = x.key ∧ Merged i l e.heap

namespace Embodies

variable {l l' : LinkedHeap κ cmp} {h h' : Heap κ cmp}

theorem stores_iff
    (he : Embodies none l h) (item : Item κ) :
    l.Stores item ↔ item ∈ h.items := by
  constructor
  · rintro ⟨x, hx, hserial, hkey⟩
    obtain ⟨m, hm, hslot, hxm⟩ := Layout.exists_member he.planted hx
    refine Heap.mem_items_iff_exists_member.2 ⟨m, hm, ?_⟩
    obtain ⟨slot, serial, key⟩ := item
    obtain ⟨⟨_, _, _⟩, _, _, _⟩ := m
    cases hslot
    cases (congrArg Vertex.serial hxm).symm.trans hserial
    cases (congrArg Vertex.key hxm).symm.trans hkey
    rfl
  · intro hitem
    obtain ⟨m, hm, rfl⟩ := Heap.mem_items_iff_exists_member.1 hitem
    obtain ⟨x, hx, hxm⟩ := he.get?_eq_some hm
    exact ⟨x, hx, congrArg Vertex.serial hxm, congrArg Vertex.key hxm⟩

/-- A node without a parent is a root. -/
theorem exists_root
    (he : Embodies none l h) {i : Nat} {x : Node κ} (hx : l.nodes.get? i = some x)
    (hnone : x.parent = none) :
    ∃ t ∈ h.roots, t.item.slot = i ∧ x.key = t.key ∧ x.degree = t.degree := by
  obtain ⟨m, hm, hslot, hxm⟩ := Layout.exists_member he.planted hx
  obtain ⟨t, ht, rfl⟩ := Heap.exists_root_of_parent_eq_none hm
    ((congrArg Vertex.parent hxm).symm.trans hnone)
  refine ⟨t, ht, hslot, congrArg Vertex.key hxm, ?_⟩
  rw [congrArg Vertex.degree hxm]
  exact Forest.length_row _

theorem merged
    {removed : Item κ} (he : Embodies none l h) (he' : Embodies none l' h')
    (hleft : Heap.Consolidated removed h h') :
    Merged removed.slot l l' where
  stores_iff item := by
    rw [he.stores_iff, he'.stores_iff, ← hleft.items.mem_iff, List.mem_cons]
    have hdistinct := ((hleft.items.map Item.slot).nodup_iff).2 hleft.distinct
    rw [List.map_cons, List.nodup_cons] at hdistinct
    constructor
    · intro hitem
      exact ⟨.inr hitem, fun heq => hdistinct.1 (heq ▸ List.mem_map_of_mem hitem)⟩
    · rintro ⟨rfl | hitem, hne⟩
      · exact absurd rfl hne
      · exact hitem
  degrees j x k y hx hy hxroot hyroot hdegree := by
    obtain ⟨t, ht, rfl, -, hxt⟩ := he'.exists_root hx hxroot
    obtain ⟨s, hs, rfl, -, hys⟩ := he'.exists_root hy hyroot
    rw [List.inj_on_of_nodup_map hleft.degrees ht hs (hxt.symm.trans (hdegree.trans hys))]
  least k hk := by
    cases hroots : h'.roots with
    | nil =>
        rw [he'.min, hroots] at hk
        cases hk
    | cons first others =>
        rw [he'.min, hroots] at hk
        cases hk
        have hmin : h'.minHandle? = some first.item.handle := by
          rw [Heap.minHandle?, hroots]
          rfl
        obtain ⟨t, ht, hhandle, hleast⟩ := hleft.least _ hmin
        have hmember : t.root ∈ Heap.ringMembers h'.roots := root_mem_ringMembers ht
        obtain ⟨y, hy, hyt⟩ := he'.get?_eq_some hmember
        refine ⟨y, ?_, congrArg Vertex.parent hyt, fun j x hx hroot => ?_⟩
        · rw [← hy]
          exact congrArg l'.nodes.get? (congrArg Handle.slot hhandle).symm
        · obtain ⟨s, hs, -, hkey, -⟩ := he'.exists_root hx hroot
          rw [hkey, show y.key = t.key from congrArg Vertex.key hyt]
          exact hleast s hs
  none hnone item hstores := by
    rw [he'.min] at hnone
    have hroots : h'.minHandle? = none := by
      rw [Heap.row, List.head?_map, Option.map_eq_none_iff] at hnone
      rw [Heap.minHandle?, hnone]
      rfl
    rw [he'.stores_iff, hleft.none hroots] at hstores
    cases hstores

/-- Members that stay keep their relatives. -/
theorem keepsRelatives
    {i : Nat} (he : Embodies none l h) (he' : Embodies none l' h')
    (hkept : ∀ m ∈ h.members, m.parent ≠ none → m.parent ≠ some i → m ∈ h'.members) :
    KeepsRelatives i l l' := by
  intro j x hx hroot hchild
  obtain ⟨m, hm, rfl, hxm⟩ := Layout.exists_member he.planted hx
  have hparent : x.parent = m.parent := congrArg Vertex.parent hxm
  rw [hparent] at hroot hchild
  have hm' : m ∈ Heap.ringMembers h'.roots := hkept m hm hroot hchild
  obtain ⟨y, hy, hym⟩ := he'.get?_eq_some hm'
  exact ⟨y, hy, hym.trans hxm.symm, by rw [he'.ring_some hm', he.ring_some hm]⟩

theorem merges
    [Std.TransCmp cmp] (he : Embodies none l h) (hs : h.Settled) :
    l.Merges where
  extract i hi := by
    cases hroots : h.roots with
    | nil =>
        rw [he.min, hroots] at hi
        cases hi
    | cons first others =>
        rw [he.min, hroots] at hi
        cases hi
        have hitem : first.item ∈ h.items := by simp [Heap.items, hroots, Tree.items]
        obtain ⟨x, hx, hxkey⟩ := he.exists_key hitem
        obtain ⟨_, hextract, e, h', rfl, hextracted⟩ := he.ensures_extractMin? hroots (by simp)
        obtain ⟨h'', hextract', hleft, hkept⟩ := hs.exists_extractMin? hroots
        have heq := hextracted.extract.symm.trans hextract'
        rw [Option.some.injEq, Prod.mk.injEq] at heq
        obtain ⟨hkey, rfl⟩ := heq
        exact ⟨x, e, hx, hextract, hkey.trans hxkey.symm, he.merged hextracted.embodies hleft,
          he.keepsRelatives hextracted.embodies hkept⟩
  delete i x hx := by
    have hstores : l.Stores ⟨i, x.serial, x.key⟩ := ⟨x, hx, rfl, rfl⟩
    obtain ⟨h'', hdelete', hleft⟩ := hs.exists_delete? ((he.stores_iff _).1 hstores)
    obtain ⟨_, hdelete, ⟨rfl, hnone⟩ | ⟨e, h', rfl, hsome, hextracted⟩⟩ :=
      he.ensures_delete? hs ⟨i, x.serial⟩
    · cases hnone.symm.trans hdelete'
    · have heq := hsome.symm.trans hdelete'
      rw [Option.some.injEq, Prod.mk.injEq] at heq
      obtain ⟨hkey, rfl⟩ := heq
      exact ⟨e, hdelete, hkey, he.merged hextracted.embodies hleft⟩

end Embodies

/-- Whatever is asked of a linked heap that was empty at first, removals merge its trees
completely. -/
theorem run_merges
    [Std.TransCmp cmp] (calls : List (Heap.Call κ)) :
    ∃ answers, ∃ l : LinkedHeap κ cmp, run calls {} = .ok (answers, l) ∧ l.Merges := by
  have hempty : Embodies none ({} : LinkedHeap κ cmp) {} := embodies_empty
  obtain ⟨⟨answers, l⟩, hrun, -, he⟩ := hempty.ensures_run Heap.settled_empty calls
  exact ⟨answers, l, hrun, he.merges (Heap.settled_run calls Heap.settled_empty)⟩

end LinkedHeap
end CallbackLoop
