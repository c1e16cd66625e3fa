import CallbackLoop.Proofs.Heap.LinkedRuns

/-!
# Well linked heaps

A linked heap is well linked when its rings are closed circles that agree with the parents,
the children and the degrees that the nodes hold, when no node compares below its parent or
the minimum, and when the walk through all rings from that of the roots on meets every node
once.  `run_wellLinked` says that every linked heap is so that was empty at first.
-/

namespace CallbackLoop

variable {κ : Type} {cmp : κ → κ → Ordering}

namespace Forest

/-- A member has a parent exactly if it is a child of it. -/
theorem exists_member_iff
    (parent : Nat) (f : Forest κ) (i q : Nat) :
    (∃ m ∈ f.members parent, m.slot = i ∧ m.parent = some q) ↔
      (q = parent ∧ i ∈ f.row) ∨ ∃ m ∈ f.members parent, m.slot = q ∧ i ∈ m.children := by
  induction f generalizing parent with
  | nil =>
      simp [members, row]
  | cons item marked children siblings below beside =>
      have hslot : (⟨item, some parent, marked, children.row⟩ : Member κ).slot = item.slot := rfl
      simp only [members, row, Multiset.mem_cons, Multiset.mem_add, or_and_right, exists_or,
        exists_eq_left, hslot, below, beside, List.mem_cons, Option.some.injEq]
      grind

theorem parent_of_mem_members
    {parent : Nat} {f : Forest κ} {m : Member κ} (hm : m ∈ f.members parent) :
    m.parent ≠ none := by
  induction f generalizing parent with
  | nil =>
      cases hm
  | cons item marked children siblings below beside =>
      simp only [members, Multiset.mem_cons, Multiset.mem_add] at hm
      rcases hm with rfl | hm | hm
      · exact Option.some_ne_none _
      · exact below hm
      · exact beside hm

/-- The parent that a member names lies at the upper end of an edge. -/
theorem exists_edge_of_mem_members
    {parent : Item κ} {f : Forest κ} {m : Member κ} (hm : m ∈ f.members parent.slot) :
    ∃ q, (q, m.item) ∈ f.edges parent ∧ m.parent = some q.slot := by
  induction f generalizing parent with
  | nil =>
      cases hm
  | cons item marked children siblings below beside =>
      simp only [members, Multiset.mem_cons, Multiset.mem_add] at hm
      simp only [edges, List.mem_cons, List.mem_append]
      rcases hm with rfl | hm | hm
      · exact ⟨parent, .inl rfl, rfl⟩
      · obtain ⟨q, hq, hslot⟩ := below hm
        exact ⟨q, .inr (.inl hq), hslot⟩
      · obtain ⟨q, hq, hslot⟩ := beside hm
        exact ⟨q, .inr (.inr hq), hslot⟩

end Forest

namespace Heap

/-- A member has a parent exactly if it is a child of it, and none exactly if it is a root. -/
theorem exists_member_iff
    (ring : List (Tree κ)) (i : Nat) (p : Option Nat) :
    (∃ m ∈ ringMembers ring, m.slot = i ∧ m.parent = p) ↔
      (p = none ∧ i ∈ row ring) ∨ ∃ m ∈ ringMembers ring, p = some m.slot ∧ i ∈ m.children := by
  induction ring with
  | nil =>
      simp
  | cons t ring ih =>
      have hroot : t.root.slot = t.item.slot ∧ t.root.parent = none ∧
          t.root.children = t.children.row := ⟨rfl, rfl, rfl⟩
      simp only [ringMembers_cons, Tree.members, Tree.below, Multiset.mem_add, Multiset.mem_cons,
        or_and_right, exists_or, exists_eq_left, ih, row_cons, List.mem_cons, hroot]
      cases p with
      | none =>
          have hbelow : ¬ ∃ m ∈ t.children.members t.item.slot, m.slot = i ∧ m.parent = none := by
            rintro ⟨m, hm, -, hnone⟩
            exact Forest.parent_of_mem_members hm hnone
          simp only [hbelow]
          grind
      | some q =>
          simp only [Forest.exists_member_iff, Option.some.injEq]
          grind

/-- A member without a parent is a root. -/
theorem exists_root_of_parent_eq_none
    {ring : List (Tree κ)} {m : Member κ} (hm : m ∈ ringMembers ring) (hnone : m.parent = none) :
    ∃ t ∈ ring, t.root = m := by
  induction ring with
  | nil =>
      cases hm
  | cons t ring ih =>
      rw [ringMembers_cons, Tree.members, Multiset.mem_add, Multiset.mem_cons] at hm
      rcases hm with (rfl | hm) | hm
      · exact ⟨t, List.mem_cons_self, rfl⟩
      · exact absurd hnone (Forest.parent_of_mem_members hm)
      · obtain ⟨s, hs, heq⟩ := ih hm
        exact ⟨s, List.mem_cons_of_mem t hs, heq⟩

theorem exists_edge_of_mem_ringMembers
    {ring : List (Tree κ)} {m : Member κ} {p : Nat} (hm : m ∈ ringMembers ring)
    (hp : m.parent = some p) :
    ∃ q, (q, m.item) ∈ ring.flatMap Tree.edges ∧ q.slot = p := by
  induction ring with
  | nil =>
      cases hm
  | cons t ring ih =>
      rw [List.flatMap_cons]
      simp only [List.mem_append]
      rw [ringMembers_cons, Tree.members, Multiset.mem_add, Multiset.mem_cons] at hm
      rcases hm with (rfl | hm) | hm
      · cases hp
      · obtain ⟨q, hq, hslot⟩ := Forest.exists_edge_of_mem_members hm
        exact ⟨q, .inl hq, Option.some.inj (hslot.symm.trans hp)⟩
      · obtain ⟨q, hq, hslot⟩ := ih hm
        exact ⟨q, .inr hq, hslot⟩

end Heap

namespace LinkedHeap

/-- The ring that is entered at `start`. -/
def ringAt
    (a : Arena (Node κ)) (start : Option Nat) : List Nat :=
  match start with
  | none => []
  | some i => (ringFrom a i (rounds a) i).toOption.getD []

/-- The ring of the roots from the minimum on, or that of the children of a node from the
one on that it shows. -/
def ring
    (l : LinkedHeap κ cmp) (parent : Option Nat) : List Nat :=
  match parent with
  | none => ringAt l.nodes l.min
  | some p => ringAt l.nodes ((l.nodes.get? p).bind (·.child))

/-- The nodes of a row and what lies below them, in the order in which they are met. -/
inductive Tour (l : LinkedHeap κ cmp) : List Nat → List Nat → Prop
  | nil : Tour l [] []
  | cons {i : Nat} {row below beside : List Nat}
      (children : Tour l (l.ring (some i)) below) (siblings : Tour l row beside) :
      Tour l (i :: row) (i :: (below ++ beside))

/-- The links of a linked heap are in order. -/
structure WellLinked (l : LinkedHeap κ cmp) : Prop where
  /-- Every node is on the ring of its parent's children, or on that of the roots, and on
  no other. -/
  mem_ring_iff : ∀ p i, i ∈ l.ring p ↔ ∃ x, l.nodes.get? i = some x ∧ x.parent = p
  nodup_ring : ∀ p, (l.ring p).Nodup
  /-- Every ring is closed: each node has the next one to its right and is to the left of it,
  and the first comes after the last. -/
  circle : ∀ p, ∀ link ∈ circle (l.ring p), ∃ x y, l.nodes.get? link.1 = some x ∧
    l.nodes.get? link.2 = some y ∧ x.right = link.2 ∧ y.left = link.1
  left_right : ∀ i x, l.nodes.get? i = some x →
    ∃ y, l.nodes.get? x.right = some y ∧ y.left = i
  right_left : ∀ i x, l.nodes.get? i = some x →
    ∃ y, l.nodes.get? x.left = some y ∧ y.right = i
  child : ∀ i x, l.nodes.get? i = some x → x.child = (l.ring (some i)).head?
  degree : ∀ i x, l.nodes.get? i = some x → x.degree = (l.ring (some i)).length
  min : l.min = (l.ring none).head?
  min_eq_none_iff : l.min = none ↔ l.size = 0
  /-- No node compares below its parent. -/
  ordered : ∀ i x p, l.nodes.get? i = some x → x.parent = some p →
    ∃ y, l.nodes.get? p = some y ∧ (cmp y.key x.key).isLE = true
  /-- No node compares below the minimum. -/
  least : ∀ i x, l.nodes.get? i = some x → ∃ m y, l.min = some m ∧
    l.nodes.get? m = some y ∧ (cmp y.key x.key).isLE = true
  unmarked : ∀ i x, l.nodes.get? i = some x → x.parent = none → x.marked = false
  not_lowest : ∀ i x, l.nodes.get? i = some x → x.lowest = false
  /-- The walk through all rings meets every node once. -/
  reached : ∃ order, Tour l (l.ring none) order ∧ order.Nodup ∧ order.length = l.size ∧
    ∀ i, i ∈ order ↔ l.nodes.contains i = true

namespace Layout

variable {free : List Nat} {n : Nat} {flag : Option Nat} {R : Multiset (List Nat)}
  {M : Multiset (Member κ)} {a : Arena (Node κ)} {row : List Nat}

theorem mem_links
    (hrow : row ∈ R + M.map Member.children) {link : Nat × Nat}
    (hlink : link ∈ LinkedHeap.circle row) :
    link ∈ links R + links (M.map Member.children) := by
  obtain ⟨S, hS⟩ := Multiset.exists_cons_of_mem hrow
  rw [← links_add, hS, links_cons]
  exact Multiset.mem_add.2 (.inl hlink)

/-- A ring is not longer than there are slots. -/
theorem length_le
    (h : Layout free n flag R M a) (hrow : row ∈ R + M.map Member.children) :
    row.length ≤ n := by
  have hsub : (row : Multiset Nat) ≤ Multiset.range n := by
    refine (Multiset.le_iff_subset (Multiset.coe_nodup.2 (h.nodup_ring hrow))).2 fun i hi => ?_
    rw [← map_fst_circle] at hi
    obtain ⟨link, hlink, rfl⟩ := Multiset.mem_map.1 hi
    obtain ⟨x, hx, -⟩ := Option.map_eq_some_iff.1 ((h.rights.mem_iff _ _).1 (mem_links hrow hlink))
    rw [Multiset.mem_range, ← h.size_eq]
    exact Arena.lt_size_of_get? hx
  have hcard := Multiset.card_le_card hsub
  rwa [Multiset.coe_card, Multiset.card_range] at hcard

/-- A ring is walked as it lies in the arena. -/
theorem ringAt_eq
    (h : Layout free n flag R M a) (hrow : row ∈ R + M.map Member.children) :
    ringAt a row.head? = row := by
  cases row with
  | nil =>
      rfl
  | cons start row =>
      have hlinks : LinkedHeap.circle (start :: row) ≤ links R + links (M.map Member.children) := by
        obtain ⟨S, hS⟩ := Multiset.exists_cons_of_mem hrow
        rw [← links_add, hS, links_cons]
        exact Multiset.le_add_right _ _
      have hfuel : row.length < rounds a := by
        have hlength := h.length_le hrow
        have hsize := h.size_eq
        rw [List.length_cons] at hlength
        unfold rounds
        omega
      obtain ⟨_, hring, rfl⟩ := Linked.ensures_ringFrom h hlinks
        (List.nodup_cons.1 (h.nodup_ring hrow)).1 hfuel
      simp [ringAt, hring, Except.toOption]

end Layout

namespace Embodies

variable {l : LinkedHeap κ cmp} {h : Heap κ cmp} (he : Embodies none l h)
include he

theorem get?_eq_some
    {m : Member κ} (hm : m ∈ Heap.ringMembers h.roots) :
    ∃ x, l.nodes.get? m.slot = some x ∧ x.toVertex = m.vertex none :=
  Option.map_eq_some_iff.1
    ((he.planted.vertices.mem_iff _ _).1 (Multiset.mem_map_of_mem _ hm))

theorem ring_none :
    l.ring none = Heap.row h.roots := by
  rw [ring, he.min]
  exact Layout.ringAt_eq he.planted (Multiset.mem_add.2 (.inl (Multiset.mem_singleton_self _)))

theorem ring_some
    {m : Member κ} (hm : m ∈ Heap.ringMembers h.roots) :
    l.ring (some m.slot) = m.children := by
  obtain ⟨x, hx, hxm⟩ := he.get?_eq_some hm
  have hchild : x.child = m.children.head? := congrArg Vertex.child hxm
  rw [ring, hx, Option.bind_some, hchild]
  exact Layout.ringAt_eq he.planted (Multiset.mem_add.2 (.inr (Multiset.mem_map_of_mem _ hm)))

/-- A ring is that of the roots or that of a member's children, or it is empty. -/
theorem ring_cases
    (p : Option Nat) :
    l.ring p = [] ∨
      l.ring p ∈ {Heap.row h.roots} + (Heap.ringMembers h.roots).map Member.children := by
  cases p with
  | none =>
      exact .inr (Multiset.mem_add.2 (.inl (he.ring_none ▸ Multiset.mem_singleton_self _)))
  | some i =>
      cases hget : l.nodes.get? i with
      | none =>
          exact .inl (by rw [ring, hget]; rfl)
      | some x =>
          obtain ⟨m, hm, rfl, -⟩ := Layout.exists_member he.planted hget
          rw [he.ring_some hm]
          exact .inr (Multiset.mem_add.2 (.inr (Multiset.mem_map_of_mem _ hm)))

theorem mem_ring_iff
    (p : Option Nat) (i : Nat) :
    i ∈ l.ring p ↔ ∃ x, l.nodes.get? i = some x ∧ x.parent = p := by
  have hnodes : (∃ x, l.nodes.get? i = some x ∧ x.parent = p) ↔
      ∃ m ∈ Heap.ringMembers h.roots, m.slot = i ∧ m.parent = p := by
    constructor
    · rintro ⟨x, hx, rfl⟩
      obtain ⟨m, hm, hslot, hxm⟩ := Layout.exists_member he.planted hx
      exact ⟨m, hm, hslot, (congrArg Vertex.parent hxm).symm⟩
    · rintro ⟨m, hm, rfl, rfl⟩
      obtain ⟨x, hx, hxm⟩ := he.get?_eq_some hm
      exact ⟨x, hx, congrArg Vertex.parent hxm⟩
  rw [hnodes, Heap.exists_member_iff]
  cases p with
  | none =>
      rw [he.ring_none]
      simp
  | some p =>
      simp only [reduceCtorEq, false_and, false_or, Option.some.injEq]
      constructor
      · intro hi
        cases hget : l.nodes.get? p with
        | none =>
            rw [ring, hget] at hi
            cases hi
        | some x =>
            obtain ⟨m, hm, rfl, -⟩ := Layout.exists_member he.planted hget
            exact ⟨m, hm, rfl, he.ring_some hm ▸ hi⟩
      · rintro ⟨m, hm, rfl, hi⟩
        rwa [he.ring_some hm]

/-- A link leads to the right and back to the left. -/
theorem exists_of_mem_links
    {link : Nat × Nat} (hlink : link ∈ links {Heap.row h.roots} +
      links ((Heap.ringMembers h.roots).map Member.children)) :
    ∃ x y, l.nodes.get? link.1 = some x ∧ l.nodes.get? link.2 = some y ∧
      x.right = link.2 ∧ y.left = link.1 := by
  obtain ⟨x, hx, hright⟩ := Option.map_eq_some_iff.1
    ((he.planted.rights.mem_iff link.1 link.2).1 hlink)
  obtain ⟨y, hy, hleft⟩ := Option.map_eq_some_iff.1
    ((he.planted.lefts.mem_iff link.2 link.1).1 (Multiset.mem_map_of_mem Prod.swap hlink))
  exact ⟨x, y, hx, hy, hright, hleft⟩

theorem exists_right
    {i : Nat} {x : Node κ} (hx : l.nodes.get? i = some x) :
    ∃ y, l.nodes.get? x.right = some y ∧ y.left = i := by
  have hlink := (he.planted.rights.mem_iff i x.right).2 (by simp [hx])
  obtain ⟨-, y, -, hy, -, hleft⟩ := he.exists_of_mem_links hlink
  exact ⟨y, hy, hleft⟩

theorem exists_left
    {i : Nat} {x : Node κ} (hx : l.nodes.get? i = some x) :
    ∃ y, l.nodes.get? x.left = some y ∧ y.right = i := by
  have hswap := (he.planted.lefts.mem_iff i x.left).2 (by simp [hx])
  obtain ⟨⟨_, _⟩, hlink, heq⟩ := Multiset.mem_map.1 hswap
  cases heq
  obtain ⟨y, -, hy, -, hright, -⟩ := he.exists_of_mem_links hlink
  exact ⟨y, hy, hright⟩

/-- A key stands in its node. -/
theorem exists_key
    {item : Item κ} (hitem : item ∈ h.items) :
    ∃ x, l.nodes.get? item.slot = some x ∧ x.key = item.key := by
  obtain ⟨m, hm, rfl⟩ := Heap.mem_items_iff_exists_member.1 hitem
  obtain ⟨x, hx, hxm⟩ := he.get?_eq_some hm
  exact ⟨x, hx, congrArg Vertex.key hxm⟩

theorem contains_iff
    (i : Nat) :
    l.nodes.contains i = true ↔ i ∈ h.items.map Item.slot := by
  rw [Arena.contains_iff, List.mem_map]
  constructor
  · rintro ⟨x, hx⟩
    obtain ⟨m, hm, hslot, -⟩ := Layout.exists_member he.planted hx
    exact ⟨m.item, Heap.mem_items_iff_exists_member.2 ⟨m, hm, rfl⟩, hslot⟩
  · rintro ⟨item, hitem, rfl⟩
    obtain ⟨x, hx, -⟩ := he.exists_key hitem
    exact ⟨x, hx⟩

/-- The tour from a row meets the slots of a forest in the order of its items. -/
theorem tour_row
    {f : Forest κ} {p : Nat} (hf : ∀ m ∈ f.members p, m ∈ Heap.ringMembers h.roots) :
    Tour l f.row (f.items.map Item.slot) := by
  induction f generalizing p with
  | nil =>
      exact .nil
  | cons item marked children siblings below beside =>
      simp only [Forest.members, Multiset.mem_cons, Multiset.mem_add] at hf
      have hring : l.ring (some item.slot) = children.row := he.ring_some (hf _ (.inl rfl))
      rw [Forest.items, List.map_cons, List.map_append]
      refine .cons ?_ (beside fun m hm => hf m (.inr (.inr hm)))
      rw [hring]
      exact below fun m hm => hf m (.inr (.inl hm))

theorem tour_ring
    {roots : List (Tree κ)} (hroots : ∀ m ∈ Heap.ringMembers roots, m ∈ Heap.ringMembers h.roots) :
    Tour l (Heap.row roots) ((roots.flatMap Tree.items).map Item.slot) := by
  induction roots with
  | nil =>
      exact .nil
  | cons t roots ih =>
      simp only [Heap.ringMembers_cons, Tree.members, Multiset.mem_add, Multiset.mem_cons] at hroots
      have hring : l.ring (some t.item.slot) = t.children.row :=
        he.ring_some (hroots _ (.inl (.inl rfl)))
      rw [List.flatMap_cons, Tree.items, List.map_append, List.map_cons]
      refine .cons ?_ (ih fun m hm => hroots m (.inr hm))
      rw [hring]
      exact he.tour_row fun m hm => hroots m (.inl (.inr hm))

end Embodies

/-- A linked heap that embodies a settled heap is well linked. -/
theorem Embodies.wellLinked
    {l : LinkedHeap κ cmp} {h : Heap κ cmp} [Std.TransCmp cmp] (he : Embodies none l h)
    (hs : h.Settled) :
    l.WellLinked where
  mem_ring_iff := he.mem_ring_iff
  nodup_ring p := by
    rcases he.ring_cases p with hnil | hrow
    · rw [hnil]
      exact List.nodup_nil
    · exact he.planted.nodup_ring hrow
  circle p link hlink := by
    rcases he.ring_cases p with hnil | hrow
    · rw [hnil] at hlink
      cases hlink
    · exact he.exists_of_mem_links (Layout.mem_links hrow hlink)
  left_right i x := he.exists_right
  right_left i x := he.exists_left
  child i x hx := by
    obtain ⟨m, hm, rfl, hxm⟩ := Layout.exists_member he.planted hx
    rw [he.ring_some hm]
    exact congrArg Vertex.child hxm
  degree i x hx := by
    obtain ⟨m, hm, rfl, hxm⟩ := Layout.exists_member he.planted hx
    rw [he.ring_some hm]
    exact congrArg Vertex.degree hxm
  min := by rw [he.min, he.ring_none]
  min_eq_none_iff := by
    rw [he.min, he.size_eq, hs.size_eq, List.length_eq_zero_iff, ← Heap.roots_eq_nil_iff,
      List.head?_eq_none_iff, Heap.row, List.map_eq_nil_iff]
  ordered i x p hx hp := by
    obtain ⟨m, hm, rfl, hxm⟩ := Layout.exists_member he.planted hx
    obtain ⟨q, hq, rfl⟩ := Heap.exists_edge_of_mem_ringMembers hm
      ((congrArg Vertex.parent hxm).symm.trans hp)
    obtain ⟨t, ht, het⟩ := List.mem_flatMap.1 hq
    obtain ⟨y, hy, hkey⟩ := he.exists_key
      (List.mem_flatMap.2 ⟨t, ht, (Tree.mem_items_of_mem_edges het).1⟩)
    refine ⟨y, hy, ?_⟩
    rw [hkey, show x.key = m.item.key from congrArg Vertex.key hxm]
    exact hs.ordered _ hq
  least i x hx := by
    obtain ⟨m, hm, rfl, hxm⟩ := Layout.exists_member he.planted hx
    have hitem := Heap.mem_items_iff_exists_member.2 ⟨m, hm, rfl⟩
    cases hroots : h.roots with
    | nil =>
        rw [hroots] at hm
        cases hm
    | cons first others =>
        have hfirst : first.item ∈ h.items := by simp [Heap.items, hroots, Tree.items]
        obtain ⟨y, hy, hkey⟩ := he.exists_key hfirst
        refine ⟨first.item.slot, y, by rw [he.min, hroots]; rfl, hy, ?_⟩
        rw [hkey, show x.key = m.item.key from congrArg Vertex.key hxm]
        exact hs.isLE_of_mem hroots hitem
  unmarked i x hx hnone := by
    obtain ⟨m, hm, rfl, hxm⟩ := Layout.exists_member he.planted hx
    have hparent : m.parent = none := (congrArg Vertex.parent hxm).symm.trans hnone
    obtain ⟨t, -, rfl⟩ := Heap.exists_root_of_parent_eq_none hm hparent
    exact congrArg Vertex.marked hxm
  not_lowest i x hx := by
    obtain ⟨m, hm, rfl, hxm⟩ := Layout.exists_member he.planted hx
    exact congrArg Vertex.lowest hxm
  reached := by
    refine ⟨h.items.map Item.slot, ?_, hs.nodup, ?_, fun i => (he.contains_iff i).symm⟩
    · rw [he.ring_none]
      exact he.tour_ring fun m hm => hm
    · rw [List.length_map, he.size_eq, hs.size_eq]

/-- Whatever is asked of a linked heap that was empty at first, nothing goes wrong: no vacant
slot is accessed, no degree falls below zero and every loop comes to its end.  The answers are
those of the heap of trees, and the linked heap that is left is well linked. -/
theorem run_wellLinked
    [Std.TransCmp cmp] (calls : List (Heap.Call κ)) :
    ∃ l : LinkedHeap κ cmp,
      run calls {} = .ok ((Heap.run calls ({} : Heap κ cmp)).1, l) ∧ l.WellLinked := by
  have hempty : Embodies none ({} : LinkedHeap κ cmp) {} := embodies_empty
  obtain ⟨⟨answers, l⟩, hrun, rfl, he⟩ := hempty.ensures_run Heap.settled_empty calls
  exact ⟨l, hrun, he.wellLinked (Heap.settled_run calls Heap.settled_empty)⟩

/-- After two cuts and two insertions the minimum has a marked grandchild, and the rings are
entered at the minimum and at the children that are shown. -/
theorem run_wellLinked_thinnedCalls :
    ∃ l : LinkedHeap Nat compare,
      run Heap.thinnedCalls {} =
        .ok ((Heap.run Heap.thinnedCalls ({} : Heap Nat compare)).1, l) ∧
      l.WellLinked ∧ l.ring none = [8, 9, 0, 4, 1] ∧ l.ring (some 1) = [2, 5, 3] := by
  have hrings : (run Heap.thinnedCalls ({} : LinkedHeap Nat compare)).toOption.map
      (fun left => (left.2.ring none, left.2.ring (some 1))) = some ([8, 9, 0, 4, 1], [2, 5, 3]) := by
    decide +kernel
  have hrun : ∃ l : LinkedHeap Nat compare,
      run Heap.thinnedCalls {} =
        .ok ((Heap.run Heap.thinnedCalls ({} : Heap Nat compare)).1, l) ∧ l.WellLinked :=
    run_wellLinked Heap.thinnedCalls
  obtain ⟨l, hrun, hl⟩ := hrun
  rw [hrun] at hrings
  have hpair := Option.some.inj hrings
  exact ⟨l, hrun, hl, congrArg Prod.fst hpair, congrArg Prod.snd hpair⟩

end LinkedHeap
end CallbackLoop
