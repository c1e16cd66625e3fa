import CallbackLoop.Proofs.Heap.Degrees
import CallbackLoop.Proofs.Heap.WellLinked
import Mathlib.Data.Nat.Log

/-!
# The bound on degrees

Every subtree of a heap has as many nodes at least as the Fibonacci number of its degree plus
two.  Degrees are logarithmic in the number of nodes therefore, and so is the last bucket that
a consolidation needs.  `run_degreesBounded` draws these conclusions for linked heaps; the
buckets that they start with are enough for all heaps that fit into a memory.
-/

namespace CallbackLoop

universe u

namespace Heap

section Buckets

variable {κ : Type u} {cmp : κ → κ → Ordering}

/-- The last bucket is in use, if there is one. -/
def Capped (buckets : List (Option (Placed κ))) : Prop :=
  ∀ bucket ∈ buckets.getLast?, bucket ≠ none

theorem Capped.cons
    {buckets : List (Option (Placed κ))} (h : Capped buckets) (hne : buckets ≠ [])
    (bucket : Option (Placed κ)) :
    Capped (bucket :: buckets) := by
  unfold Capped
  rwa [List.getLast?_cons_of_ne_nil hne]

theorem Capped.of_cons
    {bucket : Option (Placed κ)} {buckets : List (Option (Placed κ))}
    (h : Capped (bucket :: buckets)) :
    Capped buckets := by
  cases buckets with
  | nil =>
      simp [Capped]
  | cons next buckets =>
      exact h

theorem capped_carry
    (root : Placed κ) {buckets : List (Option (Placed κ))} (h : Capped buckets) :
    Capped (carry cmp root buckets) ∧ carry cmp root buckets ≠ [] := by
  induction buckets generalizing root with
  | nil =>
      exact ⟨by simp [Capped, carry], List.cons_ne_nil _ _⟩
  | cons bucket buckets ih =>
      refine ⟨?_, by cases bucket <;> exact List.cons_ne_nil _ _⟩
      cases bucket with
      | none =>
          cases buckets with
          | nil =>
              simp [Capped, carry]
          | cons next buckets =>
              exact h.of_cons.cons (List.cons_ne_nil _ _) _
      | some resident =>
          obtain ⟨hcapped, hne⟩ := ih (join cmp resident root) h.of_cons
          exact hcapped.cons hne _

theorem capped_deposit
    (root : Placed κ) (degree : Nat) {buckets : List (Option (Placed κ))} (h : Capped buckets) :
    Capped (deposit cmp root degree buckets) ∧ deposit cmp root degree buckets ≠ [] := by
  induction degree generalizing buckets with
  | zero =>
      cases buckets <;> exact capped_carry root h
  | succ degree ih =>
      cases buckets with
      | nil =>
          obtain ⟨hcapped, hne⟩ := ih h
          exact ⟨hcapped.cons hne _, List.cons_ne_nil _ _⟩
      | cons bucket buckets =>
          obtain ⟨hcapped, hne⟩ := ih h.of_cons
          exact ⟨hcapped.cons hne _, List.cons_ne_nil _ _⟩

theorem capped_buckets
    (cmp : κ → κ → Ordering) (ring : List (Tree κ)) :
    Capped (buckets cmp ring) := by
  unfold buckets
  generalize hstart : ([] : List (Option (Placed κ))) = start
  have hcapped : Capped start := by simp [Capped, ← hstart]
  clear hstart
  induction ring.zipIdx generalizing start with
  | nil =>
      exact hcapped
  | cons root roots ih =>
      exact ih _ (capped_deposit _ _ hcapped).1

/-- The root in the last bucket has the highest degree. -/
theorem Graded.exists_degree
    {degree : Nat} {buckets : List (Option (Placed κ))} (h : Graded degree buckets)
    (hcapped : Capped buckets) (hne : buckets ≠ []) :
    ∃ root ∈ buckets.filterMap id, root.tree.degree + 1 = degree + buckets.length := by
  induction buckets generalizing degree with
  | nil =>
      exact absurd rfl hne
  | cons bucket buckets ih =>
      cases buckets with
      | nil =>
          cases bucket with
          | none =>
              exact absurd rfl (hcapped none rfl)
          | some root =>
              exact ⟨root, by simp, congrArg (· + 1) (h.1 root rfl)⟩
      | cons next buckets =>
          obtain ⟨root, hroot, hdegree⟩ := ih h.2 hcapped.of_cons (List.cons_ne_nil _ _)
          refine ⟨root, ?_, ?_⟩
          · cases bucket with
            | none => exact hroot
            | some first => exact List.mem_cons_of_mem _ hroot
          · simp only [List.length_cons] at hdegree ⊢
            omega

/-- There are few buckets for the number of items. -/
theorem Spaced.fib_length_buckets_le
    {ring : List (Tree κ)} (h : Spaced ring) (hne : Heap.buckets cmp ring ≠ []) :
    Nat.fib ((Heap.buckets cmp ring).length + 1) ≤ (ring.flatMap Tree.items).length := by
  obtain ⟨root, hroot, hdegree⟩ :=
    (graded_buckets cmp ring).exists_degree (capped_buckets cmp ring) hne
  have hfib := (h.buckets root hroot).fib_le_length_items
  have hpart :
      root.tree.items.length ≤ ((Heap.consolidate cmp ring).flatMap Tree.items).length := by
    have hmem : root.tree ∈ Heap.consolidate cmp ring :=
      (consolidate_perm cmp ring).symm.subset (List.mem_map_of_mem hroot)
    obtain ⟨before, after, heq⟩ := List.append_of_mem hmem
    rw [heq, List.flatMap_append, List.flatMap_cons, List.length_append, List.length_append]
    omega
  rw [(items_consolidate_perm cmp ring).length_eq] at hpart
  have hindex : (Heap.buckets cmp ring).length + 1 = root.tree.degree + 2 := by omega
  rw [hindex]
  exact hfib.trans hpart

theorem length_items_release
    {h : Heap κ cmp} {first : Tree κ} {others : List (Tree κ)}
    (hroots : h.roots = first :: others) :
    ((first.children.toTrees.reverse ++ others).flatMap Tree.items).length + 1 =
      h.items.length := by
  have hchildren := ((List.reverse_perm first.children.toTrees).flatMap_right Tree.items).length_eq
  rw [Forest.items_toTrees] at hchildren
  rw [items, hroots, List.flatMap_append, List.flatMap_cons, Tree.items, List.length_append,
    List.length_append, List.length_cons, hchildren]
  omega

end Buckets

end Heap

variable {κ : Type} {cmp : κ → κ → Ordering}

/-- A member of a row is the root of a subtree, and what lies below it are members too. -/
theorem Forest.exists_subtree
    {f : Forest κ} {p : Nat} {m : Member κ} (hm : m ∈ f.members p) :
    ∃ t ∈ f.subtrees, m.item = t.item ∧ m.children = t.children.row ∧ t.below ≤ f.members p := by
  induction f generalizing p with
  | nil =>
      cases hm
  | cons item marked children siblings below beside =>
      simp only [members, Multiset.mem_cons, Multiset.mem_add] at hm
      simp only [subtrees, members, List.mem_cons, List.mem_append]
      have hbelow : children.members item.slot ≤ _ :=
        (Multiset.le_add_right _ (siblings.members p)).trans
          (Multiset.le_cons_self _ (⟨item, some p, marked, children.row⟩ : Member κ))
      have hbeside : siblings.members p ≤ _ :=
        (Multiset.le_add_left _ (children.members item.slot)).trans
          (Multiset.le_cons_self _ (⟨item, some p, marked, children.row⟩ : Member κ))
      rcases hm with rfl | hm | hm
      · exact ⟨⟨item, children⟩, .inl rfl, rfl, rfl, hbelow⟩
      · obtain ⟨t, ht, hitem, hchildren, hle⟩ := below hm
        exact ⟨t, .inr (.inl ht), hitem, hchildren, hle.trans hbelow⟩
      · obtain ⟨t, ht, hitem, hchildren, hle⟩ := beside hm
        exact ⟨t, .inr (.inr ht), hitem, hchildren, hle.trans hbeside⟩

/-- Every member of a heap is the root of a subtree. -/
theorem Heap.exists_subtree
    {h : Heap κ cmp} {m : Member κ} (hm : m ∈ ringMembers h.roots) :
    ∃ t ∈ h.subtrees, m.item = t.item ∧ m.children = t.children.row ∧
      t.below ≤ ringMembers h.roots := by
  unfold subtrees
  generalize h.roots = roots at hm ⊢
  induction roots with
  | nil =>
      cases hm
  | cons top roots ih =>
      rw [ringMembers_cons, Multiset.mem_add, Tree.members, Multiset.mem_cons] at hm
      rw [ringMembers_cons, List.flatMap_cons, Tree.members]
      have htop : top.below ≤ _ :=
        (Multiset.le_cons_self _ top.root).trans (Multiset.le_add_right _ (ringMembers roots))
      rcases hm with (rfl | hm) | hm
      · exact ⟨top, by simp [Tree.subtrees], rfl, rfl, htop⟩
      · obtain ⟨t, ht, hitem, hchildren, hle⟩ := Forest.exists_subtree hm
        exact ⟨t, by simp [Tree.subtrees, ht], hitem, hchildren, hle.trans htop⟩
      · obtain ⟨t, ht, hitem, hchildren, hle⟩ := ih hm
        exact ⟨t, List.mem_append_right _ ht, hitem, hchildren,
          hle.trans (Multiset.le_add_left _ _)⟩

namespace LinkedHeap

/-- The degrees in a linked heap are small for the number of nodes. -/
structure DegreesBounded (l : LinkedHeap κ cmp) : Prop where
  /-- From every node many different nodes are reached. -/
  subtree : ∀ i x, l.nodes.get? i = some x → ∃ order, Tour l [i] order ∧ order.Nodup ∧
    (∀ j ∈ order, l.nodes.contains j = true) ∧ Nat.fib (x.degree + 2) ≤ order.length
  degree_ne : ∀ d, l.size < Nat.fib (d + 2) → ∀ i x, l.nodes.get? i = some x → x.degree ≠ d
  degree_le : ∀ i x, l.nodes.get? i = some x → x.degree ≤ 2 * Nat.log 2 l.size + 1
  /-- The number of buckets stays what it is at first, unless there are no roots to merge. -/
  buckets : l.size ≤ Nat.fib 67 →
    ∀ e, (l.extractMin? = .ok (some e) ∨ ∃ id, l.delete? id = .ok (some e)) →
      e.buckets = [] ∨ e.buckets.length = bucketCount

/-- Fibonacci numbers double at least every other time. -/
theorem two_pow_le_fib
    (d : Nat) :
    2 ^ (d / 2) ≤ Nat.fib (d + 2) := by
  have heven : ∀ k, 2 ^ k ≤ Nat.fib (2 * k + 2) := by
    intro k
    induction k with
    | zero =>
        exact Nat.le_refl _
    | succ k ih =>
        have hmono : Nat.fib (2 * k + 2) ≤ Nat.fib (2 * k + 3) := Nat.fib_le_fib_succ
        have hfib : Nat.fib (2 * (k + 1) + 2) = Nat.fib (2 * k + 2) + Nat.fib (2 * k + 3) :=
          Nat.fib_add_two
        rw [pow_succ, hfib]
        omega
  exact (heven (d / 2)).trans (Nat.fib_mono (by omega))

variable {l : LinkedHeap κ cmp} {h : Heap κ cmp}

/-- The walk from a node goes through a subtree of its degree. -/
theorem Embodies.exists_subtree
    (he : Embodies none l h) {i : Nat} {x : Node κ} (hx : l.nodes.get? i = some x) :
    ∃ t ∈ h.subtrees, x.degree = t.degree ∧ Tour l [i] (t.items.map Item.slot) := by
  obtain ⟨m, hm, rfl, hxm⟩ := Layout.exists_member he.planted hx
  obtain ⟨t, ht, hitem, hchildren, hle⟩ := Heap.exists_subtree hm
  refine ⟨t, ht, ?_, ?_⟩
  · have hdegree : x.degree = m.children.length := congrArg Vertex.degree hxm
    rw [hdegree, hchildren, Forest.length_row, Tree.degree]
  · have hslot : m.slot = t.item.slot := congrArg Item.slot hitem
    have htour : Tour l (l.ring (some m.slot)) (t.children.items.map Item.slot) := by
      rw [he.ring_some hm, hchildren]
      exact he.tour_row fun m' hm' => Multiset.mem_of_le hle hm'
    have hnode := Tour.cons htour .nil
    rw [List.append_nil] at hnode
    rw [Tree.items, List.map_cons, ← hslot]
    exact hnode

/-- An extraction from a small heap gets along with the buckets that it starts with. -/
theorem Extracted.buckets_length
    {e : Extraction κ cmp} {h' : Heap κ cmp} (hextracted : Extracted h e h')
    (hs : Heap.Spaced h.roots) (hsize : h.items.length ≤ Nat.fib 67) :
    e.buckets = [] ∨ e.buckets.length = bucketCount := by
  rcases hextracted.buckets with hnil | ⟨first, others, hroots, hmirrors⟩
  · exact .inl hnil
  · refine .inr ?_
    rw [hmirrors.length]
    by_cases hne : Heap.buckets cmp (first.children.toTrees.reverse ++ others) = []
    · rw [hne]
      rfl
    · have hring := (hroots ▸ hs : Heap.Spaced (first :: others)).release
      have hfib := hring.fib_length_buckets_le hne
      have hlength := Heap.length_items_release hroots
      refine max_eq_left ?_
      by_contra hmany
      have hmono : Nat.fib 67 ≤
          Nat.fib ((Heap.buckets cmp (first.children.toTrees.reverse ++ others)).length + 1) := by
        refine Nat.fib_mono ?_
        unfold bucketCount at hmany
        omega
      omega

/-- The degrees in a linked heap are bounded that embodies a heap of spaced trees. -/
theorem Embodies.degreesBounded
    [Std.TransCmp cmp] (he : Embodies none l h) (hs : h.Settled) (hspaced : Heap.Spaced h.roots) :
    l.DegreesBounded := by
  have hitems : h.items.length = l.size := hs.size_eq.symm.trans he.size_eq.symm
  have hfib : ∀ i x, l.nodes.get? i = some x → Nat.fib (x.degree + 2) ≤ l.size := by
    intro i x hx
    obtain ⟨t, ht, hdegree, -⟩ := he.exists_subtree hx
    rw [hdegree, ← hitems]
    exact (hspaced.fib_le ht).trans (Heap.items_sublist_of_mem_subtrees ht).length_le
  constructor
  case subtree =>
    intro i x hx
    obtain ⟨t, ht, hdegree, htour⟩ := he.exists_subtree hx
    have hsub := (Heap.items_sublist_of_mem_subtrees ht).map Item.slot
    refine ⟨_, htour, hsub.nodup hs.nodup, fun j hj => (he.contains_iff j).2 (hsub.subset hj), ?_⟩
    rw [hdegree, List.length_map]
    exact hspaced.fib_le ht
  case degree_ne =>
    intro d hd i x hx heq
    have hle := hfib i x hx
    rw [heq] at hle
    omega
  case degree_le =>
    intro i x hx
    have hpow := (two_pow_le_fib x.degree).trans (hfib i x hx)
    have hlog := Nat.le_log_of_pow_le one_lt_two hpow
    omega
  case buckets =>
    rintro hsize e (hleft | ⟨id, hleft⟩)
    · cases hroots : h.roots with
      | nil =>
          have hmin : l.min = none := by rw [he.min, hroots]; rfl
          simp [LinkedHeap.extractMin?, hmin, pure, Except.pure] at hleft
      | cons first others =>
          obtain ⟨_, hextract, e', h', rfl, hextracted⟩ := he.ensures_extractMin? hroots (by simp)
          cases hextract.symm.trans hleft
          exact hextracted.buckets_length hspaced (hitems ▸ hsize)
    · obtain ⟨_, hdelete, ⟨rfl, -⟩ | ⟨e', h', rfl, -, hextracted⟩⟩ := he.ensures_delete? hs id
      · cases hdelete.symm.trans hleft
      · cases hdelete.symm.trans hleft
        refine hextracted.buckets_length ((hspaced.uproot id.slot).perm (Heap.turnTo_perm _ _)) ?_
        have hperm :=
          (Heap.turnTo_perm id.slot (Heap.uproot id.slot h.roots)).flatMap_right Tree.items
        rw [Heap.items, (hperm.trans (Heap.items_uproot_perm id.slot h.roots)).length_eq]
        exact hitems ▸ hsize

/-- Whatever is asked of a linked heap that was empty at first, its degrees stay bounded. -/
theorem run_degreesBounded
    [Std.TransCmp cmp] (calls : List (Heap.Call κ)) :
    ∃ answers, ∃ l : LinkedHeap κ cmp, run calls {} = .ok (answers, l) ∧ l.DegreesBounded := by
  have hempty : Embodies none ({} : LinkedHeap κ cmp) {} := embodies_empty
  obtain ⟨⟨answers, l⟩, hrun, -, he⟩ := hempty.ensures_run Heap.settled_empty calls
  refine ⟨answers, l, hrun, he.degreesBounded (Heap.settled_run calls Heap.settled_empty) ?_⟩
  exact Heap.spaced_run calls fun t ht => by cases ht

/-- A node with three children has five nodes in its subtree at least; here it has six. -/
theorem run_degreesBounded_thinnedCalls :
    ∃ answers, ∃ l : LinkedHeap Nat compare, run Heap.thinnedCalls {} = .ok (answers, l) ∧
      l.DegreesBounded ∧ l.size = 10 ∧ (l.nodes.get? 1).map (·.degree) = some 3 := by
  have hfacts : (run Heap.thinnedCalls ({} : LinkedHeap Nat compare)).toOption.map
      (fun left => (left.2.size, (left.2.nodes.get? 1).map (·.degree))) = some (10, some 3) := by
    decide +kernel
  have hrun : ∃ answers, ∃ l : LinkedHeap Nat compare,
      run Heap.thinnedCalls {} = .ok (answers, l) ∧ l.DegreesBounded :=
    run_degreesBounded Heap.thinnedCalls
  obtain ⟨answers, l, hrun, hl⟩ := hrun
  rw [hrun] at hfacts
  have hpair := Option.some.inj hfacts
  exact ⟨answers, l, hrun, hl, congrArg Prod.fst hpair, congrArg Prod.snd hpair⟩

end LinkedHeap
end CallbackLoop
