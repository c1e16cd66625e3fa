import CallbackLoop.Proofs.Heap.Ledger
import CallbackLoop.Proofs.Heap.Members

/-!
# Consolidation merges completely

Every bucket holds a root of its own degree, so the roots that are left in the buckets
have different degrees.  A link makes one member out of the root that loses and keeps
all members that were no roots; so does a whole consolidation.

`removals_consolidate` is the result for the heaps that can be reached.
-/

namespace CallbackLoop
namespace Heap

universe u

variable {κ : Type u} {cmp : κ → κ → Ordering}

/-- The buckets hold roots of the degrees from `degree` on, in order. -/
def Graded :
    (degree : Nat) → List (Option (Placed κ)) → Prop
  | _, [] => True
  | degree, bucket :: buckets =>
      (∀ root ∈ bucket, root.tree.degree = degree) ∧ Graded (degree + 1) buckets

theorem degree_join
    {resident newcomer : Placed κ} {degree : Nat}
    (hr : resident.tree.degree = degree) (hn : newcomer.tree.degree = degree) :
    (join cmp resident newcomer).tree.degree = degree + 1 := by
  unfold join
  split <;> simp [hr, hn]

theorem graded_carry
    {root : Placed κ} {degree : Nat} {buckets : List (Option (Placed κ))}
    (hroot : root.tree.degree = degree) (hbuckets : Graded degree buckets) :
    Graded degree (carry cmp root buckets) := by
  induction buckets generalizing root degree with
  | nil =>
      exact ⟨by simpa using hroot, trivial⟩
  | cons bucket buckets ih =>
      cases bucket with
      | none =>
          exact ⟨by simpa using hroot, hbuckets.2⟩
      | some resident =>
          exact ⟨by simp, ih (degree_join (hbuckets.1 resident rfl) hroot) hbuckets.2⟩

/-- Depositing starts `more` buckets after the first one. -/
theorem graded_deposit
    {root : Placed κ} {degree more : Nat} {buckets : List (Option (Placed κ))}
    (hroot : root.tree.degree = degree + more) (hbuckets : Graded degree buckets) :
    Graded degree (deposit cmp root more buckets) := by
  induction more generalizing degree buckets with
  | zero =>
      cases buckets <;> exact graded_carry hroot hbuckets
  | succ more ih =>
      cases buckets with
      | nil =>
          exact ⟨by simp, ih (by omega) trivial⟩
      | cons bucket buckets =>
          exact ⟨hbuckets.1, ih (by omega) hbuckets.2⟩

theorem graded_buckets
    (cmp : κ → κ → Ordering) (ring : List (Tree κ)) :
    Graded 0 (buckets cmp ring) := by
  unfold buckets
  generalize hstart : ([] : List (Option (Placed κ))) = start
  have hgraded : Graded 0 start := hstart ▸ trivial
  clear hstart
  induction ring.zipIdx generalizing start with
  | nil =>
      exact hgraded
  | cons root roots ih =>
      exact ih _ (graded_deposit (Nat.zero_add _).symm hgraded)

/-- The roots in the buckets come by increasing degree. -/
theorem Graded.pairwise
    {degree : Nat} {buckets : List (Option (Placed κ))} (h : Graded degree buckets) :
    (∀ root ∈ buckets.filterMap id, degree ≤ root.tree.degree) ∧
      (buckets.filterMap id).Pairwise fun r s => r.tree.degree < s.tree.degree := by
  induction buckets generalizing degree with
  | nil =>
      exact ⟨by simp, .nil⟩
  | cons bucket buckets ih =>
      obtain ⟨hall, hpairwise⟩ := ih h.2
      cases bucket with
      | none =>
          exact ⟨fun root hroot => Nat.le_of_succ_le (hall root hroot), hpairwise⟩
      | some first =>
          have hfirst := h.1 first rfl
          refine ⟨?_, List.pairwise_cons.2 ⟨?_, hpairwise⟩⟩
          · intro root hroot
            rcases List.mem_cons.1 hroot with rfl | hroot
            · exact hfirst.ge
            · exact Nat.le_of_succ_le (hall root hroot)
          · intro root hroot
            rw [hfirst]
            exact hall root hroot

/-- After a consolidation no two roots have the same degree. -/
theorem nodup_degrees_consolidate
    (cmp : κ → κ → Ordering) (ring : List (Tree κ)) :
    ((consolidate cmp ring).map Tree.degree).Nodup := by
  refine (((consolidate_perm cmp ring).map Tree.degree).nodup_iff).2 ?_
  rw [List.map_map]
  exact List.pairwise_map.2 ((graded_buckets cmp ring).pairwise.2.imp Nat.ne_of_lt)

/-- The trees in the buckets. -/
def held (buckets : List (Option (Placed κ))) : List (Tree κ) :=
  (buckets.filterMap id).map (·.tree)

theorem below_join_le
    (cmp : κ → κ → Ordering) (resident newcomer : Placed κ) :
    newcomer.tree.below + resident.tree.below ≤ (join cmp resident newcomer).tree.below := by
  unfold join
  split
  · rw [Tree.below_link, add_comm]
    exact Multiset.le_cons_self _ _
  · rw [Tree.below_link]
    exact Multiset.le_cons_self _ _

theorem below_cons
    (t : Tree κ) (ring : List (Tree κ)) :
    below (t :: ring) = t.below + below ring :=
  rfl

theorem below_carry_le
    (cmp : κ → κ → Ordering) (root : Placed κ) (buckets : List (Option (Placed κ))) :
    root.tree.below + below (held buckets) ≤ below (held (carry cmp root buckets)) := by
  induction buckets generalizing root with
  | nil =>
      exact le_rfl
  | cons bucket buckets ih =>
      cases bucket with
      | none =>
          exact le_rfl
      | some resident =>
          refine le_trans ?_ (ih (join cmp resident root))
          show root.tree.below + below (resident.tree :: held buckets) ≤ _
          rw [below_cons, ← add_assoc]
          exact add_le_add_left (below_join_le cmp resident root) _

theorem below_deposit_le
    (cmp : κ → κ → Ordering) (root : Placed κ) (degree : Nat)
    (buckets : List (Option (Placed κ))) :
    root.tree.below + below (held buckets) ≤ below (held (deposit cmp root degree buckets)) := by
  induction degree generalizing buckets with
  | zero =>
      cases buckets <;> exact below_carry_le cmp root _
  | succ degree ih =>
      cases buckets with
      | nil =>
          exact ih []
      | cons bucket buckets =>
          cases bucket with
          | none =>
              exact ih buckets
          | some resident =>
              show root.tree.below + below (resident.tree :: held buckets) ≤
                below (resident.tree :: held (deposit cmp root degree buckets))
              rw [below_cons, below_cons, add_left_comm]
              exact add_le_add_right (ih buckets) _

/-- Whatever lies below a root stays as it is when roots are merged. -/
theorem below_consolidate_le
    (cmp : κ → κ → Ordering) (ring : List (Tree κ)) :
    below ring ≤ below (consolidate cmp ring) := by
  have hfold : ∀ (roots : List (Tree κ × Nat)) (bs : List (Option (Placed κ))),
      below (roots.map Prod.fst) + below (held bs) ≤
        below (held (roots.foldl
          (fun bs root => deposit cmp ⟨root.2, root.1⟩ root.1.degree bs) bs)) := by
    intro roots
    induction roots with
    | nil =>
        intro bs
        exact (zero_add _).le
    | cons root roots ih =>
        intro bs
        refine le_trans ?_ (ih _)
        rw [List.map_cons, below_cons, add_assoc, add_left_comm]
        exact add_le_add_right (below_deposit_le cmp ⟨root.2, root.1⟩ root.1.degree bs) _
  rw [below_perm (consolidate_perm cmp ring)]
  have h := hfold ring.zipIdx []
  rw [List.zipIdx_map_fst] at h
  exact le_trans (Multiset.le_add_right _ _) h

/-- Every heap that can be reached is settled. -/
theorem settled_run
    [Std.TransCmp cmp] (calls : List (Call κ)) {h : Heap κ cmp} (hs : h.Settled) :
    (run calls h).2.Settled := by
  induction calls generalizing h with
  | nil =>
      exact hs
  | cons call calls ih =>
      have hr : Represents h ⟨h.toFinmap, ∅, h.minHandle?⟩ := ⟨rfl, rfl, by simp⟩
      obtain ⟨-, -, hs', -⟩ := perform_step hs hr call
      exact ih hs'

/-- What the removal of one node leaves behind. -/
structure Consolidated (removed : Item κ) (h h' : Heap κ cmp) : Prop where
  /-- No two roots have the same degree. -/
  degrees : (h'.roots.map Tree.degree).Nodup
  /-- The other nodes are still there with their keys, and there are no more. -/
  items : (removed :: h'.items).Perm h.items
  distinct : (h.items.map Item.slot).Nodup
  /-- The minimum is a root that no root compares below. -/
  least : ∀ id, h'.minHandle? = some id →
    ∃ t ∈ h'.roots, t.item.handle = id ∧ ∀ s ∈ h'.roots, cmp s.key t.key ≠ .lt
  none : h'.minHandle? = none → h'.items = []

theorem Settled.consolidated
    [Std.TransCmp cmp] {removed : Item κ} {h h' : Heap κ cmp} (hs : h.Sound)
    (hs' : h'.Settled) (hperm : (removed :: h'.items).Perm h.items)
    (hdegrees : (h'.roots.map Tree.degree).Nodup) :
    Consolidated removed h h' where
  degrees := hdegrees
  items := hperm
  distinct := hs.nodup
  least id hid := by
    obtain ⟨t, ht, rfl⟩ := Option.map_eq_some_iff.1 hid
    obtain ⟨others, hroots⟩ := List.head?_eq_some_iff.1 ht
    refine ⟨t, by rw [hroots]; exact List.mem_cons_self, rfl, fun s hmem => ?_⟩
    exact Std.OrientedCmp.not_lt_of_isLE (hs'.least t ht s hmem)
  none hnone := by
    rw [minHandle?, Option.map_eq_none_iff, List.head?_eq_none_iff] at hnone
    exact (roots_eq_nil_iff h').1 hnone

theorem extractMin?_of_roots
    {h : Heap κ cmp} {first : Tree κ} {others : List (Tree κ)}
    (hroots : h.roots = first :: others) :
    h.extractMin? = some (first.key,
      { h with
        roots := consolidate cmp (first.children.toTrees.reverse ++ others)
        slots := h.slots.erase first.item.slot }) := by
  unfold extractMin?
  rw [hroots]

theorem nodup_degrees_of_extractMin?
    {h h' : Heap κ cmp} {key : κ} (hextract : h.extractMin? = some (key, h')) :
    (h'.roots.map Tree.degree).Nodup := by
  cases hroots : h.roots with
  | nil =>
      simp [extractMin?, hroots] at hextract
  | cons first others =>
      rw [extractMin?_of_roots hroots] at hextract
      cases hextract
      exact nodup_degrees_consolidate cmp _

/-- An extraction leaves the members as they are that were neither roots nor children of
the node that is taken out. -/
theorem mem_members_of_extractMin?
    {h h' : Heap κ cmp} {key : κ} {first : Tree κ} {others : List (Tree κ)}
    (hroots : h.roots = first :: others) (hextract : h.extractMin? = some (key, h'))
    {m : Member κ} (hm : m ∈ h.members) (hroot : m.parent ≠ none)
    (hchild : m.parent ≠ some first.item.slot) :
    m ∈ h'.members := by
  rw [extractMin?_of_roots hroots] at hextract
  cases hextract
  have hbelow : m ∈ below (first.children.toTrees.reverse ++ others) := by
    rw [members, ringMembers_eq, hroots, Multiset.mem_add, below_cons, Multiset.mem_add] at hm
    rw [below_perm (List.Perm.append_right others (List.reverse_perm _)), below,
      List.map_append, List.sum_append, Multiset.mem_add]
    rcases hm with hm | hm | hm
    · obtain ⟨t, -, rfl⟩ := List.mem_map.1 (Multiset.mem_coe.1 hm)
      exact absurd rfl hroot
    · obtain ⟨tops, htops, heq⟩ := first.children.members_eq first.item.slot
      rw [Tree.below, heq, Multiset.mem_add] at hm
      rcases hm with hm | hm
      · exact absurd (htops m hm) hchild
      · exact .inl hm
    · exact .inr hm
  rw [members, ringMembers_eq, Multiset.mem_add]
  exact .inr (Multiset.mem_of_le (below_consolidate_le cmp _) hbelow)

theorem delete?_eq
    {h : Heap κ cmp} (id : Handle) :
    h.delete? id = none ∨
      h.delete? id =
        extractMin? { h with roots := turnTo id.slot (uproot id.slot h.roots) } := by
  unfold delete?
  split
  · exact .inr rfl
  · exact .inl rfl

/-- What an extraction leaves of a settled heap. -/
theorem Settled.exists_extractMin?
    [Std.TransCmp cmp] {h : Heap κ cmp} (hs : h.Settled) {first : Tree κ}
    {others : List (Tree κ)} (hroots : h.roots = first :: others) :
    ∃ h', h.extractMin? = some (first.key, h') ∧ Consolidated first.item h h' ∧
      ∀ m ∈ h.members, m.parent ≠ none → m.parent ≠ some first.item.slot → m ∈ h'.members := by
  obtain ⟨h', hextract, hs', hperm, -⟩ := extractMin?_spec hs.toSound hroots
  refine ⟨h', hextract, hs'.consolidated hs.toSound hperm
    (nodup_degrees_of_extractMin? hextract), fun m hm hroot hchild => ?_⟩
  exact mem_members_of_extractMin? hroots hextract hm hroot hchild

/-- What a deletion leaves of a settled heap. -/
theorem Settled.exists_delete?
    [Std.TransCmp cmp] {h : Heap κ cmp} (hs : h.Settled) {removed : Item κ}
    (hremoved : removed ∈ h.items) :
    ∃ h', h.delete? removed.handle = some (removed.key, h') ∧ Consolidated removed h h' := by
  obtain ⟨h', hdelete, hs', hperm, -⟩ := delete?_spec hs.toSound hremoved
  refine ⟨h', hdelete, hs'.consolidated hs.toSound hperm ?_⟩
  rcases delete?_eq (h := h) removed.handle with hnone | heq
  · cases hnone.symm.trans hdelete
  · exact nodup_degrees_of_extractMin? (heq ▸ hdelete)

/-- Taking out the minimum, or the node behind a handle, leaves roots of different
degrees, every other node with its key, and a least root as the minimum.  Taking out the
minimum changes the relatives of the roots and of its own children only. -/
theorem removals_consolidate
    [Std.TransCmp cmp] (calls : List (Call κ)) {h : Heap κ cmp}
    (hrun : (run calls ({} : Heap κ cmp)).2 = h) {removed : Item κ}
    (hremoved : removed ∈ h.items) :
    (h.minHandle? = some removed.handle → ∃ h', h.extractMin? = some (removed.key, h') ∧
      Consolidated removed h h' ∧
      ∀ m ∈ h.members, m.parent ≠ none → m.parent ≠ some removed.slot → m ∈ h'.members) ∧
    ∃ h', h.delete? removed.handle = some (removed.key, h') ∧ Consolidated removed h h' := by
  have hs : h.Settled := hrun ▸ settled_run calls settled_empty
  refine ⟨fun hmin => ?_, hs.exists_delete? hremoved⟩
  obtain ⟨first, hfirst, hhandle⟩ := Option.map_eq_some_iff.1 hmin
  obtain ⟨others, hroots⟩ := List.head?_eq_some_iff.1 hfirst
  obtain rfl : first.item = removed := by
    refine hs.item_ext ?_ hremoved (congrArg Handle.slot hhandle)
    simp [items, hroots, Tree.items]
  exact hs.exists_extractMin? hroots

/-- Eight nodes come below one root, two of them lose a child, and two nodes are added. -/
def thinnedCalls : List (Call Nat) :=
  (List.range 9).map .insert ++
    [.extractMin, .decreaseKey ⟨8, 8⟩ 0, .decreaseKey ⟨4, 4⟩ 2, .insert 9, .insert 10]

/-- The node in slot 7 is a grandchild of a root and marked, and it stays so. -/
theorem removals_consolidate_thinnedCalls :
    ∃ h h' h'' : Heap Nat compare, (run thinnedCalls ({} : Heap Nat compare)).2 = h ∧
      h.minHandle? = some ⟨8, 8⟩ ∧ h.extractMin? = some (0, h') ∧
      Consolidated ⟨8, 8, 0⟩ h h' ∧ h.delete? ⟨8, 8⟩ = some (0, h'') ∧
      Consolidated ⟨8, 8, 0⟩ h h'' ∧ (⟨⟨7, 7, 7⟩, some 5, true, []⟩ : Member Nat) ∈ h'.members ∧
      h'.roots.map Tree.degree = [3, 1, 0] := by
  have hitem : (⟨8, 8, 0⟩ : Item Nat) ∈ (run thinnedCalls ({} : Heap Nat compare)).2.items := by
    decide +kernel
  have hleast : (run thinnedCalls ({} : Heap Nat compare)).2.minHandle? = some ⟨8, 8⟩ := by
    decide +kernel
  obtain ⟨hmin, h'', hdelete, hdeleted⟩ := removals_consolidate thinnedCalls rfl hitem
  obtain ⟨h', hextract, hextracted, hkept⟩ := hmin hleast
  refine ⟨_, h', h'', rfl, hleast, hextract, hextracted, hdelete, hdeleted,
    hkept _ (by decide +kernel) (by decide) (by decide), ?_⟩
  have hdegrees : (run thinnedCalls ({} : Heap Nat compare)).2.extractMin?.map
      (fun left => left.2.roots.map Tree.degree) = some [3, 1, 0] := by
    decide +kernel
  rw [hextract] at hdegrees
  exact Option.some.inj hdegrees

end Heap
end CallbackLoop
