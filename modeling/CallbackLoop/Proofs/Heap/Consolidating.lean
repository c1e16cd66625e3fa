import CallbackLoop.Proofs.Heap.Cutting
import CallbackLoop.Proofs.Heap.Order
import Mathlib.Data.List.Sort

/-!
# Consolidation in the arena

The loop over the roots sees a ring that it changes: a root that loses a link leaves the
ring, and the one that wins keeps its place.  `Live` says which roots are in the ring at a
moment, in order of their places, and `Mirrors` that the vector of slots is that of the
buckets of trees.  Every link keeps both.

`Layout.ensures_consolidate` compares the whole consolidation with that of trees.
-/

namespace CallbackLoop

variable {κ : Type}

namespace LinkedHeap

variable {α : Type}

theorem length_widen
    (buckets : List (Option α)) (degree : Nat) :
    (widen buckets degree).length = max buckets.length (degree + 1) := by
  rw [widen, List.length_append, List.length_replicate]
  omega

/-- The added buckets are empty. -/
theorem join_getElem?_widen
    (buckets : List (Option α)) (degree d : Nat) :
    (widen buckets degree)[d]?.join = buckets[d]?.join := by
  rw [widen, List.getElem?_append]
  split
  next => rfl
  next hge =>
      rw [List.getElem?_eq_none (Nat.le_of_not_lt hge), List.getElem?_replicate]
      split <;> rfl

theorem join_getElem?_set_widen
    (buckets : List (Option α)) (degree : Nat) (bucket : Option α) (d : Nat) :
    ((widen buckets degree).set degree bucket)[d]?.join =
      if degree = d then bucket else buckets[d]?.join := by
  have hlt : degree < (widen buckets degree).length := by
    rw [length_widen]
    omega
  rw [List.getElem?_set, if_pos hlt]
  split
  · rfl
  · exact join_getElem?_widen buckets degree d

/-- Empty buckets at the end do not matter when the others are looked at in order. -/
theorem filterMap_congr_join
    {v w : List (Option α)} (h : ∀ d : Nat, v[d]?.join = w[d]?.join) :
    v.filterMap id = w.filterMap id := by
  have hnil : ∀ l : List (Option α), (∀ d : Nat, l[d]?.join = none) → l.filterMap id = [] := by
    intro l hl
    refine List.filterMap_eq_nil_iff.2 fun bucket hmem => ?_
    obtain ⟨d, hd⟩ := List.mem_iff_getElem?.1 hmem
    simpa [hd] using hl d
  induction v generalizing w with
  | nil =>
      exact (hnil w fun d => (h d).symm).symm
  | cons bucket v ih =>
      cases w with
      | nil =>
          exact hnil _ h
      | cons bucket' w =>
          have hfirst : bucket = bucket' := h 0
          rw [hfirst, List.filterMap_cons, List.filterMap_cons, ih fun d => h (d + 1)]

/-- Taking out what a bucket holds. -/
theorem filterMap_take
    {buckets : List (Option α)} {degree : Nat} {x : α} (h : buckets[degree]?.join = some x) :
    degree < buckets.length ∧
      (buckets.filterMap id).Perm (x :: (buckets.set degree none).filterMap id) := by
  induction buckets generalizing degree with
  | nil =>
      cases h
  | cons bucket buckets ih =>
      cases degree with
      | zero =>
          obtain rfl : bucket = some x := h
          exact ⟨Nat.succ_pos _, .refl _⟩
      | succ degree =>
          obtain ⟨hlt, hperm⟩ := ih h
          refine ⟨Nat.succ_lt_succ hlt, ?_⟩
          cases bucket with
          | none => exact hperm
          | some y => exact (hperm.cons y).trans (.swap _ _ _)

/-- Filling an empty bucket. -/
theorem filterMap_fill
    {buckets : List (Option α)} {degree : Nat} (h : buckets[degree]?.join = none) (x : α) :
    (((widen buckets degree).set degree (some x)).filterMap id).Perm
      (x :: buckets.filterMap id) := by
  have hfilled : ((widen buckets degree).set degree (some x))[degree]?.join = some x := by
    rw [join_getElem?_set_widen, if_pos rfl]
  refine (filterMap_take hfilled).2.trans (.cons x (.of_eq (filterMap_congr_join fun d => ?_)))
  rw [List.set_set, join_getElem?_set_widen]
  split
  next heq => rw [← heq, h]
  next => rfl

end LinkedHeap

namespace Heap

/-- The slot of a root. -/
def Placed.slot (root : Placed κ) : Nat :=
  root.tree.item.slot

/-- A root goes into the bucket of its degree if that is empty, and is otherwise joined with
the root there. -/
theorem deposit_eq
    (cmp : κ → κ → Ordering) (root : Placed κ) (degree : Nat)
    (buckets : List (Option (Placed κ))) :
    deposit cmp root degree buckets =
      match buckets[degree]?.join with
      | none => (LinkedHeap.widen buckets degree).set degree (some root)
      | some resident =>
          deposit cmp (join cmp resident root) (degree + 1) (buckets.set degree none) := by
  induction degree generalizing buckets with
  | zero =>
      match buckets with
      | [] => rfl
      | none :: buckets => simp [deposit, carry, LinkedHeap.widen]
      | some resident :: buckets => cases buckets <;> rfl
  | succ degree ih =>
      cases buckets with
      | nil =>
          rw [deposit, ih]
          simp [LinkedHeap.widen, List.replicate_succ]
      | cons bucket buckets =>
          rw [deposit, ih, List.getElem?_cons_succ]
          cases buckets[degree]?.join with
          | none =>
              simp [LinkedHeap.widen]
          | some resident =>
              rfl

end Heap

namespace LinkedHeap

open Heap (Placed)

/-- The vector holds the slots of the roots in the buckets, and it is as long as it has to
be. -/
structure Mirrors (vector : List (Option Nat)) (buckets : List (Option (Placed κ))) : Prop where
  get : ∀ d : Nat, vector[d]?.join = buckets[d]?.join.map Placed.slot
  length : vector.length = max bucketCount buckets.length

namespace Mirrors

variable {vector : List (Option Nat)} {buckets : List (Option (Placed κ))}

theorem empty :
    Mirrors (List.replicate bucketCount none) ([] : List (Option (Placed κ))) where
  get d := by
    rw [List.getElem?_replicate]
    split <;> rfl
  length := by simp

/-- A root goes into an empty bucket. -/
theorem fill
    (h : Mirrors vector buckets) (degree : Nat) (root : Placed κ) :
    Mirrors ((widen vector degree).set degree (some root.slot))
      ((widen buckets degree).set degree (some root)) where
  get d := by
    rw [join_getElem?_set_widen, join_getElem?_set_widen, h.get d]
    split <;> rfl
  length := by
    have := h.length
    rw [List.length_set, List.length_set, length_widen, length_widen]
    omega

/-- A root is taken out of its bucket. -/
theorem take
    (h : Mirrors vector buckets) {degree : Nat} (hlt : degree < buckets.length) :
    Mirrors ((widen vector degree).set degree none) (buckets.set degree none) where
  get d := by
    rw [join_getElem?_set_widen, List.getElem?_set, if_pos hlt, h.get d]
    split <;> rfl
  length := by
    have := h.length
    rw [List.length_set, List.length_set, length_widen]
    omega

/-- The slots in the vector are those of the roots in the buckets, in the same order. -/
theorem filterMap_eq
    (h : Mirrors vector buckets) :
    vector.filterMap id = (buckets.filterMap id).map Placed.slot := by
  rw [filterMap_congr_join (w := buckets.map (Option.map Placed.slot)) fun d => ?_,
    List.filterMap_map]
  · rw [List.map_filterMap]
    rfl
  · rw [h.get d, List.getElem?_map]
    cases buckets[d]? <;> rfl

end Mirrors

variable {free : List Nat} {n : Nat} {flag : Option Nat} {R : Multiset (List Nat)}
  {M : Multiset (Member κ)} {a : Arena (Node κ)}

/-- The given roots are in the ring, in order of their places, and the rest of the arena is as
`R` and `M` say. -/
def Live (free : List Nat) (n : Nat) (flag : Option Nat) (R : Multiset (List Nat))
    (M : Multiset (Member κ)) (roots : List (Placed κ)) (a : Arena (Node κ)) : Prop :=
  ∃ ring : List (Placed κ), (ring.map Placed.place).Pairwise (· < ·) ∧ ring.Perm roots ∧
    Layout free n flag (Heap.row (ring.map Placed.tree) ::ₘ R)
      (Heap.ringMembers (ring.map Placed.tree) + M) a

namespace Live

variable {roots : List (Placed κ)}

theorem perm
    (h : Live free n flag R M roots a) {roots' : List (Placed κ)} (hperm : roots.Perm roots') :
    Live free n flag R M roots' a := by
  obtain ⟨ring, hplaces, hring, hlayout⟩ := h
  exact ⟨ring, hplaces, hring.trans hperm, hlayout⟩

/-- A root loses a link and leaves the ring; the place of the winner stays the same. -/
theorem ensures_adopt
    {winner loser : Placed κ} (h : Live free n flag R M (winner :: loser :: roots) a) :
    Ensures (adopt a winner.slot loser.slot)
      (Live free n flag R M ({ winner with tree := winner.tree.link loser.tree } :: roots)) := by
  obtain ⟨ring, hplaces, hperm, h⟩ := h
  obtain ⟨before, after, rfl⟩ := List.append_of_mem
    (hperm.symm.subset (List.mem_cons_of_mem _ List.mem_cons_self) : loser ∈ ring)
  have hrest : (before ++ after).Perm (winner :: roots) :=
    (List.perm_middle.symm.trans (hperm.trans (.swap _ _ _))).cons_inv
  obtain ⟨left, right, hleft⟩ := List.append_of_mem
    (hrest.symm.subset List.mem_cons_self : winner ∈ before ++ after)
  have hothers : (left ++ right).Perm roots := by
    rw [hleft] at hrest
    exact (List.perm_middle.symm.trans hrest).cons_inv
  have hmembers : Heap.ringMembers ((before ++ loser :: after).map Placed.tree) + M =
      winner.tree.root ::ₘ loser.tree.root ::ₘ (winner.tree.below + loser.tree.below +
        Heap.ringMembers ((left ++ right).map Placed.tree) + M) := by
    have hall := hperm.trans ((hothers.symm.cons loser).cons winner)
    rw [Heap.ringMembers_perm (hall.map Placed.tree), List.map_cons, List.map_cons,
      Heap.ringMembers_cons, Heap.ringMembers_cons, Tree.members, Tree.members]
    simp only [← Multiset.singleton_add]
    abel
  have hrow : Heap.row ((before ++ loser :: after).map Placed.tree) =
      Heap.row (before.map Placed.tree) ++ loser.slot :: Heap.row (after.map Placed.tree) := by
    rw [List.map_append, Heap.row_append]
    rfl
  have hloser := (h.congr (congrArg (· ::ₘ R) hrow) hmembers).rotate
  have hwinner : Heap.row (before.map Placed.tree) ++ Heap.row (after.map Placed.tree) =
      Heap.row ((left ++ winner :: right).map Placed.tree) := by
    rw [← hleft, List.map_append, Heap.row_append]
  refine (hloser.ensures_adopt (x := winner.tree.root) (y := loser.tree.root)).mono
    fun b hb => ⟨left ++ { winner with tree := winner.tree.link loser.tree } :: right, ?_, ?_, ?_⟩
  · have hplaces' : ((left ++ winner :: right).map Placed.place).Pairwise (· < ·) := by
      rw [← hleft]
      refine hplaces.sublist (List.Sublist.map _ ?_)
      exact (List.Sublist.refl _).append (List.sublist_cons_self _ _)
    simpa using hplaces'
  · exact List.perm_middle.trans (hothers.cons _)
  · refine hb.rotate.congr ?_ ?_
    · rw [hwinner]
      simp [Heap.row, Tree.link]
    · simp only [List.map_append, List.map_cons, Heap.ringMembers_append, Heap.ringMembers_cons,
        Tree.members, Tree.root_link, Tree.below_link]
      simp only [Tree.root, Member.slot, ← Multiset.singleton_add]
      abel

/-- The ring is the sorted list of its roots. -/
theorem sorted
    (h : Live free n flag R M roots a) :
    Layout free n flag
      (Heap.row ((sortBy (fun r s => r.place ≤ s.place) roots).map Placed.tree) ::ₘ R)
      (Heap.ringMembers ((sortBy (fun r s => r.place ≤ s.place) roots).map Placed.tree) + M) a := by
  obtain ⟨ring, hplaces, hperm, h⟩ := h
  have hsorted : ring = sortBy (fun r s => r.place ≤ s.place) roots := by
    have hpairwise : (sortBy (fun r s : Placed κ => r.place ≤ s.place) roots).Pairwise
        fun r s => decide (r.place ≤ s.place) = true :=
      pairwise_sortBy (fun r s t hrs hst => by simp only [decide_eq_true_eq] at *; omega)
        (fun r s => by simp only [decide_eq_true_eq]; omega) roots
    refine List.Perm.eq_of_pairwise (fun r s hr hs hrs hsr => ?_)
      ((List.pairwise_map.1 hplaces).imp fun hlt => decide_eq_true (Nat.le_of_lt hlt)) hpairwise
      (hperm.trans (sortBy_perm _ _).symm)
    have hs' : s ∈ ring := hperm.symm.subset ((sortBy_perm _ _).subset hs)
    have hnodup : (ring.map Placed.place).Nodup := hplaces.imp Nat.ne_of_lt
    exact List.inj_on_of_nodup_map hnodup hr hs'
      (Nat.le_antisymm (of_decide_eq_true hrs) (of_decide_eq_true hsr))
  rwa [← hsorted]

theorem root_mem
    {ring : List (Placed κ)} {root : Placed κ} (hroot : root ∈ ring) :
    root.tree.root ∈ Heap.ringMembers (ring.map Placed.tree) + M := by
  rw [Heap.ringMembers_eq, add_assoc, Multiset.mem_add, Multiset.mem_coe]
  exact .inl (List.mem_map_of_mem (List.mem_map_of_mem hroot))

theorem ensures_less
    {cmp : κ → κ → Ordering} {r s : Placed κ} (h : Live free n flag R M roots a)
    (hr : r ∈ roots) (hs : s ∈ roots) (hflag : ∀ root ∈ roots, flag ≠ some root.slot) :
    Ensures (less cmp a r.slot s.slot) (· = (cmp r.tree.key s.tree.key).isLT) := by
  obtain ⟨ring, -, hperm, h⟩ := h
  exact h.ensures_less (root_mem (hperm.symm.subset hr)) (root_mem (hperm.symm.subset hs))
    (hflag r hr) (hflag s hs)

end Live

/-- Depositing a root in the arena and among the trees. -/
theorem ensures_deposit
    {cmp : κ → κ → Ordering} {vector : List (Option Nat)} {buckets : List (Option (Placed κ))}
    {root : Placed κ} {roots : List (Placed κ)} {fuel degree : Nat}
    (hmirror : Mirrors vector buckets) (hfuel : buckets.length - degree < fuel)
    (hlive : Live free n flag R M (root :: (buckets.filterMap id ++ roots)) a)
    (hflag : ∀ r ∈ root :: (buckets.filterMap id ++ roots), flag ≠ some r.slot) :
    Ensures (deposit cmp fuel a vector root.slot degree) fun left =>
      Mirrors left.1 (Heap.deposit cmp root degree buckets) ∧
        Live free n flag R M ((Heap.deposit cmp root degree buckets).filterMap id ++ roots)
          left.2 := by
  induction fuel generalizing a vector buckets root degree with
  | zero =>
      omega
  | succ fuel ih =>
      rw [Heap.deposit_eq, deposit, join_getElem?_widen, hmirror.get degree]
      cases hbucket : buckets[degree]?.join with
      | none =>
          refine .pure ⟨hmirror.fill degree root, hlive.perm ?_⟩
          exact ((filterMap_fill hbucket root).append_right roots).symm
      | some resident =>
          obtain ⟨hlt, hperm⟩ := filterMap_take hbucket
          have hlive := hlive.perm (((hperm.append_right roots).cons root).trans (.swap _ _ _))
          have hflag : ∀ r ∈ resident :: root :: ((buckets.set degree none).filterMap id ++ roots),
              flag ≠ some r.slot := by
            intro r hr
            refine hflag r (((hperm.append_right roots).cons root).symm.subset ?_)
            exact (List.Perm.swap root resident _).subset hr
          -- Whichever root wins goes on to the next bucket with a tree of the same slot.
          have hwin : ∀ winner loser : Placed κ,
              Live free n flag R M
                (winner :: loser :: ((buckets.set degree none).filterMap id ++ roots)) a →
              flag ≠ some winner.slot →
              Ensures (adopt a winner.slot loser.slot >>= fun a =>
                  deposit cmp fuel a ((widen vector degree).set degree none) winner.slot
                    (degree + 1))
                fun left =>
                  Mirrors left.1 (Heap.deposit cmp { winner with tree := winner.tree.link loser.tree }
                    (degree + 1) (buckets.set degree none)) ∧
                  Live free n flag R M ((Heap.deposit cmp
                    { winner with tree := winner.tree.link loser.tree }
                    (degree + 1) (buckets.set degree none)).filterMap id ++ roots) left.2 := by
            intro winner loser hlive hwinner
            refine hlive.ensures_adopt.bind fun b hb => ?_
            have hlength : (buckets.set degree none).length - (degree + 1) < fuel := by
              rw [List.length_set]
              omega
            exact ih (hmirror.take hlt) hlength hb (List.forall_mem_cons.2 ⟨hwinner, fun r hr =>
              hflag r (List.mem_cons_of_mem _ (List.mem_cons_of_mem _ hr))⟩)
          refine (hlive.ensures_less (by simp) (by simp) hflag).bind ?_
          rintro _ rfl
          dsimp only
          unfold Heap.join
          split
          · exact hwin resident root hlive (hflag _ (by simp))
          · exact hwin root resident (hlive.perm (.swap _ _ _)) (hflag _ (by simp))

/-- The slots of the roots in the buckets after a deposit were there before. -/
theorem forall_slot_deposit
    {p : Nat → Prop} (cmp : κ → κ → Ordering) {root : Placed κ} (degree : Nat)
    {buckets : List (Option (Placed κ))}
    (h : ∀ r ∈ root :: buckets.filterMap id, p r.slot) :
    ∀ r ∈ (Heap.deposit cmp root degree buckets).filterMap id, p r.slot := by
  obtain ⟨hroot, hbuckets⟩ := List.forall_mem_cons.1 h
  refine Heap.forall_mem_deposit (p := fun r => p r.slot) ?_ degree hroot hbuckets
  intro resident newcomer hr hn
  unfold Heap.join
  split
  · exact hr
  · exact hn

theorem ensures_depositAll
    {cmp : κ → κ → Ordering} {vector : List (Option Nat)} {buckets : List (Option (Placed κ))}
    {roots : List (Placed κ)} (hmirror : Mirrors vector buckets)
    (hlive : Live free n flag R M (buckets.filterMap id ++ roots) a)
    (hflag : ∀ r ∈ buckets.filterMap id ++ roots, flag ≠ some r.slot) :
    Ensures (depositAll cmp (roots.map Placed.slot) vector a) fun left =>
      Mirrors left.1
        (roots.foldl (fun bs root => Heap.deposit cmp root root.tree.degree bs) buckets) ∧
      Live free n flag R M
        ((roots.foldl (fun bs root => Heap.deposit cmp root root.tree.degree bs) buckets).filterMap
          id) left.2 := by
  induction roots generalizing vector buckets a with
  | nil =>
      rw [List.append_nil] at hlive
      exact .pure ⟨hmirror, hlive⟩
  | cons root roots ih =>
      have hroot : Ensures (node a root.slot) fun x => x.degree = root.tree.degree := by
        obtain ⟨ring, -, hperm, h⟩ := hlive
        have hmem := Live.root_mem (M := M) (hperm.symm.subset (show root ∈ _ by simp))
        refine (h.ensures_node hmem).mono fun x hx => ?_
        rw [congrArg Vertex.degree hx]
        simp [Member.vertex, Member.vertexOf, Tree.root, Tree.degree]
      refine hroot.bind fun x hx => ?_
      rw [hx]
      have hfuel : buckets.length - root.tree.degree < vector.length + 1 := by
        have := hmirror.length
        omega
      have hmiddle : (buckets.filterMap id ++ root :: roots).Perm
          (root :: (buckets.filterMap id ++ roots)) := List.perm_middle
      refine (ensures_deposit hmirror hfuel (hlive.perm hmiddle) fun r hr =>
        hflag r (hmiddle.symm.subset hr)).bind ?_
      rintro ⟨vector', b⟩ ⟨hmirror', hlive'⟩
      refine ih hmirror' hlive' (List.forall_mem_append.2 ⟨?_, fun r hr => hflag r (by simp [hr])⟩)
      exact forall_slot_deposit (p := fun slot => flag ≠ some slot) cmp root.tree.degree
        fun r hr => hflag r (hmiddle.symm.subset (by
          rcases List.mem_cons.1 hr with rfl | hr
          · exact List.mem_cons_self
          · exact List.mem_cons_of_mem _ (List.mem_append_left _ hr)))

/-- The minimum is the least of the roots. -/
theorem ensures_leastOf
    {cmp : κ → κ → Ordering} {best : Placed κ} {roots live : List (Placed κ)}
    (hlive : Live free n flag R M live a) (hflag : ∀ r ∈ live, flag ≠ some r.slot)
    (hmem : best :: roots ⊆ live) :
    Ensures (leastOf cmp a (some best.slot) (roots.map Placed.slot))
      (· = some (Heap.least cmp best roots).slot) := by
  induction roots generalizing best with
  | nil =>
      exact .pure rfl
  | cons root roots ih =>
      obtain ⟨hbest, hmem⟩ := List.cons_subset.1 hmem
      obtain ⟨hroot, hmem⟩ := List.cons_subset.1 hmem
      refine (hlive.ensures_less hroot hbest hflag).bind ?_
      rintro _ rfl
      rw [Heap.least]
      split
      · exact ih (List.cons_subset.2 ⟨hroot, hmem⟩)
      · exact ih (List.cons_subset.2 ⟨hbest, hmem⟩)

namespace Layout

/-- A ring of trees can be turned without a change to the arena. -/
theorem turn
    {ring : List (Tree κ)}
    (h : Layout free n flag (Heap.row ring ::ₘ R) (Heap.ringMembers ring + M) a) (slot : Nat) :
    Layout free n flag (Heap.row (Heap.turnTo slot ring) ::ₘ R)
      (Heap.ringMembers (Heap.turnTo slot ring) + M) a := by
  have hrow : Heap.row ring =
      Heap.row (ring.takeWhile (·.item.slot ≠ slot)) ++
        Heap.row (ring.dropWhile (·.item.slot ≠ slot)) := by
    rw [← Heap.row_append, List.takeWhile_append_dropWhile]
  refine (h.congr (congrArg (· ::ₘ R) hrow) rfl).rotate.congr ?_ ?_
  · rw [Heap.turnTo, Heap.row_append]
  · rw [Heap.ringMembers_perm (Heap.turnTo_perm slot ring)]

/-- The roots in the order of the ring, with their places. -/
theorem live_zipIdx
    {ring : List (Tree κ)}
    (h : Layout free n flag (Heap.row ring ::ₘ R) (Heap.ringMembers ring + M) a) :
    Live free n flag R M (ring.zipIdx.map fun root => ⟨root.2, root.1⟩) a := by
  refine ⟨_, ?_, .refl _, ?_⟩
  · rw [List.map_map]
    show (ring.zipIdx.map Prod.snd).Pairwise (· < ·)
    rw [List.zipIdx_map_snd]
    exact List.pairwise_lt_range'
  · rw [List.map_map]
    show Layout free n flag (Heap.row (ring.zipIdx.map Prod.fst) ::ₘ R)
      (Heap.ringMembers (ring.zipIdx.map Prod.fst) + M) a
    rwa [List.zipIdx_map_fst]

/-- Merging the roots of a ring in the arena and among the trees. -/
theorem ensures_consolidate
    {cmp : κ → κ → Ordering} {first : Tree κ} {others : List (Tree κ)}
    (h : Layout free n flag (Heap.row (first :: others) ::ₘ R)
      (Heap.ringMembers (first :: others) + M) a)
    (hflag : ∀ t ∈ first :: others, flag ≠ some t.item.slot) :
    Ensures (consolidate cmp a first.item.slot) fun left =>
      Mirrors left.1 (Heap.buckets cmp (first :: others)) ∧
      left.2.2 = (Heap.row (Heap.consolidate cmp (first :: others))).head? ∧
      Layout free n flag (Heap.row (Heap.consolidate cmp (first :: others)) ::ₘ R)
        (Heap.ringMembers (Heap.consolidate cmp (first :: others)) + M) left.2.1 := by
  generalize hring : first :: others = ring at *
  have hfuel : (Heap.row others).length < rounds a := by
    have hcard := h.card_le
    have hlength := Heap.length_le_card_ringMembers ring
    have hsize := h.size_eq
    have hothers : ring.length = others.length + 1 := by rw [← hring, List.length_cons]
    rw [Multiset.card_add] at hcard
    simp only [Heap.row, List.length_map, rounds]
    omega
  have hroots : Ensures (ringFrom a first.item.slot (rounds a) first.item.slot)
      (· = (ring.zipIdx.map fun root => (⟨root.2, root.1⟩ : Placed κ)).map Placed.slot) := by
    have hrow : first.item.slot :: Heap.row others = Heap.row ring := by
      rw [← hring]
      rfl
    refine Ensures.mono (ensures_ringFrom (h.congr (by rw [hrow]) rfl) hfuel) ?_
    rintro _ rfl
    rw [hrow, List.map_map, Heap.row]
    conv_lhs => rw [← List.zipIdx_map_fst 0 ring, List.map_map]
    rfl
  refine hroots.bind ?_
  rintro _ rfl
  have hflag' : ∀ r ∈ ring.zipIdx.map fun root => (⟨root.2, root.1⟩ : Placed κ),
      flag ≠ some r.slot := by
    intro r hr
    obtain ⟨root, hroot, rfl⟩ := List.mem_map.1 hr
    exact hflag root.1 (List.fst_mem_of_mem_zipIdx hroot)
  refine (ensures_depositAll .empty h.live_zipIdx hflag').bind ?_
  rintro ⟨vector, b⟩ ⟨hmirror, hlive⟩
  rw [List.foldl_map] at hmirror hlive
  have hmirror : Mirrors vector (Heap.buckets cmp ring) := hmirror
  have hlive : Live free n flag R M ((Heap.buckets cmp ring).filterMap id) b := hlive
  have hheld : ∀ r ∈ (Heap.buckets cmp ring).filterMap id, flag ≠ some r.slot :=
    Heap.forall_mem_buckets (p := fun r => flag ≠ some r.slot)
      (fun r s hr hs => by unfold Heap.join; split <;> assumption) fun t ht _ => hflag t ht
  have hslots := hmirror.filterMap_eq
  rcases Heap.consolidate_cases cmp ring with ⟨hnil, heq⟩ | ⟨f, o, hcons, heq⟩
  · refine Ensures.bind (P := (· = none)) ?_ ?_
    · rw [hslots, hnil]
      exact .pure rfl
    · rintro _ rfl
      refine .pure ⟨hmirror, by rw [heq]; rfl, ?_⟩
      rw [hnil] at hlive
      rw [heq]
      exact hlive.sorted
  · refine Ensures.bind (P := (· = some (Heap.least cmp f o).slot)) ?_ ?_
    · rw [hslots, hcons]
      exact ensures_leastOf hlive hheld (hcons ▸ List.Subset.refl _)
    · rintro _ rfl
      refine .pure ⟨hmirror, ?_, ?_⟩
      · have hleast : (Heap.least cmp f o).tree ∈
            (sortBy (fun r s => r.place ≤ s.place) (f :: o)).map Placed.tree :=
          List.mem_map_of_mem ((sortBy_perm _ _).symm.subset (Heap.least_mem cmp f o))
        obtain ⟨t, rest, hturn, hslot⟩ := Heap.turnTo_eq_cons ⟨_, hleast, rfl⟩
        rw [heq, hturn, Heap.row_cons, hslot]
        rfl
      · rw [hcons] at hlive
        rw [heq]
        exact hlive.sorted.turn _

end Layout
end LinkedHeap
end CallbackLoop
