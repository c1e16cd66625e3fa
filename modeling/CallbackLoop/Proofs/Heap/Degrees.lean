import CallbackLoop.Proofs.Heap.Merging
import Mathlib.Data.Nat.Fib.Basic

/-!
# Degrees grow slowly

When a node becomes a child its degree is that of its parent, and while it is a child it
can lose one child only, which marks it.  So its degree and its mark together, its weight,
stay what they were.  A parent of degree `k` therefore has at most `k` children of weight
less than `k`, whatever became of the others, and that makes its tree large.

`Tree.fib_le_length_items` bounds the size of a tree from below, `spaced_run` says that it
holds in every heap that can be reached.
-/

namespace CallbackLoop

universe u

variable {κ : Type u}

/-- For each `k` at most `k` of the weights lie below `k`. -/
def Thick
    (weights : List Nat) : Prop :=
  ∀ k, weights.countP (· < k) ≤ k

theorem Thick.sublist
    {weights weights' : List Nat} (h : Thick weights) (hsub : weights'.Sublist weights) :
    Thick weights' :=
  fun k => (hsub.countP_le).trans (h k)

theorem Thick.perm
    {weights weights' : List Nat} (h : Thick weights) (hperm : weights'.Perm weights) :
    Thick weights' :=
  fun k => (hperm.countP_eq _).trans_le (h k)

/-- One more weight is allowed that is as large as there were weights. -/
theorem Thick.cons
    {weights : List Nat} (h : Thick weights) {weight : Nat} (hle : weights.length ≤ weight) :
    Thick (weight :: weights) := by
  intro k
  rw [List.countP_cons]
  split
  next hlt =>
      have hlen : weights.countP (· < k) ≤ weights.length := List.countP_le_length
      have hlt : weight < k := by simpa using hlt
      omega
  next =>
      exact h k

/-- Of `n + 1` weights one is at least `n`. -/
theorem Thick.exists_le
    {weights : List Nat} (h : Thick weights) {n : Nat} (hlen : weights.length = n + 1) :
    ∃ weight ∈ weights, n ≤ weight := by
  by_contra hno
  push Not at hno
  have hall : weights.countP (· < n) = weights.length :=
    List.countP_eq_length.2 fun weight hmem => by simpa using hno weight hmem
  have := h n
  omega

theorem Thick.fib_le
    {weights : List Nat} (h : Thick weights) :
    Nat.fib (weights.length + 2) ≤ (weights.map fun w => Nat.fib (w + 1)).sum + 1 := by
  generalize hlen : weights.length = n
  induction n generalizing weights with
  | zero =>
      simp [List.length_eq_zero_iff.1 hlen]
  | succ n ih =>
      obtain ⟨weight, hmem, hle⟩ := h.exists_le hlen
      have hperm := List.perm_cons_erase hmem
      have hrest := ih (h.sublist List.erase_sublist)
        (by rw [List.length_erase_of_mem hmem, hlen, Nat.add_sub_cancel])
      have hfirst : Nat.fib (n + 1) ≤ Nat.fib (weight + 1) := Nat.fib_mono (by omega)
      have hnext : Nat.fib (n + 1 + 2) = Nat.fib (n + 1) + Nat.fib (n + 2) := Nat.fib_add_two
      rw [(hperm.map _).sum_eq, List.map_cons, List.sum_cons]
      omega

namespace Forest

/-- The weight of a node is its degree, and one more if it lost a child. -/
def weights : Forest κ → List Nat
  | nil => []
  | cons _ marked children siblings => (children.length + marked.toNat) :: siblings.weights

/-- The children of each node have weights that are thick. -/
def Spaced : Forest κ → Prop
  | nil => True
  | cons _ _ children siblings => Thick children.weights ∧ children.Spaced ∧ siblings.Spaced

@[simp] theorem length_weights
    (f : Forest κ) :
    f.weights.length = f.length := by
  induction f with
  | nil =>
      rfl
  | cons item marked children siblings _ ih =>
      simp [weights, length, ih]

/-- What the weights of a row say about the number of nodes in it and below. -/
theorem Spaced.sum_fib_le
    {f : Forest κ} (h : f.Spaced) :
    (f.weights.map fun w => Nat.fib (w + 1)).sum ≤ f.items.length := by
  induction f with
  | nil =>
      simp [weights]
  | cons item marked children siblings below beside =>
      obtain ⟨hthick, hbelow, hbeside⟩ := h
      have hfib := hthick.fib_le
      rw [length_weights] at hfib
      have hweight : Nat.fib (children.length + marked.toNat + 1) ≤
          Nat.fib (children.length + 2) :=
        Nat.fib_mono (by have := marked.toNat_le; omega)
      have := below hbelow
      have := beside hbeside
      simp only [weights, items, List.map_cons, List.sum_cons, List.length_cons,
        List.length_append]
      omega

/-- The trees in a row and below. -/
def subtrees : Forest κ → List (Tree κ)
  | nil => []
  | cons item _ children siblings => ⟨item, children⟩ :: (children.subtrees ++ siblings.subtrees)

end Forest

namespace Tree

/-- The children of each node of the tree have weights that are thick. -/
def Spaced
    (t : Tree κ) : Prop :=
  Thick t.children.weights ∧ t.children.Spaced

/-- The tree and all trees in it. -/
def subtrees
    (t : Tree κ) : List (Tree κ) :=
  t :: t.children.subtrees

/-- A tree whose root has `d` children has at least as many nodes as the Fibonacci number
of `d + 2` says. -/
theorem Spaced.fib_le_length_items
    {t : Tree κ} (h : t.Spaced) :
    Nat.fib (t.degree + 2) ≤ t.items.length := by
  have hfib := h.1.fib_le
  have hsum := h.2.sum_fib_le
  rw [Forest.length_weights] at hfib
  simp only [degree, items, List.length_cons]
  omega

/-- Linking trees of one degree. -/
theorem Spaced.link
    {winner loser : Tree κ} (hw : winner.Spaced) (hl : loser.Spaced)
    (hdegree : winner.degree = loser.degree) :
    (winner.link loser).Spaced := by
  obtain ⟨item, children⟩ := winner
  have hle : children.weights.length ≤ loser.children.length := by
    rw [Forest.length_weights]
    exact hdegree.le
  have hthick := hw.1.cons hle
  cases children with
  | nil =>
      exact ⟨by simpa [Tree.link, Forest.weights] using hthick, hl.1, hl.2, trivial⟩
  | cons first marked below beside =>
      obtain ⟨hfirst, hbelow, hbeside⟩ := hw.2
      refine ⟨hthick.perm ?_, hfirst, hbelow, hl.1, hl.2, hbeside⟩
      exact .swap _ _ _

end Tree

namespace Forest

/-- The trees in a spaced row and below are spaced. -/
theorem Spaced.of_mem_subtrees
    {f : Forest κ} (h : f.Spaced) :
    ∀ t ∈ f.subtrees, t.Spaced := by
  induction f with
  | nil =>
      simp [subtrees]
  | cons item marked children siblings below beside =>
      obtain ⟨hthick, hbelow, hbeside⟩ := h
      intro t ht
      simp only [subtrees, List.mem_cons, List.mem_append] at ht
      rcases ht with rfl | ht | ht
      · exact ⟨hthick, hbelow⟩
      · exact below hbelow t ht
      · exact beside hbeside t ht

/-- The items of a subtree stand together. -/
theorem items_sublist_of_mem_subtrees
    {f : Forest κ} {t : Tree κ} (ht : t ∈ f.subtrees) :
    t.items.Sublist f.items := by
  induction f with
  | nil =>
      cases ht
  | cons item marked children siblings below beside =>
      simp only [subtrees, List.mem_cons, List.mem_append] at ht
      rw [items]
      rcases ht with rfl | ht | ht
      · exact (List.sublist_append_left _ _).cons_cons _
      · exact ((below ht).trans (List.sublist_append_left _ _)).cons _
      · exact ((beside ht).trans (List.sublist_append_right _ _)).cons _

theorem Spaced.toTrees
    {f : Forest κ} (h : f.Spaced) :
    ∀ t ∈ f.toTrees, t.Spaced := by
  induction f with
  | nil =>
      simp [Forest.toTrees]
  | cons item marked children siblings _ ih =>
      exact List.forall_mem_cons.2 ⟨⟨h.1, h.2.1⟩, ih h.2.2⟩

/-- Severing takes the weight of a node that is lost out of its row and leaves the other
weights there: a node that loses a child is marked for it. -/
theorem Spaced.sever
    {slot : Nat} {f : Forest κ} {s : Severed κ} (h : f.Spaced) (hs : f.sever slot = some s) :
    s.remaining.Spaced ∧ (∀ t ∈ s.cut, t.Spaced) ∧
      s.remaining.weights.Sublist f.weights ∧
      s.remaining.length + s.lost.toNat = f.length := by
  induction f generalizing s with
  | nil =>
      simp [Forest.sever] at hs
  | cons item marked children siblings below beside =>
      obtain ⟨hthick, hbelow, hbeside⟩ := h
      unfold Forest.sever at hs
      split at hs
      next =>
          cases hs
          refine ⟨hbeside, ?_, List.sublist_cons_self _ _, rfl⟩
          exact List.forall_mem_singleton.2 ⟨hthick, hbelow⟩
      next =>
          split at hs
          next b hb =>
              obtain ⟨hremaining, hcut, hsub, hlength⟩ := below hbelow hb
              have hkept : Thick b.remaining.weights := hthick.sublist hsub
              split at hs <;> cases hs
              next =>
                  refine ⟨hbeside, ?_, List.sublist_cons_self _ _, rfl⟩
                  exact List.forall_mem_cons.2 ⟨⟨hkept, hremaining⟩, hcut⟩
              next hstay =>
                  refine ⟨⟨hkept, hremaining, hbeside⟩, hcut, ?_, rfl⟩
                  have hweight : b.remaining.length + (marked || b.lost).toNat =
                      children.length + marked.toNat := by
                    cases marked <;> cases hlost : b.lost <;> simp_all
                  simp [weights, hweight]
          next =>
              split at hs
              next b hb =>
                  obtain ⟨hremaining, hcut, hsub, hlength⟩ := beside hbeside hb
                  cases hs
                  refine ⟨⟨hthick, hbelow, hremaining⟩, hcut, hsub.cons_cons _, ?_⟩
                  simp only [length]
                  omega
              next =>
                  cases hs

theorem weights_setKey
    (slot : Nat) (key : κ) (f : Forest κ) :
    (f.setKey slot key).weights = f.weights ∧ (f.setKey slot key).length = f.length := by
  induction f with
  | nil =>
      exact ⟨rfl, rfl⟩
  | cons item marked children siblings below beside =>
      simp [setKey, weights, length, below.2, beside.1, beside.2]

theorem Spaced.setKey
    {f : Forest κ} (h : f.Spaced) (slot : Nat) (key : κ) :
    (f.setKey slot key).Spaced := by
  induction f with
  | nil =>
      trivial
  | cons item marked children siblings below beside =>
      refine ⟨?_, below h.2.1, beside h.2.2⟩
      rw [(weights_setKey slot key children).1]
      exact h.1

end Forest

namespace Heap

variable {cmp : κ → κ → Ordering}

/-- The trees of a ring are spaced. -/
def Spaced
    (ring : List (Tree κ)) : Prop :=
  ∀ t ∈ ring, t.Spaced

theorem Spaced.perm
    {ring ring' : List (Tree κ)} (h : Spaced ring) (hperm : ring'.Perm ring) :
    Spaced ring' :=
  fun t ht => h t (hperm.subset ht)

theorem Spaced.setKey
    {ring : List (Tree κ)} (h : Spaced ring) (slot : Nat) (key : κ) :
    Spaced (setKey slot key ring) := by
  intro t ht
  obtain ⟨s, hs, rfl⟩ := List.mem_map.1 ht
  refine ⟨?_, (h s hs).2.setKey slot key⟩
  rw [(Forest.weights_setKey slot key s.children).1]
  exact (h s hs).1

theorem Spaced.uproot
    {ring : List (Tree κ)} (h : Spaced ring) (slot : Nat) :
    Spaced (uproot slot ring) := by
  rcases uproot_cases slot ring with ⟨first, others, cut, hsever, hring⟩ | ⟨-, hring⟩
  · obtain ⟨before, t, after, rfl, -, below, hbelow, hrest, rfl⟩ := severRoots_cases hsever
    have ht := h t (by simp)
    obtain ⟨hremaining, hcut, hsub, -⟩ := ht.2.sever hbelow
    have hleft : Spaced (first :: others) := by
      rw [hrest]
      intro s hs
      rcases List.mem_append.1 hs with hs | hs
      · exact h s (List.mem_append_left _ hs)
      · rcases List.mem_cons.1 hs with rfl | hs
        · exact ⟨ht.1.sublist hsub, hremaining⟩
        · exact h s (List.mem_append_right _ (List.mem_cons_of_mem _ hs))
    rw [hring]
    intro s hs
    rcases List.mem_cons.1 hs with rfl | hs
    · exact hleft s List.mem_cons_self
    · rcases List.mem_append.1 hs with hs | hs
      · exact hcut s hs
      · exact hleft s (List.mem_cons_of_mem _ hs)
  · rw [hring]
    exact h

section Graded

variable {p : Placed κ → Prop}
  (hjoin : ∀ r n, r.tree.degree = n.tree.degree → p r → p n → p (join cmp r n))
include hjoin

/-- In graded buckets only roots of one degree are joined. -/
theorem forall_mem_carry_of_graded
    {root : Placed κ} {degree : Nat} {buckets : List (Option (Placed κ))}
    (hdegree : root.tree.degree = degree) (hgraded : Graded degree buckets)
    (hroot : p root) (hbuckets : ∀ b ∈ buckets.filterMap id, p b) :
    ∀ b ∈ (carry cmp root buckets).filterMap id, p b := by
  induction buckets generalizing root degree with
  | nil =>
      simpa [carry] using hroot
  | cons bucket buckets ih =>
      cases bucket with
      | none =>
          exact List.forall_mem_cons.2 ⟨hroot, hbuckets⟩
      | some resident =>
          obtain ⟨hresident, hbuckets⟩ := List.forall_mem_cons.1 hbuckets
          have heq : resident.tree.degree = degree := hgraded.1 resident rfl
          exact ih (degree_join heq hdegree) hgraded.2
            (hjoin _ _ (heq.trans hdegree.symm) hresident hroot) hbuckets

theorem forall_mem_deposit_of_graded
    {root : Placed κ} {degree more : Nat} {buckets : List (Option (Placed κ))}
    (hdegree : root.tree.degree = degree + more) (hgraded : Graded degree buckets)
    (hroot : p root) (hbuckets : ∀ b ∈ buckets.filterMap id, p b) :
    ∀ b ∈ (deposit cmp root more buckets).filterMap id, p b := by
  induction more generalizing degree buckets with
  | zero =>
      cases buckets <;> exact forall_mem_carry_of_graded hjoin hdegree hgraded hroot hbuckets
  | succ more ih =>
      cases buckets with
      | nil =>
          have hnext : root.tree.degree = degree + 1 + more := by omega
          exact ih hnext trivial hbuckets
      | cons bucket buckets =>
          cases bucket with
          | none =>
              exact ih (by omega) hgraded.2 hbuckets
          | some resident =>
              obtain ⟨hresident, hbuckets⟩ := List.forall_mem_cons.1 hbuckets
              exact List.forall_mem_cons.2 ⟨hresident, ih (by omega) hgraded.2 hbuckets⟩

theorem forall_mem_buckets_of_graded
    {ring : List (Tree κ)} (hring : ∀ t ∈ ring, ∀ place, p ⟨place, t⟩) :
    ∀ b ∈ (buckets cmp ring).filterMap id, p b := by
  unfold buckets
  generalize hstart : ([] : List (Option (Placed κ))) = start
  have hgraded : Graded 0 start := hstart ▸ trivial
  have hp : ∀ b ∈ start.filterMap id, p b := by simp [← hstart]
  have hroots : ∀ root ∈ ring.zipIdx, p ⟨root.2, root.1⟩ := by
    intro root hroot
    refine hring root.1 ?_ root.2
    rw [← List.zipIdx_map_fst 0 ring]
    exact List.mem_map_of_mem hroot
  clear hstart
  generalize ring.zipIdx = roots at hroots
  induction roots generalizing start with
  | nil =>
      exact hp
  | cons root roots ih =>
      obtain ⟨hroot, hroots⟩ := List.forall_mem_cons.1 hroots
      have hdegree : root.1.degree = 0 + root.1.degree := (Nat.zero_add _).symm
      have hkept := forall_mem_deposit_of_graded hjoin hdegree hgraded hroot hp
      exact ih _ (graded_deposit hdegree hgraded) hkept hroots

end Graded

theorem Spaced.buckets
    {ring : List (Tree κ)} (h : Spaced ring) :
    ∀ b ∈ (buckets cmp ring).filterMap id, b.tree.Spaced := by
  refine forall_mem_buckets_of_graded (p := fun b => b.tree.Spaced) ?_ fun t ht _ => h t ht
  intro resident newcomer hdegree hr hn
  unfold join
  split
  · exact hr.link hn hdegree
  · exact hn.link hr hdegree.symm

theorem Spaced.consolidate
    {ring : List (Tree κ)} (h : Spaced ring) :
    Spaced (consolidate cmp ring) := by
  intro t ht
  obtain ⟨b, hb, rfl⟩ := List.mem_map.1 ((consolidate_perm cmp ring).subset ht)
  exact h.buckets b hb

/-- The children of the first root may take its place. -/
theorem Spaced.release
    {first : Tree κ} {others : List (Tree κ)} (h : Spaced (first :: others)) :
    Spaced (first.children.toTrees.reverse ++ others) := by
  obtain ⟨hfirst, hothers⟩ := List.forall_mem_cons.1 h
  refine List.forall_mem_append.2 ⟨fun t ht => ?_, hothers⟩
  exact hfirst.2.toTrees t (List.mem_reverse.1 ht)

theorem Spaced.extractMin?
    {h h' : Heap κ cmp} (hs : Spaced h.roots) {key : κ}
    (hextract : h.extractMin? = some (key, h')) :
    Spaced h'.roots := by
  cases hroots : h.roots with
  | nil =>
      simp [Heap.extractMin?, hroots] at hextract
  | cons first others =>
      rw [extractMin?_of_roots hroots] at hextract
      cases hextract
      exact (hroots ▸ hs).release.consolidate

theorem Spaced.delete?
    {h h' : Heap κ cmp} (hs : Spaced h.roots) {id : Handle} {key : κ}
    (hdelete : h.delete? id = some (key, h')) :
    Spaced h'.roots := by
  rcases delete?_eq (h := h) id with hnone | heq
  · cases hnone.symm.trans hdelete
  · refine Spaced.extractMin?
      (h := { h with roots := turnTo id.slot (Heap.uproot id.slot h.roots) }) ?_ (heq ▸ hdelete)
    exact (hs.uproot id.slot).perm (turnTo_perm _ _)

theorem Spaced.decreaseKey
    {h h' : Heap κ cmp} (hs : Spaced h.roots) {id : Handle} {key : κ}
    (hdecrease : h.decreaseKey id key = .ok h') :
    Spaced h'.roots := by
  cases hget : h.get? id with
  | none =>
      simp [Heap.decreaseKey, hget] at hdecrease
  | some old =>
      by_cases hlt : cmp key old = .lt
      · rw [decreaseKey_eq_ok hget hlt] at hdecrease
        cases hdecrease
        have hset := hs.setKey id.slot key
        refine Spaced.perm ?_ (promote_perm cmp id.slot key _)
        unfold loosen
        split
        · split
          · exact hset.uproot id.slot
          · exact hset
        · exact hset
      · simp [Heap.decreaseKey, hget, hlt] at hdecrease

theorem Spaced.insert
    {h : Heap κ cmp} (hs : Spaced h.roots) (key : κ) :
    Spaced (h.insert key).2.roots := by
  refine Spaced.perm ?_ (addRoot_perm cmp _ h.roots)
  exact List.forall_mem_cons.2 ⟨⟨by simp [Thick, Forest.weights], trivial⟩, hs⟩

theorem Spaced.perform
    {h : Heap κ cmp} (hs : Spaced h.roots) (call : Call κ) :
    Spaced (h.perform call).2.roots := by
  cases call with
  | insert key =>
      exact hs.insert key
  | extractMin =>
      simp only [Heap.perform]
      split
      next hextract => exact hs.extractMin? hextract
      next => exact hs
  | decreaseKey id key =>
      simp only [Heap.perform]
      split
      next hdecrease => exact hs.decreaseKey hdecrease
      next => exact hs
  | delete id =>
      simp only [Heap.perform]
      split
      next hdelete => exact hs.delete? hdelete
      next => exact hs
  | get | contains | minimum | minHandle | size =>
      exact hs

theorem spaced_run
    (calls : List (Call κ)) {h : Heap κ cmp} (hs : Spaced h.roots) :
    Spaced (run calls h).2.roots := by
  induction calls generalizing h with
  | nil =>
      exact hs
  | cons call calls ih =>
      exact ih (hs.perform call)

/-- The trees in a heap, each with its root. -/
def subtrees
    (h : Heap κ cmp) : List (Tree κ) :=
  h.roots.flatMap Tree.subtrees

theorem items_sublist_of_mem_subtrees
    {h : Heap κ cmp} {t : Tree κ} (ht : t ∈ h.subtrees) :
    t.items.Sublist h.items := by
  obtain ⟨top, htop, hmem⟩ := List.mem_flatMap.1 ht
  have hpart : top.items.Sublist h.items := by
    obtain ⟨before, after, hroots⟩ := List.append_of_mem htop
    rw [items, hroots, List.flatMap_append, List.flatMap_cons]
    exact (List.sublist_append_left _ _).trans (List.sublist_append_right _ _)
  rcases List.mem_cons.1 hmem with rfl | hmem
  · exact hpart
  · exact ((Forest.items_sublist_of_mem_subtrees hmem).cons _).trans hpart

/-- Each subtree is large for its degree. -/
theorem Spaced.fib_le
    {h : Heap κ cmp} (hs : Spaced h.roots) {t : Tree κ} (ht : t ∈ h.subtrees) :
    Nat.fib (t.degree + 2) ≤ t.items.length := by
  obtain ⟨top, htop, hmem⟩ := List.mem_flatMap.1 ht
  rcases List.mem_cons.1 hmem with rfl | hmem
  · exact (hs _ htop).fib_le_length_items
  · exact ((hs top htop).2.of_mem_subtrees t hmem).fib_le_length_items

end Heap
end CallbackLoop
