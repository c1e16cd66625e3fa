import CallbackLoop.Proofs.Heap.Layout

/-!
# Cutting nodes

A node is cut from its parent, and then every marked ancestor that loses a child.  On the
forest this is `Forest.sever`, a recursion that comes back up from the node.  In the arena
it is a walk upwards along the parents.  `Layout.climbs_of_sever` runs both, and
`Planted.ensures_uproot` is the result for a ring of trees.
-/

namespace CallbackLoop

variable {κ : Type}

namespace Forest

theorem parent?_eq_none_iff
    (slot : Nat) (parent : Item κ) (f : Forest κ) :
    f.parent? slot parent = none ↔ slot ∉ f.items.map Item.slot := by
  rw [parent?_eq_find?_edges, Option.map_eq_none_iff, List.find?_eq_none,
    ← map_snd_edges parent f, List.map_map]
  simp

/-- The parent of a node is the one that its member names. -/
theorem exists_mem_members_of_parent?
    {slot : Nat} {f : Forest κ} {parent q : Item κ} (h : f.parent? slot parent = some q) :
    ∃ m ∈ f.members parent.slot, m.slot = slot ∧ m.parent = some q.slot := by
  induction f generalizing parent with
  | nil =>
      cases h
  | cons item marked children siblings below beside =>
      simp only [parent?] at h
      simp only [members, Multiset.mem_cons, Multiset.mem_add]
      split at h
      next heq =>
          cases h
          exact ⟨_, .inl rfl, heq, rfl⟩
      next =>
          split at h
          next hbelow =>
              cases h
              obtain ⟨m, hm, hslot⟩ := below hbelow
              exact ⟨m, .inr (.inl hm), hslot⟩
          next =>
              obtain ⟨m, hm, hslot⟩ := beside h
              exact ⟨m, .inr (.inr hm), hslot⟩

end Forest

namespace LinkedHeap
namespace Layout

variable {free : List Nat} {n : Nat} {flag : Option Nat} {R : Multiset (List Nat)}
  {M : Multiset (Member κ)} {a : Arena (Node κ)}

/-- There are no more members than slots. -/
theorem card_le
    (h : Layout free n flag R M a) :
    M.card ≤ n := by
  have hsub : M.map Member.slot ≤ Multiset.range n := by
    refine (Multiset.le_iff_subset h.nodup).2 fun i hi => ?_
    obtain ⟨m, hm, rfl⟩ := Multiset.mem_map.1 hi
    have hget := (h.vertices.mem_iff _ _).1 (Multiset.mem_map_of_mem _ hm)
    obtain ⟨x, hx, -⟩ := Option.map_eq_some_iff.1 hget
    rw [Multiset.mem_range, ← h.size_eq]
    exact Arena.lt_size_of_get? hx
  have hcard := Multiset.card_le_card hsub
  rwa [Multiset.card_map, Multiset.card_range] at hcard

/-- A cut makes a child a root. -/
theorem ensures_cut
    {first : Nat} {others before after : List Nat} {x p : Member κ}
    (h : Layout free n flag ((first :: others) ::ₘ R) (x ::ₘ p ::ₘ M) a)
    (hchildren : p.children = before ++ x.slot :: after) :
    Ensures (cut (some first) a x.slot p.slot)
      (Layout free n flag ((first :: x.slot :: others) ::ₘ R)
        ({ x with parent := none, marked := false } ::ₘ
          { p with children := before ++ after } ::ₘ M)) :=
  (h.ensures_detachChild hchildren).bind fun _ ha => ha.ensures_spliceAfter

/-- The cascade from a marked node cuts that node. -/
theorem cascade_of_marked
    {m : Member κ} {p : Nat} (h : Layout free n flag R M a) (hm : m ∈ M)
    (hparent : m.parent = some p) (hmarked : m.marked = true) (min : Option Nat) (fuel : Nat) :
    cascade min (fuel + 1) a m.slot = (cut min a m.slot p >>= fun a => cascade min fuel a p) := by
  obtain ⟨x, hx, hxm⟩ := h.ensures_node hm
  have hp : x.parent = some p := (congrArg Vertex.parent hxm).trans hparent
  have hmark : x.marked = true := (congrArg Vertex.marked hxm).trans hmarked
  simp [cascade, hx, hp, hmark, bind, Except.bind]

/-- The cascade from an unmarked child marks it. -/
theorem ensures_cascade_of_unmarked
    {m : Member κ} {p : Nat} (h : Layout free n flag R (m ::ₘ M) a)
    (hparent : m.parent = some p) (hmarked : m.marked = false) (min : Option Nat) (fuel : Nat) :
    Ensures (cascade min (fuel + 1) a m.slot)
      (Layout free n flag R ({ m with marked := true } ::ₘ M)) := by
  refine (h.ensures_node (Multiset.mem_cons_self _ _)).bind fun x hx => ?_
  have hp : x.parent = some p := (congrArg Vertex.parent hx).trans hparent
  have hmark : x.marked = false := (congrArg Vertex.marked hx).trans hmarked
  rw [hp]
  simp only [hmark, Bool.false_eq_true, if_false]
  exact h.ensures_alter rfl rfl fun left right => rfl

/-- The cascade ends at a root. -/
theorem cascade_of_root
    {m : Member κ} (h : Layout free n flag R M a) (hm : m ∈ M)
    (hparent : m.parent = none) (min : Option Nat) (fuel : Nat) :
    cascade min (fuel + 1) a m.slot = .ok a := by
  obtain ⟨x, hx, hxm⟩ := h.ensures_node hm
  have hp : x.parent = none := (congrArg Vertex.parent hxm).trans hparent
  simp [cascade, hx, hp, bind, Except.bind, pure, Except.pure]

end Layout

/-- The node in slot `x` is cut from `q`, and the cascade from there makes `cuts` cuts in
all.  It goes on at `p` if `lost` says so and ends otherwise. -/
def Climbs (first x q cuts : Nat) (lost : Bool) (p : Nat) (a : Arena (Node κ))
    (P : Arena (Node κ) → Prop) : Prop :=
  ∀ k, ∃ b, P b ∧
    (cut (some first) a x q >>= fun a => cascade (some first) (cuts + k) a q) =
      if lost then cascade (some first) (k + 1) b p else .ok b

namespace Climbs

variable {first x q cuts p : Nat} {lost : Bool} {a : Arena (Node κ)}
  {P Q : Arena (Node κ) → Prop}

/-- A climb that comes up to a root. -/
theorem ensures_uproot
    (h : Climbs first x q cuts lost p a P) (hcuts : cuts ≤ rounds a)
    (hroot : ∀ b, P b → ∀ fuel, cascade (some first) (fuel + 1) b p = .ok b) :
    Ensures (uproot (some first) a x q) P := by
  obtain ⟨k, hk⟩ := Nat.exists_eq_add_of_le hcuts
  obtain ⟨b, hb, heq⟩ := h k
  refine ⟨b, ?_, hb⟩
  rw [uproot, hk, heq]
  split
  · exact hroot b hb k
  · rfl

theorem mono
    (h : Climbs first x q cuts lost p a P) (hsub : ∀ b, P b → Q b) :
    Climbs first x q cuts lost p a Q := by
  intro k
  obtain ⟨b, hb, heq⟩ := h k
  exact ⟨b, hsub b hb, heq⟩

theorem of_cut
    (h : Ensures (cut (some first) a x p) P) :
    Climbs first x p 1 true p a P := by
  intro k
  obtain ⟨b, hcut, hb⟩ := h
  refine ⟨b, hb, ?_⟩
  rw [hcut, Nat.add_comm]
  rfl

/-- The parent is marked, and is cut in turn. -/
theorem up
    {y : Nat} (h : Climbs first x q cuts true y a P)
    (hcascade : ∀ b, P b → ∀ fuel, cascade (some first) (fuel + 1) b y =
      (cut (some first) b y p >>= fun b => cascade (some first) fuel b p))
    (hcut : ∀ b, P b → Ensures (cut (some first) b y p) Q) :
    Climbs first x q (cuts + 1) true p a Q := by
  intro k
  obtain ⟨b, hb, heq⟩ := h (k + 1)
  obtain ⟨c, hcut, hc⟩ := hcut b hb
  refine ⟨c, hc, ?_⟩
  rw [Nat.add_assoc, Nat.add_comm 1 k, heq, if_pos rfl, if_pos rfl, hcascade b hb, hcut]
  rfl

/-- The parent is not cut, and the cascade ends with it. -/
theorem stop
    {y : Nat} (h : Climbs first x q cuts true y a P)
    (hcascade : ∀ b, P b → ∀ fuel, Ensures (cascade (some first) (fuel + 1) b y) Q) :
    Climbs first x q cuts false p a Q := by
  intro k
  obtain ⟨b, hb, heq⟩ := h k
  obtain ⟨c, hstop, hc⟩ := hcascade b hb k
  exact ⟨c, hc, heq.trans hstop⟩

end Climbs

namespace Layout

variable {free : List Nat} {n : Nat} {flag : Option Nat} {R : Multiset (List Nat)}
  {M : Multiset (Member κ)} {a : Arena (Node κ)}

/-- The cascade has come up to the first node of a row, whose remaining children are
`below`, and goes on as `Forest.sever` does. -/
theorem climbs_on
    {first q cuts slot : Nat} {others : List Nat} {p : Member κ} {item : Item κ}
    {marked : Bool} {below : Severed κ} (before : List Nat) (siblings : Forest κ)
    (hchildren : p.children = before ++ item.slot :: siblings.row)
    (h : Climbs first slot q cuts below.lost item.slot a
      (Layout free n flag ((first :: others) ::ₘ R)
        (⟨item, some p.slot, marked, below.remaining.row⟩ ::ₘ
          (below.remaining.members item.slot + p ::ₘ M)))) :
    if below.lost && marked then
      Climbs first slot q (cuts + 1) true p.slot a
        (Layout free n flag ((first :: item.slot :: others) ::ₘ R)
          ((⟨item, below.remaining⟩ : Tree κ).root ::ₘ
            { p with children := before ++ siblings.row } ::ₘ
              (below.remaining.members item.slot + M)))
    else
      Climbs first slot q cuts false p.slot a
        (Layout free n flag ((first :: others) ::ₘ R)
          (⟨item, some p.slot, marked || below.lost, below.remaining.row⟩ ::ₘ
            (below.remaining.members item.slot + p ::ₘ M))) := by
  cases hlost : below.lost with
  | false =>
      rw [hlost] at h
      simp only [Bool.false_and, Bool.false_eq_true, if_false, Bool.or_false]
      exact fun k => h k
  | true =>
      rw [hlost] at h
      cases marked with
      | false =>
          exact h.stop fun b hb fuel => hb.ensures_cascade_of_unmarked rfl rfl _ fuel
      | true =>
          refine h.up
            (fun b hb fuel => hb.cascade_of_marked (Multiset.mem_cons_self _ _) rfl rfl _ fuel)
            fun b hb => ?_
          have hx := hb.congr rfl (congrArg _ (Multiset.add_cons _ _ _))
          exact hx.ensures_cut (x := ⟨item, some p.slot, true, below.remaining.row⟩) hchildren

/-- A node below `p`, whose last children are the row `f`, is cut, and the cascade comes up to
`p` if the row has lost a member. -/
theorem climbs_of_sever
    (parent : Item κ) (before : List Nat) {slot : Nat} {f : Forest κ} {s : Severed κ}
    (hs : f.sever slot = some s) {p : Member κ} (hp : p.slot = parent.slot)
    (hchildren : p.children = before ++ f.row) {first : Nat} {others : List Nat}
    (h : Layout free n flag ((first :: others) ::ₘ R) (p ::ₘ (f.members p.slot + M)) a) :
    ∃ q, f.parent? slot parent = some q ∧
      Climbs first slot q.slot s.cut.length s.lost p.slot a
        (Layout free n flag ((first :: (Heap.row s.cut ++ others)) ::ₘ R)
          ({ p with children := before ++ s.remaining.row } ::ₘ
            (s.remaining.members p.slot + (Heap.ringMembers s.cut + M)))) := by
  induction f generalizing s parent p before M a with
  | nil =>
      simp [Forest.sever] at hs
  | cons item marked children siblings below beside =>
      unfold Forest.sever at hs
      split at hs
      next heq =>
          -- The node is the first of the row.
          cases hs
          refine ⟨parent, by simp [Forest.parent?, heq], ?_⟩
          have hx := h.congr rfl
            (show _ = (⟨item, some p.slot, marked, children.row⟩ : Member κ) ::ₘ p ::ₘ
              (siblings.members p.slot + (children.members item.slot + M)) by
                simp only [Forest.members, ← Multiset.singleton_add]
                abel)
          rw [← hp, ← heq]
          refine (Climbs.of_cut (hx.ensures_cut hchildren)).mono fun b hb => hb.congr rfl ?_
          simp only [Heap.ringMembers_cons, Heap.ringMembers_nil, Tree.members, Tree.below,
            Tree.root, ← Multiset.singleton_add]
          abel
      next hne =>
          split at hs
          next b hb =>
              -- The node lies below the first of the row.
              obtain ⟨q, hq, hclimbs⟩ := below item [] hb
                (p := ⟨item, some p.slot, marked, children.row⟩) rfl rfl
                (M := p ::ₘ (siblings.members p.slot + M)) (h.congr rfl (by
                  simp only [Forest.members, Member.slot, ← Multiset.singleton_add]
                  abel))
              refine ⟨q, by simp [Forest.parent?, hne, hq], ?_⟩
              have hon := climbs_on before siblings
                (M := siblings.members p.slot + (Heap.ringMembers b.cut + M)) hchildren
                (hclimbs.mono fun c hc => hc.congr rfl (by
                  simp only [Member.slot, List.nil_append, ← Multiset.singleton_add]
                  abel))
              split at hs
              next hcut =>
                  cases hs
                  rw [if_pos hcut] at hon
                  refine hon.mono fun c hc => hc.congr rfl ?_
                  simp only [Heap.ringMembers_cons, Tree.members, Tree.below,
                    ← Multiset.singleton_add]
                  abel
              next hstay =>
                  cases hs
                  rw [if_neg hstay] at hon
                  have hsame :
                      ({ p with children := before ++ item.slot :: siblings.row } : Member κ) = p := by
                    rw [show before ++ item.slot :: siblings.row = p.children from hchildren.symm]
                  refine hon.mono fun c hc => hc.congr rfl ?_
                  simp only [Forest.members, Forest.row, hsame, ← Multiset.singleton_add]
                  abel
          next hnone =>
              split at hs
              next b hb =>
                  -- The node lies in the rest of the row, or below.
                  cases hs
                  obtain ⟨q, hq, hclimbs⟩ := beside parent (before ++ [item.slot]) hb hp
                    (by rw [hchildren, Forest.row, List.append_assoc]; rfl)
                    (M := ⟨item, some p.slot, marked, children.row⟩ ::ₘ
                      (children.members item.slot + M)) (h.congr rfl (by
                        simp only [Forest.members, ← Multiset.singleton_add]
                        abel))
                  have hnotBelow : children.parent? slot item = none :=
                    (Forest.parent?_eq_none_iff slot item children).2
                      ((Forest.sever_eq_none_iff slot children).1 hnone)
                  refine ⟨q, by simp [Forest.parent?, hne, hnotBelow, hq], ?_⟩
                  refine hclimbs.mono fun c hc => hc.congr rfl ?_
                  simp only [Forest.members, Forest.row, List.append_assoc, List.singleton_append,
                    ← Multiset.singleton_add]
                  abel
              next =>
                  cases hs

end Layout

/-- The trees of the ring stand in the arena. -/
def Planted (free : List Nat) (n : Nat) (flag : Option Nat) (ring : List (Tree κ))
    (a : Arena (Node κ)) : Prop :=
  Layout free n flag {Heap.row ring} (Heap.ringMembers ring) a

namespace Planted

variable {free : List Nat} {n : Nat} {flag : Option Nat} {ring : List (Tree κ)}
  {a : Arena (Node κ)}

/-- A node below a root becomes a root, and so do its marked ancestors that lose a child. -/
theorem ensures_uproot
    (h : Planted free n flag ring a) {slot first : Nat}
    (hfirst : (Heap.row ring).head? = some first)
    (hslot : ∃ t ∈ ring, slot ∈ t.children.items.map Item.slot) :
    ∃ q, ring.findSome? (fun t => t.children.parent? slot t.item) = some q ∧
      Ensures (uproot (some first) a slot q.slot)
        (Planted free n flag (Heap.uproot slot ring)) := by
  rcases Heap.uproot_cases slot ring with ⟨top, rest, cut, hsever, huproot⟩ | ⟨hnone, -⟩
  · obtain ⟨before, t, after, hring, hbefore, below, hbelow, hrest, rfl⟩ :=
      Heap.severRoots_cases hsever
    have hrow : Heap.row ring = top.item.slot :: Heap.row rest := by
      have hsame := congrArg (List.map Item.slot) (Heap.map_item_severRoots hsever)
      simpa [Heap.row, Function.comp_def] using hsame.symm
    obtain rfl : top.item.slot = first := by
      rw [hrow] at hfirst
      exact Option.some.inj hfirst
    have hmembers : Heap.ringMembers ring = t.root ::ₘ (t.children.members t.root.slot +
        Heap.ringMembers (before ++ after)) := by
      rw [hring]
      simp only [Heap.ringMembers_append, Heap.ringMembers_cons, Tree.members, Tree.below]
      simp only [Tree.root, Member.slot, ← Multiset.singleton_add]
      abel
    obtain ⟨q, hq, hclimbs⟩ := Layout.climbs_of_sever t.item [] hbelow rfl rfl
      (Layout.congr h (congrArg _ hrow) hmembers)
    refine ⟨q, ?_, ?_⟩
    · have hnot : before.findSome? (fun t => t.children.parent? slot t.item) = none :=
        List.findSome?_eq_none_iff.2 fun s hs => (Forest.parent?_eq_none_iff _ _ _).2 (hbefore s hs)
      rw [hring, List.findSome?_append, hnot, List.findSome?_cons, hq]
      rfl
    · refine (hclimbs.ensures_uproot ?_ fun b hb fuel => ?_).mono fun b hb => hb.congr ?_ ?_
      · obtain ⟨b, hb, -⟩ := hclimbs 0
        have hcard := hb.card_le
        have hcut := Heap.length_le_card_ringMembers below.cut
        have hsize := h.size_eq
        simp only [Multiset.card_cons, Multiset.card_add] at hcard
        unfold rounds
        omega
      · exact hb.cascade_of_root (Multiset.mem_cons_self _ _) rfl _ fuel
      · rw [huproot, Heap.row_cons, Heap.row_append]
        rfl
      · have hleft : Heap.ringMembers (top :: (below.cut ++ rest)) =
            Heap.ringMembers below.cut + Heap.ringMembers (top :: rest) := by
          simp only [Heap.ringMembers_cons, Heap.ringMembers_append]
          abel
        rw [huproot, hleft, hrest]
        simp only [Heap.ringMembers_append, Heap.ringMembers_cons, Tree.members, Tree.below]
        simp only [Tree.root, Member.slot, List.nil_append, ← Multiset.singleton_add]
        abel
  · obtain ⟨t, ht, hmem⟩ := hslot
    exact absurd hmem (hnone t ht)

end Planted
end LinkedHeap
end CallbackLoop
