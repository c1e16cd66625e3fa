import CallbackLoop.Proofs.Heap.Consolidating
import CallbackLoop.Proofs.Heap.Merging

/-!
# Operations in the arena

A linked heap embodies a heap of trees when the trees stand in its arena and both count the
same.  Then insertions and extractions go well on the linked heap, and they return and leave
behind what the operations on trees do.
-/

namespace CallbackLoop

variable {κ : Type} {cmp : κ → κ → Ordering}

namespace LinkedHeap

/-- The trees of the heap stand in the arena of the linked heap.  The node in slot `flag`
counts as lowest; there is none between calls. -/
structure Embodies (flag : Option Nat) (l : LinkedHeap κ cmp) (h : Heap κ cmp) : Prop where
  planted : Planted h.slots.free h.slots.slots.size flag h.roots l.nodes
  min : l.min = (Heap.row h.roots).head?
  nextSerial : l.nextSerial = h.nextSerial

theorem embodies_empty :
    Embodies none ({} : LinkedHeap κ cmp) {} where
  planted := by
    have hempty : Linked (List.range 16) 16 (0 : Multiset (Nat × Vertex κ)) 0
        (Arena.ofSize 16) := by
      refine ⟨rfl, by simp [Arena.ofSize], ?_, ?_, ?_⟩ <;>
      exact ⟨Multiset.nodup_zero, fun i b => by simp⟩
    exact Linked.congr hempty rfl (by simp [links, Heap.row])
  min := rfl
  nextSerial := rfl

variable {free : List Nat} {n : Nat} {flag : Option Nat} {R : Multiset (List Nat)}
  {M : Multiset (Member κ)} {a : Arena (Node κ)} {ring : List (Tree κ)}

/-- A ring without members is no ring. -/
theorem Layout.drop_nil
    (h : Layout free n flag ([] ::ₘ R) M a) :
    Layout free n flag R M a :=
  Linked.congr h rfl (by rw [links_cons, circle_nil, zero_add])

theorem root_mem_ringMembers
    {t : Tree κ} (ht : t ∈ ring) :
    t.root ∈ Heap.ringMembers ring := by
  rw [Heap.ringMembers_eq, Multiset.mem_add, Multiset.mem_coe]
  exact .inl (List.mem_map_of_mem ht)

/-- The minimum after a root has been compared with it. -/
theorem ensures_lesser
    {x first : Nat} {lower : Bool} (h : Ensures (less cmp a x first) (· = lower)) :
    Ensures (lesser cmp a (some first) x) (· = if lower then some x else some first) := by
  refine h.bind fun b hb => ?_
  subst hb
  cases b <;> exact .pure rfl

/-- Where an arena puts a value depends on its vacant slots only. -/
theorem insert_congr
    {α β : Type} {a : Arena α} {b : Arena β} (hfree : a.free = b.free)
    (hsize : a.slots.size = b.slots.size) (x : α) (y : β) :
    (a.insert x).1 = (b.insert y).1 ∧ (a.insert x).2.free = (b.insert y).2.free ∧
      (a.insert x).2.slots.size = (b.insert y).2.slots.size := by
  unfold Arena.insert
  rw [hfree]
  cases b.free with
  | nil => simp [hsize]
  | cons i free => simp [hsize]

theorem Embodies.sound
    {l : LinkedHeap κ cmp} {h : Heap κ cmp} (he : Embodies flag l h) (hs : h.Sound) :
    l.nodes.Sound where
  nodup := he.planted.free_eq ▸ hs.slots.nodup
  mem_free i := by
    rw [he.planted.free_eq, he.planted.size_eq, hs.slots.mem_free]
    refine and_congr_right fun _ => ?_
    rw [he.planted.get?_eq_none_iff, Option.eq_none_iff_forall_ne_some]
    have hitems : h.items = (Heap.ringMembers h.roots).map Member.item :=
      (Heap.map_item_ringMembers h.roots).symm
    constructor
    · rintro hnone m hm rfl
      refine hnone m.item.serial ((hs.stored _ _).2 ⟨m.item, ?_, rfl, rfl⟩)
      rw [← Multiset.mem_coe, hitems]
      exact Multiset.mem_map_of_mem _ hm
    · intro hnot serial hserial
      obtain ⟨item, hitem, hslot, -⟩ := (hs.stored _ _).1 hserial
      rw [← Multiset.mem_coe, hitems] at hitem
      obtain ⟨m, hm, rfl⟩ := Multiset.mem_map.1 hitem
      exact hnot m hm hslot

/-- A new tree is added to the ring, whose first root is the minimum. -/
theorem ensures_addRoot
    (item : Item κ)
    (h : Layout free n none ([item.slot] ::ₘ {Heap.row ring})
      ((⟨item, .nil⟩ : Tree κ).members + Heap.ringMembers ring) a) :
    Ensures (addRoot cmp a (Heap.row ring).head? item.slot) fun left =>
      left.2 = (Heap.row (Heap.addRoot cmp ⟨item, .nil⟩ ring)).head? ∧
      Planted free n none (Heap.addRoot cmp ⟨item, .nil⟩ ring) left.1 := by
  cases ring with
  | nil =>
      refine .pure ⟨rfl, ?_⟩
      refine Layout.congr (Layout.drop_nil (h.congr (Multiset.cons_swap _ _ _) rfl)) rfl ?_
      simp [Heap.addRoot]
  | cons first others =>
      refine (Layout.ensures_spliceAfter h).bind fun b hb => ?_
      have hnew : (⟨item, .nil⟩ : Tree κ).root ∈
          (⟨item, .nil⟩ : Tree κ).members + Heap.ringMembers (first :: others) :=
        Multiset.mem_add.2 (.inl (Multiset.mem_cons_self _ _))
      have hfirst : first.root ∈
          (⟨item, .nil⟩ : Tree κ).members + Heap.ringMembers (first :: others) :=
        Multiset.mem_add.2 (.inr (root_mem_ringMembers List.mem_cons_self))
      have hless : Ensures (less cmp b item.slot first.item.slot)
          (· = (cmp item.key first.key).isLT) :=
        hb.ensures_less hnew hfirst (by simp) (by simp)
      refine (ensures_lesser hless).bind ?_
      rintro _ rfl
      rw [Heap.addRoot, show Tree.key ⟨item, .nil⟩ = item.key from rfl]
      cases (cmp item.key first.key).isLT with
      | true =>
          have hb : Layout free n none {[first.item.slot] ++ item.slot :: Heap.row others} _ b := hb
          refine .pure ⟨rfl, Layout.congr hb.rotate ?_ ?_⟩
          · simp [Heap.row]
          · simp [add_comm]
      | false =>
          refine .pure ⟨rfl, Layout.congr hb ?_ ?_⟩
          · simp [Heap.row]
          · simp [add_left_comm]

/-- Inserting in the arena and among the trees. -/
theorem Embodies.ensures_insert
    {l : LinkedHeap κ cmp} {h : Heap κ cmp} (he : Embodies none l h) (hs : h.Sound) (key : κ) :
    Ensures (l.insert key) fun left =>
      left.1 = (h.insert key).1 ∧ Embodies none left.2 (h.insert key).2 := by
  obtain ⟨hslot, hfree, hsize⟩ := insert_congr he.planted.free_eq he.planted.size_eq
    (⟨{ key, serial := h.nextSerial }, 0, 0⟩ : Node κ) h.nextSerial
  unfold LinkedHeap.insert
  rw [he.nextSerial, he.min]
  refine (Layout.ensures_place he.planted (he.sound hs) h.nextSerial key).bind ?_
  rintro ⟨i, b⟩ ⟨hi, hb⟩
  rw [hfree, hsize] at hb
  obtain rfl : i = (h.slots.insert h.nextSerial).1 := hi.trans hslot
  refine (ensures_addRoot ⟨(h.slots.insert h.nextSerial).1, h.nextSerial, key⟩
    (Layout.congr hb rfl ?_)).bind ?_
  · simp [Tree.members, Tree.root, Tree.below, Forest.members, Forest.row]
  · rintro ⟨c, min⟩ ⟨hmin, hc⟩
    exact .pure ⟨rfl, hc, hmin, rfl⟩

/-- The children of a node become roots right after it, so that the first comes last. -/
theorem Layout.ensures_release
    {item : Item κ} {f : Forest κ} {rest : List Nat} {fuel : Nat}
    (h : Layout free n flag ((item.slot :: rest) ::ₘ R) ((⟨item, f⟩ : Tree κ).members + M) a)
    (hfuel : f.length < fuel) :
    Ensures (release item.slot fuel a)
      (Layout free n flag ((item.slot :: (Heap.row f.toTrees.reverse ++ rest)) ::ₘ R)
        ((⟨item, .nil⟩ : Tree κ).root ::ₘ (Heap.ringMembers f.toTrees.reverse + M))) := by
  induction f generalizing rest M fuel a with
  | nil =>
      obtain ⟨fuel, rfl⟩ := Nat.exists_eq_add_of_lt hfuel
      refine (h.ensures_node (m := (⟨item, .nil⟩ : Tree κ).root) ?_).bind fun x hx => ?_
      · exact Multiset.mem_add.2 (.inl (Multiset.mem_cons_self _ _))
      · rw [show x.child = none from congrArg Vertex.child hx]
        refine .pure (h.congr rfl ?_)
        simp [Tree.members, Tree.below, Forest.members, Forest.toTrees]
  | cons child marked below siblings _ ih =>
      obtain ⟨fuel, rfl⟩ := Nat.exists_eq_add_of_lt hfuel
      refine (h.ensures_node (m := (⟨item, .cons child marked below siblings⟩ : Tree κ).root)
        ?_).bind fun x hx => ?_
      · exact Multiset.mem_add.2 (.inl (Multiset.mem_cons_self _ _))
      · rw [show x.child = some child.slot from congrArg Vertex.child hx]
        have hmembers : (⟨item, .cons child marked below siblings⟩ : Tree κ).members + M =
            (⟨child, some item.slot, marked, below.row⟩ : Member κ) ::ₘ
              (⟨item, .cons child marked below siblings⟩ : Tree κ).root ::ₘ
              (below.members child.slot + siblings.members item.slot + M) := by
          simp only [Tree.members, Tree.below, Forest.members, ← Multiset.singleton_add]
          abel
        have hchildren : (⟨item, .cons child marked below siblings⟩ : Tree κ).root.children =
            [] ++ child.slot :: siblings.row := rfl
        refine ((h.congr rfl hmembers).ensures_detachChild hchildren).bind fun b hb => ?_
        refine hb.ensures_spliceAfter.bind fun c hc => ?_
        have hlength :
            siblings.length < (Forest.cons child marked below siblings).length + fuel := by
          simp only [Forest.length]
          omega
        refine (ih (M := (⟨child, below⟩ : Tree κ).members + M) (hc.congr rfl ?_) hlength).mono
          fun d hd => hd.congr ?_ ?_
        · simp only [Tree.members, Tree.below, Tree.root, List.nil_append, ← Multiset.singleton_add]
          abel
        · simp [Forest.toTrees, Heap.row, Member.slot]
        · simp [Forest.toTrees, add_assoc]

/-- The roots are merged when the minimum has left their ring, if there are any. -/
theorem ensures_closeRing
    {z : Nat} {b : Arena (Node κ)} (h : Layout free n flag (Heap.row ring ::ₘ R)
      (Heap.ringMembers ring + M) b)
    (hflag : ∀ t ∈ ring, flag ≠ some t.item.slot) (hz : z ∉ Heap.row ring) :
    Ensures (closeRing cmp b z ((Heap.row ring).headD z)) fun left =>
      (left.1 = [] ∨ Mirrors left.1 (Heap.buckets cmp ring)) ∧
      left.2.2 = (Heap.row (Heap.consolidate cmp ring)).head? ∧
      Layout free n flag (Heap.row (Heap.consolidate cmp ring) ::ₘ R)
        (Heap.ringMembers (Heap.consolidate cmp ring) + M) left.2.1 := by
  cases ring with
  | nil =>
      exact ⟨([], b, none), if_pos rfl, .inl rfl, rfl, h⟩
  | cons first others =>
      have hne : first.item.slot ≠ z := by
        rintro rfl
        exact hz List.mem_cons_self
      rw [Heap.row_cons, List.headD_cons, closeRing, if_neg hne]
      exact (h.ensures_consolidate hflag).mono fun left hleft => ⟨.inr hleft.1, hleft.2⟩

/-- The children of the minimum become roots, and it is left alone with the number of its
right neighbour. -/
theorem Planted.ensures_release
    {item : Item κ} {f : Forest κ} {others : List (Tree κ)}
    (h : Planted free n flag (⟨item, f⟩ :: others) a) :
    Ensures (release item.slot (rounds a) a)
      (Layout free n flag {item.slot :: Heap.row (f.toTrees.reverse ++ others)}
        ((⟨item, .nil⟩ : Tree κ).root ::ₘ Heap.ringMembers (f.toTrees.reverse ++ others))) := by
  have hfuel : f.length < rounds a := by
    have hcard := h.card_le
    have hsize := h.size_eq
    have hlength := Forest.length_le_card_members item.slot f
    simp only [Heap.ringMembers_cons, Tree.members, Tree.below, Multiset.card_add,
      Multiset.card_cons] at hcard
    unfold rounds
    omega
  refine (Layout.ensures_release (M := Heap.ringMembers others) (Layout.congr h rfl (by simp))
    hfuel).mono fun b hb => hb.congr ?_ ?_
  · rw [Heap.row_append]
    rfl
  · rw [Heap.ringMembers_append]

/-- What the extraction of the first root leads to. -/
structure Extracted (h : Heap κ cmp) (e : Extraction κ cmp) (h' : Heap κ cmp) : Prop where
  extract : h.extractMin? = some (e.key, h')
  embodies : Embodies none e.heap h'
  buckets : e.buckets = [] ∨ ∃ first others, h.roots = first :: others ∧
    Mirrors e.buckets (Heap.buckets cmp (first.children.toTrees.reverse ++ others))

/-- Extraction in the arena and among the trees. -/
theorem Embodies.ensures_extractMin?
    {l : LinkedHeap κ cmp} {h : Heap κ cmp} (he : Embodies flag l h) {first : Tree κ}
    {others : List (Tree κ)} (hroots : h.roots = first :: others)
    (hflag : ∀ slot ∈ flag, slot = first.item.slot) :
    Ensures l.extractMin? fun r => ∃ e h', r = some e ∧ Extracted h e h' := by
  obtain ⟨item, f⟩ := first
  have hextract := Heap.extractMin?_of_roots hroots
  have hplanted := he.planted
  rw [hroots] at hplanted
  unfold extractMin?
  rw [he.min, hroots]
  refine hplanted.ensures_release.bind fun b hb => ?_
  generalize hring : f.toTrees.reverse ++ others = ring at hb hextract
  have hdistinct := hb.nodup_ring (Multiset.mem_add.2 (.inl (Multiset.mem_singleton_self _)))
  have hnot : item.slot ∉ Heap.row ring := (List.nodup_cons.1 hdistinct).1
  refine (hb.ensures_right (R := 0) (Multiset.mem_cons_self _ _)).bind ?_
  rintro z ⟨-, hnext⟩
  refine (Layout.ensures_unlink (R := 0) hb).bind fun c hc => ?_
  have hothers : ∀ t ∈ ring, flag ≠ some t.item.slot := by
    rintro t ht rfl
    exact hnot (hflag _ rfl ▸ List.mem_map_of_mem ht)
  have hclose : Layout _ _ flag (Heap.row ring ::ₘ {[item.slot]})
      (Heap.ringMembers ring + {(⟨item, .nil⟩ : Tree κ).root}) c :=
    hc.congr (Multiset.cons_swap _ _ _) (by rw [add_comm]; rfl)
  rw [hnext]
  refine (ensures_closeRing hclose hothers hnot).bind ?_
  rintro ⟨buckets, d, min⟩ ⟨hbuckets, hmin, hd⟩
  have hvacate : Layout _ _ flag ([item.slot] ::ₘ {Heap.row (Heap.consolidate cmp ring)})
      ((⟨item, .nil⟩ : Tree κ).root ::ₘ Heap.ringMembers (Heap.consolidate cmp ring)) d :=
    hd.congr (Multiset.cons_swap _ _ _) (by rw [add_comm]; rfl)
  refine (hvacate.ensures_vacate rfl hflag).bind ?_
  rintro ⟨x, e⟩ ⟨hx, hleft⟩
  rw [show Tree.key ⟨item, f⟩ = x.key from (congrArg Vertex.key hx).symm] at hextract
  have hsize : (h.slots.erase item.slot).slots.size = h.slots.slots.size :=
    Array.size_setIfInBounds
  refine .pure ⟨_, _, rfl, hextract, ⟨?_, hmin, he.nextSerial⟩, ?_⟩
  · exact hsize ▸ hleft
  · exact hbuckets.imp_right fun hmirrors => ⟨_, _, hroots, hring ▸ hmirrors⟩

end LinkedHeap
end CallbackLoop
