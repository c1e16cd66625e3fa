import CallbackLoop.Proofs.Arena
import CallbackLoop.Proofs.Heap.Links
import CallbackLoop.Proofs.Heap.Members
import Mathlib.Algebra.BigOperators.Group.Multiset.Basic

/-!
# How members lie in an arena

The layout of a linked heap is given by its members and by the rings at the level of the
roots.  One of these is the ring of roots; while a node moves from one place to another it
is a ring by itself.  Every other ring is that of the children of some member.

The lemmas `ensures_…` say what the operations on single nodes and their parents do to
members and rings.
-/

namespace CallbackLoop

variable {κ : Type}

/-- The vertex of a member that says it has a certain degree.  The node in slot `flag` counts
as lowest. -/
def Member.vertexOf (flag : Option Nat) (degree : Nat) (m : Member κ) : Vertex κ where
  key := m.item.key
  serial := m.item.serial
  lowest := flag == some m.slot
  parent := m.parent
  child := m.children.head?
  degree := degree
  marked := m.marked

/-- The vertex of a member. -/
def Member.vertex (flag : Option Nat) (m : Member κ) : Vertex κ :=
  m.vertexOf flag m.children.length

namespace LinkedHeap

/-- The links of several rings. -/
def links (rings : Multiset (List Nat)) : Multiset (Nat × Nat) :=
  (rings.map circle).sum

@[simp] theorem links_cons
    (ring : List Nat) (rings : Multiset (List Nat)) :
    links (ring ::ₘ rings) = circle ring + links rings := by
  simp [links]

@[simp] theorem links_add
    (rings rings' : Multiset (List Nat)) :
    links (rings + rings') = links rings + links rings' := by
  simp [links]

/-- The vertices of several members. -/
def entries (flag : Option Nat) (M : Multiset (Member κ)) : Multiset (Nat × Vertex κ) :=
  M.map fun m => (m.slot, m.vertex flag)

@[simp] theorem entries_cons
    (flag : Option Nat) (m : Member κ) (M : Multiset (Member κ)) :
    entries flag (m ::ₘ M) = (m.slot, m.vertex flag) ::ₘ entries flag M :=
  Multiset.map_cons _ _ _

/-- The arena holds the members `M` with their children in rings, and the rings `R`
besides. -/
def Layout (free : List Nat) (n : Nat) (flag : Option Nat) (R : Multiset (List Nat))
    (M : Multiset (Member κ)) (a : Arena (Node κ)) : Prop :=
  Linked free n (entries flag M) (links R + links (M.map Member.children)) a

namespace Layout

variable {free : List Nat} {n : Nat} {flag : Option Nat} {R : Multiset (List Nat)}
  {M : Multiset (Member κ)} {a : Arena (Node κ)}

theorem congr
    {R' : Multiset (List Nat)} {M' : Multiset (Member κ)} (h : Layout free n flag R M a)
    (hR : R = R') (hM : M = M') :
    Layout free n flag R' M' a :=
  hR ▸ hM ▸ h

/-- No two members share a slot. -/
theorem nodup
    (h : Layout free n flag R M a) :
    (M.map Member.slot).Nodup := by
  have hnodup := h.vertices.nodup
  rwa [entries, Multiset.map_map] at hnodup

/-- No ring has a slot twice. -/
theorem nodup_ring
    (h : Layout free n flag R M a) {row : List Nat}
    (hrow : row ∈ R + M.map Member.children) :
    row.Nodup := by
  have hnodup := h.rights.nodup
  rw [← links_add] at hnodup
  obtain ⟨S, hS⟩ := Multiset.exists_cons_of_mem hrow
  rw [hS, links_cons, Multiset.map_add, map_fst_circle] at hnodup
  exact Multiset.coe_nodup.1 (Multiset.nodup_add.1 hnodup).1

theorem ensures_node
    (h : Layout free n flag R M a) {m : Member κ} (hm : m ∈ M) :
    Ensures (node a m.slot) fun x => x.toVertex = m.vertex flag :=
  (Holds.ensures_node h (Multiset.mem_map_of_mem _ hm)).mono fun _ hx => hx.1

/-- What lies in a slot is a member. -/
theorem exists_member
    (h : Layout free n flag R M a) {i : Nat} {x : Node κ} (hx : a.get? i = some x) :
    ∃ m ∈ M, m.slot = i ∧ x.toVertex = m.vertex flag := by
  have hmem := (h.vertices.mem_iff i x.toVertex).2 (by simp [hx])
  obtain ⟨m, hm, heq⟩ := Multiset.mem_map.1 hmem
  exact ⟨m, hm, congrArg Prod.fst heq, (congrArg Prod.snd heq).symm⟩

/-- A slot is occupied exactly if a member lies in it. -/
theorem get?_eq_none_iff
    (h : Layout free n flag R M a) (i : Nat) :
    a.get? i = none ↔ ∀ m ∈ M, m.slot ≠ i := by
  constructor
  · rintro hnone m hm rfl
    have := (h.vertices.mem_iff _ _).1 (Multiset.mem_map_of_mem _ hm)
    simp [hnone] at this
  · intro hnot
    cases hget : a.get? i with
    | none => rfl
    | some x =>
        obtain ⟨m, hm, hslot, -⟩ := h.exists_member hget
        exact absurd hslot (hnot m hm)

/-- The first node of a ring with its right neighbour. -/
theorem ensures_right
    {m : Member κ} {row : List Nat} (h : Layout free n flag ((m.slot :: row) ::ₘ R) M a)
    (hm : m ∈ M) :
    Ensures (node a m.slot) fun x => x.toVertex = m.vertex flag ∧ x.right = row.headD m.slot := by
  have hlinks : links ((m.slot :: row) ::ₘ R) + links (M.map Member.children) =
      circle (m.slot :: row) + (links R + links (M.map Member.children)) := by
    rw [links_cons, add_assoc]
  exact (Linked.congr h rfl hlinks).ensures_first (Multiset.mem_map_of_mem _ hm)

/-- It does not matter where a ring is entered. -/
theorem rotate
    {row row' : List Nat} (h : Layout free n flag ((row ++ row') ::ₘ R) M a) :
    Layout free n flag ((row' ++ row) ::ₘ R) M a := by
  refine Linked.congr h rfl ?_
  simp only [links_cons, circle_append_comm row row']

theorem ensures_spliceAfter
    {anchor x : Nat} {row : List Nat}
    (h : Layout free n flag ([x] ::ₘ (anchor :: row) ::ₘ R) M a) :
    Ensures (spliceAfter a anchor x) (Layout free n flag ((anchor :: x :: row) ::ₘ R) M) := by
  have hlinks : links ([x] ::ₘ (anchor :: row) ::ₘ R) + links (M.map Member.children) =
      circle [x] + circle (anchor :: row) + (links R + links (M.map Member.children)) := by
    rw [links_cons, links_cons]
    abel
  refine (Linked.congr h rfl hlinks).ensures_join.mono fun a ha => ha.congr rfl ?_
  rw [links_cons, add_assoc]

/-- A node leaves its ring, in which it may be alone. -/
theorem ensures_unlink
    {x : Nat} {row : List Nat} (h : Layout free n flag ((x :: row) ::ₘ R) M a) :
    Ensures (unlink a x) (Layout free n flag ([x] ::ₘ row ::ₘ R) M) := by
  have hlinks : links ((x :: row) ::ₘ R) + links (M.map Member.children) =
      circle (x :: row) + (links R + links (M.map Member.children)) := by
    rw [links_cons, add_assoc]
  refine (Linked.congr h rfl hlinks).ensures_leave.mono fun a ha => ha.congr rfl ?_
  rw [links_cons, links_cons]
  abel

/-- Writing to a node changes one member. -/
theorem ensures_alter
    {m m' : Member κ} {f : Node κ → Node κ} (h : Layout free n flag R (m ::ₘ M) a)
    (hslot : m'.slot = m.slot) (hchildren : m'.children = m.children)
    (hf : ∀ left right, f ⟨m.vertex flag, left, right⟩ = ⟨m'.vertex flag, left, right⟩) :
    Ensures (alter a m.slot f) (Layout free n flag R (m' ::ₘ M)) := by
  have hholds := Holds.congr h (entries_cons _ _ _) rfl rfl
  refine (hholds.ensures_revise hf).mono fun a ha => Linked.congr ha ?_ ?_
  · rw [entries_cons, hslot]
  · rw [Multiset.map_cons, Multiset.map_cons, hchildren]

/-- A child leaves its ring and its parent shows a child that is left.  The degree of the
parent is still the old one. -/
theorem ensures_leaveSiblings
    {x p : Member κ} {before after : List Nat} (h : Layout free n flag R (x ::ₘ p ::ₘ M) a)
    (hchildren : p.children = before ++ x.slot :: after) :
    Ensures (leaveSiblings a x.slot p.slot)
      (Linked free n
        ((x.slot, x.vertex flag) ::ₘ
          (p.slot, Member.vertexOf flag p.children.length
            { p with children := before ++ after }) ::ₘ entries flag M)
        (circle [x.slot] + circle (before ++ after) + circle x.children + links R +
          links (M.map Member.children))) := by
  have hnot : x.slot ∉ before ++ after := by
    have hnodup : p.children.Nodup := h.nodup_ring (by simp)
    rw [hchildren] at hnodup
    exact (List.nodup_middle.1 hnodup).notMem
  generalize hV : entries flag M = V
  generalize hkept : circle x.children + links R + links (M.map Member.children) = kept
  have hlinked : Linked free n ((p.slot, p.vertex flag) ::ₘ (x.slot, x.vertex flag) ::ₘ V)
      (circle (x.slot :: (after ++ before)) + kept) a := by
    have hring : circle p.children = circle (x.slot :: (after ++ before)) := by
      rw [hchildren, circle_append_comm]
      rfl
    refine Linked.congr h ?_ ?_
    · rw [entries_cons, entries_cons, hV, Multiset.cons_swap]
    · simp only [Multiset.map_cons, links_cons, hring, ← hkept]
      abel
  suffices hgoal : Ensures (leaveSiblings a x.slot p.slot)
      (Linked free n
        ((p.slot, Member.vertexOf flag p.children.length
          { p with children := before ++ after }) ::ₘ (x.slot, x.vertex flag) ::ₘ V)
        (circle [x.slot] + circle (before ++ after) + kept)) by
    refine hgoal.mono fun a ha => ha.congr (Multiset.cons_swap _ _ _) ?_
    rw [← hkept]
    abel
  refine (hlinked.ensures_first (v := x.vertex flag) (by simp)).bind ?_
  rintro c ⟨-, hright⟩
  by_cases hnone : after ++ before = []
  · -- The node is the only child.
    obtain ⟨rfl, rfl⟩ := List.append_eq_nil_iff.1 hnone
    have hself : c.right = x.slot := hright
    rw [if_pos hself]
    refine (Holds.ensures_revise hlinked
      (w := Member.vertexOf flag p.children.length { p with children := [] })
      fun left right => rfl).mono fun a ha => ?_
    exact Linked.congr ha rfl (by simp)
  · obtain ⟨first, rest, hrow⟩ := List.exists_cons_of_ne_nil hnone
    rw [hrow, List.headD_cons] at hright
    have hne : c.right ≠ x.slot := by
      rw [hright]
      rintro rfl
      have hmem : x.slot ∈ after ++ before := by rw [hrow]; exact List.mem_cons_self
      exact hnot (by simpa [or_comm] using hmem)
    rw [if_neg hne]
    refine (Holds.ensures_node hlinked (Multiset.mem_cons_self _ _)).bind ?_
    rintro y ⟨hy, -, -⟩
    have hchild : y.child = p.children.head? := congrArg Vertex.child hy
    rw [hchild, circle_append_comm before after]
    cases before with
    | nil =>
        have hshown : p.children.head? = some x.slot := by rw [hchildren]; rfl
        rw [if_pos hshown]
        refine (Holds.ensures_revise hlinked fun left right => ?_).bind fun a ha =>
          Linked.ensures_leave ha
        rw [List.append_nil] at hrow
        simp [Member.vertex, Member.vertexOf, Member.slot, hrow, hright]
    | cons b before =>
        have hshown : p.children.head? = some b := by rw [hchildren]; rfl
        have hother : p.children.head? ≠ some x.slot := by
          rw [hshown]
          intro heq
          exact hnot (by simp [Option.some.inj heq])
        rw [if_neg hother]
        refine (hlinked.congr ?_ rfl).ensures_leave
        simp [Member.vertex, Member.vertexOf, Member.slot, hshown]

/-- Lowering the degree of a node that has children. -/
theorem ensures_lowerDegree
    {p : Member κ} {degree : Nat} {V : Multiset (Nat × Vertex κ)} {E : Multiset (Nat × Nat)}
    (h : Linked free n ((p.slot, p.vertexOf flag (degree + 1)) ::ₘ V) E a) :
    Ensures (lowerDegree a p.slot) (Linked free n ((p.slot, p.vertexOf flag degree) ::ₘ V) E) := by
  refine (Holds.ensures_node h (Multiset.mem_cons_self _ _)).bind ?_
  rintro y ⟨hy, -, -⟩
  have hdegree : y.degree = degree + 1 := congrArg Vertex.degree hy
  rw [if_neg (by omega)]
  exact Holds.ensures_revise h fun left right => rfl

/-- A child leaves its parent. -/
theorem ensures_detachChild
    {x p : Member κ} {before after : List Nat} (h : Layout free n flag R (x ::ₘ p ::ₘ M) a)
    (hchildren : p.children = before ++ x.slot :: after) :
    Ensures (detachChild a x.slot p.slot)
      (Layout free n flag ([x.slot] ::ₘ R)
        ({ x with parent := none, marked := false } ::ₘ
          { p with children := before ++ after } ::ₘ M)) := by
  have hdegree : p.children.length = (before ++ after).length + 1 := by
    rw [hchildren, List.length_append, List.length_append, List.length_cons]
    omega
  refine (h.ensures_leaveSiblings hchildren).bind fun a ha => ?_
  rw [hdegree] at ha
  have hlower := ensures_lowerDegree (p := { p with children := before ++ after })
    (ha.congr (Multiset.cons_swap _ _ _) rfl)
  refine hlower.bind fun a ha => ?_
  have hx := Holds.congr ha (Multiset.cons_swap _ _ _) rfl rfl
  refine (hx.ensures_revise (w := Member.vertex flag { x with parent := none, marked := false })
    fun left right => rfl).mono fun a ha => ?_
  refine Linked.congr ha ?_ ?_
  · rw [entries_cons, entries_cons]
    rfl
  · simp only [Multiset.map_cons, links_cons]
    abel

/-- What is alone joins the children of a node.  The degree of the node is still the old
one. -/
theorem ensures_joinChildren
    {x : Member κ} {y : Nat} (h : Layout free n flag ([y] ::ₘ R) (x ::ₘ M) a) :
    Ensures (joinChildren a x.slot y)
      (Linked free n
        ((x.slot, Member.vertexOf flag x.children.length
          { x with children := Tree.withSecond y x.children }) ::ₘ entries flag M)
        (links R + (circle (Tree.withSecond y x.children) + links (M.map Member.children)))) := by
  have hlinked : Linked free n ((x.slot, x.vertex flag) ::ₘ entries flag M)
      (circle [y] + circle x.children + (links R + links (M.map Member.children))) a := by
    refine Linked.congr h (entries_cons _ _ _) ?_
    rw [links_cons, Multiset.map_cons, links_cons]
    abel
  refine (Holds.ensures_node hlinked (Multiset.mem_cons_self _ _)).bind ?_
  rintro c ⟨hc, -, -⟩
  have hchild : c.child = x.children.head? := congrArg Vertex.child hc
  rw [hchild]
  cases hchildren : x.children with
  | nil =>
      refine (Holds.ensures_revise hlinked (w := Member.vertexOf flag 0 { x with children := [y] })
        fun left right => ?_).mono fun a ha => Linked.congr ha rfl ?_
      · simp [Member.vertex, Member.vertexOf, Member.slot, hchildren]
      · rw [hchildren, Tree.withSecond, circle_nil]
        abel
  | cons first others =>
      rw [hchildren] at hlinked
      refine hlinked.ensures_join.mono fun a ha => ha.congr ?_ ?_
      · simp [Member.vertex, Member.vertexOf, Member.slot, hchildren, Tree.withSecond]
      · rw [Tree.withSecond]
        abel

/-- A root becomes the child of another one. -/
theorem ensures_adopt
    {x y : Member κ} {row : List Nat}
    (h : Layout free n flag ((y.slot :: row) ::ₘ R) (x ::ₘ y ::ₘ M) a) :
    Ensures (adopt a x.slot y.slot)
      (Layout free n flag (row ::ₘ R)
        ({ x with children := Tree.withSecond y.slot x.children } ::ₘ
          { y with parent := some x.slot, marked := false } ::ₘ M)) := by
  refine h.ensures_unlink.bind fun a ha => ?_
  refine (ensures_joinChildren ha).bind fun a ha => ?_
  rw [entries_cons] at ha
  have hy := Holds.congr ha (Multiset.cons_swap _ _ _) rfl rfl
  refine (hy.ensures_revise
    (w := Member.vertex flag { y with parent := some x.slot, marked := false })
    fun left right => rfl).bind fun a ha => ?_
  have hx := Holds.congr ha (Multiset.cons_swap _ _ _) rfl rfl
  refine (hx.ensures_revise
    (w := Member.vertex flag { x with children := Tree.withSecond y.slot x.children })
    fun left right => ?_).mono fun a ha => ?_
  · have hlength : (Tree.withSecond y.slot x.children).length = x.children.length + 1 := by
      cases x.children <;> rfl
    simp only [Member.vertex, Member.vertexOf, hlength]
  · refine Linked.congr ha ?_ ?_
    · rw [entries_cons, entries_cons]
      rfl
    · simp only [Multiset.map_cons, links_cons]

/-- The walk round a ring comes back after as many steps as the ring has members. -/
theorem ensures_ringFrom
    {start : Nat} {row : List Nat} (h : Layout free n flag ((start :: row) ::ₘ R) M a)
    {fuel : Nat} (hfuel : row.length < fuel) :
    Ensures (ringFrom a start fuel start) (· = start :: row) := by
  refine Linked.ensures_ringFrom h ?_ ?_ hfuel
  · rw [links_cons, add_assoc]
    exact Multiset.le_add_right _ _
  · have hring := h.nodup_ring (Multiset.mem_add.2 (.inl (Multiset.mem_cons_self _ _)))
    exact (List.nodup_cons.1 hring).1

section Order

variable {cmp : κ → κ → Ordering} {m m' : Member κ}

/-- Nodes are compared by their keys. -/
theorem ensures_less
    (h : Layout free n flag R M a) (hm : m ∈ M) (hm' : m' ∈ M)
    (hflag : flag ≠ some m.slot) (hflag' : flag ≠ some m'.slot) :
    Ensures (less cmp a m.slot m'.slot) (· = (cmp m.item.key m'.item.key).isLT) := by
  refine (h.ensures_node hm).bind fun x hx => (h.ensures_node hm').bind fun y hy => ?_
  have hlowest : x.lowest = false := by
    rw [congrArg Vertex.lowest hx]
    simpa [Member.vertex, Member.vertexOf] using hflag
  have hlowest' : y.lowest = false := by
    rw [congrArg Vertex.lowest hy]
    simpa [Member.vertex, Member.vertexOf] using hflag'
  rw [hlowest, hlowest', congrArg Vertex.key hx, congrArg Vertex.key hy]
  exact .pure rfl

/-- The lowest node compares strictly below all others, and not below itself. -/
theorem ensures_less_lowest
    (h : Layout free n (some m.slot) R M a) (hm : m ∈ M) (hm' : m' ∈ M) :
    Ensures (less cmp a m.slot m'.slot) (· = decide (m.slot ≠ m'.slot)) := by
  refine (h.ensures_node hm).bind fun x hx => (h.ensures_node hm').bind fun y hy => ?_
  have hlowest : x.lowest = true := by
    rw [congrArg Vertex.lowest hx]
    simp [Member.vertex, Member.vertexOf]
  have hlowest' : y.lowest = (m.slot == m'.slot) := congrArg Vertex.lowest hy
  rw [hlowest, hlowest']
  by_cases heq : m.slot = m'.slot
  · rw [beq_iff_eq.2 heq]
    exact .pure (by simp [heq])
  · rw [beq_eq_false_iff_ne.2 heq]
    exact .pure (by simp [heq])

end Order

/-- A new root comes into the slot that the arena uses next. -/
theorem ensures_place
    (h : Layout free n none R M a) (hs : a.Sound) (serial : Nat) (key : κ) :
    Ensures (place a { key, serial }) fun placed =>
      placed.1 = (a.insert ⟨{ key, serial }, 0, 0⟩).1 ∧
        Layout (a.insert ⟨{ key, serial }, 0, 0⟩).2.free
          (a.insert ⟨{ key, serial }, 0, 0⟩).2.slots.size none ([placed.1] ::ₘ R)
          (⟨⟨placed.1, serial, key⟩, none, false, []⟩ ::ₘ M) placed.2 := by
  refine (Holds.ensures_place h hs { key, serial }).mono ?_
  rintro placed ⟨hslot, ha⟩
  refine ⟨hslot, Holds.congr ha ?_ ?_ ?_⟩
  · rw [entries_cons]
    rfl
  · simp
  · simp

/-- The flag does not matter when the node in its slot is gone. -/
theorem unflag
    (h : Layout free n flag R M a) (hflag : ∀ m ∈ M, flag ≠ some m.slot) :
    Layout free n none R M a := by
  refine Linked.congr h (Multiset.map_congr rfl fun m hm => ?_) rfl
  have hlowest : (flag == some m.slot) = false := by simpa using hflag m hm
  simp [Member.vertex, Member.vertexOf, hlowest]

/-- A node that is alone and has no children is taken out, and the flag with it. -/
theorem ensures_vacate
    {z : Member κ} (h : Layout free n flag ([z.slot] ::ₘ R) (z ::ₘ M) a)
    (hchildren : z.children = []) (hflag : ∀ slot ∈ flag, slot = z.slot) :
    Ensures (vacate a z.slot) fun left =>
      left.1.toVertex = z.vertex flag ∧ Layout (z.slot :: free) n none R M left.2 := by
  obtain ⟨x, hx, hxz⟩ := Option.map_eq_some_iff.1
    ((h.vertices.mem_iff z.slot (z.vertex flag)).1 (by simp))
  have hremove : a.remove z.slot = .ok (x, a.erase z.slot) := by
    rw [Arena.remove, if_neg (Nat.not_le.2 (Arena.lt_size_of_get? hx)), hx]
  have hleft : Layout (z.slot :: free) n flag R M (a.erase z.slot) := by
    refine ⟨congrArg _ h.free_eq, by simpa [Arena.erase] using h.size_eq, ?_, ?_, ?_⟩
    · refine Graph.erase (h.vertices.congr (entries_cons _ _ _)) fun j => ?_
      rw [Arena.get?_erase]
      split <;> rfl
    · refine Graph.erase (i := z.slot) (b := z.slot) (h.rights.congr ?_) fun j => ?_
      · simp [hchildren]
      · rw [Arena.get?_erase]
        split <;> rfl
    · refine Graph.erase (i := z.slot) (b := z.slot) (h.lefts.congr ?_) fun j => ?_
      · simp [hchildren]
      · rw [Arena.get?_erase]
        split <;> rfl
  refine ⟨_, by rw [vacate, hremove], hxz, hleft.unflag ?_⟩
  rintro m hm rfl
  have hnodup := h.nodup
  rw [Multiset.map_cons, Multiset.nodup_cons] at hnodup
  exact hnodup.1 (hflag _ rfl ▸ Multiset.mem_map_of_mem _ hm)

end Layout
end LinkedHeap
end CallbackLoop
