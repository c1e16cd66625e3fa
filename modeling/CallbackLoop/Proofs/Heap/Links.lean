import CallbackLoop.Heap.Linked
import CallbackLoop.Proofs.Arena
import Mathlib.Algebra.Order.Group.Multiset
import Mathlib.Tactic.Abel

/-!
# Nodes and their links

An arena of nodes is seen as two multisets: the vertices of its occupied slots, and its
links, the pairs of a slot and the slot to its right.  The left neighbours have to agree.

Writing to a node replaces one pair.  `ensures_spliceAfter` and `ensures_unlink` say which
links change when a node joins a ring and when it leaves one.  A ring is the multiset of
links that lead round it, and it does not matter where it is entered.
-/

namespace CallbackLoop
namespace LinkedHeap

/-- The computation goes well and has a result with the property `P`. -/
def Ensures {α : Type} (r : Except Defect α) (P : α → Prop) : Prop :=
  ∃ x, r = .ok x ∧ P x

namespace Ensures

variable {α β : Type} {r : Except Defect α} {P Q : α → Prop}

theorem pure
    {x : α} (h : P x) :
    Ensures (.ok x) P :=
  ⟨x, rfl, h⟩

theorem bind
    {f : α → Except Defect β} {R : β → Prop} (h : Ensures r P)
    (hf : ∀ x, P x → Ensures (f x) R) :
    Ensures (r >>= f) R := by
  obtain ⟨x, rfl, hx⟩ := h
  exact hf x hx

theorem mono
    (h : Ensures r P) (hsub : ∀ x, P x → Q x) :
    Ensures r Q := by
  obtain ⟨x, hr, hx⟩ := h
  exact ⟨x, hr, hsub x hx⟩

end Ensures

/-- The multiset holds each pair of a slot and the value of `f` there once. -/
structure Graph {β : Type} (f : Nat → Option β) (G : Multiset (Nat × β)) : Prop where
  nodup : (G.map Prod.fst).Nodup
  mem_iff : ∀ i b, (i, b) ∈ G ↔ f i = some b

namespace Graph

variable {β : Type} {f f' : Nat → Option β} {G : Multiset (Nat × β)}

theorem congr
    (h : Graph f G) {G' : Multiset (Nat × β)} (heq : G = G') :
    Graph f G' :=
  heq ▸ h

theorem unique
    (h : Graph f G) {i : Nat} {b c : β} (hb : (i, b) ∈ G) (hc : (i, c) ∈ G) :
    b = c :=
  Option.some.inj (((h.mem_iff i b).1 hb).symm.trans ((h.mem_iff i c).1 hc))

/-- A new value in one slot replaces one pair. -/
theorem update
    {i : Nat} {b b' : β} (h : Graph f ((i, b) ::ₘ G))
    (hf : ∀ j, f' j = if i = j then some b' else f j) :
    Graph f' ((i, b') ::ₘ G) := by
  refine ⟨by simpa using h.nodup, fun j c => ?_⟩
  have hvacant : ∀ c, (i, c) ∉ G := by
    intro c hc
    have hnodup := h.nodup
    rw [Multiset.map_cons, Multiset.nodup_cons] at hnodup
    exact hnodup.1 (Multiset.mem_map.2 ⟨_, hc, rfl⟩)
  rw [hf, Multiset.mem_cons, Prod.mk.injEq]
  by_cases hij : i = j
  · subst hij
    simp [hvacant, eq_comm]
  · rw [if_neg hij, ← h.mem_iff j c, Multiset.mem_cons, Prod.mk.injEq]
    have hji : ¬ j = i := fun heq => hij heq.symm
    simp [hji]

/-- A value in a new slot is one pair more. -/
theorem insert
    {i : Nat} {b : β} (h : Graph f G) (hnone : f i = none)
    (hf : ∀ j, f' j = if i = j then some b else f j) :
    Graph f' ((i, b) ::ₘ G) := by
  have hvacant : ∀ c, (i, c) ∉ G := by
    intro c hc
    cases hnone.symm.trans ((h.mem_iff i c).1 hc)
  constructor
  · rw [Multiset.map_cons, Multiset.nodup_cons]
    refine ⟨fun hmem => ?_, h.nodup⟩
    obtain ⟨⟨j, c⟩, hc, rfl⟩ := Multiset.mem_map.1 hmem
    exact hvacant c hc
  · intro j c
    rw [hf, Multiset.mem_cons, Prod.mk.injEq]
    by_cases hij : i = j
    · subst hij
      simp [hvacant, eq_comm]
    · have hji : ¬ j = i := fun heq => hij heq.symm
      simp [hij, hji, h.mem_iff]

/-- A slot that is vacated takes its pair away. -/
theorem erase
    {i : Nat} {b : β} (h : Graph f ((i, b) ::ₘ G))
    (hf : ∀ j, f' j = if i = j then none else f j) :
    Graph f' G := by
  have hnodup := h.nodup
  rw [Multiset.map_cons, Multiset.nodup_cons] at hnodup
  refine ⟨hnodup.2, fun j c => ?_⟩
  rw [hf]
  by_cases hij : i = j
  · subst hij
    have hvacant : (i, c) ∉ G := fun hc => hnodup.1 (Multiset.mem_map.2 ⟨_, hc, rfl⟩)
    simp [hvacant]
  · have hji : ¬ j = i := fun heq => hij heq.symm
    rw [if_neg hij, ← h.mem_iff j c, Multiset.mem_cons, Prod.mk.injEq]
    simp [hji]

end Graph

variable {κ : Type} {free : List Nat} {n : Nat}

/-- The arena has `n` slots, of which those in `free` are vacant, and the others have the
vertices `V`, the right neighbours `R` and the left neighbours `L`. -/
structure Holds (free : List Nat) (n : Nat) (V : Multiset (Nat × Vertex κ))
    (R L : Multiset (Nat × Nat)) (a : Arena (Node κ)) : Prop where
  free_eq : a.free = free
  size_eq : a.slots.size = n
  vertices : Graph (fun i => (a.get? i).map Node.toVertex) V
  rights : Graph (fun i => (a.get? i).map Node.right) R
  lefts : Graph (fun i => (a.get? i).map Node.left) L

namespace Holds

variable {V : Multiset (Nat × Vertex κ)} {R L : Multiset (Nat × Nat)} {a : Arena (Node κ)}

theorem congr
    {V' : Multiset (Nat × Vertex κ)} {R' L' : Multiset (Nat × Nat)} (h : Holds free n V R L a)
    (hV : V = V') (hR : R = R') (hL : L = L') :
    Holds free n V' R' L' a :=
  hV ▸ hR ▸ hL ▸ h

/-- A slot with a vertex has a node, and this has neighbours. -/
theorem ensures_node
    (h : Holds free n V R L a) {i : Nat} {v : Vertex κ} (hv : (i, v) ∈ V) :
    Ensures (node a i) fun x => x.toVertex = v ∧ (i, x.right) ∈ R ∧ (i, x.left) ∈ L := by
  obtain ⟨x, hx, hxv⟩ := Option.map_eq_some_iff.1 ((h.vertices.mem_iff i v).1 hv)
  refine ⟨x, by simp [node, hx], hxv, ?_, ?_⟩
  · exact (h.rights.mem_iff _ _).2 (by simp [hx])
  · exact (h.lefts.mem_iff _ _).2 (by simp [hx])

/-- The source of a link has a vertex. -/
theorem exists_vertex
    (h : Holds free n V R L a) {i j : Nat} (hr : (i, j) ∈ R) :
    ∃ v, (i, v) ∈ V := by
  obtain ⟨x, hx, -⟩ := Option.map_eq_some_iff.1 ((h.rights.mem_iff i j).1 hr)
  exact ⟨x.toVertex, (h.vertices.mem_iff _ _).2 (by simp [hx])⟩

theorem exists_vertex_of_left
    (h : Holds free n V R L a) {i j : Nat} (hl : (i, j) ∈ L) :
    ∃ v, (i, v) ∈ V := by
  obtain ⟨x, hx, -⟩ := Option.map_eq_some_iff.1 ((h.lefts.mem_iff i j).1 hl)
  exact ⟨x.toVertex, (h.vertices.mem_iff _ _).2 (by simp [hx])⟩

/-- Writing to a node replaces its pairs. -/
theorem ensures_alter
    {i r l : Nat} {v : Vertex κ} {f : Node κ → Node κ}
    (h : Holds free n ((i, v) ::ₘ V) ((i, r) ::ₘ R) ((i, l) ::ₘ L) a) :
    Ensures (alter a i f) fun a' =>
      Holds free n ((i, (f ⟨v, l, r⟩).toVertex) ::ₘ V) ((i, (f ⟨v, l, r⟩).right) ::ₘ R)
        ((i, (f ⟨v, l, r⟩).left) ::ₘ L) a' := by
  obtain ⟨x, hx, hxv, hxr, hxl⟩ := h.ensures_node (Multiset.mem_cons_self _ _)
  have hr := h.rights.unique hxr (Multiset.mem_cons_self _ _)
  have hl := h.lefts.unique hxl (Multiset.mem_cons_self _ _)
  have hsame : x = ⟨v, l, r⟩ := by
    cases x
    simp_all
  subst hsame
  have hget : a.get? i = some ⟨v, l, r⟩ := by
    unfold node at hx
    split at hx
    next y hy => rw [hy, Except.ok.inj hx]
    next => cases hx
  have hocc : a.contains i = true := Arena.contains_iff.2 ⟨_, hget⟩
  have hset : ∀ j, (a.set i (f ⟨v, l, r⟩)).get? j =
      if i = j then some (f ⟨v, l, r⟩) else a.get? j := by
    intro j
    rw [Arena.get?_set]
    simp [hocc]
  refine ⟨a.set i (f ⟨v, l, r⟩), ?_, ?_, ?_, ?_, ?_, ?_⟩
  · unfold alter
    rw [hx]
    rfl
  · simpa [Arena.set, hocc] using h.free_eq
  · simpa [Arena.set, hocc] using h.size_eq
  all_goals
    refine Graph.update (by first | exact h.vertices | exact h.rights | exact h.lefts) fun j => ?_
    rw [hset]
    split <;> rfl

theorem ensures_setRight
    {i r : Nat} (h : Holds free n V ((i, r) ::ₘ R) L a) (right : Nat) :
    Ensures (setRight a i right) (Holds free n V ((i, right) ::ₘ R) L) := by
  obtain ⟨v, hv⟩ := h.exists_vertex (Multiset.mem_cons_self _ _)
  obtain ⟨x, -, -, -, hl⟩ := h.ensures_node hv
  obtain ⟨V, rfl⟩ := Multiset.exists_cons_of_mem hv
  obtain ⟨L, rfl⟩ := Multiset.exists_cons_of_mem hl
  exact h.ensures_alter

theorem ensures_setLeft
    {i l : Nat} (h : Holds free n V R ((i, l) ::ₘ L) a) (left : Nat) :
    Ensures (setLeft a i left) (Holds free n V R ((i, left) ::ₘ L)) := by
  obtain ⟨v, hv⟩ := h.exists_vertex_of_left (Multiset.mem_cons_self _ _)
  obtain ⟨x, -, -, hr, -⟩ := h.ensures_node hv
  obtain ⟨V, rfl⟩ := Multiset.exists_cons_of_mem hv
  obtain ⟨R, rfl⟩ := Multiset.exists_cons_of_mem hr
  exact h.ensures_alter

/-- Writing that leaves the neighbours alone replaces a vertex. -/
theorem ensures_revise
    {i : Nat} {v w : Vertex κ} {f : Node κ → Node κ} (h : Holds free n ((i, v) ::ₘ V) R L a)
    (hf : ∀ left right, f ⟨v, left, right⟩ = ⟨w, left, right⟩) :
    Ensures (alter a i f) (Holds free n ((i, w) ::ₘ V) R L) := by
  obtain ⟨x, -, -, hr, hl⟩ := h.ensures_node (Multiset.mem_cons_self _ _)
  obtain ⟨R, rfl⟩ := Multiset.exists_cons_of_mem hr
  obtain ⟨L, rfl⟩ := Multiset.exists_cons_of_mem hl
  have halter := h.ensures_alter (f := f)
  rwa [hf] at halter

/-- A new node lies alone in the slot that the arena uses next. -/
theorem ensures_place
    (h : Holds free n V R L a) (hs : a.Sound) (v : Vertex κ) :
    Ensures (place a v) fun placed =>
      placed.1 = (a.insert ⟨v, 0, 0⟩).1 ∧
        Holds (a.insert ⟨v, 0, 0⟩).2.free (a.insert ⟨v, 0, 0⟩).2.slots.size
          ((placed.1, v) ::ₘ V) ((placed.1, placed.1) ::ₘ R) ((placed.1, placed.1) ::ₘ L)
          placed.2 := by
  have hvacant := Arena.get?_insert_fst hs (⟨v, 0, 0⟩ : Node κ)
  have hget := Arena.get?_insert hs (⟨v, 0, 0⟩ : Node κ)
  have hentered : Holds (a.insert ⟨v, 0, 0⟩).2.free (a.insert ⟨v, 0, 0⟩).2.slots.size
      (((a.insert ⟨v, 0, 0⟩).1, v) ::ₘ V) (((a.insert ⟨v, 0, 0⟩).1, 0) ::ₘ R)
      (((a.insert ⟨v, 0, 0⟩).1, 0) ::ₘ L) (a.insert ⟨v, 0, 0⟩).2 := by
    refine ⟨rfl, rfl, h.vertices.insert (by simp [hvacant]) fun j => ?_,
      h.rights.insert (by simp [hvacant]) fun j => ?_,
      h.lefts.insert (by simp [hvacant]) fun j => ?_⟩
    all_goals
      rw [hget]
      split <;> rfl
  refine (hentered.ensures_setLeft _).bind fun b hb => ?_
  refine (hb.ensures_setRight _).bind fun b hb => ?_
  exact .pure ⟨rfl, hb⟩

end Holds

/-- The arena holds the vertices `V` and the links `E`. -/
def Linked (free : List Nat) (n : Nat) (V : Multiset (Nat × Vertex κ))
    (E : Multiset (Nat × Nat)) (a : Arena (Node κ)) : Prop :=
  Holds free n V E (E.map Prod.swap) a

namespace Linked

variable {V : Multiset (Nat × Vertex κ)} {E : Multiset (Nat × Nat)} {a : Arena (Node κ)}

theorem congr
    {V' : Multiset (Nat × Vertex κ)} {E' : Multiset (Nat × Nat)} (h : Linked free n V E a)
    (hV : V = V') (hE : E = E') :
    Linked free n V' E' a :=
  hV ▸ hE ▸ h

theorem right_unique
    (h : Linked free n V E a) {i j k : Nat} (hj : (i, j) ∈ E) (hk : (i, k) ∈ E) :
    j = k :=
  h.rights.unique hj hk

/-- A linked node with its neighbours. -/
theorem ensures_node
    {i l r : Nat} (h : Linked free n V E a) {v : Vertex κ} (hv : (i, v) ∈ V)
    (hr : (i, r) ∈ E) (hl : (l, i) ∈ E) :
    Ensures (node a i) (· = ⟨v, l, r⟩) := by
  refine (Holds.ensures_node h hv).mono ?_
  rintro ⟨w, left, right⟩ ⟨rfl, hright, hleft⟩
  have hright' : right = r := h.rights.unique hright hr
  have hleft' : left = l := h.lefts.unique hleft (Multiset.mem_map_of_mem Prod.swap hl)
  rw [hright', hleft']

/-- What is alone joins a ring between two neighbours. -/
theorem ensures_spliceAfter
    {anchor right x : Nat} (h : Linked free n V ((x, x) ::ₘ (anchor, right) ::ₘ E) a) :
    Ensures (spliceAfter a anchor x)
      (Linked free n V ((anchor, x) ::ₘ (x, right) ::ₘ E)) := by
  obtain ⟨v, hv⟩ := Holds.exists_vertex (i := anchor) (j := right) h (by simp)
  refine (Holds.ensures_node h hv).bind ?_
  rintro y ⟨-, hy, -⟩
  have hright : y.right = right := h.rights.unique hy (by simp)
  rw [hright]
  have hL : ((x, x) ::ₘ (anchor, right) ::ₘ E).map Prod.swap =
      (x, x) ::ₘ (right, anchor) ::ₘ E.map Prod.swap := by
    simp
  refine ((Holds.congr h rfl rfl hL).ensures_setLeft anchor).bind fun a ha => ?_
  refine (ha.ensures_setRight right).bind fun a ha => ?_
  refine ((ha.congr rfl (Multiset.cons_swap _ _ _) rfl).ensures_setRight x).bind
    fun a ha => ?_
  refine ((ha.congr rfl rfl (Multiset.cons_swap _ _ _)).ensures_setLeft x).mono
    fun a ha => ?_
  refine ha.congr rfl rfl ?_
  rw [Multiset.cons_swap]
  simp

/-- What lies between two neighbours leaves them to each other. -/
theorem ensures_unlink
    {left x right : Nat} (h : Linked free n V ((left, x) ::ₘ (x, right) ::ₘ E) a) :
    Ensures (unlink a x) (Linked free n V ((left, right) ::ₘ (x, x) ::ₘ E)) := by
  obtain ⟨v, hv⟩ := Holds.exists_vertex (i := x) (j := right) h (by simp)
  refine (h.ensures_node hv (r := right) (l := left) (by simp) (by simp)).bind ?_
  rintro _ rfl
  have hL : ((left, x) ::ₘ (x, right) ::ₘ E).map Prod.swap =
      (right, x) ::ₘ (x, left) ::ₘ E.map Prod.swap := by
    rw [Multiset.cons_swap]
    simp
  refine ((Holds.congr h rfl rfl hL).ensures_setRight right).bind fun a ha => ?_
  refine (ha.ensures_setLeft left).bind fun a ha => ?_
  refine ((ha.congr rfl rfl (Multiset.cons_swap _ _ _)).ensures_setLeft x).bind
    fun a ha => ?_
  refine ((ha.congr rfl (Multiset.cons_swap _ _ _) rfl).ensures_setRight x).mono
    fun a ha => ?_
  refine ha.congr rfl (Multiset.cons_swap _ _ _) ?_
  rw [Multiset.cons_swap]
  simp

/-- What is alone stays alone. -/
theorem ensures_unlink_alone
    {x : Nat} (h : Linked free n V ((x, x) ::ₘ E) a) :
    Ensures (unlink a x) (Linked free n V ((x, x) ::ₘ E)) := by
  obtain ⟨v, hv⟩ := Holds.exists_vertex (i := x) (j := x) h (by simp)
  refine (h.ensures_node hv (r := x) (l := x) (by simp) (by simp)).bind ?_
  rintro _ rfl
  have hL : ((x, x) ::ₘ E).map Prod.swap = (x, x) ::ₘ E.map Prod.swap := by
    simp
  refine ((Holds.congr h rfl rfl hL).ensures_setRight x).bind fun a ha => ?_
  refine (ha.ensures_setLeft x).bind fun a ha => ?_
  refine (ha.ensures_setLeft x).bind fun a ha => ?_
  exact (ha.ensures_setRight x).mono fun a ha => ha.congr rfl rfl hL.symm

end Linked

/-- The links from `i` along a row to `j`. -/
def chain (i : Nat) : (row : List Nat) → (j : Nat) → Multiset (Nat × Nat)
  | [], j => {(i, j)}
  | x :: row, j => (i, x) ::ₘ chain x row j

/-- The links of a ring. -/
def circle : List Nat → Multiset (Nat × Nat)
  | [] => 0
  | x :: row => chain x row x

@[simp] theorem circle_nil :
    circle [] = 0 :=
  rfl

@[simp] theorem circle_singleton
    (x : Nat) :
    circle [x] = {(x, x)} :=
  rfl

theorem chain_append
    (i : Nat) (row row' : List Nat) (x j : Nat) :
    chain i (row ++ x :: row') j = chain i row x + chain x row' j := by
  induction row generalizing i with
  | nil =>
      exact (Multiset.singleton_add _ _).symm
  | cons y row ih =>
      simp only [List.cons_append, chain, ih, Multiset.cons_add]

/-- It does not matter where a ring is entered. -/
theorem circle_append_comm
    (row row' : List Nat) :
    circle (row ++ row') = circle (row' ++ row) := by
  cases row with
  | nil =>
      simp
  | cons x row =>
      cases row' with
      | nil =>
          simp
      | cons y row' =>
          simp only [List.cons_append, circle, chain_append]
          exact add_comm _ _

/-- Each member of a ring has one link to the right. -/
theorem map_fst_circle
    (row : List Nat) :
    (circle row).map Prod.fst = row := by
  have hchain : ∀ (i : Nat) (row : List Nat) (j : Nat),
      (chain i row j).map Prod.fst = i :: row := by
    intro i row j
    induction row generalizing i with
    | nil =>
        rfl
    | cons x row ih =>
        simp only [chain, Multiset.map_cons, ih]
        rfl
  cases row with
  | nil =>
      rfl
  | cons x row =>
      exact hchain x row x

/-- A member that leaves a ring leaves its neighbours to each other. -/
theorem circle_cons_eq
    {x : Nat} {row : List Nat} (hrow : row ≠ []) :
    ∃ first last between, row.head? = some first ∧
      circle (x :: row) = (last, x) ::ₘ (x, first) ::ₘ between ∧
      circle row = (last, first) ::ₘ between := by
  obtain ⟨first, rest, rfl⟩ := List.exists_cons_of_ne_nil hrow
  rcases List.eq_nil_or_concat rest with rfl | ⟨init, last, rfl⟩
  · exact ⟨first, first, 0, rfl, Multiset.cons_swap _ _ 0, rfl⟩
  · refine ⟨first, last, chain first init last, rfl, ?_, ?_⟩
    · simp only [circle, chain, List.concat_eq_append, chain_append, ← Multiset.singleton_add]
      abel
    · simp only [circle, List.concat_eq_append, chain_append, chain, ← Multiset.singleton_add]
      abel

namespace Linked

variable {V : Multiset (Nat × Vertex κ)} {E : Multiset (Nat × Nat)} {a : Arena (Node κ)}

/-- The first member of a ring with its neighbours. -/
theorem ensures_first
    {x : Nat} {row : List Nat} (h : Linked free n V (circle (x :: row) + E) a) {v : Vertex κ}
    (hv : (x, v) ∈ V) :
    Ensures (node a x) fun y => y.toVertex = v ∧ y.right = row.headD x := by
  refine (Holds.ensures_node h hv).mono ?_
  rintro y ⟨hy, hright, -⟩
  refine ⟨hy, h.rights.unique hright ?_⟩
  cases row <;> simp [circle, chain]

/-- What is alone joins a ring right after its first member. -/
theorem ensures_join
    {anchor x : Nat} {row : List Nat}
    (h : Linked free n V (circle [x] + circle (anchor :: row) + E) a) :
    Ensures (spliceAfter a anchor x) (Linked free n V (circle (anchor :: x :: row) + E)) := by
  obtain ⟨right, rest, hrest⟩ : ∃ right rest, ∀ i, chain i row anchor = (i, right) ::ₘ rest := by
    cases row with
    | nil => exact ⟨anchor, 0, fun i => rfl⟩
    | cons y row => exact ⟨y, chain y row anchor, fun i => rfl⟩
  have hbefore : circle [x] + circle (anchor :: row) + E =
      (x, x) ::ₘ (anchor, right) ::ₘ (rest + E) := by
    simp only [circle, chain, hrest, ← Multiset.singleton_add]
    abel
  refine (h.congr rfl hbefore).ensures_spliceAfter.mono fun a ha => ha.congr rfl ?_
  simp only [circle, chain, hrest, ← Multiset.singleton_add]
  abel

/-- The first member of a ring leaves it. -/
theorem ensures_leave
    {x : Nat} {row : List Nat} (h : Linked free n V (circle (x :: row) + E) a) :
    Ensures (unlink a x) (Linked free n V (circle [x] + circle row + E)) := by
  by_cases hrow : row = []
  · subst hrow
    have hsame : circle [x] + E = (x, x) ::ₘ E := by
      rw [circle_singleton, Multiset.singleton_add]
    refine (h.congr rfl hsame).ensures_unlink_alone.mono fun a ha => ha.congr rfl ?_
    rw [circle_nil, add_zero, hsame]
  · obtain ⟨first, last, between, -, hring, hleft⟩ := circle_cons_eq (x := x) hrow
    have hbefore : circle (x :: row) + E = (last, x) ::ₘ (x, first) ::ₘ (between + E) := by
      rw [hring, Multiset.cons_add, Multiset.cons_add]
    refine (h.congr rfl hbefore).ensures_unlink.mono fun a ha => ha.congr rfl ?_
    simp only [hleft, circle_singleton, ← Multiset.singleton_add]
    abel

/-- A walk along links stops before `start`, which it has not met before. -/
theorem ensures_ringFrom
    (h : Linked free n V E a) {start i fuel : Nat} {row : List Nat}
    (hlinks : chain i row start ≤ E) (hstart : start ∉ row) (hfuel : row.length < fuel) :
    Ensures (ringFrom a start fuel i) (· = i :: row) := by
  induction row generalizing i fuel with
  | nil =>
      obtain ⟨fuel, rfl⟩ := Nat.exists_eq_add_of_lt hfuel
      have hright : (i, start) ∈ E := Multiset.mem_of_le hlinks (Multiset.mem_singleton_self _)
      obtain ⟨v, hv⟩ := Holds.exists_vertex h hright
      refine (Holds.ensures_node h hv).bind ?_
      rintro x ⟨-, hx, -⟩
      rw [if_pos (h.right_unique hx hright)]
      exact .pure rfl
  | cons y row ih =>
      obtain ⟨fuel, rfl⟩ := Nat.exists_eq_add_of_lt hfuel
      have hright : (i, y) ∈ E := Multiset.mem_of_le hlinks (Multiset.mem_cons_self _ _)
      obtain ⟨v, hv⟩ := Holds.exists_vertex h hright
      refine (Holds.ensures_node h hv).bind ?_
      rintro x ⟨-, hx, -⟩
      rw [h.right_unique hx hright, if_neg (List.ne_of_not_mem_cons hstart).symm]
      have hrest := ih (le_trans (Multiset.le_cons_self _ _) hlinks)
        (List.not_mem_of_not_mem_cons hstart)
        (Nat.lt_of_lt_of_le (Nat.lt_succ_self _) (Nat.le_add_right _ fuel))
      refine hrest.bind ?_
      rintro _ rfl
      exact .pure rfl

end Linked
end LinkedHeap
end CallbackLoop
