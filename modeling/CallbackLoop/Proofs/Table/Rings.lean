import CallbackLoop.LinkedTable
import CallbackLoop.Proofs.Arena.Map
import CallbackLoop.Proofs.Heap.Links

/-!
# The rings of a linked table

The links of a list are seen as two graphs, one of the slots and those after them, one of
the slots and those before them.  Every stored descriptor has a pair in both, on the list
or not; the pairs of those on the list are the circle of the list.

Writing to a place replaces a pair.  `pushBack_spec` and `unlink_spec` say what becomes of
a ring when a slot is put at its end and when one is taken out, and that nothing else
changes.  `read_eq` and `readBack_eq` say that a walk round the ring, forward or backward,
meets the slots of the list in order.
-/

namespace CallbackLoop
namespace LinkedTable

open LinkedHeap

variable {R H : Type} {l l' l'' : LinkedTable R H} {roll : Roll} {i : Nat} {p : Place}

/-- A step that goes well is followed by the next one. -/
@[simp] theorem ok_bind
    {α β : Type} (x : α) (f : α → Except Defect β) :
    (Except.ok x >>= f) = f x :=
  rfl

theorem pure_eq
    {α : Type} (x : α) :
    (pure x : Except Defect α) = .ok x :=
  rfl

/-- Where the descriptor in slot `i` stands on a list, if there is one. -/
def places (l : LinkedTable R H) (roll : Roll) (i : Nat) : Option Place :=
  (l.entries.get? i).map (·.place roll)

def nexts (l : LinkedTable R H) (roll : Roll) (i : Nat) : Option Nat :=
  (l.places roll i).map Place.next

def prevs (l : LinkedTable R H) (roll : Roll) (i : Nat) : Option Nat :=
  (l.places roll i).map Place.prev

/-- Whether the descriptor in slot `i` is marked as being on a list. -/
def listed (l : LinkedTable R H) (roll : Roll) (i : Nat) : Bool :=
  (l.places roll i).any Place.listed

@[simp] theorem ring_setRing
    (l : LinkedTable R H) (roll other : Roll) (r : RingHead) :
    (l.setRing roll r).ring other = if other = roll then r else l.ring other := by
  cases roll <;> cases other <;> rfl

@[simp] theorem setRing_setRing
    (l : LinkedTable R H) (roll : Roll) (r r' : RingHead) :
    (l.setRing roll r).setRing roll r' = l.setRing roll r' := by
  cases roll <;> rfl

@[simp] theorem entries_setRing
    (l : LinkedTable R H) (roll : Roll) (r : RingHead) :
    (l.setRing roll r).entries = l.entries := by
  cases roll <;> rfl

@[simp] theorem slots_setRing
    (l : LinkedTable R H) (roll : Roll) (r : RingHead) :
    (l.setRing roll r).slots = l.slots := by
  cases roll <;> rfl

@[simp] theorem places_setRing
    (l : LinkedTable R H) (roll : Roll) (r : RingHead) :
    (l.setRing roll r).places = l.places := by
  funext other i
  simp [places]

@[simp] theorem listed_setRing
    (l : LinkedTable R H) (roll : Roll) (r : RingHead) :
    (l.setRing roll r).listed = l.listed := by
  funext other i
  simp [listed]

theorem place_eq
    (hp : l.places roll i = some p) :
    l.place roll i = .ok p := by
  obtain ⟨e, he, rfl⟩ := Option.map_eq_some_iff.1 hp
  simp [place, entry, he, pure, Except.pure]

/-- Two tables differ in the ring of one list at most. -/
structure OnlyRing (roll : Roll) (l l' : LinkedTable R H) : Prop where
  slots : l'.slots = l.slots
  stored : l'.entries.map Entry.descriptor = l.entries.map Entry.descriptor
  ring : ∀ other, other ≠ roll → l'.ring other = l.ring other
  places : ∀ other, other ≠ roll → l'.places other = l.places other

namespace OnlyRing

theorem refl
    (roll : Roll) (l : LinkedTable R H) :
    OnlyRing roll l l :=
  ⟨rfl, rfl, fun _ _ => rfl, fun _ _ => rfl⟩

theorem trans
    (h : OnlyRing roll l l') (h' : OnlyRing roll l' l'') :
    OnlyRing roll l l'' :=
  ⟨h'.slots.trans h.slots, h'.stored.trans h.stored,
    fun other hne => (h'.ring other hne).trans (h.ring other hne),
    fun other hne => (h'.places other hne).trans (h.places other hne)⟩

theorem setRing
    (h : OnlyRing roll l l') (r : RingHead) :
    OnlyRing roll l (l'.setRing roll r) := by
  refine ⟨?_, ?_, fun other hne => ?_, fun other hne => ?_⟩
  · rw [slots_setRing, h.slots]
  · rw [entries_setRing, h.stored]
  · rw [ring_setRing, if_neg hne, h.ring other hne]
  · rw [places_setRing, h.places other hne]

end OnlyRing

theorem ring_setEntry
    (l : LinkedTable R H) (i : Nat) (e : Entry R H) (other : Roll) :
    (l.setEntry i e).ring other = l.ring other := by
  cases other <;> rfl

theorem places_setEntry
    {e : Entry R H} (he : l.entries.get? i = some e) (e' : Entry R H) (other : Roll) (j : Nat) :
    (l.setEntry i e').places other j =
      if i = j then some (e'.place other) else l.places other j := by
  have hocc : l.entries.contains i = true := Arena.contains_iff.2 ⟨e, he⟩
  simp only [places, setEntry, Arena.get?_set, hocc, and_true]
  split <;> rfl

/-- A write to one place changes nothing else. -/
theorem alter_spec
    (hp : l.places roll i = some p) (f : Place → Place) :
    ∃ l', l.alter roll i f = .ok l' ∧ OnlyRing roll l l' ∧ l'.ring roll = l.ring roll ∧
      ∀ j, l'.places roll j = if i = j then some (f p) else l.places roll j := by
  obtain ⟨e, he, rfl⟩ := Option.map_eq_some_iff.1 hp
  refine ⟨l.setEntry i (e.setPlace roll (f (e.place roll))), ?_, ⟨rfl, ?_, ?_, ?_⟩,
    ring_setEntry _ _ _ _, fun j => ?_⟩
  · simp [alter, entry, he, pure, Except.pure]
  · exact Arena.map_set_of_eq _ _ he (Entry.descriptor_setPlace e _ _)
  · exact fun other _ => ring_setEntry _ _ _ other
  · intro other hne
    funext j
    rw [places_setEntry he, Entry.place_setPlace, if_neg hne]
    split
    next hij =>
        rw [← hij, places, he]
        rfl
    next =>
        rfl
  · rw [places_setEntry he, Entry.place_setPlace, if_pos rfl]

/-- The slots of a list with those after them and with those before them. -/
structure Graphs (l : LinkedTable R H) (roll : Roll) (N P : Multiset (Nat × Nat)) : Prop where
  nexts : Graph (l.nexts roll) N
  prevs : Graph (l.prevs roll) P

/-- The links of a list were changed, and neither its head nor who is on it. -/
structure Relinked (roll : Roll) (l l' : LinkedTable R H) : Prop
    extends OnlyRing roll l l' where
  ring_eq : l'.ring roll = l.ring roll
  listed : l'.listed roll = l.listed roll

theorem Relinked.trans
    (h : Relinked roll l l') (h' : Relinked roll l' l'') :
    Relinked roll l l'' :=
  ⟨h.toOnlyRing.trans h'.toOnlyRing, h'.ring_eq.trans h.ring_eq, h'.listed.trans h.listed⟩

namespace Graphs

variable {N P : Multiset (Nat × Nat)} {j k : Nat}

theorem congr
    {N' P' : Multiset (Nat × Nat)} (h : Graphs l roll N P) (hN : N = N') (hP : P = P') :
    Graphs l roll N' P' :=
  hN ▸ hP ▸ h

/-- The place that a pair belongs to. -/
theorem exists_place
    (h : Graphs l roll N P) (hN : (i, j) ∈ N) (hP : (i, k) ∈ P) :
    ∃ p, l.places roll i = some p ∧ p.next = j ∧ p.prev = k := by
  obtain ⟨p, hp, hnext⟩ := Option.map_eq_some_iff.1 ((h.nexts.mem_iff i j).1 hN)
  obtain ⟨q, hq, hprev⟩ := Option.map_eq_some_iff.1 ((h.prevs.mem_iff i k).1 hP)
  cases hp.symm.trans hq
  exact ⟨p, hp, hnext, hprev⟩

/-- New neighbours of one slot replace its pairs. -/
theorem alter
    (h : Graphs l roll ((i, j) ::ₘ N) ((i, k) ::ₘ P)) {f : Place → Place} {j' k' : Nat}
    (hf : ∀ b, f ⟨b, k, j⟩ = ⟨b, k', j'⟩) :
    ∃ l', l.alter roll i f = .ok l' ∧ Relinked roll l l' ∧
      Graphs l' roll ((i, j') ::ₘ N) ((i, k') ::ₘ P) := by
  obtain ⟨⟨b, prev, next⟩, hp, rfl, rfl⟩ :=
    h.exists_place (Multiset.mem_cons_self _ _) (Multiset.mem_cons_self _ _)
  obtain ⟨l', halter, honly, hring, hplaces⟩ := alter_spec hp f
  rw [hf] at hplaces
  refine ⟨l', halter, ⟨honly, hring, ?_⟩, h.nexts.update fun x => ?_, h.prevs.update fun x => ?_⟩
  · funext x
    rw [listed, listed, hplaces]
    split
    next hix =>
        rw [← hix, hp]
        rfl
    next =>
        rfl
  · rw [LinkedTable.nexts, hplaces]
    split <;> rfl
  · rw [LinkedTable.prevs, hplaces]
    split <;> rfl

theorem alter_next
    (h : Graphs l roll ((i, j) ::ₘ N) P) (j' : Nat) :
    ∃ l', l.alter roll i ({ · with next := j' }) = .ok l' ∧ Relinked roll l l' ∧
      Graphs l' roll ((i, j') ::ₘ N) P := by
  obtain ⟨p, hp, -⟩ := Option.map_eq_some_iff.1 ((h.nexts.mem_iff i j).1 (by simp))
  have hprev : (i, p.prev) ∈ P := (h.prevs.mem_iff _ _).2 (by rw [LinkedTable.prevs, hp]; rfl)
  obtain ⟨P, rfl⟩ := Multiset.exists_cons_of_mem hprev
  exact h.alter fun _ => rfl

theorem alter_prev
    (h : Graphs l roll N ((i, k) ::ₘ P)) (k' : Nat) :
    ∃ l', l.alter roll i ({ · with prev := k' }) = .ok l' ∧ Relinked roll l l' ∧
      Graphs l' roll N ((i, k') ::ₘ P) := by
  obtain ⟨p, hp, -⟩ := Option.map_eq_some_iff.1 ((h.prevs.mem_iff i k).1 (by simp))
  have hnext : (i, p.next) ∈ N := (h.nexts.mem_iff _ _).2 (by rw [LinkedTable.nexts, hp]; rfl)
  obtain ⟨N, rfl⟩ := Multiset.exists_cons_of_mem hnext
  exact h.alter fun _ => rfl

theorem setRing
    (h : Graphs l roll N P) (r : RingHead) :
    Graphs (l.setRing roll r) roll N P := by
  refine ⟨?_, ?_⟩
  · have hnexts : (l.setRing roll r).nexts roll = l.nexts roll := by
      funext x
      rw [LinkedTable.nexts, places_setRing, LinkedTable.nexts]
    exact hnexts ▸ h.nexts
  · have hprevs : (l.setRing roll r).prevs roll = l.prevs roll := by
      funext x
      rw [LinkedTable.prevs, places_setRing, LinkedTable.prevs]
    exact hprevs ▸ h.prevs

end Graphs

/-- The slots before those of a row, in the row's order backwards. -/
theorem map_swap_circle
    (row : List Nat) :
    (circle row).map Prod.swap = circle row.reverse := by
  have hchain : ∀ (i : Nat) (row : List Nat) (j : Nat),
      (chain i row j).map Prod.swap = chain j row.reverse i := by
    intro i row j
    induction row generalizing i with
    | nil =>
        rfl
    | cons x row ih =>
        rw [chain, Multiset.map_cons, ih, List.reverse_cons, chain_append, add_comm]
        exact (Multiset.singleton_add _ _).symm
  cases row with
  | nil =>
      rfl
  | cons x row =>
      rw [circle, hchain, List.reverse_cons, circle_append_comm]
      rfl

/-- The ring of a list leads round its slots, and its head and its length are recorded. -/
structure Rings (l : LinkedTable R H) (roll : Roll) (list : List Nat) : Prop where
  graphs : ∃ N P, Graphs l roll (circle list + N) ((circle list).map Prod.swap + P)
  head : (l.ring roll).head = list.head?
  length : (l.ring roll).length = list.length

namespace Rings

variable {list : List Nat}

theorem nodup
    (h : Rings l roll list) :
    list.Nodup := by
  obtain ⟨N, P, hgraphs⟩ := h.graphs
  have hnodup := hgraphs.nexts.nodup
  rw [Multiset.map_add, map_fst_circle, Multiset.nodup_add] at hnodup
  exact hnodup.1

/-- Only stored descriptors are on a list. -/
theorem exists_place
    (h : Rings l roll list) (hi : i ∈ list) :
    ∃ p, l.places roll i = some p := by
  obtain ⟨N, P, hgraphs⟩ := h.graphs
  rw [← Multiset.mem_coe, ← map_fst_circle] at hi
  obtain ⟨⟨_, j⟩, hij, rfl⟩ := Multiset.mem_map.1 hi
  obtain ⟨p, hp, -⟩ := Option.map_eq_some_iff.1
    ((hgraphs.nexts.mem_iff _ j).1 (Multiset.mem_add.2 (.inl hij)))
  exact ⟨p, hp⟩

/-- The neighbours of a slot that is not on the list are of no account. -/
theorem graphs_of_not_mem
    (h : Rings l roll list) (hp : l.places roll i = some p) (hi : i ∉ list) :
    ∃ N P, Graphs l roll ((i, p.next) ::ₘ (circle list + N))
      ((i, p.prev) ::ₘ ((circle list).map Prod.swap + P)) := by
  obtain ⟨N, P, hgraphs⟩ := h.graphs
  have hout : ∀ {row : List Nat} {j : Nat}, i ∉ row → (i, j) ∉ circle row := by
    intro row j hrow hmem
    have := Multiset.mem_map_of_mem Prod.fst hmem
    rw [map_fst_circle] at this
    exact hrow this
  have hnext : (i, p.next) ∈ N := by
    have hmem := (hgraphs.nexts.mem_iff i p.next).2 (by rw [nexts, hp]; rfl)
    exact (Multiset.mem_add.1 hmem).resolve_left (hout hi)
  have hprev : (i, p.prev) ∈ P := by
    have hmem := (hgraphs.prevs.mem_iff i p.prev).2 (by rw [prevs, hp]; rfl)
    rw [map_swap_circle] at hmem
    exact (Multiset.mem_add.1 hmem).resolve_left (hout (by simpa using hi))
  obtain ⟨N, rfl⟩ := Multiset.exists_cons_of_mem hnext
  obtain ⟨P, rfl⟩ := Multiset.exists_cons_of_mem hprev
  exact ⟨N, P, hgraphs.congr (Multiset.add_cons _ _ _) (Multiset.add_cons _ _ _)⟩

/-- A slot that is not on the list joins its ring at the end. -/
theorem pushBack_spec
    (h : Rings l roll list) (hp : l.places roll i = some p) (hi : i ∉ list) :
    ∃ l', l.pushBack roll i = .ok l' ∧ OnlyRing roll l l' ∧ l'.listed roll = l.listed roll ∧
      Rings l' roll (list ++ [i]) := by
  obtain ⟨N, P, hgraphs⟩ := h.graphs_of_not_mem hp hi
  have hcircle : circle (list ++ [i]) = circle (i :: list) := circle_append_comm list [i]
  cases list with
  | nil =>
      obtain ⟨l₁, hlink, hrel, hgraphs⟩ := hgraphs.alter (f := ({ · with prev := i, next := i }))
        fun _ => rfl
      refine ⟨l₁.setRing roll { head := some i, length := 1 }, ?_, hrel.toOnlyRing.setRing _,
        ?_, ⟨N, P, (hgraphs.setRing _).congr ?_ ?_⟩, ?_, ?_⟩
      · have hlength : (l₁.ring roll).length = 0 := by
          rw [hrel.ring_eq, h.length]
          rfl
        simp [pushBack, h.head, hlink, hlength, pure, Except.pure]
      · rw [listed_setRing, hrel.listed]
      · simp
      · simp
      · simp
      · simp
  | cons head rest =>
      obtain ⟨_, tail, between, hhead, hring, hbefore⟩ :=
        circle_cons_eq (x := i) (List.cons_ne_nil head rest)
      cases hhead
      rw [hbefore] at hgraphs
      simp only [Multiset.map_cons, Prod.swap_prod_mk, Multiset.cons_add] at hgraphs
      obtain ⟨q, hq, htail⟩ := Option.map_eq_some_iff.1
        ((hgraphs.prevs.mem_iff head tail).1 (by simp))
      obtain ⟨l₁, hlink, hrel₁, hgraphs⟩ := hgraphs.alter
        (f := ({ · with prev := tail, next := head })) fun _ => rfl
      obtain ⟨l₂, hnext, hrel₂, hgraphs⟩ :=
        (hgraphs.congr (Multiset.cons_swap _ _ _) rfl).alter_next i
      obtain ⟨l₃, hprev, hrel₃, hgraphs⟩ :=
        (hgraphs.congr rfl (Multiset.cons_swap _ _ _)).alter_prev i
      have hrel := (hrel₁.trans hrel₂).trans hrel₃
      refine ⟨l₃.setRing roll { head := some head, length := rest.length + 2 }, ?_,
        hrel.toOnlyRing.setRing _, ?_, ⟨N, P, (hgraphs.setRing _).congr ?_ ?_⟩, ?_, ?_⟩
      · have hhead : (l.ring roll).head = some head := h.head
        rw [pushBack]
        simp only [hhead, place_eq hq, ok_bind, htail, hlink, hnext, hprev, hrel.ring_eq, h.length]
        rfl
      · rw [listed_setRing, hrel.listed]
      · rw [hcircle, hring, Multiset.cons_add, Multiset.cons_add]
      · rw [hcircle, hring]
        simp only [Multiset.map_cons, Prod.swap_prod_mk, Multiset.cons_add]
        exact Multiset.cons_swap _ _ _
      · simp
      · simp

/-- The circle closes without a slot, whose own links stay. -/
theorem bypass_spec
    {before after : List Nat} (h : Rings l roll (before ++ i :: after)) :
    ∃ l', l.bypass roll i = .ok l' ∧ OnlyRing roll l l' ∧ l'.listed roll = l.listed roll ∧
      l'.ring roll = { l.ring roll with head := (before ++ after).head? } ∧
      ∃ j k N P, Graphs l' roll ((i, j) ::ₘ (circle (before ++ after) + N))
        ((i, k) ::ₘ ((circle (before ++ after)).map Prod.swap + P)) := by
  obtain ⟨N, P, hgraphs⟩ := h.graphs
  have hnodup := h.nodup
  have hcircle : circle (before ++ i :: after) = circle (i :: (after ++ before)) :=
    circle_append_comm before (i :: after)
  rw [hcircle] at hgraphs
  rw [circle_append_comm before after]
  by_cases hrest : after ++ before = []
  · obtain ⟨rfl, rfl⟩ := List.append_eq_nil_iff.1 hrest
    obtain ⟨p, hp, hnext, -⟩ := hgraphs.exists_place (i := i) (j := i) (k := i)
      (by simp) (by simp)
    refine ⟨l.setRing roll { l.ring roll with head := none }, ?_, (OnlyRing.refl roll l).setRing _,
      by simp, by simp, i, i, N, P, (hgraphs.setRing _).congr (by simp) (by simp)⟩
    simp only [bypass, place_eq hp, ok_bind, hnext, if_true, pure_eq]
  · obtain ⟨first, last, between, hfirst, hring, hwithout⟩ := circle_cons_eq (x := i) hrest
    rw [hring] at hgraphs
    simp only [Multiset.map_cons, Prod.swap_prod_mk, Multiset.cons_add] at hgraphs
    obtain ⟨p, hp, hnext, hprev⟩ := hgraphs.exists_place (i := i) (j := first) (k := last)
      (by simp) (by simp)
    obtain ⟨l₁, hlink₁, hrel₁, hgraphs⟩ := hgraphs.alter_next first
    obtain ⟨l₂, hlink₂, hrel₂, hgraphs⟩ :=
      (hgraphs.congr rfl (Multiset.cons_swap _ _ _)).alter_prev last
    have hrel := hrel₁.trans hrel₂
    have hgraphs₂ : Graphs l₂ roll ((i, first) ::ₘ (circle (after ++ before) + N))
        ((i, last) ::ₘ ((circle (after ++ before)).map Prod.swap + P)) := by
      refine hgraphs.congr ?_ ?_
      · rw [hwithout, Multiset.cons_add, Multiset.cons_swap]
      · rw [hwithout, Multiset.map_cons, Multiset.cons_add, Multiset.cons_swap]
        rfl
    have hrow : (i :: (after ++ before)).Nodup := by
      have hperm : (before ++ i :: after).Perm (i :: after ++ before) := List.perm_append_comm
      exact hperm.nodup_iff.1 hnodup
    have hne : ¬ first = i := by
      rintro rfl
      exact (List.nodup_cons.1 hrow).1 (List.mem_of_head? hfirst)
    cases before with
    | nil =>
        have hhead : (l.ring roll).head = some i := h.head
        have hafter : after.head? = some first := by simpa using hfirst
        refine ⟨l₂.setRing roll { l.ring roll with head := some first }, ?_,
          hrel.toOnlyRing.setRing _, ?_, ?_, first, last, N, P, hgraphs₂.setRing _⟩
        · simp [bypass, place_eq hp, hnext, hprev, hne, hlink₁, hlink₂, hrel.ring_eq, hhead,
            pure_eq]
        · rw [listed_setRing, hrel.listed]
        · simp [hafter]
    | cons head before =>
        have hhead : (l.ring roll).head = some head := h.head
        have hne' : ¬ head = i := by
          rintro rfl
          exact (List.nodup_cons.1 hrow).1 (by simp)
        refine ⟨l₂, ?_, hrel.toOnlyRing, hrel.listed, ?_, first, last, N, P, hgraphs₂⟩
        · simp [bypass, place_eq hp, hnext, hprev, hne, hlink₁, hlink₂, hrel.ring_eq, hhead,
            hne', pure_eq]
        · rw [hrel.ring_eq]
          simp [← hhead]

/-- A slot leaves its ring, and the others stay in their order. -/
theorem unlink_spec
    {before after : List Nat} (h : Rings l roll (before ++ i :: after)) :
    ∃ l', l.unlink roll i = .ok l' ∧ OnlyRing roll l l' ∧ l'.listed roll = l.listed roll ∧
      Rings l' roll (before ++ after) := by
  obtain ⟨l₁, hbypass, honly, hlisted, hring, j, k, N, P, hgraphs⟩ := h.bypass_spec
  obtain ⟨l₂, halter, hrel, hgraphs⟩ := hgraphs.alter (f := ({ · with prev := i, next := i }))
    fun _ => rfl
  have hlength : (l.ring roll).length = (before ++ after).length + 1 := by
    rw [h.length]
    simp
    omega
  refine ⟨l₂.setRing roll ⟨(before ++ after).head?, (before ++ after).length⟩, ?_,
    (honly.trans hrel.toOnlyRing).setRing _, ?_,
    ⟨(i, i) ::ₘ N, (i, i) ::ₘ P, (hgraphs.setRing _).congr ?_ ?_⟩, by simp, by simp⟩
  · simp [unlink, hbypass, halter, hrel.ring_eq, hring, hlength, pure_eq]
  · rw [listed_setRing, hrel.listed, hlisted]
  · rw [Multiset.add_cons]
  · rw [Multiset.add_cons]

/-- A walk along links stops before `start`, which it has not met before. -/
theorem walk_eq
    {step : Place → Nat} {start cursor fuel : Nat} {row : List Nat}
    (hlinks : ∀ x y, (x, y) ∈ chain cursor row start → (l.places roll x).map step = some y)
    (hstart : start ∉ row) (hfuel : row.length < fuel) :
    l.walk roll step start fuel cursor = .ok (cursor :: row) := by
  induction row generalizing cursor fuel with
  | nil =>
      obtain ⟨fuel, rfl⟩ := Nat.exists_eq_add_of_lt hfuel
      obtain ⟨p, hp, hstep⟩ := Option.map_eq_some_iff.1 (hlinks cursor start (by simp [chain]))
      simp [walk, place_eq hp, hstep, pure_eq]
  | cons y row ih =>
      obtain ⟨fuel, rfl⟩ := Nat.exists_eq_add_of_lt hfuel
      obtain ⟨p, hp, hstep⟩ := Option.map_eq_some_iff.1 (hlinks cursor y (by simp [chain]))
      have hrest : l.walk roll step start (row.length + 1 + fuel) y = .ok (y :: row) :=
        ih (fun x z hxz => hlinks x z (by simp [chain, hxz]))
          (List.not_mem_of_not_mem_cons hstart) (by omega)
      have hne : ¬ y = start := fun heq => hstart (by simp [heq])
      simp only [walk, List.length_cons, place_eq hp, ok_bind, hstep, if_neg hne, hrest, pure_eq]

/-- There are enough rounds to go round a ring. -/
theorem length_lt_rounds
    (h : Rings l roll list) :
    list.length < l.rounds := by
  have hsub : list ⊆ List.range l.entries.slots.size := by
    intro i hi
    obtain ⟨p, hp⟩ := h.exists_place hi
    obtain ⟨e, he, -⟩ := Option.map_eq_some_iff.1 hp
    exact List.mem_range.2 (Arena.lt_size_of_get? he)
  have hle := (List.subperm_of_subset h.nodup hsub).length_le
  rw [List.length_range] at hle
  exact Nat.lt_succ_of_le hle

/-- The list can be read off its ring. -/
theorem read_eq
    (h : Rings l roll list) :
    l.read roll = .ok list := by
  obtain ⟨N, P, hgraphs⟩ := h.graphs
  cases list with
  | nil =>
      have hhead : (l.ring roll).head = none := h.head
      simp [read, hhead, pure_eq]
  | cons head rest =>
      have hhead : (l.ring roll).head = some head := h.head
      rw [read, hhead]
      refine walk_eq (fun x y hxy => ?_) (List.nodup_cons.1 h.nodup).1 ?_
      · exact (hgraphs.nexts.mem_iff x y).1 (Multiset.mem_add.2 (.inl hxy))
      · exact Nat.lt_of_succ_lt h.length_lt_rounds

/-- Read backwards, it is the list in reverse. -/
theorem readBack_eq
    (h : Rings l roll list) :
    l.readBack roll = .ok list.reverse := by
  obtain ⟨N, P, hgraphs⟩ := h.graphs
  rw [map_swap_circle] at hgraphs
  have hnodup := List.nodup_reverse.2 h.nodup
  have hlength := h.length_lt_rounds
  rw [← List.length_reverse] at hlength
  cases list with
  | nil =>
      have hhead : (l.ring roll).head = none := h.head
      simp [readBack, hhead, pure_eq]
  | cons head rest =>
      have hhead : (l.ring roll).head = some head := h.head
      obtain ⟨tail, row, hrow⟩ := List.exists_cons_of_ne_nil
        (List.reverse_ne_nil_iff.2 (List.cons_ne_nil head rest))
      have htail : (head, tail) ∈ circle (head :: rest).reverse := by
        rw [List.reverse_cons] at hrow ⊢
        rw [circle_append_comm]
        cases hrest : rest.reverse with
        | nil =>
            rw [hrest] at hrow
            cases hrow
            simp
        | cons x xs =>
            rw [hrest] at hrow
            cases hrow
            simp [circle, chain]
      obtain ⟨p, hp, hprev⟩ := Option.map_eq_some_iff.1
        ((hgraphs.prevs.mem_iff head tail).1 (Multiset.mem_add.2 (.inl htail)))
      rw [hrow] at hgraphs hnodup hlength ⊢
      simp only [readBack, hhead, place_eq hp, ok_bind, hprev]
      refine walk_eq (fun x y hxy => ?_) (List.nodup_cons.1 hnodup).1 ?_
      · exact (hgraphs.prevs.mem_iff x y).1 (Multiset.mem_add.2 (.inl hxy))
      · exact Nat.lt_of_succ_lt hlength

end Rings

/-- Exactly the descriptors in the ring of a list are marked as being on it. -/
structure Lists (l : LinkedTable R H) (roll : Roll) (list : List Nat) : Prop
    extends Rings l roll list where
  listed : ∀ i, l.listed roll i = true ↔ i ∈ list

/-- A list is where nothing of it was changed. -/
theorem Lists.of_eq
    {list : List Nat} (h : Lists l roll list) (hring : l'.ring roll = l.ring roll)
    (hplaces : l'.places roll = l.places roll) :
    Lists l' roll list := by
  have hlisted : l'.listed roll = l.listed roll := by
    funext i
    rw [LinkedTable.listed, hplaces, LinkedTable.listed]
  have hnexts : l'.nexts roll = l.nexts roll := by
    funext i
    rw [nexts, hplaces, nexts]
  have hprevs : l'.prevs roll = l.prevs roll := by
    funext i
    rw [prevs, hplaces, prevs]
  obtain ⟨N, P, hN, hP⟩ := h.graphs
  exact ⟨⟨⟨N, P, hnexts ▸ hN, hprevs ▸ hP⟩, hring ▸ h.head, hring ▸ h.length⟩,
    fun i => hlisted ▸ h.listed i⟩

/-- A mark leaves the rings alone. -/
theorem Rings.mark_spec
    {list : List Nat} (h : Rings l roll list) (hp : l.places roll i = some p) (b : Bool) :
    ∃ l', l.alter roll i ({ · with listed := b }) = .ok l' ∧ OnlyRing roll l l' ∧
      Rings l' roll list ∧ ∀ j, l'.listed roll j = if i = j then b else l.listed roll j := by
  obtain ⟨l', halter, honly, hring, hplaces⟩ := alter_spec hp ({ · with listed := b })
  obtain ⟨N, P, hN, hP⟩ := h.graphs
  have hnexts : l'.nexts roll = l.nexts roll := by
    funext j
    rw [nexts, hplaces]
    split
    next hij =>
        rw [nexts, ← hij, hp]
        rfl
    next =>
        rfl
  have hprevs : l'.prevs roll = l.prevs roll := by
    funext j
    rw [prevs, hplaces]
    split
    next hij =>
        rw [prevs, ← hij, hp]
        rfl
    next =>
        rfl
  refine ⟨l', halter, honly,
    ⟨⟨N, P, hnexts ▸ hN, hprevs ▸ hP⟩, hring ▸ h.head, hring ▸ h.length⟩, fun j => ?_⟩
  rw [listed, hplaces]
  split <;> rfl

namespace Lists

variable {list : List Nat}

theorem listed_eq
    (h : Lists l roll list) (hp : l.places roll i = some p) :
    p.listed = true ↔ i ∈ list := by
  rw [← h.listed i, LinkedTable.listed, hp]
  rfl

/-- A slot that is not on a list is put at its end. -/
theorem join_spec
    (h : Lists l roll list) (hp : l.places roll i = some p) :
    ∃ l', l.join roll i = .ok l' ∧ OnlyRing roll l l' ∧ Lists l' roll (enlist list i) := by
  by_cases hi : i ∈ list
  · refine ⟨l, ?_, .refl roll l, ?_⟩
    · simp [join, place_eq hp, (h.listed_eq hp).2 hi, pure_eq]
    · rwa [enlist, if_pos hi]
  · obtain ⟨l₁, hpush, honly₁, hlisted₁, hrings₁⟩ := h.toRings.pushBack_spec hp hi
    obtain ⟨q, hq⟩ := hrings₁.exists_place (i := i) (by simp)
    obtain ⟨l₂, hmark, honly₂, hrings₂, hlisted₂⟩ := hrings₁.mark_spec hq true
    have hunlisted : p.listed = false := Bool.eq_false_iff.2 (mt (h.listed_eq hp).1 hi)
    refine ⟨l₂, ?_, honly₁.trans honly₂, ?_⟩
    · simp [join, place_eq hp, hunlisted, hpush, hmark]
    · rw [enlist, if_neg hi]
      refine ⟨hrings₂, fun j => ?_⟩
      rw [hlisted₂, hlisted₁, List.mem_append, List.mem_singleton]
      by_cases hij : i = j
      · simp [hij]
      · simp [hij, h.listed j, Ne.symm hij]

/-- A slot that is on a list is taken off it. -/
theorem drop_spec
    {before after : List Nat} (h : Lists l roll (before ++ i :: after)) :
    ∃ l', l.drop roll i = .ok l' ∧ OnlyRing roll l l' ∧ Lists l' roll (before ++ after) := by
  obtain ⟨p, hp⟩ := h.toRings.exists_place (i := i) (by simp)
  obtain ⟨l₁, hunlink, honly₁, hlisted₁, hrings₁⟩ := h.toRings.unlink_spec
  have hmarked : l₁.listed roll i = true := by
    rw [hlisted₁]
    exact (h.listed i).2 (by simp)
  obtain ⟨q, hq, -⟩ := (Option.any_eq_true _ _).1 hmarked
  obtain ⟨l₂, hmark, honly₂, hrings₂, hlisted₂⟩ := hrings₁.mark_spec hq false
  refine ⟨l₂, ?_, honly₁.trans honly₂, hrings₂, fun j => ?_⟩
  · simp [drop, hunlink, hmark]
  · have hnodup := (List.perm_middle.nodup_iff).1 h.toRings.nodup
    rw [hlisted₂, hlisted₁]
    by_cases hij : i = j
    · subst hij
      simpa using (List.nodup_cons.1 hnodup).1
    · rw [if_neg hij, h.listed j]
      simp [Ne.symm hij]

/-- A slot is taken off a list if it is on it. -/
theorem leave_spec
    (h : Lists l roll list) (hp : l.places roll i = some p) :
    ∃ l', l.leave roll i = .ok l' ∧ OnlyRing roll l l' ∧ Lists l' roll (list.erase i) := by
  by_cases hi : i ∈ list
  · obtain ⟨before, after, rfl⟩ := List.append_of_mem hi
    obtain ⟨l', hdrop, honly, hlists⟩ := h.drop_spec
    have hbefore : i ∉ before := fun hmem =>
      (List.nodup_append.1 h.toRings.nodup).2.2 i hmem i List.mem_cons_self rfl
    refine ⟨l', ?_, honly, ?_⟩
    · simp [leave, place_eq hp, (h.listed_eq hp).2 hi, hdrop]
    · rwa [List.erase_append_right _ hbefore, List.erase_cons_head]
  · have hunlisted : p.listed = false := Bool.eq_false_iff.2 (mt (h.listed_eq hp).1 hi)
    refine ⟨l, ?_, .refl roll l, ?_⟩
    · simp [leave, place_eq hp, hunlisted, pure_eq]
    · rwa [List.erase_of_not_mem hi]

/-- A new descriptor is on no list. -/
theorem of_insert
    (h : Lists l roll list) (hi : l.places roll i = none)
    (hplaces : ∀ j, l'.places roll j = if i = j then some {} else l.places roll j)
    (hring : l'.ring roll = l.ring roll) :
    Lists l' roll list := by
  obtain ⟨N, P, hN, hP⟩ := h.graphs
  refine ⟨⟨⟨(i, 0) ::ₘ N, (i, 0) ::ₘ P, ⟨?_, ?_⟩⟩, hring ▸ h.head, hring ▸ h.length⟩,
    fun j => ?_⟩
  · rw [Multiset.add_cons]
    refine hN.insert (by rw [nexts, hi]; rfl) fun j => ?_
    rw [nexts, hplaces]
    split <;> rfl
  · rw [Multiset.add_cons]
    refine hP.insert (by rw [prevs, hi]; rfl) fun j => ?_
    rw [prevs, hplaces]
    split <;> rfl
  · rw [← h.listed, LinkedTable.listed, LinkedTable.listed, hplaces]
    split
    next hij =>
        rw [← hij, hi]
        simp
    next =>
        rfl

/-- Nothing of a list changes when a descriptor that is not on it is taken out. -/
theorem of_erase
    (h : Lists l roll list) (hp : l.places roll i = some p) (hi : i ∉ list)
    (hplaces : ∀ j, l'.places roll j = if i = j then none else l.places roll j)
    (hring : l'.ring roll = l.ring roll) :
    Lists l' roll list := by
  obtain ⟨N, P, hN, hP⟩ := h.toRings.graphs_of_not_mem hp hi
  refine ⟨⟨⟨N, P, ⟨?_, ?_⟩⟩, hring ▸ h.head, hring ▸ h.length⟩, fun j => ?_⟩
  · refine hN.erase fun j => ?_
    rw [nexts, hplaces]
    split <;> rfl
  · refine hP.erase fun j => ?_
    rw [prevs, hplaces]
    split <;> rfl
  · rw [← h.listed, LinkedTable.listed, LinkedTable.listed, hplaces]
    split
    next hij =>
        rw [← hij, hp, Option.any_some, (h.listed_eq hp), Option.any_none]
        simpa using hi
    next =>
        rfl

end Lists

/-- What is done to one list leaves the other. -/
theorem OnlyRing.lists
    {other : Roll} {list : List Nat} (honly : OnlyRing roll l l') (hne : other ≠ roll)
    (h : Lists l other list) :
    Lists l' other list :=
  h.of_eq (honly.ring other hne) (honly.places other hne)

end LinkedTable
end CallbackLoop
