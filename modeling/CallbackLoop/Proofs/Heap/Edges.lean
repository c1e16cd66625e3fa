import CallbackLoop.Heap.Basic
import Mathlib.Data.List.Nodup
import Mathlib.Data.List.Perm.Basic

/-!
# The edges of a forest

Heap order is a property of the pairs of a parent and its child.  This module
lists these pairs and says what the operations on forests, trees and rings of
roots do to the list of items and to the list of edges:

* `items_…_perm`: no operation but a removal loses or adds an item;
* `…_edges…`: which edges an operation keeps, and which it creates.

Severing the node in a slot removes the edge above it.  The lemmas about it
assume that slots do not repeat, for else another node in the same slot would
be left where it was.
-/

namespace CallbackLoop

universe u

variable {κ : Type u}

/-- The item with a new key, if it is the one in the given slot. -/
def Item.rekey
    (slot : Nat) (key : κ) (item : Item κ) :
    Item κ :=
  if item.slot = slot then { item with key } else item

@[simp] theorem Item.slot_rekey
    (slot : Nat) (key : κ) (item : Item κ) :
    (item.rekey slot key).slot = item.slot := by
  unfold rekey
  split <;> rfl

@[simp] theorem Item.serial_rekey
    (slot : Nat) (key : κ) (item : Item κ) :
    (item.rekey slot key).serial = item.serial := by
  unfold rekey
  split <;> rfl

theorem Item.rekey_of_ne
    {slot : Nat} {item : Item κ} (h : item.slot ≠ slot) (key : κ) :
    item.rekey slot key = item :=
  if_neg h

theorem Item.key_rekey_of_eq
    {slot : Nat} {item : Item κ} (h : item.slot = slot) (key : κ) :
    (item.rekey slot key).key = key := by
  simp [rekey, h]

namespace Forest

/-- The pairs of a parent and its child in a row and below, where `parent` is
the parent of the whole row. -/
def edges
    (parent : Item κ) :
    Forest κ → List (Item κ × Item κ)
  | nil => []
  | cons item _ children siblings =>
      (parent, item) :: (children.edges item ++ siblings.edges parent)

/-- Every item of a row has one edge above it. -/
@[simp] theorem map_snd_edges
    (parent : Item κ) (f : Forest κ) :
    (f.edges parent).map Prod.snd = f.items := by
  induction f generalizing parent with
  | nil =>
      rfl
  | cons item marked children siblings below beside =>
      simp [edges, items, below, beside]

theorem mem_items_of_mem_edges
    {parent : Item κ} {f : Forest κ} {e : Item κ × Item κ}
    (h : e ∈ f.edges parent) :
    e.2 ∈ f.items := by
  rw [← map_snd_edges parent f]
  exact List.mem_map_of_mem h

/-- The upper end of an edge is the given parent or an item of the row. -/
theorem fst_mem_of_mem_edges
    {parent : Item κ} {f : Forest κ} {e : Item κ × Item κ}
    (h : e ∈ f.edges parent) :
    e.1 = parent ∨ e.1 ∈ f.items := by
  induction f generalizing parent with
  | nil =>
      cases h
  | cons item marked children siblings below beside =>
      simp only [edges, List.mem_cons, List.mem_append] at h
      simp only [items, List.mem_cons, List.mem_append]
      rcases h with rfl | h | h
      · exact .inl rfl
      · rcases below h with hb | hb
        · exact .inr (.inl hb)
        · exact .inr (.inr (.inl hb))
      · rcases beside h with hb | hb
        · exact .inl hb
        · exact .inr (.inr (.inr hb))

/-- The parent of a node is the upper end of the edge above it. -/
theorem parent?_eq_find?_edges
    (slot : Nat) (parent : Item κ) (f : Forest κ) :
    f.parent? slot parent =
      ((f.edges parent).find? (·.2.slot = slot)).map Prod.fst := by
  induction f generalizing parent with
  | nil =>
      rfl
  | cons item marked children siblings below beside =>
      simp only [parent?, edges, List.find?_cons, List.find?_append, below, beside]
      by_cases h : item.slot = slot
      · simp [h]
      · simp only [h, if_false, decide_false]
        cases (children.edges item).find? (·.2.slot = slot) <;> simp

theorem items_setKey
    (slot : Nat) (key : κ) (f : Forest κ) :
    (f.setKey slot key).items = f.items.map (Item.rekey slot key) := by
  induction f with
  | nil =>
      rfl
  | cons item marked children siblings below beside =>
      simp [setKey, items, below, beside, Item.rekey]

theorem edges_setKey
    (slot : Nat) (key : κ) (parent : Item κ) (f : Forest κ) :
    (f.setKey slot key).edges (parent.rekey slot key) =
      (f.edges parent).map (Prod.map (Item.rekey slot key) (Item.rekey slot key)) := by
  induction f generalizing parent with
  | nil =>
      rfl
  | cons item marked children siblings below beside =>
      show
        (parent.rekey slot key, item.rekey slot key) ::
          ((children.setKey slot key).edges (item.rekey slot key) ++
            (siblings.setKey slot key).edges (parent.rekey slot key)) = _
      rw [below, beside]
      simp [edges]

end Forest

namespace Tree

/-- The pairs of a parent and its child in a tree. -/
def edges
    (t : Tree κ) :
    List (Item κ × Item κ) :=
  t.children.edges t.item

theorem item_mem_items
    (t : Tree κ) :
    t.item ∈ t.items :=
  List.mem_cons_self

theorem mem_items_of_mem_edges
    {t : Tree κ} {e : Item κ × Item κ}
    (h : e ∈ t.edges) :
    e.1 ∈ t.items ∧ e.2 ∈ t.items := by
  refine ⟨?_, List.mem_cons_of_mem _ (Forest.mem_items_of_mem_edges h)⟩
  rcases Forest.fst_mem_of_mem_edges h with he | he
  · rw [he]
    exact t.item_mem_items
  · exact List.mem_cons_of_mem _ he

/-- A link creates the edge from the winner to the loser. -/
theorem edges_link_perm
    (winner loser : Tree κ) :
    (winner.link loser).edges.Perm
      ((winner.item, loser.item) :: (winner.edges ++ loser.edges)) := by
  obtain ⟨item, children⟩ := winner
  cases children with
  | nil =>
      simp [link, edges, Forest.edges]
  | cons first marked below beside =>
      simp only [link, edges, Forest.edges, List.cons_append, List.append_assoc]
      refine (List.Perm.cons _ ?_).trans (.swap _ _ _)
      have hswap :
          (below.edges first ++
            ((item, loser.item) ::
              (loser.children.edges loser.item ++ beside.edges item))).Perm
          ((item, loser.item) ::
            (below.edges first ++
              (loser.children.edges loser.item ++ beside.edges item))) :=
        List.perm_middle
      exact hswap.trans (.cons _ (.append_left _ List.perm_append_comm))

end Tree

namespace Forest

/-- Children that become roots keep the edges below them. -/
theorem edges_toTrees_sublist
    (parent : Item κ) (f : Forest κ) :
    (f.toTrees.flatMap Tree.edges).Sublist (f.edges parent) := by
  induction f with
  | nil =>
      exact .refl _
  | cons item marked children siblings _ ih =>
      exact .cons _ ((List.Sublist.refl _).append ih)

/-- Severing fails exactly when no node of the row lies in the slot. -/
theorem sever_eq_none_iff
    (slot : Nat) (f : Forest κ) :
    f.sever slot = none ↔ slot ∉ f.items.map Item.slot := by
  induction f with
  | nil =>
      simp [sever, items]
  | cons item marked children siblings below beside =>
      unfold sever
      simp only [items, List.map_cons, List.map_append, List.mem_cons, List.mem_append,
        not_or]
      by_cases h : item.slot = slot
      · simp [h]
      · have hne : ¬ slot = item.slot := fun e => h e.symm
        simp only [h, if_false, hne, not_false_eq_true, true_and, ← below, ← beside]
        cases children.sever slot with
        | some s =>
            cases hcut : (s.lost && marked) <;> simp [hcut]
        | none =>
            cases siblings.sever slot <;> simp

theorem mem_slots_of_sever
    {slot : Nat} {f : Forest κ} {s : Severed κ}
    (h : f.sever slot = some s) :
    slot ∈ f.items.map Item.slot := by
  by_contra hmem
  rw [(sever_eq_none_iff slot f).2 hmem] at h
  cases h

/-- The node in the slot becomes a tree of its own. -/
theorem exists_mem_cut_of_sever
    {slot : Nat} {f : Forest κ} {s : Severed κ}
    (h : f.sever slot = some s) :
    ∃ t ∈ s.cut, t.item.slot = slot := by
  induction f generalizing s with
  | nil =>
      simp [sever] at h
  | cons item marked children siblings below beside =>
      unfold sever at h
      split at h
      next heq =>
          cases h
          exact ⟨_, List.mem_singleton_self _, heq⟩
      next =>
          split at h
          next b hb =>
              obtain ⟨t, ht, hslot⟩ := below hb
              split at h <;> cases h
              · exact ⟨t, List.mem_cons_of_mem _ ht, hslot⟩
              · exact ⟨t, ht, hslot⟩
          next =>
              split at h
              next b hb =>
                  obtain ⟨t, ht, hslot⟩ := beside hb
                  cases h
                  exact ⟨t, ht, hslot⟩
              next =>
                  cases h

/-- Severing creates no edge and removes the one above the slot. -/
theorem mem_edges_of_sever
    {slot : Nat} {f : Forest κ} {s : Severed κ}
    (h : f.sever slot = some s)
    (hnodup : (f.items.map Item.slot).Nodup)
    {parent : Item κ} {e : Item κ × Item κ}
    (he : e ∈ s.cut.flatMap Tree.edges ++ s.remaining.edges parent) :
    e ∈ f.edges parent ∧ e.2.slot ≠ slot := by
  -- An edge of a row without the slot stays, and its lower end is elsewhere.
  have away : ∀ {p : Item κ} {g : Forest κ},
      slot ∉ g.items.map Item.slot → e ∈ g.edges p → e.2.slot ≠ slot := by
    intro p g hg hmem heq
    exact hg (heq ▸ List.mem_map_of_mem (mem_items_of_mem_edges hmem))
  induction f generalizing s parent with
  | nil =>
      simp [sever] at h
  | cons item marked children siblings below beside =>
      simp only [items, List.map_cons, List.map_append, List.nodup_cons, List.mem_append,
        not_or] at hnodup
      obtain ⟨⟨hchild, hsibling⟩, hrest⟩ := hnodup
      obtain ⟨hc, hs, hdisj⟩ := List.nodup_append.1 hrest
      unfold sever at h
      simp only [edges, List.mem_cons, List.mem_append]
      split at h
      next heq =>
          cases h
          rw [heq] at hchild hsibling
          simp only [List.flatMap_cons, List.flatMap_nil, List.append_nil,
            List.mem_append] at he
          rcases he with he | he
          · exact ⟨.inr (.inl he), away hchild he⟩
          · exact ⟨.inr (.inr he), away hsibling he⟩
      next hne =>
          split at h
          next b hb =>
              have hnot : slot ∉ siblings.items.map Item.slot := fun hmem =>
                hdisj _ (mem_slots_of_sever hb) _ hmem rfl
              have hbelow :
                  e ∈ b.cut.flatMap Tree.edges ++ b.remaining.edges item →
                    e ∈ children.edges item ∧ e.2.slot ≠ slot :=
                below hb hc
              split at h <;> cases h
              · simp only [List.flatMap_cons, List.append_assoc, List.mem_append] at he
                rcases he with he | he | he
                · have := hbelow (List.mem_append_right _ he)
                  exact ⟨.inr (.inl this.1), this.2⟩
                · have := hbelow (List.mem_append_left _ he)
                  exact ⟨.inr (.inl this.1), this.2⟩
                · exact ⟨.inr (.inr he), away hnot he⟩
              · simp only [edges, List.mem_append, List.mem_cons] at he
                rcases he with he | rfl | he | he
                · have := hbelow (List.mem_append_left _ he)
                  exact ⟨.inr (.inl this.1), this.2⟩
                · exact ⟨.inl rfl, hne⟩
                · have := hbelow (List.mem_append_right _ he)
                  exact ⟨.inr (.inl this.1), this.2⟩
                · exact ⟨.inr (.inr he), away hnot he⟩
          next hnone =>
              have hnot := (sever_eq_none_iff slot children).1 hnone
              split at h
              next b hb =>
                  have hbeside :
                      e ∈ b.cut.flatMap Tree.edges ++ b.remaining.edges parent →
                        e ∈ siblings.edges parent ∧ e.2.slot ≠ slot :=
                    beside hb hs
                  cases h
                  simp only [edges, List.mem_append, List.mem_cons] at he
                  rcases he with he | rfl | he | he
                  · have := hbeside (List.mem_append_left _ he)
                    exact ⟨.inr (.inr this.1), this.2⟩
                  · exact ⟨.inl rfl, hne⟩
                  · exact ⟨.inr (.inl he), away hnot he⟩
                  · have := hbeside (List.mem_append_right _ he)
                    exact ⟨.inr (.inr this.1), this.2⟩
              next =>
                  cases h

end Forest

end CallbackLoop
