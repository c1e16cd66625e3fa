import CallbackLoop.Proofs.Heap.Ledger

/-!
# Operations by handle

What each operation of a settled heap does to the key under every handle,
whatever the shape of the forest.  Serial numbers only grow, so a handle whose
entry has left the heap never names an entry again.
-/

namespace CallbackLoop

namespace Heap

universe u

variable {κ : Type u} {cmp : κ → κ → Ordering} {h h' : Heap κ cmp} {item : Item κ}
  {id : Handle} {key old : κ}

theorem Sound.get?_of_cons_perm
    (hs : h.Sound) (hs' : h'.Sound) (hperm : h'.items.Perm (item :: h.items)) :
    h'.get? = Function.update h.get? item.handle (some item.key) := by
  funext id
  rw [← hs'.lookup_toFinmap_eq, toFinmap_of_cons_perm hs hs' hperm, Function.update_apply,
    ← hs.lookup_toFinmap_eq]
  split
  next heq =>
      rw [heq, Finmap.lookup_insert]
  next hne =>
      rw [Finmap.lookup_insert_of_ne _ hne]

theorem Sound.get?_of_perm_cons
    (hs : h.Sound) (hs' : h'.Sound) (hperm : (item :: h'.items).Perm h.items) :
    h'.get? = Function.update h.get? item.handle none := by
  funext id
  rw [← hs'.lookup_toFinmap_eq, toFinmap_of_perm_cons hs hs' hperm, Function.update_apply,
    ← hs.lookup_toFinmap_eq]
  split
  next heq =>
      rw [heq, Finmap.lookup_erase]
  next hne =>
      rw [Finmap.lookup_erase_ne hne]

theorem Sound.get?_of_rekey_perm
    (hs : h.Sound) (hs' : h'.Sound) (hitem : item ∈ h.items) {key : κ}
    (hperm : h'.items.Perm (h.items.map (Item.rekey item.slot key))) :
    h'.get? = Function.update h.get? item.handle (some key) := by
  funext id
  rw [← hs'.lookup_toFinmap_eq, toFinmap_of_rekey_perm hs hs' hitem hperm,
    Function.update_apply, ← hs.lookup_toFinmap_eq]
  split
  next heq =>
      rw [heq, Finmap.lookup_insert]
  next hne =>
      rw [Finmap.lookup_insert_of_ne _ hne]

/-- The serial number of an entry was given out before. -/
theorem Sound.serial_lt
    (hs : h.Sound) (hget : h.get? id = some key) :
    id.serial < h.nextSerial := by
  obtain ⟨item, hitem, rfl, -⟩ := hs.get?_eq_some_iff.1 hget
  exact hs.fresh item hitem

/-- A list that names every entry once is as long as the heap is large. -/
theorem Sound.length_eq_size
    (hs : h.Sound) {ids : List Handle} (hnodup : ids.Nodup)
    (hids : ∀ id, id ∈ ids ↔ (h.get? id).isSome = true) :
    ids.length = h.size := by
  have hkeys : h.toFinmap.keys = ids.toFinset := by
    ext id
    rw [Finmap.mem_keys, List.mem_toFinset, hids, ← hs.lookup_toFinmap_eq, Finmap.lookup_isSome]
  rw [← hs.card_keys_toFinmap, hkeys, List.toFinset_card_of_nodup hnodup]

section Operations

variable [Std.TransCmp cmp]

/-- The new entry has the next serial number. -/
theorem Settled.get?_insert
    (hs : h.Settled) (key : κ) :
    (h.insert key).2.Settled ∧
      (h.insert key).2.get? = Function.update h.get? (h.insert key).1 (some key) ∧
      (h.insert key).1.serial = h.nextSerial ∧
      (h.insert key).2.nextSerial = h.nextSerial + 1 := by
  obtain ⟨hs', hperm, hserial, hnext, -⟩ := insert_spec hs key
  have hid : Item.handle ⟨(h.insert key).1.slot, h.nextSerial, key⟩ = (h.insert key).1 := by
    rw [Item.handle_eq_iff]
    exact ⟨rfl, hserial.symm⟩
  have hget := hs.toSound.get?_of_cons_perm hs'.toSound hperm
  rw [hid] at hget
  exact ⟨hs', hget, hserial, hnext⟩

/-- Deleting takes out the entry that the handle names, if there is one. -/
theorem Settled.delete?_cases
    (hs : h.Settled) (id : Handle) :
    (h.get? id = none ∧ h.delete? id = none) ∨
      ∃ key h', h.get? id = some key ∧ h.delete? id = some (key, h') ∧ h'.Settled ∧
        h'.get? = Function.update h.get? id none ∧ h'.nextSerial = h.nextSerial := by
  cases hget : h.get? id with
  | none =>
      have hcontains : h.contains id = false := by
        rw [← Bool.not_eq_true, hs.toSound.contains_iff]
        rintro ⟨item, hitem, hid⟩
        rw [hs.toSound.get?_eq_some_iff.2 ⟨item, hitem, hid, rfl⟩] at hget
        cases hget
      exact .inl ⟨rfl, by simp [delete?, hcontains]⟩
  | some key =>
      obtain ⟨item, hitem, rfl, rfl⟩ := hs.toSound.get?_eq_some_iff.1 hget
      obtain ⟨h', hdelete, hs', hperm, hnext⟩ := delete?_spec hs.toSound hitem
      exact .inr ⟨item.key, h', rfl, hdelete, hs',
        hs.toSound.get?_of_perm_cons hs'.toSound hperm, hnext⟩

/-- Lowering a key leaves its entry under the same handle. -/
theorem Settled.get?_decreaseKey
    (hs : h.Settled) (hget : h.get? id = some old) (hlt : cmp key old = .lt) :
    ∃ h', h.decreaseKey id key = .ok h' ∧ h'.Settled ∧
      h'.get? = Function.update h.get? id (some key) ∧ h'.nextSerial = h.nextSerial := by
  obtain ⟨item, hitem, rfl, rfl⟩ := hs.toSound.get?_eq_some_iff.1 hget
  obtain ⟨h', hdecrease, hs', hperm, hnext⟩ := decreaseKey_spec hs hitem hlt
  exact ⟨h', hdecrease, hs', hs.toSound.get?_of_rekey_perm hs'.toSound hitem hperm, hnext⟩

/-- A least entry is shown and can be taken out, unless there is none. -/
theorem Settled.minimum?_cases
    (hs : h.Settled) :
    (h.minimum? = none ∧ ∀ id, h.get? id = none) ∨
      ∃ id first h', h.minimum? = some first ∧ h.get? id = some first ∧
        h.extractMin? = some (first, h') ∧ h'.Settled ∧
        h'.get? = Function.update h.get? id none ∧ h'.nextSerial = h.nextSerial ∧
        ∀ other key, h.get? other = some key → (cmp first key).isLE = true := by
  cases hroots : h.roots with
  | nil =>
      refine .inl ⟨by simp [minimum?, hroots], fun id => ?_⟩
      simp [get?, (roots_eq_nil_iff h).1 hroots]
  | cons first others =>
      obtain ⟨h', hextract, hs', hperm, hnext⟩ := extractMin?_spec hs.toSound hroots
      have hitem : first.item ∈ h.items := hperm.subset List.mem_cons_self
      refine .inr ⟨first.item.handle, first.key, h', by simp [minimum?, hroots],
        hs.toSound.get?_eq_some_iff.2 ⟨first.item, hitem, rfl, rfl⟩, hextract, hs',
        hs.toSound.get?_of_perm_cons hs'.toSound hperm, hnext, ?_⟩
      intro other key hkey
      obtain ⟨item, hin, -, rfl⟩ := hs.toSound.get?_eq_some_iff.1 hkey
      exact hs.isLE_of_mem hroots hin

end Operations

end Heap
end CallbackLoop
