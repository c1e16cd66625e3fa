import CallbackLoop.Proofs.Heap.Decrease
import Mathlib.Data.Finmap

/-!
# A heap is a finite map from handles to keys

The callers of a heap see a ledger: the keys under the handles that are still
good, the handles that were ever given out, and the entry shown as least.  A
`Ledger.Step` says what a call may answer and what it does to the ledger.  Only
the choice among least entries is left open there.

The heap represents its ledger after every call.  `run_follows_ledger` is the
result for whole runs from the empty heap: their answers are those of a run of
the ledger, in which a least entry is shown at every moment.
-/

namespace CallbackLoop
namespace Heap

universe u

variable {κ : Type u}

/-- One operation on a heap. -/
inductive Call (κ : Type u) where
  | insert (key : κ)
  | extractMin
  | decreaseKey (id : Handle) (key : κ)
  | delete (id : Handle)
  | get (id : Handle)
  | contains (id : Handle)
  | minimum
  | minHandle
  | size

/-- The answer to an operation. -/
inductive Answer (κ : Type u) where
  | handle (id : Handle)
  | key (key : Option κ)
  | decreased (result : Except (Rejection κ) Unit)
  | flag (b : Bool)
  | named (id : Option Handle)
  | count (n : Nat)

/-- Performs one operation. -/
def perform
    {cmp : κ → κ → Ordering} (h : Heap κ cmp) :
    Call κ → Answer κ × Heap κ cmp
  | .insert key => (.handle (h.insert key).1, (h.insert key).2)
  | .extractMin =>
      match h.extractMin? with
      | some (key, h') => (.key (some key), h')
      | none => (.key none, h)
  | .decreaseKey id key =>
      match h.decreaseKey id key with
      | .ok h' => (.decreased (.ok ()), h')
      | .error rejection => (.decreased (.error rejection), h)
  | .delete id =>
      match h.delete? id with
      | some (key, h') => (.key (some key), h')
      | none => (.key none, h)
  | .get id => (.key (h.get? id), h)
  | .contains id => (.flag (h.contains id), h)
  | .minimum => (.key h.minimum?, h)
  | .minHandle => (.named h.minHandle?, h)
  | .size => (.count h.size, h)

/-- Performs operations one after the other and returns them with their
answers. -/
def run
    {cmp : κ → κ → Ordering} :
    List (Call κ) → Heap κ cmp → List (Call κ × Answer κ) × Heap κ cmp
  | [], h => ([], h)
  | call :: calls, h =>
      ((call, (h.perform call).1) :: (run calls (h.perform call).2).1,
        (run calls (h.perform call).2).2)

/-- What the callers of a heap see of it. -/
structure Ledger (κ : Type u) where
  /-- The key under each handle that is still good. -/
  entries : Finmap fun _ : Handle => κ := ∅
  /-- Every handle that was ever given out. -/
  issued : Finset Handle := ∅
  /-- The entry shown as least. -/
  least : Option Handle := none

namespace Ledger

/-- No entry is shown exactly if there is none, and no key compares below that
of the entry shown. -/
def ShowsLeast
    (cmp : κ → κ → Ordering) (L : Ledger κ) : Prop :=
  match L.least with
  | none => L.entries = ∅
  | some id =>
      ∃ key, L.entries.lookup id = some key ∧
        ∀ id' key', L.entries.lookup id' = some key' → cmp key' key ≠ .lt

/-- What a call may answer, and what becomes of the ledger. -/
inductive Step (cmp : κ → κ → Ordering) (L : Ledger κ) :
    Call κ → Answer κ → Ledger κ → Prop
  | insert {key : κ} {id : Handle} {least : Option Handle} :
      id ∉ L.issued →
      Step cmp L (.insert key) (.handle id)
        ⟨L.entries.insert id key, Insert.insert id L.issued, least⟩
  | extractMin {key : κ} {id : Handle} {least : Option Handle} :
      L.least = some id →
      L.entries.lookup id = some key →
      Step cmp L .extractMin (.key (some key)) ⟨L.entries.erase id, L.issued, least⟩
  | extractNone :
      L.least = none →
      Step cmp L .extractMin (.key none) L
  | decreaseKey {key old : κ} {id : Handle} {least : Option Handle} :
      L.entries.lookup id = some old →
      cmp key old = .lt →
      Step cmp L (.decreaseKey id key) (.decreased (.ok ()))
        ⟨L.entries.insert id key, L.issued, least⟩
  | notDecreased {key old : κ} {id : Handle} :
      L.entries.lookup id = some old →
      cmp key old ≠ .lt →
      Step cmp L (.decreaseKey id key) (.decreased (.error (.notDecreased key))) L
  | decreaseStale {key : κ} {id : Handle} :
      L.entries.lookup id = none →
      Step cmp L (.decreaseKey id key) (.decreased (.error (.staleHandle key))) L
  | delete {key : κ} {id : Handle} {least : Option Handle} :
      L.entries.lookup id = some key →
      Step cmp L (.delete id) (.key (some key)) ⟨L.entries.erase id, L.issued, least⟩
  | deleteStale {id : Handle} :
      L.entries.lookup id = none →
      Step cmp L (.delete id) (.key none) L
  | get {id : Handle} :
      Step cmp L (.get id) (.key (L.entries.lookup id)) L
  | contains {id : Handle} :
      Step cmp L (.contains id) (.flag (L.entries.lookup id).isSome) L
  | minimum :
      Step cmp L .minimum (.key (L.least.bind fun id => L.entries.lookup id)) L
  | minHandle :
      Step cmp L .minHandle (.named L.least) L
  | size :
      Step cmp L .size (.count L.entries.keys.card) L

/-- Steps one after the other, each of which leaves a least entry shown. -/
inductive Run (cmp : κ → κ → Ordering) :
    Ledger κ → List (Call κ × Answer κ) → Ledger κ → Prop
  | nil {L : Ledger κ} :
      Run cmp L [] L
  | cons {L L' L'' : Ledger κ} {call : Call κ} {answer : Answer κ}
      {log : List (Call κ × Answer κ)} :
      Step cmp L call answer L' →
      L'.ShowsLeast cmp →
      Run cmp L' log L'' →
      Run cmp L ((call, answer) :: log) L''

end Ledger

variable {cmp : κ → κ → Ordering}

/-- The finite map that a heap stands for. -/
def toFinmap
    (h : Heap κ cmp) : Finmap fun _ : Handle => κ :=
  (h.items.map fun item => (⟨item.handle, item.key⟩ : Sigma fun _ : Handle => κ)).toFinmap

section Map

variable {h h' : Heap κ cmp}

theorem Sound.lookup_toFinmap
    (hs : h.Sound) {id : Handle} {key : κ} :
    h.toFinmap.lookup id = some key ↔
      ∃ item ∈ h.items, item.handle = id ∧ item.key = key := by
  have hnodup : (h.items.map fun item =>
      (⟨item.handle, item.key⟩ : Sigma fun _ : Handle => κ)).NodupKeys := by
    rw [List.NodupKeys, List.keys, List.map_map]
    refine List.Nodup.map_on ?_ (List.Nodup.of_map _ hs.nodup)
    intro i hi j hj heq
    exact hs.item_ext hi hj (Item.handle_eq_iff.1 heq).1
  rw [toFinmap, Finmap.dlookup_list_toFinmap, ← Option.mem_def,
    List.mem_dlookup_iff hnodup, List.mem_map]
  simp

/-- Looking up a handle in the map is what `get?` does. -/
theorem Sound.lookup_toFinmap_eq
    (hs : h.Sound) (id : Handle) :
    h.toFinmap.lookup id = h.get? id := by
  ext key
  rw [hs.lookup_toFinmap, hs.get?_eq_some_iff]

theorem Sound.isSome_lookup_toFinmap
    (hs : h.Sound) (id : Handle) :
    (h.toFinmap.lookup id).isSome = h.contains id := by
  rw [Bool.eq_iff_iff, Option.isSome_iff_exists, hs.contains_iff]
  simp only [hs.lookup_toFinmap]
  constructor
  · rintro ⟨key, item, hitem, hid, -⟩
    exact ⟨item, hitem, hid⟩
  · rintro ⟨item, hitem, hid⟩
    exact ⟨item.key, item, hitem, hid, rfl⟩

/-- One entry more makes one item more. -/
theorem toFinmap_of_cons_perm
    (hs : h.Sound) (hs' : h'.Sound) {item : Item κ}
    (hperm : h'.items.Perm (item :: h.items)) :
    h'.toFinmap = h.toFinmap.insert item.handle item.key := by
  have hslot : ∀ i ∈ h.items, i.slot ≠ item.slot := by
    have hnodup := (hperm.map Item.slot).nodup_iff.1 hs'.nodup
    intro i hi heq
    exact (List.nodup_cons.1 hnodup).1 (heq ▸ List.mem_map_of_mem hi)
  refine Finmap.ext_lookup fun id => ?_
  by_cases hid : id = item.handle
  · rw [hid, Finmap.lookup_insert]
    exact hs'.lookup_toFinmap.2 ⟨item, hperm.symm.subset List.mem_cons_self, rfl, rfl⟩
  · rw [Finmap.lookup_insert_of_ne _ hid]
    ext key
    rw [hs'.lookup_toFinmap, hs.lookup_toFinmap]
    constructor
    · rintro ⟨i, hi, hhandle, hkey⟩
      rcases List.mem_cons.1 (hperm.subset hi) with rfl | hi
      · exact absurd hhandle.symm hid
      · exact ⟨i, hi, hhandle, hkey⟩
    · rintro ⟨i, hi, hhandle, hkey⟩
      exact ⟨i, hperm.symm.subset (List.mem_cons_of_mem _ hi), hhandle, hkey⟩

/-- One item less makes one entry less. -/
theorem toFinmap_of_perm_cons
    (hs : h.Sound) (hs' : h'.Sound) {item : Item κ}
    (hperm : (item :: h'.items).Perm h.items) :
    h'.toFinmap = h.toFinmap.erase item.handle := by
  have hinsert := toFinmap_of_cons_perm hs' hs hperm.symm
  have hnone : h'.toFinmap.lookup item.handle = none := by
    rw [Option.eq_none_iff_forall_ne_some]
    intro key hkey
    obtain ⟨i, hi, hhandle, -⟩ := hs'.lookup_toFinmap.1 hkey
    have hnodup := (hperm.map Item.slot).nodup_iff.2 hs.nodup
    have hslot : i.slot = item.slot := (Item.handle_eq_iff.1 hhandle).1
    exact (List.nodup_cons.1 hnodup).1 (hslot ▸ List.mem_map_of_mem hi)
  refine Finmap.ext_lookup fun id => ?_
  by_cases hid : id = item.handle
  · rw [hid, Finmap.lookup_erase, hnone]
  · rw [Finmap.lookup_erase_ne hid, hinsert, Finmap.lookup_insert_of_ne _ hid]

/-- A new key for an item replaces the key under its handle. -/
theorem toFinmap_of_rekey_perm
    (hs : h.Sound) (hs' : h'.Sound) {item : Item κ} (hitem : item ∈ h.items) {key : κ}
    (hperm : h'.items.Perm (h.items.map (Item.rekey item.slot key))) :
    h'.toFinmap = h.toFinmap.insert item.handle key := by
  have hmem : ∀ i ∈ h.items, i.rekey item.slot key ∈ h'.items :=
    fun i hi => hperm.symm.subset (List.mem_map_of_mem hi)
  refine Finmap.ext_lookup fun id => ?_
  by_cases hid : id = item.handle
  · rw [hid, Finmap.lookup_insert]
    exact hs'.lookup_toFinmap.2
      ⟨_, hmem item hitem, Item.handle_rekey _ _ _, Item.key_rekey_of_eq rfl key⟩
  · -- An item under another handle lies in another slot and keeps its key.
    have hother : ∀ i ∈ h.items, i.handle = id → i.rekey item.slot key = i := by
      intro i hi hhandle
      refine Item.rekey_of_ne ?_ key
      intro heq
      exact hid (by rw [← hhandle, hs.item_ext hi hitem heq])
    rw [Finmap.lookup_insert_of_ne _ hid]
    ext k
    rw [hs'.lookup_toFinmap, hs.lookup_toFinmap]
    constructor
    · rintro ⟨j, hj, hhandle, hkey⟩
      obtain ⟨i, hi, rfl⟩ := List.mem_map.1 (hperm.subset hj)
      rw [Item.handle_rekey] at hhandle
      rw [hother i hi hhandle] at hkey
      exact ⟨i, hi, hhandle, hkey⟩
    · rintro ⟨i, hi, hhandle, hkey⟩
      exact ⟨i, hother i hi hhandle ▸ hmem i hi, hhandle, hkey⟩

/-- The size of a heap is the number of handles with an entry. -/
theorem Sound.card_keys_toFinmap
    (hs : h.Sound) :
    h.toFinmap.keys.card = h.size := by
  have hnodup : (h.items.map Item.handle).Nodup := by
    refine List.Nodup.map_on ?_ (List.Nodup.of_map _ hs.nodup)
    intro i hi j hj heq
    exact hs.item_ext hi hj (Item.handle_eq_iff.1 heq).1
  have hkeys : h.toFinmap.keys = (h.items.map Item.handle).toFinset := by
    ext id
    rw [Finmap.mem_keys, Finmap.mem_iff, List.mem_toFinset, List.mem_map]
    simp only [hs.lookup_toFinmap]
    constructor
    · rintro ⟨key, item, hitem, hid, -⟩
      exact ⟨item, hitem, hid⟩
    · rintro ⟨item, hitem, hid⟩
      exact ⟨item.key, item, hitem, hid, rfl⟩
  rw [hkeys, List.toFinset_card_of_nodup hnodup, List.length_map, hs.size_eq]

end Map

/-- The ledger is that of the heap, and no handle to come was given out. -/
structure Represents (h : Heap κ cmp) (L : Ledger κ) : Prop where
  entries : L.entries = h.toFinmap
  least : L.least = h.minHandle?
  issued : ∀ id ∈ L.issued, id.serial < h.nextSerial

theorem minHandle?_of_roots
    {h : Heap κ cmp} {first : Tree κ} {others : List (Tree κ)}
    (hroots : h.roots = first :: others) :
    h.minHandle? = some first.item.handle := by
  rw [minHandle?, hroots]
  rfl

/-- The ledger of a settled heap shows a least entry. -/
theorem Settled.showsLeast
    [Std.TransCmp cmp] {h : Heap κ cmp} (hs : h.Settled) {L : Ledger κ}
    (hr : Represents h L) :
    L.ShowsLeast cmp := by
  unfold Ledger.ShowsLeast
  rw [hr.least, hr.entries]
  cases hroots : h.roots with
  | nil =>
      have hnone : h.minHandle? = none := by rw [minHandle?, hroots]; rfl
      rw [hnone]
      simp only [toFinmap, (roots_eq_nil_iff h).1 hroots, List.map_nil]
      rfl
  | cons first others =>
      rw [minHandle?_of_roots hroots]
      have hfirst : first.item ∈ h.items := by simp [items, hroots, Tree.items]
      refine ⟨first.key, hs.lookup_toFinmap.2 ⟨_, hfirst, rfl, rfl⟩, ?_⟩
      intro id key hkey
      obtain ⟨item, hitem, -, rfl⟩ := hs.lookup_toFinmap.1 hkey
      exact Std.OrientedCmp.not_lt_of_isLE (hs.isLE_of_mem hroots hitem)

/-- What a call answers, and what it leaves behind, is a step of the ledger. -/
def Steps
    (h : Heap κ cmp) (L : Ledger κ) (call : Call κ) : Prop :=
  ∃ L', L.Step cmp call (h.perform call).1 L' ∧
    (h.perform call).2.Settled ∧ Represents (h.perform call).2 L'

section Steps

variable {h : Heap κ cmp} {L : Ledger κ}

/-- In a settled heap handles are good for what the ledger says. -/
theorem Represents.lookup
    (hr : Represents h L) (hs : h.Settled) (id : Handle) :
    L.entries.lookup id = h.get? id := by
  rw [hr.entries]
  exact hs.lookup_toFinmap_eq id

/-- The ledger after one item has left a heap. -/
theorem Represents.erase
    {h' : Heap κ cmp} (hr : Represents h L) (hs : h.Sound) (hs' : h'.Sound) {item : Item κ}
    (hperm : (item :: h'.items).Perm h.items) (hnext : h'.nextSerial = h.nextSerial) :
    L.entries.lookup item.handle = some item.key ∧
      Represents h' ⟨L.entries.erase item.handle, L.issued, h'.minHandle?⟩ := by
  refine ⟨?_, ?_, rfl, ?_⟩
  · rw [hr.entries]
    exact hs.lookup_toFinmap.2 ⟨item, hperm.subset List.mem_cons_self, rfl, rfl⟩
  · rw [hr.entries]
    exact (toFinmap_of_perm_cons hs hs' hperm).symm
  · rw [hnext]
    exact hr.issued

/-- The entry shown as least is the one that `minimum?` reads. -/
theorem Represents.minimum
    (hr : Represents h L) (hs : h.Settled) :
    (L.least.bind fun id => L.entries.lookup id) = h.minimum? := by
  rw [hr.least, hr.entries]
  cases hroots : h.roots with
  | nil =>
      simp [minHandle?, minimum?, hroots]
  | cons first others =>
      have hfirst : first.item ∈ h.items := by simp [items, hroots, Tree.items]
      rw [minHandle?_of_roots hroots, minimum?, hroots]
      exact hs.lookup_toFinmap.2 ⟨_, hfirst, rfl, rfl⟩

variable [Std.TransCmp cmp]

theorem steps_insert
    (hs : h.Settled) (hr : Represents h L) (key : κ) :
    Steps h L (.insert key) := by
  obtain ⟨hs', hperm, hserial, hnext, -⟩ := insert_spec hs key
  unfold Steps
  generalize hid : (h.insert key).1 = id at hperm hserial
  generalize hheap : (h.insert key).2 = h' at hs' hperm hnext
  have hfresh : id ∉ L.issued := by
    intro hmem
    have := hr.issued id hmem
    omega
  have hans : h.perform (.insert key) = (.handle id, h') := by
    rw [← hid, ← hheap]
    rfl
  rw [hans]
  refine ⟨⟨L.entries.insert id key, Insert.insert id L.issued, h'.minHandle?⟩,
    .insert hfresh, hs', ?_, rfl, ?_⟩
  · have hhandle : Item.handle ⟨id.slot, h.nextSerial, key⟩ = id := by
      rw [← hserial]
      rfl
    have := toFinmap_of_cons_perm hs.toSound hs'.toSound hperm
    rw [hhandle] at this
    rw [hr.entries]
    exact this.symm
  · intro i hi
    rw [hnext]
    rcases Finset.mem_insert.1 hi with rfl | hi
    · omega
    · exact Nat.lt_succ_of_lt (hr.issued i hi)

theorem steps_extractMin
    (hs : h.Settled) (hr : Represents h L) :
    Steps h L .extractMin := by
  unfold Steps
  cases hroots : h.roots with
  | nil =>
      have hans : h.perform .extractMin = (.key none, h) := by
        simp [perform, extractMin?, hroots]
      rw [hans]
      refine ⟨L, .extractNone ?_, hs, hr⟩
      rw [hr.least, minHandle?, hroots]
      rfl
  | cons first others =>
      obtain ⟨h', hextract, hs', hperm, hnext⟩ := extractMin?_spec hs.toSound hroots
      obtain ⟨hlookup, hr'⟩ := hr.erase hs.toSound hs'.toSound hperm hnext
      have hans : h.perform .extractMin = (.key (some first.key), h') := by
        simp [perform, hextract]
      rw [hans]
      exact ⟨_, .extractMin (hr.least.trans (minHandle?_of_roots hroots)) hlookup, hs', hr'⟩

theorem steps_decreaseKey
    (hs : h.Settled) (hr : Represents h L) (id : Handle) (key : κ) :
    Steps h L (.decreaseKey id key) := by
  unfold Steps
  cases hget : h.get? id with
  | none =>
      have hans : h.perform (.decreaseKey id key) =
          (.decreased (.error (.staleHandle key)), h) := by
        simp [perform, decreaseKey, hget]
      rw [hans]
      exact ⟨L, .decreaseStale (by rw [hr.lookup hs, hget]), hs, hr⟩
  | some old =>
      by_cases hlt : cmp key old = .lt
      · obtain ⟨item, hitem, rfl, rfl⟩ := hs.get?_eq_some_iff.1 hget
        obtain ⟨h', hdecrease, hs', hperm, hnext⟩ := decreaseKey_spec hs hitem hlt
        have hans : h.perform (.decreaseKey item.handle key) =
            (.decreased (.ok ()), h') := by
          simp [perform, hdecrease]
        rw [hans]
        refine ⟨⟨L.entries.insert item.handle key, L.issued, h'.minHandle?⟩,
          .decreaseKey (by rw [hr.lookup hs, hget]) hlt, hs', ?_, rfl, ?_⟩
        · rw [hr.entries]
          exact (toFinmap_of_rekey_perm hs.toSound hs'.toSound hitem hperm).symm
        · rw [hnext]
          exact hr.issued
      · have hans : h.perform (.decreaseKey id key) =
            (.decreased (.error (.notDecreased key)), h) := by
          simp [perform, decreaseKey, hget, hlt]
        rw [hans]
        exact ⟨L, .notDecreased (by rw [hr.lookup hs, hget]) hlt, hs, hr⟩

theorem steps_delete
    (hs : h.Settled) (hr : Represents h L) (id : Handle) :
    Steps h L (.delete id) := by
  unfold Steps
  cases hcontains : h.contains id with
  | false =>
      have hans : h.perform (.delete id) = (.key none, h) := by
        simp [perform, delete?, hcontains]
      rw [hans]
      refine ⟨L, .deleteStale ?_, hs, hr⟩
      rw [hr.entries, ← Option.not_isSome_iff_eq_none, hs.isSome_lookup_toFinmap, hcontains]
      exact Bool.false_ne_true
  | true =>
      obtain ⟨item, hitem, rfl⟩ := (hs.contains_iff id).1 hcontains
      obtain ⟨h', hdelete, hs', hperm, hnext⟩ := delete?_spec hs.toSound hitem
      obtain ⟨hlookup, hr'⟩ := hr.erase hs.toSound hs'.toSound hperm hnext
      have hans : h.perform (.delete item.handle) = (.key (some item.key), h') := by
        simp [perform, hdelete]
      rw [hans]
      exact ⟨_, .delete hlookup, hs', hr'⟩

/-- Every call is a step of the ledger that the heap represents. -/
theorem perform_step
    (hs : h.Settled) (hr : Represents h L) (call : Call κ) :
    Steps h L call := by
  cases call with
  | insert key =>
      exact steps_insert hs hr key
  | extractMin =>
      exact steps_extractMin hs hr
  | decreaseKey id key =>
      exact steps_decreaseKey hs hr id key
  | delete id =>
      exact steps_delete hs hr id
  | get id =>
      refine ⟨L, ?_, hs, hr⟩
      have hstep : L.Step cmp (.get id) (.key (L.entries.lookup id)) L := .get
      rwa [hr.lookup hs] at hstep
  | contains id =>
      refine ⟨L, ?_, hs, hr⟩
      have hstep : L.Step cmp (.contains id) (.flag (L.entries.lookup id).isSome) L :=
        .contains
      rwa [hr.entries, hs.isSome_lookup_toFinmap] at hstep
  | minimum =>
      refine ⟨L, ?_, hs, hr⟩
      have hstep : L.Step cmp .minimum
          (.key (L.least.bind fun id => L.entries.lookup id)) L :=
        .minimum
      rwa [hr.minimum hs] at hstep
  | minHandle =>
      refine ⟨L, ?_, hs, hr⟩
      have hstep : L.Step cmp .minHandle (.named L.least) L := .minHandle
      rwa [hr.least] at hstep
  | size =>
      refine ⟨L, ?_, hs, hr⟩
      have hstep : L.Step cmp .size (.count L.entries.keys.card) L := .size
      rwa [hr.entries, hs.card_keys_toFinmap] at hstep

end Steps

/-- The calls on a settled heap are a run of its ledger. -/
theorem run_steps
    [Std.TransCmp cmp] (calls : List (Call κ)) {h : Heap κ cmp} (hs : h.Settled)
    {L : Ledger κ} (hr : Represents h L) :
    ∃ L', Ledger.Run cmp L (run calls h).1 L' ∧ Represents (run calls h).2 L' := by
  induction calls generalizing h L with
  | nil =>
      exact ⟨L, .nil, hr⟩
  | cons call calls ih =>
      obtain ⟨L', hstep, hs', hr'⟩ := perform_step hs hr call
      obtain ⟨L'', hrun, hr''⟩ := ih hs' hr'
      exact ⟨L'', .cons hstep (hs'.showsLeast hr') hrun, hr''⟩

theorem represents_empty :
    Represents ({} : Heap κ cmp) {} where
  entries := rfl
  least := rfl
  issued id hid := absurd hid (Finset.notMem_empty id)

/-- Whatever is asked of a heap that was empty at first, it answers as a finite
map from handles to keys does that shows one of its least entries.  What it
holds in the end are the entries of that map. -/
theorem run_follows_ledger
    [Std.TransCmp cmp] (calls : List (Call κ)) :
    ∃ L : Ledger κ,
      Ledger.Run cmp {} (run calls ({} : Heap κ cmp)).1 L ∧
      L.entries = (run calls ({} : Heap κ cmp)).2.toFinmap ∧
      L.least = (run calls ({} : Heap κ cmp)).2.minHandle? := by
  have hs : ({} : Heap κ cmp).Settled := settled_empty
  obtain ⟨L, hrun, hr⟩ := run_steps calls hs represents_empty
  exact ⟨L, hrun, hr.entries, hr.least⟩

/-- Of two equal keys the one that its handle names is removed; a stale handle
finds nothing although its slot is in use again. -/
theorem run_follows_ledger_equal_keys :
    ∃ L : Ledger Nat,
      Ledger.Run compare {}
        [(.insert 7, .handle ⟨0, 0⟩), (.insert 7, .handle ⟨1, 1⟩),
          (.insert 9, .handle ⟨2, 2⟩), (.delete ⟨1, 1⟩, .key (some 7)),
          (.insert 8, .handle ⟨1, 3⟩), (.delete ⟨1, 1⟩, .key none),
          (.decreaseKey ⟨2, 2⟩ 7, .decreased (.ok ())),
          (.decreaseKey ⟨2, 2⟩ 7, .decreased (.error (.notDecreased 7))),
          (.extractMin, .key (some 7)), (.size, .count 2)] L := by
  obtain ⟨L, hrun, -⟩ := @run_follows_ledger Nat compare _
    [.insert 7, .insert 7, .insert 9, .delete ⟨1, 1⟩, .insert 8, .delete ⟨1, 1⟩,
      .decreaseKey ⟨2, 2⟩ 7, .decreaseKey ⟨2, 2⟩ 7, .extractMin, .size]
  exact ⟨L, hrun⟩

end Heap
end CallbackLoop
