import CallbackLoop.Storage
import CallbackLoop.Proofs.Arena.Ledger

/-!
# Storage is an arena

The storage of an arena has a mark for every slot that holds a value and counts them.  On
the storage of a sound arena every operation goes well, gives the same answer as on the
arena, and leaves the storage of the arena that is left.

So storage of any size that was empty at first never meets a `Defect`, whatever is asked
of it, and keeps the four parts of its records in step with the ledger of its users.
-/

namespace CallbackLoop

variable {α : Type}

/-- How an arena lies in memory. -/
def Arena.storage (a : Arena α) : Storage α where
  cells := a.slots
  free := a.free
  used := a.slots.map Option.isSome
  count := a.size

namespace Storage

/-- A step that goes well is followed by the next one. -/
@[simp] theorem ok_bind
    {β γ : Type} (x : β) (f : β → Except Defect γ) :
    (Except.ok x >>= f) = f x :=
  rfl

theorem ofSize_eq
    (n : Nat) :
    (ofSize n : Storage α) = (Arena.ofSize n).storage := by
  simp [ofSize, Arena.storage, Arena.ofSize, Arena.size]

variable {a : Arena α} {i : Nat}

theorem contains_eq
    (a : Arena α) (i : Nat) :
    a.storage.contains i = a.contains i := by
  simp only [contains, Arena.storage, Arena.contains, Arena.get?, Array.getElem?_map]
  cases a.slots[i]? with
  | none =>
      rfl
  | some cell =>
      rfl

theorem cell_eq
    {x : α} (hx : a.get? i = some x) :
    a.slots[i]? = some (some x) :=
  Option.join_eq_some_iff.1 hx

/-- The cell of an occupied slot holds its value. -/
theorem value_eq
    {x : α} (hx : a.get? i = some x) :
    value a.slots i = .ok x := by
  simp [value, read, cell_eq hx, bind, Except.bind, pure, Except.pure]

theorem write_eq
    {β : Type} {xs : Array β} (hi : i < xs.size) (x : β) :
    write xs i x = .ok (xs.setIfInBounds i x) :=
  if_pos hi

theorem get?_eq
    (a : Arena α) (i : Nat) :
    a.storage.get? i = .ok (a.get? i) := by
  unfold get?
  rw [contains_eq, Arena.contains]
  cases hx : a.get? i with
  | none =>
      rfl
  | some x =>
      simp only [Option.isSome_some, if_true]
      rw [show a.storage.cells = a.slots from rfl, value_eq hx]
      rfl

/-- The marks after a write to one cell. -/
theorem map_isSome_setIfInBounds
    (cells : Array (Option α)) (i : Nat) (cell : Option α) :
    (cells.setIfInBounds i cell).map Option.isSome =
      (cells.map Option.isSome).setIfInBounds i cell.isSome :=
  Array.map_setIfInBounds

/-- A value that takes the place of another leaves the marks and the count alone. -/
theorem storage_set
    {x : α} (hx : a.get? i = some x) (y : α) :
    (a.set i y).storage =
      { a.storage with cells := a.slots.setIfInBounds i (some y) } := by
  have hocc : a.contains i = true := Arena.contains_iff.2 ⟨x, hx⟩
  have hmarks : (a.slots.setIfInBounds i (some y)).map Option.isSome =
      a.slots.map Option.isSome := by
    refine Array.ext_getElem? fun j => ?_
    rw [Array.getElem?_map, Array.getElem?_map, Array.getElem?_setIfInBounds]
    by_cases hij : i = j
    · subst hij
      rw [if_pos rfl, if_pos (Arena.lt_size_of_get? hx), cell_eq hx]
      rfl
    · rw [if_neg hij]
  simp [Arena.storage, Arena.set, hocc, hmarks, Arena.size]

theorem modify_eq
    (a : Arena α) (i : Nat) (f : α → α) :
    a.storage.modify i f = .ok (a.get? i, (a.modify i f).storage) := by
  unfold modify Arena.modify
  rw [contains_eq, Arena.contains]
  cases hx : a.get? i with
  | none =>
      rfl
  | some x =>
      simp only [Option.isSome_some, if_true, storage_set hx]
      rw [show a.storage.cells = a.slots from rfl, value_eq hx]
      simp only [ok_bind, write_eq (Arena.lt_size_of_get? hx)]
      rfl

theorem remove_eq
    (h : a.Sound) (i : Nat) :
    a.storage.remove i = .ok ((a.remove i).map fun p => (p.1, p.2.storage)) := by
  have hcells : a.storage.cells = a.slots := rfl
  have hused : a.storage.used = a.slots.map Option.isSome := rfl
  have hcount : a.storage.count = a.size := rfl
  unfold remove Arena.remove
  rw [hcells, hused, hcount]
  rcases Nat.lt_or_ge i a.slots.size with hlt | hge
  · have hmark : read (a.slots.map Option.isSome) i = .ok (a.get? i).isSome := by
      simp [read, Arena.get?, hlt]
    have hunmark : write (a.slots.map Option.isSome) i false =
        .ok ((a.slots.setIfInBounds i none).map Option.isSome) := by
      rw [write_eq (by simpa using hlt), map_isSome_setIfInBounds]
      rfl
    simp only [Nat.not_le_of_lt hlt, if_false, hmark, ok_bind, hunmark, write_eq hlt]
    cases hx : a.get? i with
    | none =>
        rfl
    | some x =>
        have hsize := Arena.size_erase h hx
        have hpos : a.size ≠ 0 := by omega
        have hcount' : a.size - 1 = (a.erase i).size := by omega
        simp only [Option.isSome_some, Bool.not_true, Bool.false_eq_true, if_false, hpos,
          value_eq hx, ok_bind, hcount']
        rfl
  · simp [hge, Except.map, pure, Except.pure]

/-- The first of the cells that were added is filled. -/
theorem setIfInBounds_append_replicate
    (cells : Array (Option α)) (k : Nat) (x : α) :
    (cells ++ Array.replicate (k + 1) none).setIfInBounds cells.size (some x) =
      cells.push (some x) ++ Array.replicate k none := by
  apply Array.ext'
  simp [List.replicate_succ]

theorem resize_of_le
    {β : Type} {xs : Array β} {n : Nat} (hle : xs.size ≤ n) (x : β) :
    resize xs n x = xs ++ Array.replicate (n - xs.size) x := by
  have hsize : (xs ++ Array.replicate (n - xs.size) x).size = n := by
    rw [Array.size_append, Array.size_replicate]
    omega
  rw [resize, Array.take_eq_extract]
  exact Array.extract_eq_self_of_le (Nat.le_of_eq hsize)

/-- Growth leaves every cell and adds empty ones, which are not marked. -/
theorem takeFree_of_full
    (hfree : a.free = []) :
    a.storage.takeFree = (a.slots.size,
      { cells := a.slots ++ Array.replicate (a.slots.size - 1 + 1) none
        free := List.range' (a.slots.size + 1) (a.slots.size - 1)
        used := (a.slots ++ Array.replicate (a.slots.size - 1 + 1) none).map Option.isSome
        count := a.size }) := by
  have hfree' : a.storage.free = [] := hfree
  have hcells : a.storage.cells = a.slots := rfl
  have hused : a.storage.used = a.slots.map Option.isSome := rfl
  have hcount : a.storage.count = a.size := rfl
  have hgrow : (if a.slots.size = 0 then 1 else 2 * a.slots.size) =
      a.slots.size + (a.slots.size - 1 + 1) := by
    split <;> omega
  simp only [takeFree, hfree', hcells, hused, hcount, hgrow, Nat.add_sub_cancel_left]
  rw [resize_of_le (by simp)]
  have hrest : a.slots.size + (a.slots.size - 1 + 1) - (a.slots.size + 1) = a.slots.size - 1 := by
    omega
  simp [hrest]

/-- What insertion does once its slot is off the stack. -/
theorem insert_of_takeFree
    {s s' : Storage α} (htake : s.takeFree = (i, s')) (hcell : s'.cells[i]? = some none)
    (hused : s'.used = s'.cells.map Option.isSome) (x : α) :
    s.insert x = .ok (i,
      { s' with
        cells := s'.cells.setIfInBounds i (some x)
        used := (s'.cells.setIfInBounds i (some x)).map Option.isSome
        count := s'.count + 1 }) := by
  obtain ⟨hlt, -⟩ := Array.getElem?_eq_some_iff.1 hcell
  have hfill : fill s'.cells i x = .ok (s'.cells.setIfInBounds i (some x)) := by
    simp [fill, read, hcell, write_eq hlt]
  have hmark : write s'.used i true =
      .ok ((s'.cells.setIfInBounds i (some x)).map Option.isSome) := by
    rw [hused, write_eq (by simpa using hlt), map_isSome_setIfInBounds]
    rfl
  simp only [insert, htake, hfill, ok_bind, hmark]
  rfl

theorem insert_eq
    (h : a.Sound) (x : α) :
    a.storage.insert x = .ok ((a.insert x).1, (a.insert x).2.storage) := by
  have hcount := Arena.size_insert h x
  cases hfree : a.free with
  | cons i free =>
      obtain ⟨hlt, hvacant⟩ := (h.mem_free i).1 (by rw [hfree]; exact List.mem_cons_self)
      have hcell : a.slots[i]? = some none := by
        rw [Array.getElem?_eq_getElem hlt]
        rw [Arena.get?, Array.getElem?_eq_getElem hlt] at hvacant
        exact congrArg some hvacant
      have htake : a.storage.takeFree = (i, { a.storage with free }) := by
        rw [takeFree, show a.storage.free = i :: free from hfree]
      have hins : a.insert x = (i, ⟨a.slots.setIfInBounds i (some x), free⟩) := by
        rw [Arena.insert, hfree]
      rw [insert_of_takeFree htake hcell rfl]
      rw [hins] at hcount ⊢
      simp only [Arena.storage, hcount]
  | nil =>
      have hcell : (a.slots ++ Array.replicate (a.slots.size - 1 + 1) none)[a.slots.size]? =
          some none := by
        simp
      have hins : a.insert x = (a.slots.size,
          ⟨a.slots.push (some x) ++ Array.replicate (a.slots.size - 1) none,
            List.range' (a.slots.size + 1) (a.slots.size - 1)⟩) := by
        rw [Arena.insert, hfree]
      rw [insert_of_takeFree (takeFree_of_full hfree) hcell rfl]
      rw [hins] at hcount ⊢
      simp only [Arena.storage, hcount, setIfInBounds_append_replicate]

/-- Performs one operation. -/
def perform (s : Storage α) :
    Arena.Call α → Except Defect (Arena.Answer α × Storage α)
  | .insert x => do
      let (i, s) ← s.insert x
      return (.slot i, s)
  | .remove i => do
      match ← s.remove i with
      | .ok (x, s) => return (.value (some x), s)
      | .error missing => return (.panicked missing.message, s)
  | .contains i => return (.flag (s.contains i), s)
  | .get i => return (.value (← s.get? i), s)
  | .modify i f => do
      let (x, s) ← s.modify i f
      return (.value x, s)
  | .index i => return (.indexed (← s.get? i), s)
  | .assign i f => do
      let (x, s) ← s.modify i f
      return (.indexed x, s)
  | .size => return (.count s.count, s)

/-- Performs operations one after the other and returns them with their answers. -/
def run :
    List (Arena.Call α) → Storage α →
      Except Defect (List (Arena.Call α × Arena.Answer α) × Storage α)
  | [], s => return ([], s)
  | call :: calls, s => do
      let (answer, s) ← s.perform call
      let (answers, s) ← run calls s
      return ((call, answer) :: answers, s)

/-- Every call on the storage of a sound arena goes well and does what it does there. -/
theorem perform_eq
    (h : a.Sound) (call : Arena.Call α) :
    a.storage.perform call = .ok ((a.perform call).1, (a.perform call).2.storage) := by
  cases call with
  | insert x =>
      rw [perform, insert_eq h]
      rfl
  | remove i =>
      rw [perform, remove_eq h, Arena.perform]
      cases a.remove i with
      | ok removed =>
          rfl
      | error missing =>
          rfl
  | contains i =>
      rw [perform, contains_eq]
      rfl
  | get i | index i =>
      rw [perform, get?_eq]
      rfl
  | modify i f | assign i f =>
      rw [perform, modify_eq]
      rfl
  | size =>
      rfl

theorem run_eq
    (calls : List (Arena.Call α)) {a : Arena α} (h : a.Sound) :
    run calls a.storage = .ok ((Arena.run calls a).1, (Arena.run calls a).2.storage) := by
  induction calls generalizing a with
  | nil =>
      rfl
  | cons call calls ih =>
      simp only [run, perform_eq h, ok_bind, ih (Arena.sound_perform h call)]
      rfl

/-- The four parts of a storage agree with what its users see. -/
structure Records (s : Storage α) (L : Arena.Ledger α) : Prop where
  nodup : s.free.Nodup
  mem_free : ∀ i, i ∈ s.free ↔ i < L.capacity ∧ L.entries.lookup i = none
  used : ∀ i, s.used[i]? = if i < L.capacity then some (L.entries.lookup i).isSome else none
  cells : ∀ i, s.cells[i]? = if i < L.capacity then some (L.entries.lookup i) else none
  count : s.count = L.entries.keys.card

theorem records_storage
    {L : Arena.Ledger α} (h : a.Sound) (hr : Arena.Represents a L) :
    Records a.storage L := by
  have hcells : ∀ i, a.slots[i]? =
      if i < L.capacity then some (L.entries.lookup i) else none := by
    intro i
    rw [← hr.get?, ← hr.size]
    split
    next hlt =>
        rw [Arena.get?, Array.getElem?_eq_getElem hlt]
        rfl
    next hge =>
        exact Array.getElem?_eq_none (Nat.le_of_not_lt hge)
  refine ⟨h.nodup, fun i => ?_, fun i => ?_, hcells, hr.size_eq_card h⟩
  · rw [← hr.get?, ← hr.size]
    exact h.mem_free i
  · rw [show a.storage.used = a.slots.map Option.isSome from rfl, Array.getElem?_map, hcells]
    split <;> rfl

/-- Whatever is asked of storage that was empty at first, whatever its size, it goes well.
The answers are those of a partial map whose vacated slots are used again, the last one
first, and in the end the storage is that of the arena which was asked the same, its
parts in agreement. -/
theorem run_keeps_partial_map
    (n : Nat) (calls : List (Arena.Call α)) :
    ∃ L : Arena.Ledger α,
      run calls (ofSize n) =
        .ok ((Arena.run calls (.ofSize n)).1, (Arena.run calls (.ofSize n)).2.storage) ∧
      Arena.Ledger.Run { capacity := n } (Arena.run calls (.ofSize n)).1 L ∧
      Records (Arena.run calls (.ofSize n)).2.storage L := by
  have hsound : (Arena.ofSize n : Arena α).Sound := Arena.sound_ofSize n
  obtain ⟨L, hrun, hr⟩ := Arena.run_represents calls hsound (Arena.represents_ofSize n)
  refine ⟨L, ?_, hrun, records_storage (Arena.sound_run calls hsound) hr⟩
  rw [ofSize_eq]
  exact run_eq calls hsound

/-- A second removal is refused, and the slot vacated last is used before a new one. -/
example :
    (Arena.run [.insert 7, .insert 8, .remove 0, .remove 0, .insert 9] (.ofSize 0)).1.map
        Prod.snd =
      [.slot 0, .slot 1, .value (some 7), .panicked "Item is not set", .slot 0] :=
  rfl

end Storage
end CallbackLoop
