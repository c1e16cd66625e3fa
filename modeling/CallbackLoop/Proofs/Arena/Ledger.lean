import CallbackLoop.Proofs.Arena
import Mathlib.Data.Finmap

/-!
# What the users of an arena see

The users of an arena see a ledger: which value is stored under which slot number, which
slots were vacated and not used since, how many slots were used at all, and how many there
are.  A `Ledger.Step` says what a call may answer and what becomes of the ledger.  Nothing
is left open: the slot that an insertion uses is the one vacated last, then the lowest
that was never used, and one that does not exist yet only if there is no other.

An arena represents its ledger after every call (`run_represents`).
-/

namespace CallbackLoop

universe u v

section Maps

variable {κ : Type u} {β : Type v} [DecidableEq κ]

theorem lookup_insert_eq
    (s : Finmap fun _ : κ => β) (k x : κ) (b : β) :
    (s.insert k b).lookup x = if k = x then some b else s.lookup x := by
  by_cases hx : k = x
  · subst hx
    simp
  · simp [hx, Finmap.lookup_insert_of_ne _ (Ne.symm hx)]

theorem lookup_erase_eq
    (s : Finmap fun _ : κ => β) (k x : κ) :
    (s.erase k).lookup x = if k = x then none else s.lookup x := by
  by_cases hx : k = x
  · subst hx
    simp
  · simp [hx, Finmap.lookup_erase_ne (Ne.symm hx)]

end Maps

namespace Arena

variable {α : Type u}

/-- One operation on an arena.  The values that `modify` and `assign` show may be changed
in place; they differ in what becomes of a missing slot. -/
inductive Call (α : Type u) where
  | insert (x : α)
  | remove (i : Nat)
  | contains (i : Nat)
  | get (i : Nat)
  | modify (i : Nat) (f : α → α)
  | index (i : Nat)
  | assign (i : Nat) (f : α → α)
  | size

/-- The answer to an operation. -/
inductive Answer (α : Type u) where
  | slot (i : Nat)
  | value (x : Option α)
  | flag (b : Bool)
  | count (n : Nat)
  | panicked (message : String)

/-- What is said about a slot that has no value to remove. -/
def Missing.message : Missing → String
  | .outOfRange => "Index out of range"
  | .vacant => "Item is not set"

/-- The answer of an access by index. -/
def Answer.indexed : Option α → Answer α
  | some x => .value (some x)
  | none => .panicked "vacant slab slot"

/-- Changes the value in slot `i`, if there is one. -/
def modify (a : Arena α) (i : Nat) (f : α → α) : Arena α :=
  match a.get? i with
  | some x => a.set i (f x)
  | none => a

/-- Performs one operation.  One that panics changes nothing. -/
def perform
    (a : Arena α) :
    Call α → Answer α × Arena α
  | .insert x => (.slot (a.insert x).1, (a.insert x).2)
  | .remove i =>
      match a.remove i with
      | .ok (x, a') => (.value (some x), a')
      | .error missing => (.panicked missing.message, a)
  | .contains i => (.flag (a.contains i), a)
  | .get i => (.value (a.get? i), a)
  | .modify i f => (.value (a.get? i), a.modify i f)
  | .index i => (.indexed (a.get? i), a)
  | .assign i f => (.indexed (a.get? i), a.modify i f)
  | .size => (.count a.size, a)

/-- Performs operations one after the other and returns them with their answers. -/
def run :
    List (Call α) → Arena α → List (Call α × Answer α) × Arena α
  | [], a => ([], a)
  | call :: calls, a =>
      ((call, (a.perform call).1) :: (run calls (a.perform call).2).1,
        (run calls (a.perform call).2).2)

/-- What the users of an arena see of it. -/
structure Ledger (α : Type u) where
  /-- The value stored in each occupied slot. -/
  entries : Finmap fun _ : Nat => α := ∅
  /-- The slots that were vacated and not used since, the one vacated last first. -/
  vacated : List Nat := []
  /-- How many slots were ever used.  They are the lowest ones. -/
  touched : Nat := 0
  capacity : Nat

namespace Ledger

/-- The value `x` is stored in slot `i`. -/
def put
    (L : Ledger α) (i : Nat) (x : α) : Ledger α :=
  { L with entries := L.entries.insert i x }

theorem lookup_put
    (L : Ledger α) (i j : Nat) (x : α) :
    (L.put i x).entries.lookup j = if i = j then some x else L.entries.lookup j :=
  lookup_insert_eq L.entries i j x

/-- What a call may answer, and what becomes of the ledger. -/
inductive Step (L : Ledger α) :
    Call α → Answer α → Ledger α → Prop
  | insertVacated {x : α} {i : Nat} {vacated : List Nat} :
      L.vacated = i :: vacated →
      L.entries.lookup i = none →
      Step L (.insert x) (.slot i) ({ L with vacated }.put i x)
  | insertUntouched {x : α} :
      L.vacated = [] →
      L.touched < L.capacity →
      L.entries.lookup L.touched = none →
      Step L (.insert x) (.slot L.touched)
        ({ L with touched := L.touched + 1 }.put L.touched x)
  | insertBeyond {x : α} :
      L.vacated = [] →
      L.touched = L.capacity →
      L.entries.lookup L.capacity = none →
      Step L (.insert x) (.slot L.capacity)
        ({ L with
          touched := L.capacity + 1
          capacity := if L.capacity = 0 then 1 else 2 * L.capacity }.put L.capacity x)
  | remove {i : Nat} {x : α} :
      L.entries.lookup i = some x →
      Step L (.remove i) (.value (some x))
        { L with entries := L.entries.erase i, vacated := i :: L.vacated }
  | removeVacant {i : Nat} :
      i < L.capacity →
      L.entries.lookup i = none →
      Step L (.remove i) (.panicked "Item is not set") L
  | removeOutOfRange {i : Nat} :
      L.capacity ≤ i →
      L.entries.lookup i = none →
      Step L (.remove i) (.panicked "Index out of range") L
  | contains {i : Nat} :
      Step L (.contains i) (.flag (L.entries.lookup i).isSome) L
  | get {i : Nat} :
      Step L (.get i) (.value (L.entries.lookup i)) L
  | modify {i : Nat} {f : α → α} {x : α} :
      L.entries.lookup i = some x →
      Step L (.modify i f) (.value (some x)) (L.put i (f x))
  | modifyMissing {i : Nat} {f : α → α} :
      L.entries.lookup i = none →
      Step L (.modify i f) (.value none) L
  | index {i : Nat} {x : α} :
      L.entries.lookup i = some x →
      Step L (.index i) (.value (some x)) L
  | indexMissing {i : Nat} :
      L.entries.lookup i = none →
      Step L (.index i) (.panicked "vacant slab slot") L
  | assign {i : Nat} {f : α → α} {x : α} :
      L.entries.lookup i = some x →
      Step L (.assign i f) (.value (some x)) (L.put i (f x))
  | assignMissing {i : Nat} {f : α → α} :
      L.entries.lookup i = none →
      Step L (.assign i f) (.panicked "vacant slab slot") L
  | size :
      Step L .size (.count L.entries.keys.card) L

/-- Steps one after the other. -/
inductive Run :
    Ledger α → List (Call α × Answer α) → Ledger α → Prop
  | nil {L : Ledger α} :
      Run L [] L
  | cons {L L' L'' : Ledger α} {call : Call α} {answer : Answer α}
      {log : List (Call α × Answer α)} :
      Step L call answer L' →
      Run L' log L'' →
      Run L ((call, answer) :: log) L''

end Ledger

/-- The arena holds the values of the ledger.  On its stack lie the slots that were
vacated, then those that were never used. -/
structure Represents (a : Arena α) (L : Ledger α) : Prop where
  size : a.slots.size = L.capacity
  get? : ∀ i, a.get? i = L.entries.lookup i
  free : a.free = L.vacated ++ List.range' L.touched (L.capacity - L.touched)
  touched : L.touched ≤ L.capacity

variable {a : Arena α} {L : Ledger α}

theorem represents_ofSize
    (n : Nat) :
    Represents (ofSize n : Arena α) { capacity := n } where
  size := by simp [ofSize]
  get? i := by rw [get?_ofSize, Finmap.lookup_empty]
  free := by simp [ofSize, List.range_eq_range']
  touched := Nat.zero_le _

/-- The size is the number of entries. -/
theorem Represents.size_eq_card
    (hr : Represents a L) (h : a.Sound) :
    a.size = L.entries.keys.card := by
  rw [← Finset.length_toList]
  refine h.size_eq_length (Finset.nodup_toList _) fun i => ?_
  rw [Finset.mem_toList, Finmap.mem_keys, ← Finmap.lookup_isSome, ← hr.get?,
    Option.isSome_iff_exists]

/-- A value that replaces another is one entry of the ledger. -/
theorem Represents.modify
    (hr : Represents a L) (f : α → α) {i : Nat} {x : α} (hx : L.entries.lookup i = some x) :
    Represents (a.modify i f) (L.put i (f x)) := by
  have hget : a.get? i = some x := (hr.get? i).trans hx
  have hocc : a.contains i = true := contains_iff.2 ⟨x, hget⟩
  have hmodify : a.modify i f = ⟨a.slots.setIfInBounds i (some (f x)), a.free⟩ := by
    simp [Arena.modify, hget, set, hocc]
  have hlookup : ∀ j, (a.modify i f).get? j = (L.put i (f x)).entries.lookup j := by
    intro j
    rw [Arena.modify, hget, Ledger.lookup_put, ← hr.get?]
    show (a.set i (f x)).get? j = _
    rw [get?_set]
    simp only [hocc, and_true]
  refine ⟨?_, hlookup, ?_, hr.touched⟩
  · rw [hmodify]
    exact Array.size_setIfInBounds.trans hr.size
  · rw [hmodify]
    exact hr.free

/-- Insertion stores one value more, whatever it does to the stack. -/
theorem Represents.insert
    (hr : Represents a L) (h : a.Sound) (x : α) {L' : Ledger α}
    (hentries : L'.entries = L.entries) (hsize : (a.insert x).2.slots.size = L'.capacity)
    (hfree : (a.insert x).2.free =
      L'.vacated ++ List.range' L'.touched (L'.capacity - L'.touched))
    (htouched : L'.touched ≤ L'.capacity) :
    Represents (a.insert x).2 (L'.put (a.insert x).1 x) where
  size := hsize
  get? j := by rw [get?_insert h, Ledger.lookup_put, hr.get?, hentries]
  free := hfree
  touched := htouched

theorem sound_modify
    (h : a.Sound) (i : Nat) (f : α → α) :
    (a.modify i f).Sound := by
  unfold Arena.modify
  split
  next x _ =>
      exact sound_set h i (f x)
  next =>
      exact h

theorem sound_perform
    (h : a.Sound) (call : Call α) :
    (a.perform call).2.Sound := by
  cases call with
  | insert x =>
      exact sound_insert h x
  | remove i =>
      cases hx : a.get? i with
      | some x =>
          have hlt := lt_size_of_get? hx
          simpa [perform, remove, hx, Nat.not_le_of_lt hlt] using sound_erase h hx
      | none =>
          by_cases hle : a.slots.size ≤ i <;> simpa [perform, remove, hx, hle] using h
  | modify i f | assign i f =>
      exact sound_modify h i f
  | contains _ | get _ | index _ | size =>
      exact h

/-- What a call answers, and what it leaves behind, is a step of the ledger. -/
def Steps
    (a : Arena α) (L : Ledger α) (call : Call α) : Prop :=
  ∃ L', L.Step call (a.perform call).1 L' ∧ Represents (a.perform call).2 L'

/-- A call that reads only. -/
theorem Steps.of_reads
    (hr : Represents a L) {call : Call α} {answer : Answer α}
    (hstep : L.Step call answer L) (hperform : a.perform call = (answer, a)) :
    Steps a L call := by
  unfold Steps
  rw [hperform]
  exact ⟨L, hstep, hr⟩

theorem steps_insert
    (h : a.Sound) (hr : Represents a L) (x : α) :
    Steps a L (.insert x) := by
  have hvacant : L.entries.lookup (a.insert x).1 = none :=
    (hr.get? _).symm.trans (get?_insert_fst h x)
  have hfree := hr.free
  have hsize := hr.size
  have htouched := hr.touched
  -- It is enough to say what becomes of the stack.
  suffices hstep : ∃ L' : Ledger α,
      L.Step (.insert x) (.slot (a.insert x).1) (L'.put (a.insert x).1 x) ∧
      L'.entries = L.entries ∧ (a.insert x).2.slots.size = L'.capacity ∧
      (a.insert x).2.free = L'.vacated ++ List.range' L'.touched (L'.capacity - L'.touched) ∧
      L'.touched ≤ L'.capacity by
    obtain ⟨L', hstep, hentries, hsize', hfree', htouched'⟩ := hstep
    exact ⟨_, hstep, hr.insert h x hentries hsize' hfree' htouched'⟩
  cases hvacated : L.vacated with
  | cons i vacated =>
      rw [hvacated, List.cons_append] at hfree
      have hins : a.insert x = (i, ⟨a.slots.setIfInBounds i (some x),
          vacated ++ List.range' L.touched (L.capacity - L.touched)⟩) := by
        rw [insert, hfree]
      rw [hins] at hvacant ⊢
      exact ⟨{ L with vacated }, .insertVacated hvacated hvacant, rfl,
        Array.size_setIfInBounds.trans hsize, rfl, htouched⟩
  | nil =>
      rw [hvacated, List.nil_append] at hfree
      rcases Nat.lt_or_ge L.touched L.capacity with hlt | hge
      · have hrange : List.range' L.touched (L.capacity - L.touched) =
            L.touched :: List.range' (L.touched + 1) (L.capacity - (L.touched + 1)) := by
          rw [← List.range'_succ]
          congr 1
          omega
        rw [hrange] at hfree
        have hins : a.insert x = (L.touched, ⟨a.slots.setIfInBounds L.touched (some x),
            List.range' (L.touched + 1) (L.capacity - (L.touched + 1))⟩) := by
          rw [insert, hfree]
        rw [hins] at hvacant ⊢
        refine ⟨{ L with touched := L.touched + 1 }, .insertUntouched hvacated hlt hvacant, rfl,
          Array.size_setIfInBounds.trans hsize, ?_, hlt⟩
        rw [hvacated]
        rfl
      · have hfull : L.touched = L.capacity := Nat.le_antisymm htouched hge
        rw [hfull, Nat.sub_self, List.range'_zero] at hfree
        have hins : a.insert x = (L.capacity,
            ⟨a.slots.push (some x) ++ Array.replicate (L.capacity - 1) none,
              List.range' (L.capacity + 1) (L.capacity - 1)⟩) := by
          simp only [insert, hfree, hsize]
        rw [hins] at hvacant ⊢
        refine ⟨_, .insertBeyond hvacated hfull hvacant, rfl, ?_, ?_, ?_⟩
        · simp only [Array.size_append, Array.size_push, Array.size_replicate, hsize]
          split <;> omega
        · rw [hvacated, List.nil_append]
          refine congrArg (List.range' (L.capacity + 1) ·) ?_
          show L.capacity - 1 = (if L.capacity = 0 then 1 else 2 * L.capacity) - (L.capacity + 1)
          split <;> omega
        · show L.capacity + 1 ≤ if L.capacity = 0 then 1 else 2 * L.capacity
          split <;> omega

theorem steps_remove
    (hr : Represents a L) (i : Nat) :
    Steps a L (.remove i) := by
  cases hx : L.entries.lookup i with
  | some x =>
      have hget : a.get? i = some x := (hr.get? i).trans hx
      have hperform : a.perform (.remove i) = (.value (some x), a.erase i) := by
        simp [perform, remove, hget, Nat.not_le_of_lt (lt_size_of_get? hget)]
      unfold Steps
      rw [hperform]
      refine ⟨_, .remove hx, ⟨?_, fun j => ?_, ?_, hr.touched⟩⟩
      · exact Array.size_setIfInBounds.trans hr.size
      · rw [get?_erase, hr.get?, lookup_erase_eq]
      · exact congrArg (i :: ·) hr.free
  | none =>
      have hget : a.get? i = none := (hr.get? i).trans hx
      rcases Nat.lt_or_ge i L.capacity with hlt | hge
      · have hlt' : i < a.slots.size := hr.size ▸ hlt
        exact .of_reads hr (.removeVacant hlt hx)
          (by simp [perform, remove, hget, Nat.not_le_of_lt hlt', Missing.message])
      · have hge' : a.slots.size ≤ i := hr.size ▸ hge
        exact .of_reads hr (.removeOutOfRange hge hx)
          (by simp [perform, remove, hge', Missing.message])

/-- Every call is a step of the ledger that the arena represents. -/
theorem perform_step
    (h : a.Sound) (hr : Represents a L) (call : Call α) :
    Steps a L call := by
  cases call with
  | insert x =>
      exact steps_insert h hr x
  | remove i =>
      exact steps_remove hr i
  | contains i =>
      exact .of_reads hr .contains (by rw [perform, Arena.contains, hr.get?])
  | get i =>
      exact .of_reads hr .get (by rw [perform, hr.get?])
  | size =>
      exact .of_reads hr .size (by rw [perform, hr.size_eq_card h])
  | index i =>
      cases hx : L.entries.lookup i with
      | some x =>
          exact .of_reads hr (.index hx) (by rw [perform, hr.get?, hx]; rfl)
      | none =>
          exact .of_reads hr (.indexMissing hx) (by rw [perform, hr.get?, hx]; rfl)
  | modify i f =>
      cases hx : L.entries.lookup i with
      | some x =>
          refine ⟨_, ?_, hr.modify f hx⟩
          rw [perform, hr.get?, hx]
          exact .modify hx
      | none =>
          exact .of_reads hr (.modifyMissing hx)
            (by rw [perform, Arena.modify, hr.get?, hx])
  | assign i f =>
      cases hx : L.entries.lookup i with
      | some x =>
          refine ⟨_, ?_, hr.modify f hx⟩
          rw [perform, hr.get?, hx]
          exact .assign hx
      | none =>
          exact .of_reads hr (.assignMissing hx)
            (by rw [perform, Arena.modify, hr.get?, hx]; rfl)

/-- The calls on a sound arena are a run of its ledger. -/
theorem run_represents
    (calls : List (Call α)) {a : Arena α} (h : a.Sound) {L : Ledger α} (hr : Represents a L) :
    ∃ L', Ledger.Run L (run calls a).1 L' ∧ Represents (run calls a).2 L' := by
  induction calls generalizing a L with
  | nil =>
      exact ⟨L, .nil, hr⟩
  | cons call calls ih =>
      obtain ⟨L', hstep, hr'⟩ := perform_step h hr call
      obtain ⟨L'', hrun, hr''⟩ := ih (sound_perform h call) hr'
      exact ⟨L'', .cons hstep hrun, hr''⟩

theorem sound_run
    (calls : List (Call α)) {a : Arena α} (h : a.Sound) :
    (run calls a).2.Sound := by
  induction calls generalizing a with
  | nil =>
      exact h
  | cons call calls ih =>
      exact ih (sound_perform h call)

end Arena
end CallbackLoop
