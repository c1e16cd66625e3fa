import CallbackLoop.LinkedTable
import CallbackLoop.Proofs.Arena.Ledger
import CallbackLoop.Proofs.Loop.Table

/-!
# What the users of a table see

The users of a table of descriptors see a roster: the descriptor in each slot, the slot of
each number, and the two lists in their order.  A `Roster.Step` says what a call may answer
and what becomes of the roster.  Only the slot of a new descriptor is left open, which has
to be vacant.

Every step keeps the roster sound (`Roster.Step.sound`): the slots of the numbers are the
inverse of the numbers in the slots, and the lists hold stored descriptors without
repetition.  A table represents its roster after every call (`run_represents`).
-/

namespace CallbackLoop

variable {R H : Type}

/-- A number is found in a slot exactly if a descriptor with that number is there. -/
def Files (find : Int → Option Nat) (get : Nat → Option (Descriptor R H)) : Prop :=
  ∀ fd i, find fd = some i ↔ ∃ d, get i = some d ∧ d.fd = fd

namespace Files

variable {find find' : Int → Option Nat} {get get' : Nat → Option (Descriptor R H)}
  {fd : Int} {i : Nat} {d d' : Descriptor R H}

theorem inj
    (h : Files find get) (i j : Nat) (d e : Descriptor R H) (hd : get i = some d)
    (he : get j = some e) (heq : d.fd = e.fd) :
    i = j := by
  have hi := (h d.fd i).2 ⟨d, hd, rfl⟩
  have hj := (h d.fd j).2 ⟨e, he, heq.symm⟩
  exact Option.some.inj (hi.symm.trans hj)

/-- A number that was not found is filed in a slot that was vacant. -/
theorem insert
    (h : Files find get) (hfd : find d.fd = none) (hi : get i = none)
    (hfind : ∀ x, find' x = if d.fd = x then some i else find x)
    (hget : ∀ j, get' j = if i = j then some d else get j) :
    Files find' get' := by
  intro x j
  rw [hfind, hget]
  by_cases hx : d.fd = x
  · subst hx
    rw [if_pos rfl, Option.some.injEq]
    by_cases hij : i = j
    · subst hij
      simp
    · have hnone : ¬ ∃ e, get j = some e ∧ e.fd = d.fd := by
        rw [← h, hfd]
        simp
      simp [hij, hnone]
  · rw [if_neg hx, h]
    by_cases hij : i = j
    · subst hij
      simp [hi, hx]
    · simp [hij]

/-- A descriptor that is taken out is no longer found. -/
theorem erase
    (h : Files find get) (hd : get i = some d)
    (hfind : ∀ x, find' x = if d.fd = x then none else find x)
    (hget : ∀ j, get' j = if i = j then none else get j) :
    Files find' get' := by
  intro x j
  rw [hfind, hget]
  have hfound := (h d.fd i).2 ⟨d, hd, rfl⟩
  by_cases hx : d.fd = x
  · subst hx
    by_cases hij : i = j
    · simp [hij]
    · have hnone : ¬ ∃ e, get j = some e ∧ e.fd = d.fd := by
        rw [← h, hfound]
        simp [hij]
      simp [hij, hnone]
  · rw [if_neg hx, h]
    by_cases hij : i = j
    · subst hij
      simp [hd, hx]
    · simp [hij]

/-- A descriptor that keeps its number is found where it was. -/
theorem replace
    (h : Files find get) (hd : get i = some d) (hfd : d'.fd = d.fd)
    (hget : ∀ j, get' j = if i = j then some d' else get j) :
    Files find get' := by
  intro x j
  rw [h, hget]
  by_cases hij : i = j
  · subst hij
    simp [hd, hfd]
  · simp [hij]

end Files

/-- One operation on a table. -/
inductive TableCall (R H : Type) where
  | ensure (fd : Int)
  | lookup (fd : Int)
  | get (slot : Nat)
  /-- Changes a descriptor, but for its number. -/
  | revise (slot : Nat) (f : Descriptor R H → Descriptor R H)
  | join (roll : Roll) (slot : Nat)
  | leave (roll : Roll) (slot : Nat)
  | takeActive
  | free (slot : Nat)
  | size
  | watched

/-- The slot that an operation goes to. -/
def TableCall.slot? : TableCall R H → Option Nat
  | .get slot | .revise slot _ | .join _ slot | .leave _ slot | .free slot => some slot
  | .ensure _ | .lookup _ | .takeActive | .size | .watched => none

/-- The answer to an operation. -/
inductive TableAnswer (R H : Type) where
  | done
  | slot (slot : Nat)
  | found (slot : Option Nat)
  | descriptor (d : Descriptor R H)
  | count (n : Nat)
  | panicked (message : String)

/-- The first thing that an operation on a slot does is to look at the descriptor
there. -/
def TableAnswer.vacant : TableAnswer R H :=
  .panicked "vacant slab slot"

namespace DescriptorTable

/-- The slots on a list. -/
def list (t : DescriptorTable R H) : Roll → List Nat
  | .waiting => t.waiting
  | .active => t.active

/-- Puts a slot at the end of a list, if it is not on it. -/
def join (t : DescriptorTable R H) (roll : Roll) (slot : Nat) : DescriptorTable R H :=
  match roll with
  | .waiting => t.watch slot
  | .active => t.activate slot

/-- Takes a slot off a list. -/
def leave (t : DescriptorTable R H) (roll : Roll) (slot : Nat) : DescriptorTable R H :=
  match roll with
  | .waiting => t.unwatch slot
  | .active => t.deactivate slot

@[simp] theorem list_join
    (t : DescriptorTable R H) (roll other : Roll) (slot : Nat) :
    (t.join roll slot).list other =
      if other = roll then enlist (t.list roll) slot else t.list other := by
  cases roll <;> cases other <;> rfl

@[simp] theorem list_leave
    (t : DescriptorTable R H) (roll other : Roll) (slot : Nat) :
    (t.leave roll slot).list other =
      if other = roll then (t.list roll).erase slot else t.list other := by
  cases roll <;> cases other <;> rfl

@[simp] theorem arena_join
    (t : DescriptorTable R H) (roll : Roll) (slot : Nat) :
    (t.join roll slot).arena = t.arena := by
  cases roll <;> rfl

@[simp] theorem arena_leave
    (t : DescriptorTable R H) (roll : Roll) (slot : Nat) :
    (t.leave roll slot).arena = t.arena := by
  cases roll <;> rfl

/-- What an operation on a slot does if there is a descriptor. -/
def visit (t : DescriptorTable R H) (slot : Nat)
    (f : Descriptor R H → TableAnswer R H × DescriptorTable R H) :
    TableAnswer R H × DescriptorTable R H :=
  match t.get? slot with
  | some d => f d
  | none => (.vacant, t)

/-- Performs one operation.  One that panics changes nothing. -/
def perform
    (t : DescriptorTable R H) :
    TableCall R H → TableAnswer R H × DescriptorTable R H
  | .ensure fd => (.slot (t.ensure fd).1, (t.ensure fd).2)
  | .lookup fd => (.found (t.slotOf? fd), t)
  | .get slot => t.visit slot fun d => (.descriptor d, t)
  | .revise slot f => t.visit slot fun d => (.done, t.set slot { f d with fd := d.fd })
  | .join roll slot => t.visit slot fun _ => (.done, t.join roll slot)
  | .leave roll slot => t.visit slot fun _ => (.done, t.leave roll slot)
  | .takeActive =>
      match t.takeActive? with
      | some (slot, t') => (.found (some slot), t')
      | none => (.found none, t)
  | .free slot =>
      match t.free? slot with
      | some (d, t') => (.descriptor d, t')
      | none => (.vacant, t)
  | .size => (.count t.size, t)
  | .watched => (.count t.watched, t)

section Performing

variable {t : DescriptorTable R H} {slot : Nat}

theorem visit_of_some
    {d : Descriptor R H} {f : Descriptor R H → TableAnswer R H × DescriptorTable R H}
    (hd : t.get? slot = some d) :
    t.visit slot f = f d := by
  unfold visit
  rw [hd]

theorem visit_of_none
    {f : Descriptor R H → TableAnswer R H × DescriptorTable R H} (hd : t.get? slot = none) :
    t.visit slot f = (.vacant, t) := by
  unfold visit
  rw [hd]

theorem perform_ensure
    (t : DescriptorTable R H) (fd : Int) :
    t.perform (.ensure fd) = (.slot (t.ensure fd).1, (t.ensure fd).2) :=
  rfl

/-- To free a slot is one more way to visit it. -/
theorem perform_free
    (t : DescriptorTable R H) (slot : Nat) :
    t.perform (.free slot) =
      t.visit slot fun d => (.descriptor { d with stage := .freed }, t.remove slot) := by
  rw [perform, free?_eq, visit]
  cases t.get? slot <;> rfl

theorem perform_takeActive_of_nil
    (hactive : t.active = []) :
    t.perform .takeActive = (.found none, t) := by
  unfold perform takeActive?
  rw [hactive]

theorem perform_takeActive_of_cons
    {rest : List Nat} (hactive : t.active = slot :: rest) :
    t.perform .takeActive = (.found (some slot), { t with active := rest }) := by
  unfold perform takeActive?
  rw [hactive]

end Performing

/-- Performs operations one after the other and returns them with their answers. -/
def run :
    List (TableCall R H) → DescriptorTable R H →
      List (TableCall R H × TableAnswer R H) × DescriptorTable R H
  | [], t => ([], t)
  | call :: calls, t =>
      ((call, (t.perform call).1) :: (run calls (t.perform call).2).1,
        (run calls (t.perform call).2).2)

end DescriptorTable

/-- What the users of a table see of it. -/
structure Roster (R H : Type) where
  stored : Finmap fun _ : Nat => Descriptor R H := ∅
  slots : Finmap fun _ : Int => Nat := ∅
  list : Roll → List Nat := fun _ => []

namespace Roster

/-- Replaces one list. -/
def setList (A : Roster R H) (roll : Roll) (list : List Nat) : Roster R H :=
  { A with list := Function.update A.list roll list }

/-- The numbers are filed, and the lists hold stored descriptors without repetition. -/
structure Sound (A : Roster R H) : Prop where
  files : Files A.slots.lookup A.stored.lookup
  nodup : ∀ roll, (A.list roll).Nodup
  stored : ∀ roll, ∀ i ∈ A.list roll, ∃ d, A.stored.lookup i = some d

/-- What a call may answer, and what becomes of the roster. -/
inductive Step (A : Roster R H) :
    TableCall R H → TableAnswer R H → Roster R H → Prop
  | ensureStored {fd : Int} {i : Nat} :
      A.slots.lookup fd = some i →
      Step A (.ensure fd) (.slot i) A
  | ensureNew {fd : Int} {i : Nat} :
      A.slots.lookup fd = none →
      A.stored.lookup i = none →
      Step A (.ensure fd) (.slot i)
        { A with stored := A.stored.insert i { fd }, slots := A.slots.insert fd i }
  | lookup {fd : Int} :
      Step A (.lookup fd) (.found (A.slots.lookup fd)) A
  | get {i : Nat} {d : Descriptor R H} :
      A.stored.lookup i = some d →
      Step A (.get i) (.descriptor d) A
  | revise {i : Nat} {d : Descriptor R H} {f : Descriptor R H → Descriptor R H} :
      A.stored.lookup i = some d →
      Step A (.revise i f) .done
        { A with stored := A.stored.insert i { f d with fd := d.fd } }
  | join {roll : Roll} {i : Nat} {d : Descriptor R H} :
      A.stored.lookup i = some d →
      i ∉ A.list roll →
      Step A (.join roll i) .done (A.setList roll (A.list roll ++ [i]))
  | joinAgain {roll : Roll} {i : Nat} {d : Descriptor R H} :
      A.stored.lookup i = some d →
      i ∈ A.list roll →
      Step A (.join roll i) .done A
  | leave {roll : Roll} {i : Nat} {d : Descriptor R H} {before after : List Nat} :
      A.stored.lookup i = some d →
      A.list roll = before ++ i :: after →
      Step A (.leave roll i) .done (A.setList roll (before ++ after))
  | leaveAgain {roll : Roll} {i : Nat} {d : Descriptor R H} :
      A.stored.lookup i = some d →
      i ∉ A.list roll →
      Step A (.leave roll i) .done A
  | takeActive {i : Nat} {rest : List Nat} :
      A.list .active = i :: rest →
      Step A .takeActive (.found (some i)) (A.setList .active rest)
  | takeNone :
      A.list .active = [] →
      Step A .takeActive (.found none) A
  | free {i : Nat} {d : Descriptor R H} :
      A.stored.lookup i = some d →
      Step A (.free i) (.descriptor { d with stage := .freed })
        { stored := A.stored.erase i
          slots := A.slots.erase d.fd
          list := fun roll => (A.list roll).erase i }
  | vacant {call : TableCall R H} {i : Nat} :
      call.slot? = some i →
      A.stored.lookup i = none →
      Step A call .vacant A
  | size :
      Step A .size (.count A.stored.keys.card) A
  | watched :
      Step A .watched (.count (A.list .waiting).length) A

/-- Steps one after the other. -/
inductive Run :
    Roster R H → List (TableCall R H × TableAnswer R H) → Roster R H → Prop
  | nil {A : Roster R H} :
      Run A [] A
  | cons {A A' A'' : Roster R H} {call : TableCall R H} {answer : TableAnswer R H}
      {log : List (TableCall R H × TableAnswer R H)} :
      Step A call answer A' →
      Run A' log A'' →
      Run A ((call, answer) :: log) A''

variable {A A' : Roster R H} {roll : Roll} {i : Nat}

theorem sound_empty :
    ({} : Roster R H).Sound where
  files fd i := by simp
  nodup _ := List.nodup_nil
  stored _ _ hi := absurd hi List.not_mem_nil

theorem Sound.setList
    (h : A.Sound) {list : List Nat} (hnodup : list.Nodup)
    (hstored : ∀ i ∈ list, ∃ d, A.stored.lookup i = some d) :
    (A.setList roll list).Sound := by
  refine ⟨h.files, fun other => ?_, fun other => ?_⟩
  · by_cases hother : other = roll
    · subst hother
      simpa [Roster.setList] using hnodup
    · simpa [Roster.setList, hother] using h.nodup other
  · by_cases hother : other = roll
    · subst hother
      simpa [Roster.setList] using hstored
    · simpa [Roster.setList, hother] using h.stored other

/-- A list that loses members stays as it should be. -/
theorem Sound.setList_of_sublist
    (h : A.Sound) {list : List Nat} (hsub : list.Sublist (A.list roll)) :
    (A.setList roll list).Sound :=
  h.setList (hsub.nodup (h.nodup roll)) fun i hi => h.stored roll i (hsub.subset hi)

/-- What is stored under other numbers or put in place of something is still stored. -/
theorem exists_lookup_insert
    {s : Finmap fun _ : Nat => Descriptor R H} {d : Descriptor R H}
    (h : ∃ e, s.lookup i = some e) (j : Nat) :
    ∃ e, (s.insert j d).lookup i = some e := by
  rw [lookup_insert_eq]
  split
  · exact ⟨d, rfl⟩
  · exact h

/-- Every step keeps the roster sound. -/
theorem Step.sound
    {call : TableCall R H} {answer : TableAnswer R H} (hstep : Step A call answer A')
    (h : A.Sound) :
    A'.Sound := by
  cases hstep with
  | ensureStored _ | lookup | get _ | joinAgain _ _ | leaveAgain _ _ | takeNone _ | vacant _ _
  | size | watched =>
      exact h
  | @ensureNew fd i hfd hi =>
      exact ⟨h.files.insert (d := { fd }) hfd hi (lookup_insert_eq _ _ · _)
        (lookup_insert_eq _ _ · _), h.nodup,
        fun roll j hj => exists_lookup_insert (h.stored roll j hj) _⟩
  | @revise i d f hd =>
      have hfd : ({ f d with fd := d.fd } : Descriptor R H).fd = d.fd := rfl
      exact ⟨h.files.replace hd hfd (lookup_insert_eq _ _ · _), h.nodup,
        fun roll j hj => exists_lookup_insert (h.stored roll j hj) _⟩
  | @join roll i d hd hi =>
      refine h.setList ?_ fun j hj => ?_
      · exact List.nodup_append.2 ⟨h.nodup roll, List.nodup_singleton i, by
          rintro j hj _ hi' rfl
          exact hi (List.mem_singleton.1 hi' ▸ hj)⟩
      · rcases List.mem_append.1 hj with hj | hj
        · exact h.stored roll j hj
        · rw [List.mem_singleton.1 hj]
          exact ⟨d, hd⟩
  | @leave roll i d before after _ hlist =>
      refine h.setList_of_sublist ?_
      rw [hlist]
      exact (List.sublist_cons_self i after).append_left before
  | @takeActive i rest hactive =>
      refine h.setList_of_sublist ?_
      rw [hactive]
      exact List.sublist_cons_self i rest
  | @free i d hd =>
      refine ⟨h.files.erase hd (lookup_erase_eq _ _) (lookup_erase_eq _ _),
        fun roll => (h.nodup roll).erase i, fun roll j hj => ?_⟩
      rw [lookup_erase_eq]
      split
      next hij =>
          subst hij
          exact absurd hj (h.nodup roll).not_mem_erase
      next =>
          exact h.stored roll j (List.mem_of_mem_erase hj)

/-- The table stores the descriptors of the roster and has its lists. -/
structure Represents (t : DescriptorTable R H) (A : Roster R H) : Prop where
  arena : t.arena.Sound
  get? : ∀ i, t.get? i = A.stored.lookup i
  list : ∀ roll, t.list roll = A.list roll

variable {t : DescriptorTable R H}

theorem Represents.slotOf?
    (hr : Represents t A) (h : A.Sound) (fd : Int) :
    t.slotOf? fd = A.slots.lookup fd := by
  have hfiles : Files A.slots.lookup t.get? := by
    intro x i
    rw [hr.get?]
    exact h.files x i
  ext i
  rw [DescriptorTable.slotOf?_eq_some_iff_of_inj hfiles.inj, hfiles fd i]

theorem Represents.size
    (hr : Represents t A) :
    t.size = A.stored.keys.card := by
  rw [DescriptorTable.size, ← Finset.length_toList]
  refine hr.arena.size_eq_length (Finset.nodup_toList _) fun i => ?_
  have hget : t.arena.get? i = A.stored.lookup i := hr.get? i
  rw [Finset.mem_toList, Finmap.mem_keys, ← Finmap.lookup_isSome, ← hget,
    Option.isSome_iff_exists]

/-- What a call answers, and what it leaves behind, is a step of the roster. -/
def Steps (t : DescriptorTable R H) (A : Roster R H) (call : TableCall R H) : Prop :=
  ∃ A', A.Step call (t.perform call).1 A' ∧ Represents (t.perform call).2 A'

/-- A call that reads only. -/
theorem Steps.of_reads
    (hr : Represents t A) {call : TableCall R H} {answer : TableAnswer R H}
    (hstep : A.Step call answer A) (hperform : t.perform call = (answer, t)) :
    Steps t A call := by
  unfold Steps
  rw [hperform]
  exact ⟨A, hstep, hr⟩

/-- A call that goes to a vacant slot. -/
theorem Steps.of_vacant
    (hr : Represents t A) {call : TableCall R H} (hslot : call.slot? = some i)
    (hi : A.stored.lookup i = none) (hperform : t.perform call = (.vacant, t)) :
    Steps t A call :=
  .of_reads hr (.vacant hslot hi) hperform

theorem steps_ensure
    (h : A.Sound) (hr : Represents t A) (fd : Int) :
    Steps t A (.ensure fd) := by
  cases hslot : t.slotOf? fd with
  | some i =>
      refine .of_reads hr (.ensureStored ((hr.slotOf? h fd).symm.trans hslot)) ?_
      rw [DescriptorTable.perform_ensure, DescriptorTable.ensure_of_slotOf? hslot]
  | none =>
      have hvacant := Arena.get?_insert_fst hr.arena ({ fd } : Descriptor R H)
      unfold Steps
      rw [DescriptorTable.perform_ensure, DescriptorTable.ensure_of_none hslot]
      refine ⟨_, .ensureNew ((hr.slotOf? h fd).symm.trans hslot)
        ((hr.get? _).symm.trans hvacant), Arena.sound_insert hr.arena _, fun j => ?_, hr.list⟩
      rw [lookup_insert_eq, ← hr.get?]
      exact Arena.get?_insert hr.arena _ j

theorem steps_revise
    (hr : Represents t A) (i : Nat) (f : Descriptor R H → Descriptor R H) :
    Steps t A (.revise i f) := by
  cases hd : t.get? i with
  | some d =>
      have hperform : t.perform (.revise i f) = (.done, t.set i { f d with fd := d.fd }) :=
        DescriptorTable.visit_of_some hd
      unfold Steps
      rw [hperform]
      refine ⟨_, .revise ((hr.get? i).symm.trans hd), Arena.sound_set hr.arena _ _,
        fun j => ?_, hr.list⟩
      rw [lookup_insert_eq, ← hr.get?, DescriptorTable.get?_set]
      simp [hd]
  | none =>
      exact .of_vacant hr rfl ((hr.get? i).symm.trans hd) (DescriptorTable.visit_of_none hd)

/-- A new list takes the place of one of the roster's. -/
theorem Represents.setList
    (hr : Represents t A) {t' : DescriptorTable R H} {list : List Nat}
    (harena : t'.arena = t.arena)
    (hlist : ∀ other, t'.list other = if other = roll then list else t.list other) :
    Represents t' (A.setList roll list) := by
  refine ⟨harena ▸ hr.arena, fun j => ?_, fun other => ?_⟩
  · rw [DescriptorTable.get?, harena]
    exact hr.get? j
  · rw [hlist, hr.list]
    exact (Function.update_apply A.list roll list other).symm

theorem steps_join
    (hr : Represents t A) (roll : Roll) (i : Nat) :
    Steps t A (.join roll i) := by
  cases hd : t.get? i with
  | some d =>
      have hperform : t.perform (.join roll i) = (.done, t.join roll i) :=
        DescriptorTable.visit_of_some hd
      have hlookup : A.stored.lookup i = some d := (hr.get? i).symm.trans hd
      have hr' : Represents (t.join roll i) (A.setList roll (enlist (A.list roll) i)) :=
        hr.setList (by simp) fun other => by rw [DescriptorTable.list_join, hr.list roll]
      unfold Steps
      rw [hperform]
      by_cases hi : i ∈ A.list roll
      · rw [enlist, if_pos hi, Roster.setList, Function.update_eq_self] at hr'
        exact ⟨A, .joinAgain hlookup hi, hr'⟩
      · rw [enlist, if_neg hi] at hr'
        exact ⟨_, .join hlookup hi, hr'⟩
  | none =>
      exact .of_vacant hr rfl ((hr.get? i).symm.trans hd) (DescriptorTable.visit_of_none hd)

theorem steps_leave
    (h : A.Sound) (hr : Represents t A) (roll : Roll) (i : Nat) :
    Steps t A (.leave roll i) := by
  cases hd : t.get? i with
  | some d =>
      have hperform : t.perform (.leave roll i) = (.done, t.leave roll i) :=
        DescriptorTable.visit_of_some hd
      have hlookup : A.stored.lookup i = some d := (hr.get? i).symm.trans hd
      have hr' : Represents (t.leave roll i) (A.setList roll ((A.list roll).erase i)) :=
        hr.setList (by simp) fun other => by rw [DescriptorTable.list_leave, hr.list roll]
      unfold Steps
      rw [hperform]
      by_cases hi : i ∈ A.list roll
      · obtain ⟨before, after, hlist⟩ := List.append_of_mem hi
        have hnodup := h.nodup roll
        rw [hlist] at hnodup
        have hbefore : i ∉ before := fun hmem =>
          (List.nodup_append.1 hnodup).2.2 i hmem i List.mem_cons_self rfl
        rw [hlist, List.erase_append_right _ hbefore, List.erase_cons_head] at hr'
        exact ⟨_, .leave hlookup hlist, hr'⟩
      · rw [List.erase_of_not_mem hi, Roster.setList, Function.update_eq_self] at hr'
        exact ⟨A, .leaveAgain hlookup hi, hr'⟩
  | none =>
      exact .of_vacant hr rfl ((hr.get? i).symm.trans hd) (DescriptorTable.visit_of_none hd)

theorem steps_takeActive
    (hr : Represents t A) :
    Steps t A .takeActive := by
  have hactive : t.active = A.list .active := hr.list .active
  cases hlist : t.active with
  | nil =>
      exact .of_reads hr (.takeNone (hactive.symm.trans hlist))
        (DescriptorTable.perform_takeActive_of_nil hlist)
  | cons i rest =>
      have hperform := DescriptorTable.perform_takeActive_of_cons hlist
      unfold Steps
      rw [hperform]
      refine ⟨_, .takeActive (hactive.symm.trans hlist), hr.setList rfl fun other => ?_⟩
      cases other <;> rfl

theorem steps_free
    (hr : Represents t A) (i : Nat) :
    Steps t A (.free i) := by
  cases hd : t.get? i with
  | some d =>
      have hperform : t.perform (.free i) =
          (.descriptor { d with stage := .freed }, t.remove i) :=
        (DescriptorTable.perform_free t i).trans (DescriptorTable.visit_of_some hd)
      unfold Steps
      rw [hperform]
      refine ⟨_, .free ((hr.get? i).symm.trans hd), Arena.sound_erase hr.arena hd,
        fun j => ?_, fun roll => ?_⟩
      · rw [lookup_erase_eq, ← hr.get?]
        exact Arena.get?_erase t.arena i j
      · show (t.remove i).list roll = (A.list roll).erase i
        rw [← hr.list]
        cases roll <;> rfl
  | none =>
      exact .of_vacant hr rfl ((hr.get? i).symm.trans hd)
        ((DescriptorTable.perform_free t i).trans (DescriptorTable.visit_of_none hd))

/-- Every call is a step of the roster that the table represents. -/
theorem perform_step
    (h : A.Sound) (hr : Represents t A) (call : TableCall R H) :
    Steps t A call := by
  cases call with
  | ensure fd =>
      exact steps_ensure h hr fd
  | lookup fd =>
      exact .of_reads hr .lookup (by rw [← hr.slotOf? h]; rfl)
  | get i =>
      cases hd : t.get? i with
      | some d =>
          exact .of_reads hr (.get ((hr.get? i).symm.trans hd)) (DescriptorTable.visit_of_some hd)
      | none =>
          exact .of_vacant hr rfl ((hr.get? i).symm.trans hd) (DescriptorTable.visit_of_none hd)
  | revise i f =>
      exact steps_revise hr i f
  | join roll i =>
      exact steps_join hr roll i
  | leave roll i =>
      exact steps_leave h hr roll i
  | takeActive =>
      exact steps_takeActive hr
  | free i =>
      exact steps_free hr i
  | size =>
      exact .of_reads hr .size (by rw [← hr.size]; rfl)
  | watched =>
      exact .of_reads hr .watched (by rw [← hr.list]; rfl)

/-- The calls on a table are a run of its roster. -/
theorem run_represents
    (calls : List (TableCall R H)) {t : DescriptorTable R H} {A : Roster R H} (h : A.Sound)
    (hr : Represents t A) :
    ∃ A', Run A (DescriptorTable.run calls t).1 A' ∧ A'.Sound ∧
      Represents (DescriptorTable.run calls t).2 A' := by
  induction calls generalizing t A with
  | nil =>
      exact ⟨A, .nil, h, hr⟩
  | cons call calls ih =>
      obtain ⟨A', hstep, hr'⟩ := perform_step h hr call
      obtain ⟨A'', hrun, h'', hr''⟩ := ih (hstep.sound h) hr'
      exact ⟨A'', .cons hstep hrun, h'', hr''⟩

theorem represents_empty :
    Represents ({} : DescriptorTable R H) {} where
  arena := Arena.sound_ofSize 64
  get? i := by
    rw [Finmap.lookup_empty]
    exact Arena.get?_ofSize 64 i
  list roll := by cases roll <;> rfl

end Roster
end CallbackLoop
