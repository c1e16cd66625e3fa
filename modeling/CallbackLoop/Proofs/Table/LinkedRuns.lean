import CallbackLoop.Proofs.Table.Rings
import CallbackLoop.Proofs.Table.Roster

/-!
# Runs of linked tables

A linked table embodies a table of descriptors when its arena is the table's, but for the
places on the lists, when the map finds every number in its slot, and when both rings lead
round the table's lists.  Every call on it goes well, gives the same answer and keeps the
two together.

So a linked table that was empty at first never meets a `Defect`, whatever is asked of it,
and keeps the roster of its users.
-/

namespace CallbackLoop
namespace LinkedTable

variable {R H : Type}

/-- What an operation on a slot does if there is a descriptor. -/
def visit (l : LinkedTable R H) (i : Nat)
    (r : Except Defect (TableAnswer R H × LinkedTable R H)) :
    Except Defect (TableAnswer R H × LinkedTable R H) :=
  if l.entries.contains i then r else return (.vacant, l)

/-- Performs one operation. -/
def perform (l : LinkedTable R H) :
    TableCall R H → Except Defect (TableAnswer R H × LinkedTable R H)
  | .ensure fd => return (.slot (l.ensure fd).1, (l.ensure fd).2)
  | .lookup fd => return (.found (l.slotOf? fd), l)
  | .get i => l.visit i do
      return (.descriptor (← l.entry i).descriptor, l)
  | .revise i f => l.visit i do
      return (.done, ← l.revise i f)
  | .join roll i => l.visit i do
      return (.done, ← l.join roll i)
  | .leave roll i => l.visit i do
      return (.done, ← l.leave roll i)
  | .takeActive => do
      match ← l.takeActive? with
      | some (i, l) => return (.found (some i), l)
      | none => return (.found none, l)
  | .free i => l.visit i do
      let (d, l) ← l.free i
      return (.descriptor d, l)
  | .size => return (.count l.size, l)
  | .watched => return (.count l.watched, l)

/-- Performs operations one after the other and returns them with their answers. -/
def run :
    List (TableCall R H) → LinkedTable R H →
      Except Defect (List (TableCall R H × TableAnswer R H) × LinkedTable R H)
  | [], l => return ([], l)
  | call :: calls, l => do
      let (answer, l) ← l.perform call
      let (answers, l) ← run calls l
      return ((call, answer) :: answers, l)

/-- The linked table holds the descriptors and the lists of the table. -/
structure Embodies (l : LinkedTable R H) (t : DescriptorTable R H) : Prop where
  arena : l.entries.map Entry.descriptor = t.arena
  files : Files l.slotOf? t.get?
  lists : ∀ roll, Lists l roll (t.list roll)

namespace Embodies

variable {l l' : LinkedTable R H} {t t' : DescriptorTable R H} {roll : Roll} {i : Nat}
  {d : Descriptor R H}

theorem get?_eq
    (he : Embodies l t) (i : Nat) :
    t.get? i = l.get? i := by
  rw [DescriptorTable.get?, ← he.arena, Arena.get?_map]
  rfl

theorem slotOf?_eq
    (he : Embodies l t) (fd : Int) :
    t.slotOf? fd = l.slotOf? fd := by
  ext i
  rw [DescriptorTable.slotOf?_eq_some_iff_of_inj he.files.inj, he.files fd i]

/-- A stored descriptor has its entry, and a place on each list. -/
theorem exists_entry
    (he : Embodies l t) (hd : t.get? i = some d) :
    ∃ e, l.entries.get? i = some e ∧ e.descriptor = d ∧
      ∀ roll, l.places roll i = some (e.place roll) := by
  rw [he.get?_eq] at hd
  obtain ⟨e, hget, hdesc⟩ := Option.map_eq_some_iff.1 hd
  exact ⟨e, hget, hdesc, fun roll => by rw [places, hget]; rfl⟩

theorem contains_eq
    (he : Embodies l t) (i : Nat) :
    l.entries.contains i = (t.get? i).isSome := by
  rw [DescriptorTable.get?, ← he.arena, Arena.get?_map, Option.isSome_map]
  rfl

/-- An operation on one list leaves the rest of the table. -/
theorem of_onlyRing
    (he : Embodies l t) (honly : OnlyRing roll l l') (harena : t'.arena = t.arena)
    (hlists : Lists l' roll (t'.list roll))
    (hother : ∀ other, other ≠ roll → t'.list other = t.list other) :
    Embodies l' t' := by
  have hget : t'.get? = t.get? := by
    funext i
    rw [DescriptorTable.get?, harena]
    rfl
  refine ⟨honly.stored.trans (he.arena.trans harena.symm), ?_, fun other => ?_⟩
  · rw [hget]
    intro fd j
    rw [slotOf?, honly.slots]
    exact he.files fd j
  · by_cases hroll : other = roll
    · exact hroll ▸ hlists
    · rw [hother other hroll]
      exact honly.lists hroll (he.lists other)

end Embodies

/-- The call on the linked table goes well, gives the answer that the table gives, and keeps
the two together. -/
def Agrees (l : LinkedTable R H) (t : DescriptorTable R H) (call : TableCall R H) : Prop :=
  ∃ l', l.perform call = .ok ((t.perform call).1, l') ∧ Embodies l' (t.perform call).2

section Calls

variable {l : LinkedTable R H} {t : DescriptorTable R H}

/-- An operation on a slot may assume that there is a descriptor. -/
theorem agrees_of_visit
    (he : Embodies l t) {i : Nat} {call : TableCall R H}
    {r : Except Defect (TableAnswer R H × LinkedTable R H)}
    {f : Descriptor R H → TableAnswer R H × DescriptorTable R H}
    (hperform : l.perform call = l.visit i r) (hperform' : t.perform call = t.visit i f)
    (hstored : ∀ e, l.entries.get? i = some e → t.get? i = some e.descriptor →
      (∀ roll, l.places roll i = some (e.place roll)) →
      ∃ l', r = .ok ((f e.descriptor).1, l') ∧ Embodies l' (f e.descriptor).2) :
    Agrees l t call := by
  unfold Agrees
  rw [hperform, hperform', visit, he.contains_eq]
  cases hd : t.get? i with
  | none =>
      rw [DescriptorTable.visit_of_none hd]
      exact ⟨l, rfl, he⟩
  | some d =>
      obtain ⟨e, hentry, rfl, hplaces⟩ := he.exists_entry hd
      rw [DescriptorTable.visit_of_some hd]
      exact hstored e hentry hd hplaces

theorem Embodies.join
    (he : Embodies l t) (roll : Roll) {i : Nat} {d : Descriptor R H} (hd : t.get? i = some d) :
    ∃ l', l.join roll i = .ok l' ∧ Embodies l' (t.join roll i) := by
  obtain ⟨e, -, -, hplaces⟩ := he.exists_entry hd
  obtain ⟨l', hjoin, honly, hlists⟩ := (he.lists roll).join_spec (hplaces roll)
  refine ⟨l', hjoin, he.of_onlyRing honly (by simp) ?_ fun other hne => by simp [hne]⟩
  rwa [DescriptorTable.list_join, if_pos rfl]

theorem Embodies.leave
    (he : Embodies l t) (roll : Roll) {i : Nat} {d : Descriptor R H} (hd : t.get? i = some d) :
    ∃ l', l.leave roll i = .ok l' ∧ Embodies l' (t.leave roll i) := by
  obtain ⟨e, -, -, hplaces⟩ := he.exists_entry hd
  obtain ⟨l', hleave, honly, hlists⟩ := (he.lists roll).leave_spec (hplaces roll)
  refine ⟨l', hleave, he.of_onlyRing honly (by simp) ?_ fun other hne => by simp [hne]⟩
  rwa [DescriptorTable.list_leave, if_pos rfl]

theorem agrees_join
    (he : Embodies l t) (roll : Roll) (i : Nat) :
    Agrees l t (.join roll i) := by
  refine agrees_of_visit he rfl rfl fun e _ hd _ => ?_
  obtain ⟨l', hjoin, he'⟩ := he.join roll hd
  exact ⟨l', by simp only [hjoin, ok_bind, pure_eq], he'⟩

theorem agrees_leave
    (he : Embodies l t) (roll : Roll) (i : Nat) :
    Agrees l t (.leave roll i) := by
  refine agrees_of_visit he rfl rfl fun e _ hd _ => ?_
  obtain ⟨l', hleave, he'⟩ := he.leave roll hd
  exact ⟨l', by simp only [hleave, ok_bind, pure_eq], he'⟩

theorem agrees_takeActive
    (he : Embodies l t) :
    Agrees l t .takeActive := by
  have hhead : l.active.head = t.active.head? := (he.lists .active).head
  unfold Agrees
  rw [perform, DescriptorTable.perform, takeActive?, DescriptorTable.takeActive?, hhead]
  cases hactive : t.active with
  | nil =>
      exact ⟨l, rfl, he⟩
  | cons i rest =>
      have hlists := he.lists .active
      rw [show t.list .active = [] ++ i :: rest from hactive] at hlists
      obtain ⟨l', hdrop, honly, hlists'⟩ := hlists.drop_spec
      refine ⟨l', ?_, he.of_onlyRing honly rfl hlists' fun other hne => ?_⟩
      · rw [List.head?_cons]
        simp only [hdrop, ok_bind, pure_eq]
      · cases other with
        | waiting =>
            rfl
        | active =>
            exact absurd rfl hne

theorem agrees_revise
    (he : Embodies l t) (i : Nat) (f : Descriptor R H → Descriptor R H) :
    Agrees l t (.revise i f) := by
  refine agrees_of_visit he rfl rfl fun e hentry hd hplaces => ?_
  generalize hd' : ({ f e.descriptor with fd := e.descriptor.fd } : Descriptor R H) = d
  have hfd : d.fd = e.descriptor.fd := by rw [← hd']
  have hrevise : l.revise i f = .ok (l.setEntry i { e with descriptor := d }) := by
    simp [revise, entry, hentry, pure_eq, hd']
  have hsame : (l.setEntry i { e with descriptor := d }).places = l.places := by
    funext roll j
    rw [places_setEntry hentry]
    split
    next hij =>
        rw [← hij, hplaces]
        cases roll <;> rfl
    next =>
        rfl
  refine ⟨l.setEntry i { e with descriptor := d }, ?_, ?_, ?_, fun roll => ?_⟩
  · simp only [hrevise, ok_bind, pure_eq]
  · show (l.entries.set i { e with descriptor := d }).map Entry.descriptor = t.arena.set i d
    rw [Arena.map_set, he.arena]
  · refine he.files.replace hd hfd fun j => ?_
    rw [DescriptorTable.get?_set, hd]
    simp
  · refine (he.lists roll).of_eq (ring_setEntry _ _ _ roll) (by rw [hsame])

/-- The map after a number was filed. -/
theorem slotOf?_insert
    (l : LinkedTable R H) (entries : Arena (Entry R H)) (fd x : Int) (i : Nat) :
    ({ l with entries, slots := l.slots.insert fd i } : LinkedTable R H).slotOf? x =
      if fd = x then some i else l.slotOf? x := by
  simp only [slotOf?, Std.TreeMap.getElem?_insert, Std.compare_eq_iff_eq]

theorem slotOf?_erase
    (l : LinkedTable R H) (entries : Arena (Entry R H)) (fd x : Int) :
    ({ l with entries, slots := l.slots.erase fd } : LinkedTable R H).slotOf? x =
      if fd = x then none else l.slotOf? x := by
  simp only [slotOf?, Std.TreeMap.getElem?_erase, Std.compare_eq_iff_eq]

theorem agrees_ensure
    (he : Embodies l t) (hs : t.arena.Sound) (fd : Int) :
    Agrees l t (.ensure fd) := by
  unfold Agrees
  rw [perform, DescriptorTable.perform_ensure]
  cases hslot : l.slotOf? fd with
  | some i =>
      have hensure : l.ensure fd = (i, l) := by rw [ensure, hslot]
      rw [hensure, DescriptorTable.ensure_of_slotOf? ((he.slotOf?_eq fd).trans hslot)]
      exact ⟨l, rfl, he⟩
  | none =>
      have hs' : l.entries.Sound := (Arena.sound_map_iff _ _).1 (he.arena ▸ hs)
      have hinsert : t.arena.insert { fd } =
          ((l.entries.insert { descriptor := { fd } }).1,
            (l.entries.insert { descriptor := { fd } }).2.map Entry.descriptor) := by
        rw [← he.arena]
        exact Arena.map_insert Entry.descriptor l.entries { descriptor := { fd } }
      have hvacant := Arena.get?_insert_fst hs' ({ descriptor := { fd } } : Entry R H)
      have hget := Arena.get?_insert hs' ({ descriptor := { fd } } : Entry R H)
      have hensure : l.ensure fd = ((l.entries.insert { descriptor := { fd } }).1,
          { l with
            entries := (l.entries.insert { descriptor := { fd } }).2
            slots := l.slots.insert fd (l.entries.insert { descriptor := { fd } }).1 }) := by
        rw [ensure, hslot]
      rw [hensure, DescriptorTable.ensure_of_none ((he.slotOf?_eq fd).trans hslot), hinsert]
      generalize (l.entries.insert { descriptor := { fd } }).1 = i at hvacant hget
      generalize (l.entries.insert { descriptor := { fd } }).2 = entries at hget
      refine ⟨_, rfl, rfl, ?_, fun roll => ?_⟩
      · refine he.files.insert (d := { fd }) (i := i) hslot ?_ (slotOf?_insert l entries fd · i)
          fun j => ?_
        · rw [he.get?_eq, get?, hvacant]
          rfl
        · rw [he.get?_eq]
          show (entries.map Entry.descriptor).get? j = _
          rw [Arena.get?_map, hget, get?]
          split <;> rfl
      · refine (he.lists roll).of_insert (i := i) (by rw [places, hvacant]; rfl) (fun j => ?_) ?_
        · rw [places, hget, places]
          split
          next =>
              cases roll <;> rfl
          next =>
              rfl
        · cases roll <;> rfl

/-- Off both lists, a descriptor can be taken out of storage. -/
theorem agrees_free
    (he : Embodies l t) (i : Nat) :
    Agrees l t (.free i) := by
  refine agrees_of_visit he rfl (DescriptorTable.perform_free t i) fun e _ hd _ => ?_
  obtain ⟨l₁, hleave₁, he₁⟩ := he.leave .waiting hd
  obtain ⟨l₂, hleave₂, he₂⟩ := he₁.leave .active hd
  obtain ⟨f, hentry, hdesc, hplaces⟩ := he₂.exists_entry (i := i) (d := e.descriptor) hd
  have hremove : l₂.entries.remove i = .ok (f, l₂.entries.erase i) := by
    simp [Arena.remove, hentry, Nat.not_le_of_lt (Arena.lt_size_of_get? hentry)]
  refine ⟨{ l₂ with
    entries := l₂.entries.erase i
    slots := l₂.slots.erase e.descriptor.fd }, ?_, ?_, ?_, fun roll => ?_⟩
  · simp only [free, hleave₁, hleave₂, hremove, ok_bind, pure_eq, hdesc]
  · show (l₂.entries.erase i).map Entry.descriptor = t.arena.erase i
    rw [Arena.map_erase, he₂.arena]
    rfl
  · exact he₂.files.erase hd (slotOf?_erase l₂ _ _) fun j => Arena.get?_erase t.arena i j
  · have hlist : (t.remove i).list roll = (t.list roll).erase i := by
      cases roll <;> rfl
    have hlists := he₂.lists roll
    have hlist₂ : ((t.leave .waiting i).leave .active i).list roll = (t.list roll).erase i := by
      cases roll <;> rfl
    rw [hlist₂] at hlists
    rw [hlist]
    refine hlists.of_erase (hplaces roll) (he.lists roll).nodup.not_mem_erase (fun j => ?_) ?_
    · rw [places, Arena.get?_erase, places]
      split <;> rfl
    · cases roll <;> rfl

/-- Every call goes well and gives the answer that the table gives. -/
theorem agrees
    (he : Embodies l t) (hs : t.arena.Sound) (call : TableCall R H) :
    Agrees l t call := by
  cases call with
  | ensure fd =>
      exact agrees_ensure he hs fd
  | lookup fd =>
      refine ⟨l, ?_, he⟩
      rw [perform, DescriptorTable.perform, he.slotOf?_eq]
      rfl
  | get i =>
      refine agrees_of_visit he rfl rfl fun e hentry _ _ => ⟨l, ?_, he⟩
      simp [entry, hentry, pure_eq]
  | revise i f =>
      exact agrees_revise he i f
  | join roll i =>
      exact agrees_join he roll i
  | leave roll i =>
      exact agrees_leave he roll i
  | takeActive =>
      exact agrees_takeActive he
  | free i =>
      exact agrees_free he i
  | size =>
      refine ⟨l, ?_, he⟩
      rw [perform, DescriptorTable.perform, DescriptorTable.size, ← he.arena, Arena.size_map]
      rfl
  | watched =>
      refine ⟨l, ?_, he⟩
      have hlength : l.waiting.length = t.waiting.length := (he.lists .waiting).length
      rw [perform, DescriptorTable.perform, watched, hlength]
      rfl

end Calls

/-- The table's own run is followed call by call. -/
theorem run_embodies
    (calls : List (TableCall R H)) {l : LinkedTable R H} {t : DescriptorTable R H}
    {A : Roster R H} (he : Embodies l t) (h : A.Sound) (hr : Roster.Represents t A) :
    ∃ l', run calls l = .ok ((DescriptorTable.run calls t).1, l') ∧
      Embodies l' (DescriptorTable.run calls t).2 := by
  induction calls generalizing l t A with
  | nil =>
      exact ⟨l, rfl, he⟩
  | cons call calls ih =>
      obtain ⟨A', hstep, hr'⟩ := Roster.perform_step h hr call
      obtain ⟨l₁, hperform, he₁⟩ := agrees he hr.arena call
      obtain ⟨l₂, hrun, he₂⟩ := ih he₁ (hstep.sound h) hr'
      refine ⟨l₂, ?_, he₂⟩
      simp only [run, hperform, ok_bind, hrun, pure_eq]
      rfl

theorem embodies_empty :
    Embodies ({} : LinkedTable R H) {} where
  arena := Arena.map_ofSize _ 64
  files fd i := by
    have hfind : ({} : LinkedTable R H).slotOf? fd = none := Std.TreeMap.getElem?_emptyc
    have hget : ({} : DescriptorTable R H).get? i = none := Arena.get?_ofSize 64 i
    simp [hfind, hget]
  lists roll := by
    have hplaces : ∀ i, ({} : LinkedTable R H).places roll i = none := by
      intro i
      rw [places, Arena.get?_ofSize]
      rfl
    have hlist : ({} : DescriptorTable R H).list roll = [] := by
      cases roll <;> rfl
    rw [hlist]
    refine ⟨⟨⟨0, 0, ⟨by simp, fun i b => ?_⟩, ⟨by simp, fun i b => ?_⟩⟩, ?_, ?_⟩,
      fun i => ?_⟩
    · simp [nexts, hplaces]
    · simp [prevs, hplaces]
    · cases roll <;> rfl
    · cases roll <;> rfl
    · simp [listed, hplaces]

/-- The parts of a linked table agree with the roster. -/
structure Records (l : LinkedTable R H) (A : Roster R H) : Prop where
  stored : ∀ i, l.get? i = A.stored.lookup i
  slots : ∀ fd, l.slotOf? fd = A.slots.lookup fd
  /-- A number is found exactly in the slot of its descriptor. -/
  files : ∀ fd i, l.slotOf? fd = some i ↔ ∃ d, l.get? i = some d ∧ d.fd = fd
  read : ∀ roll, l.read roll = .ok (A.list roll)
  readBack : ∀ roll, l.readBack roll = .ok (A.list roll).reverse
  nodup : ∀ roll, (A.list roll).Nodup
  length : ∀ roll, (l.ring roll).length = (A.list roll).length
  listed : ∀ roll i, i ∈ A.list roll ↔
    ∃ e, l.entries.get? i = some e ∧ (e.place roll).listed = true

theorem Embodies.records
    {l : LinkedTable R H} {t : DescriptorTable R H} {A : Roster R H} (he : Embodies l t)
    (h : A.Sound) (hr : Roster.Represents t A) :
    Records l A := by
  have hlists : ∀ roll, Lists l roll (A.list roll) := fun roll => hr.list roll ▸ he.lists roll
  refine ⟨fun i => ?_, fun fd => ?_, fun fd i => ?_, fun roll => (hlists roll).read_eq,
    fun roll => (hlists roll).readBack_eq, h.nodup, fun roll => (hlists roll).length,
    fun roll i => ?_⟩
  · rw [← he.get?_eq, hr.get?]
  · rw [← he.slotOf?_eq, hr.slotOf? h]
  · rw [he.files, he.get?_eq]
  · rw [← (hlists roll).listed, LinkedTable.listed, Option.any_eq_true]
    simp [places]

/-- Whatever is asked of a linked table that was empty at first, it goes well.  The answers
are those of a map and two lists without repetitions, and in the end the map is the inverse
of the numbers in the slots and both rings can be read off in either direction. -/
theorem run_keeps_roster
    (calls : List (TableCall R H)) :
    ∃ (l : LinkedTable R H) (A : Roster R H),
      run calls {} = .ok ((DescriptorTable.run calls {}).1, l) ∧
      Roster.Run {} (DescriptorTable.run calls {}).1 A ∧
      Records l A ∧ Roster.Represents (DescriptorTable.run calls {}).2 A := by
  obtain ⟨A, hrun, h, hr⟩ :=
    Roster.run_represents calls Roster.sound_empty (Roster.represents_empty (R := R) (H := H))
  obtain ⟨l, hlinked, he⟩ :=
    run_embodies calls embodies_empty Roster.sound_empty Roster.represents_empty
  exact ⟨l, A, hlinked, hrun, he.records h hr, hr⟩

end LinkedTable
end CallbackLoop
