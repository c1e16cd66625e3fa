import CallbackLoop.Proofs.Loop.Dealings
import CallbackLoop.Proofs.Loop.Entries
import CallbackLoop.Proofs.Loop.Listening
import CallbackLoop.Proofs.Loop.Occupancy

/-!
# Clearing a descriptor that was closed

A descriptor may be closed before it is cleared, and its number may be in use again.  The
clear then finds that the kernel has dropped the entry, which is no failure, and it still
has to undo what the loop itself keeps: the slot of the descriptor, its place on both lists,
its entry in the queue of timeouts and in the table of the backend.

In a loop that serves other descriptors nothing of this is left (`Forgets`), nothing else is
touched (`KeepsOthers`), and the number can be registered afresh (`RegistersAnew`).
-/

namespace CallbackLoop

variable {H R : Type}

/-- What the host is to hold for a descriptor that is registered for the first time. -/
def Flags.interest (flags : Flags) : Interest where
  directions := flags.directions
  oneshot := if flags.contains .oneshot then flags.directions else ∅

namespace Descriptor

variable {d : Descriptor R H} {flags : Flags}

/-- Where nothing was bound, a registration binds what its flags name. -/
theorem registered_of_rebind
    {d' : Descriptor R H} {reaction : R} (hbound : ∀ a, d.binding? a = none)
    (hbinding : d'.binding? = Bindings.rebind d.binding? flags reaction) :
    d'.registered = flags.directions := by
  ext a
  rw [contains_registered, hbinding, Bindings.rebind, hbound]
  cases flags.directions.contains a <;> simp

/-- What is due for a descriptor that had nothing bound and nothing ready. -/
theorem due_bound
    (hbound : ∀ a, d.binding? a = none) (hready : d.ready = ∅)
    (hnames : flags.directions.isEmpty = false) (reaction : R) :
    (d.bound flags reaction).due = some flags.interest := by
  have hbinding := binding?_bound d flags reaction
  have hregistered := registered_of_rebind hbound hbinding
  have honeshots : (d.bound flags reaction).oneshots =
      if flags.contains .oneshot then flags.directions else ∅ := by
    ext a
    rw [contains_oneshots, hbinding, Bindings.rebind, hbound]
    cases hin : flags.directions.contains a <;> cases flags.contains .oneshot <;> simp [hin]
  have hempty : (d.bound flags reaction).ready = ∅ := by
    rw [ready_bound, hready]
    ext a
    simp
  have hne : flags.directions ≠ ∅ := by
    intro heq
    rw [Directions.isEmpty_iff.2 heq] at hnames
    cases hnames
  rw [due_of_ready_eq_empty hempty, hregistered, honeshots, if_neg hne]
  rfl

/-- What is due and not held is registered. -/
theorem call?_of_held_eq_none
    {interest : Interest} (hheld : d.held = none) (hdue : d.due = some interest) (force : Bool) :
    d.call? force = some (.register interest) := by
  unfold due at hdue
  split at hdue
  next =>
      cases hdue
  next hwanted =>
      cases hdue
      unfold call?
      rw [hheld]
      exact if_neg hwanted

end Descriptor

namespace DescriptorTable

variable {t t' : DescriptorTable R H} {current current' : Option Nat} {slot : Nat}
  {d : Descriptor R H} {fd : Int}

theorem Sound.slotOf?_eq_none_iff
    (h : t.Sound current) :
    t.slotOf? fd = none ↔ ∀ slot d, t.get? slot = some d → d.fd ≠ fd := by
  constructor
  · intro hnone slot d hd hfd
    rw [h.slotOf?_eq_some_iff.2 ⟨d, hd, hfd⟩] at hnone
    cases hnone
  · intro hother
    rw [Option.eq_none_iff_forall_ne_some]
    intro slot hslot
    obtain ⟨d, hd, hfd⟩ := h.slotOf?_eq_some_iff.1 hslot
    exact hother slot d hd hfd

/-- A descriptor that is not registered is created, or revived without anything bound. -/
theorem Sound.ensure_of_unregistered
    (h : t.Sound current) (hnone : t.bindings? fd = none)
    (hd : (t.ensure fd).2.get? (t.ensure fd).1 = some d) :
    d.held = none ∧ (∀ a, d.binding? a = none) ∧ d.revived.ready = ∅ := by
  have hheld := h.held?_ensure hd
  rw [h.held?_eq_none hnone] at hheld
  have hbinding := h.bindings?_ensure hd
  rw [hnone, Option.getD_none] at hbinding
  refine ⟨hheld.symm, ?_, ?_⟩
  · intro a
    rw [← hbinding]
  · obtain ⟨e, he, hfd, -, -, -, hold⟩ := h.ensure_spec fd
    cases hd.symm.trans he
    rcases hold with hold | ⟨-, -, rfl⟩
    · have hclearing : d.isClearing = true := by
        rw [← hfd, h.bindings?_of_get? hold, Descriptor.bindings?] at hnone
        split at hnone
        next hclearing =>
            exact hclearing
        next =>
            cases hnone
      rw [Descriptor.revived, if_pos hclearing]
    · rfl

/-- What another descriptor has in the table is not affected by a removal. -/
theorem get?_remove_iff
    (hd : t.get? slot = some d) {i : Nat} {e : Descriptor R H} (hne : e.fd ≠ d.fd) :
    (t.remove slot).get? i = some e ↔ t.get? i = some e := by
  by_cases hi : i = slot
  · subst hi
    rw [get?_remove_self, hd]
    constructor <;> intro heq <;> cases heq
    exact absurd rfl hne
  · rw [(onlyAt_remove t slot).get? i hi]

theorem Sound.slotOf?_remove
    (h : t.Sound current) (h' : (t.remove slot).Sound current') (hd : t.get? slot = some d)
    (fd : Int) :
    (t.remove slot).slotOf? fd = if fd = d.fd then none else t.slotOf? fd := by
  split
  next heq =>
      refine h'.slotOf?_eq_none_iff.2 fun i e he hfd => ?_
      have hi : i ≠ slot := by
        rintro rfl
        rw [get?_remove_self] at he
        cases he
      rw [(onlyAt_remove t slot).get? i hi] at he
      exact hi (h.inj i slot e d he hd (hfd.trans heq))
  next hne =>
      ext i
      rw [h'.slotOf?_eq_some_iff, h.slotOf?_eq_some_iff]
      constructor
      · rintro ⟨e, he, rfl⟩
        exact ⟨e, (get?_remove_iff hd hne).1 he, rfl⟩
      · rintro ⟨e, he, rfl⟩
        exact ⟨e, (get?_remove_iff hd hne).2 he, rfl⟩

/-- A list without repetitions loses the slot of a descriptor and nothing else. -/
theorem erase_eq_filter_slotOf?
    (hslot : t.slotOf? fd = some slot) {list : List Nat} (hnodup : list.Nodup) :
    list.erase slot = list.filter fun i => t.slotOf? fd ≠ some i := by
  rw [hnodup.erase_eq_filter, hslot]
  refine List.filter_congr fun i _ => ?_
  by_cases hi : i = slot
  · simp [hi]
  · simp [hi, Ne.symm hi]

end DescriptorTable

namespace Machine

variable {m m' m'' : Machine H} {fd : Int} {steps : List (Transition H)}

/-- No part of a loop refers to a descriptor. -/
structure Forgets (m : Machine H) (fd : Int) : Prop where
  slotOf? : m.loop.table.slotOf? fd = none
  stored : ∀ slot d, m.loop.table.get? slot = some d → d.fd ≠ fd
  listed : ∀ slot, slot ∈ m.loop.table.waiting ∨ slot ∈ m.loop.table.active →
    ∃ d, m.loop.table.get? slot = some d ∧ d.fd ≠ fd
  queued : ∀ item ∈ m.loop.timeouts.heap.items, item.key.fd ≠ fd
  lookup? : m.loop.backend.lookup? m.host.kernel fd = none
  tight : ∀ t, m.loop.backend = .select t → t.Tight

/-- In a machine in order it takes no more than that the number is not found. -/
theorem forgets_of_slotOf?
    (h : m.Sound) (hlinked : m.timing.Linked) (hm : m.Tended)
    (hnone : m.loop.table.slotOf? fd = none) :
    m.Forgets fd := by
  have hstored := h.table.slotOf?_eq_none_iff.1 hnone
  refine ⟨hnone, hstored, ?_, ?_, ?_, hm.table.tight⟩
  · rintro slot (hwaiting | hactive)
    · obtain ⟨d, hd⟩ := h.table.exists_of_mem_waiting hwaiting
      exact ⟨d, hd, hstored slot d hd⟩
    · obtain ⟨d, hd⟩ := h.table.exists_of_mem_active hactive
      exact ⟨d, hd, hstored slot d hd⟩
  · intro item hitem hfd
    obtain ⟨slot, d, hd, -, howner⟩ := (h.paired hlinked).owned item hitem
    exact hstored slot d hd (howner.trans hfd)
  · refine hm.table.lookup? fd ?_
    rw [DescriptorTable.held?, DescriptorTable.find?, hnone]
    rfl

/-- Whatever belongs to other descriptors is as it was. -/
structure KeepsOthers (m : Machine H) (fd : Int) (m' : Machine H) : Prop where
  get? : ∀ slot d, d.fd ≠ fd →
    (m'.loop.table.get? slot = some d ↔ m.loop.table.get? slot = some d)
  slotOf? : ∀ other, other ≠ fd → m'.loop.table.slotOf? other = m.loop.table.slotOf? other
  /-- Both lists lose the slot of the descriptor and keep the order of the others. -/
  waiting : m'.loop.table.waiting =
    m.loop.table.waiting.filter fun slot => m.loop.table.slotOf? fd ≠ some slot
  active : m'.loop.table.active =
    m.loop.table.active.filter fun slot => m.loop.table.slotOf? fd ≠ some slot
  deadline? : ∀ id deadline, deadline.fd ≠ fd →
    (m'.loop.timeouts.deadline? id = some deadline ↔
      m.loop.timeouts.deadline? id = some deadline)
  lookup? : ∀ other, other ≠ fd →
    m'.loop.backend.lookup? m'.host.kernel other = m.loop.backend.lookup? m.host.kernel other
  /-- Nothing else has changed at all. -/
  patch : ∃ k b t q, m' = m.patch k b t q

theorem keepsOthers_refl
    (hnone : m.loop.table.slotOf? fd = none) :
    m.KeepsOthers fd m := by
  refine ⟨fun _ _ _ => .rfl, fun _ _ => rfl, ?_, ?_, fun _ _ _ => .rfl, fun _ _ => rfl,
    _, _, _, _, rfl⟩
  · simp [hnone]
  · simp [hnone]

/-- The queue loses the entry of a descriptor and keeps those under other numbers. -/
theorem deadline?_without
    {slot : Nat} {d : Descriptor (Reaction H) H} (h : m.Sound) (hlinked : m.timing.Linked)
    (hd : m.loop.table.get? slot = some d) (id : Handle) {deadline : Deadline}
    (hne : deadline.fd ≠ d.fd) :
    (m.loop.timeouts.without d.timeout).deadline? id = some deadline ↔
      m.loop.timeouts.deadline? id = some deadline := by
  have hsettled : m.loop.timeouts.Settled := hlinked.settled
  rw [(DeadlineQueue.without_spec hsettled d.timeout).2.2 id]
  split
  next hid =>
      have howner := (hlinked.entry_iff d.fd id).1 ((h.table.part?_of_get? hd _).trans hid)
      obtain ⟨old, hold, hfd⟩ := Option.map_eq_some_iff.1 howner
      have hold' : m.loop.timeouts.deadline? id = some old := hold
      rw [hold']
      constructor <;> intro heq <;> cases heq
      exact absurd hfd hne
  next =>
      exact .rfl

/-- A clear of a descriptor whose handlers are not running removes its slot and leaves the
others. -/
theorem keepsOthers_clearFd
    (h : m.Sound) (hlinked : m.timing.Linked) (hclear : m.clearFd fd = .ok m')
    (hidle : ∀ slot d, m.loop.table.get? slot = some d → d.fd = fd → d.busy = false) :
    m'.loop.table.slotOf? fd = none ∧ m.KeepsOthers fd m' := by
  rcases clearFd_ok hclear with ⟨hslot, rfl⟩ | ⟨slot, d, b, k, hslot, hd, hcall, rfl⟩
  · exact ⟨hslot, keepsOthers_refl hslot⟩
  obtain ⟨e, he, rfl⟩ := h.table.slotOf?_eq_some_iff.1 hslot
  cases hd.symm.trans he
  have hremove : m.loop.table.clear slot d = m.loop.table.remove slot := by
    rw [DescriptorTable.clear, hidle slot d hd rfl]
    rfl
  have hsound := (h.table.follows_clear hd).sound
  rw [hremove] at hsound ⊢
  have hslots := h.table.slotOf?_remove hsound hd
  refine ⟨(hslots d.fd).trans (if_pos rfl), fun i e => DescriptorTable.get?_remove_iff hd,
    fun other hne => (hslots other).trans (if_neg hne),
    DescriptorTable.erase_eq_filter_slotOf? hslot h.table.waiting,
    DescriptorTable.erase_eq_filter_slotOf? hslot h.table.active,
    fun id _ => deadline?_without h hlinked hd id, fun other hne => ?_, _, _, _, _, rfl⟩
  rcases call_unregister_cases hcall with ⟨-, happly⟩ | ⟨-, rfl, rfl⟩
  · exact Backend.lookup?_of_apply happly hne
  · rfl

theorem exists_clearSlot
    {slot : Nat} {d : Descriptor (Reaction H) H} (hd : m.loop.table.get? slot = some d) :
    ∃ m', m.clearSlot slot d = .ok m' := by
  unfold clearSlot
  split
  · exact ⟨_, rfl⟩
  · exact ⟨_, free_eq_ok_iff.2 ⟨_, DescriptorTable.get?_set_self hd _, rfl⟩⟩

/-- Without faults a clear is never refused. -/
theorem exists_clearFd
    (h : m.Sound) (hspares : m.host.kernel.Spares) (fd : Int) :
    ∃ m', m.clearFd fd = .ok m' := by
  cases hslot : m.loop.table.slotOf? fd with
  | none =>
      exact ⟨m, by rw [clearFd, hslot]⟩
  | some slot =>
      obtain ⟨d, hd, -⟩ := h.table.slotOf?_eq_some_iff.1 hslot
      unfold clearFd
      simp only [hslot, Except.bind_eq_ok_iff, descriptor_eq_ok_iff]
      rw [exists_comm]
      refine ⟨d, ?_⟩
      split
      next =>
          obtain ⟨b, k, happly⟩ := m.loop.backend.exists_unregister fd hspares
          obtain ⟨m', hm'⟩ := exists_clearSlot
            (m := (m.patch k b m.loop.table m.loop.timeouts).disarm d.timeout)
            (by rw [disarm_eq]; exact hd)
          exact ⟨m', hd, Except.bind_eq_ok_iff.2
            ⟨_, adopt_eq_ok_iff.2 ⟨b, k, happly, rfl⟩, hm'⟩⟩
      next =>
          obtain ⟨m', hm'⟩ := exists_clearSlot (m := m.disarm d.timeout)
            (by rw [disarm_eq]; exact hd)
          exact ⟨m', hd, hm'⟩

/-- A registration that is well formed, of a descriptor that is open and that the backend can
watch. -/
structure Registrable (m : Machine H) (fd : Int) (flags : Flags) (timeout : FdTimeout) :
    Prop where
  nonneg : 0 ≤ fd
  opened : m.host.kernel.closed.contains fd = false
  within : m.beyondLimit? fd = none
  names : flags.directions.isEmpty = false
  noClear : flags.contains .clear = false
  modes : flags.contains (.nonblock ∪ .block) = false
  horizon : ∀ delay, timeout = .after delay → (Time.after? m.clock delay).isSome = true

/-- The descriptor had no entry, and one call of the backend has made it what the flags ask
for. -/
structure RegistersAnew (m : Machine H) (fd : Int) (flags : Flags) (m' : Machine H) : Prop where
  vacant : m.loop.backend.lookup? m.host.kernel fd = none
  call : ∃ kernel, m.host.kernel.applyMode fd flags = (.ok (), kernel) ∧
    m.loop.backend.register kernel fd flags.interest = (.ok (), m'.loop.backend, m'.host.kernel)
  lookup? : m'.loop.backend.lookup? m'.host.kernel fd = some (m.loop.backend.armed flags.interest)
  interest? : m'.loop.interest? fd = some flags.directions

theorem exists_applyMode
    {flags : Flags} {kernel : Kernel}
    (hmode : m.host.kernel.applyMode fd flags = (.ok (), kernel)) :
    ∃ m', m.applyMode fd flags = .ok m' := by
  unfold Kernel.applyMode at hmode
  unfold applyMode
  by_cases hflags : flags.intersects (.nonblock ∪ .block) = true
  · rw [if_pos hflags] at hmode ⊢
    rw [hmode]
    exact ⟨_, rfl⟩
  · rw [if_neg hflags]
    exact ⟨m, rfl⟩

theorem exists_applyTimeout
    {slot : Nat} {d : Descriptor (Reaction H) H} {timeout : FdTimeout}
    (hd : m.loop.table.get? slot = some d)
    (hhorizon : ∀ delay, timeout = .after delay → (Time.after? m.clock delay).isSome = true) :
    ∃ m', m.applyTimeout slot fd timeout = .ok m' := by
  unfold applyTimeout
  simp only [descriptor_eq_ok_iff.2 hd, Except.bind_eq_ok_iff]
  cases timeout with
  | unmodified | unlimited =>
      exact ⟨_, d, rfl, rfl⟩
  | after delay =>
      obtain ⟨instant, hinstant⟩ := Option.isSome_iff_exists.1 (hhorizon delay rfl)
      have hafter : Time.after? m.host.kernel.clock delay = some instant := hinstant
      simp only [hafter]
      exact ⟨_, d, rfl, rfl⟩

/-- What a registration of an unregistered descriptor asks the backend for. -/
theorem call?_of_unregistered
    (h : m.Sound) {flags : Flags} {d : Descriptor (Reaction H) H}
    (hnone : m.loop.interest? fd = none) (hnames : flags.directions.isEmpty = false)
    (hd : (m.loop.table.ensure fd).2.get? (m.loop.table.ensure fd).1 = some d)
    (reaction : Reaction H) (entry : Option Handle) :
    Descriptor.call? { d.revived.bound flags reaction with timeout := entry } false =
      some (.register flags.interest) := by
  obtain ⟨hheld, hbound, hready⟩ :=
    h.table.ensure_of_unregistered (bindings?_eq_none_of_interest? hnone) hd
  refine Descriptor.call?_of_held_eq_none ?_ ?_ false
  · show (d.revived.bound flags reaction).held = none
    rw [Descriptor.held_bound, Descriptor.held_revived, hheld]
  · refine Descriptor.due_bound (d := d.revived) ?_ hready hnames reaction
    intro a
    rw [Descriptor.binding?_revived, hbound]

theorem Tended.lookup?_of_interest?
    (hm : m.Tended) (h : m.Sound) (hnone : m.loop.interest? fd = none) :
    m.loop.backend.lookup? m.host.kernel fd = none :=
  hm.table.lookup? fd (h.table.held?_eq_none (bindings?_eq_none_of_interest? hnone))

/-- Everything that a registration does before it calls the backend goes well. -/
theorem exists_enter
    (h : m.Sound) (hspares : m.host.kernel.Spares) {flags : Flags} {timeout : FdTimeout}
    (hreg : m.Registrable fd flags timeout) (reaction : Reaction H) :
    ∃ m₁ slot m₂ m₃ m₄, m.applyMode fd flags = .ok m₁ ∧ m₁.enroll fd = .ok (slot, m₂) ∧
      m₂.bind slot flags reaction = .ok m₃ ∧ m₃.applyTimeout slot fd timeout = .ok m₄ := by
  obtain ⟨kernel, hmode⟩ := Kernel.applyMode_of_open hreg.opened hspares flags
  obtain ⟨m₁, hm₁⟩ := exists_applyMode hmode
  obtain ⟨k₁, hk₁, hm₁'⟩ := applyMode_ok hm₁
  have htable : m₁.loop.table.Sound m.control.slot? := by
    rw [hm₁']
    exact h.table
  obtain ⟨⟨slot, m₂⟩, hm₂⟩ := exists_ok_of_laidTo (laidTo_enroll htable fd)
  obtain ⟨d₂, hd₂⟩ := exists_get?_of_enroll hm₂
  obtain ⟨m₃, hm₃⟩ := exists_ok_of_laidTo (laidTo_bindFlags hd₂ flags reaction)
  obtain ⟨d₃, hd₃⟩ := exists_get?_of_bind hm₃
  have hclock : m₃.clock = m.clock := by
    obtain ⟨-, d, -, heq⟩ := enroll_ok hm₂
    obtain ⟨d', -, heq'⟩ := bind_ok hm₃
    rw [heq', heq, hm₁']
    exact Kernel.clock_applyMode hk₁
  obtain ⟨m₄, hm₄⟩ : ∃ m₄, m₃.applyTimeout slot fd timeout = .ok m₄ := exists_applyTimeout hd₃
    fun delay hdelay => hclock ▸ hreg.horizon delay hdelay
  exact ⟨m₁, slot, m₂, m₃, m₄, hm₁, hm₂, hm₃, hm₄⟩

/-- The backend takes a descriptor in that is not registered. -/
theorem exists_register
    (h : m.Sound) (hm : m.Tended) {flags : Flags} {timeout : FdTimeout} {kernel : Kernel}
    (hnone : m.loop.interest? fd = none) (hreg : m.Registrable fd flags timeout)
    (hmode : m.host.kernel.applyMode fd flags = (.ok (), kernel)) :
    ∃ b k, (BackendCall.register flags.interest).apply m.loop.backend kernel fd =
      (.ok (), b, k) := by
  have hleaves := Kernel.leaves_applyMode m.host.kernel fd flags
  rw [hmode] at hleaves
  have htakes := takes_of_beyondLimit? (m := m) (k := kernel) hreg.nonneg hreg.within fun _ => by
    rw [hleaves.closed]
    exact hreg.opened
  have hvacant := (m.loop.backend.erodes_of_leaves hleaves).lookup? fd
    (hm.lookup?_of_interest? h hnone)
  exact Backend.exists_register hvacant htakes (hleaves.spares hm.spares) flags.interest

/-- A registration of an unregistered descriptor succeeds if it is well formed. -/
theorem exists_setFd
    (h : m.Sound) (hm : m.Tended) {flags : Flags} {timeout : FdTimeout}
    (hnone : m.loop.interest? fd = none) (hreg : m.Registrable fd flags timeout)
    (reaction : Reaction H) :
    ∃ m', m.setFd fd flags timeout reaction = .ok (.ok (), m') := by
  obtain ⟨m₁, slot, m₂, m₃, m₄, hm₁, hm₂, hm₃, hm₄⟩ := exists_enter h hm.spares hreg reaction
  obtain ⟨d, d', kernel, q, hd, ⟨entry, hbound⟩, hmode, -, hd', -, heq⟩ :=
    enter_ok hm₁ hm₂ hm₃ hm₄
  have hcall : d'.call? false = some (.register flags.interest) := by
    rw [hbound]
    exact call?_of_unregistered h hnone hreg.names hd reaction entry
  have hfd : d'.fd = fd := by
    rw [hbound]
    exact h.table.fd_bound hd flags reaction
  obtain ⟨b, k, happly⟩ := exists_register h hm hnone hreg hmode
  obtain ⟨m₅, hm₅⟩ : ∃ m₅, m₄.align slot false = .ok m₅ := by
    rw [align_eq]
    refine ⟨_, Except.bind_eq_ok_iff.2 ⟨d', descriptor_eq_ok_iff.2 hd',
      Except.bind_eq_ok_iff.2 ⟨_, adopt_eq_ok_iff.2 ⟨b, k, ?_, rfl⟩, rfl⟩⟩⟩
    rw [hcall, hfd, heq]
    exact happly
  refine ⟨m₅, ?_⟩
  unfold setFd
  rw [if_neg (by have := hreg.nonneg; omega), if_neg (by simp [hreg.noClear]),
    if_neg (by simp [hreg.modes]), hreg.within]
  exact Except.bind_eq_ok_iff.2 ⟨m₁, hm₁, Except.bind_eq_ok_iff.2 ⟨(slot, m₂), hm₂,
    Except.bind_eq_ok_iff.2 ⟨m₃, hm₃, Except.bind_eq_ok_iff.2 ⟨m₄, hm₄,
      Except.bind_eq_ok_iff.2 ⟨m₅, hm₅, rfl⟩⟩⟩⟩⟩

/-- A registration of an unregistered descriptor makes it a new entry. -/
theorem registersAnew_of_setFd
    (h : m.Sound) (hm : m.Tended) {flags : Flags} {timeout : FdTimeout} {reaction : Reaction H}
    (hnone : m.loop.interest? fd = none) (hreg : m.Registrable fd flags timeout)
    (hset : m.setFd fd flags timeout reaction = .ok (.ok (), m')) :
    m.RegistersAnew fd flags m' := by
  have hvacant := hm.lookup?_of_interest? h hnone
  rcases setFd_ok hset with ⟨rfl, -⟩ | ⟨-, -, limit, -, hresult⟩ |
    ⟨-, -, -, -, d, d', kernel, hregisters⟩
  · exact absurd hreg.noClear (by decide)
  · cases hresult
  have hsound := (h.registers hregisters).table
  have hinterest : m'.loop.interest? fd = some flags.directions := by
    obtain ⟨-, hbound, -⟩ :=
      h.table.ensure_of_unregistered (bindings?_eq_none_of_interest? hnone) hregisters.found
    obtain ⟨e, htable, hfd, hclearing, -, -, hbinding⟩ := hregisters.stores h
    rw [htable] at hsound
    have hfind := h.table.find?_register hsound hfd fd
    rw [if_pos rfl] at hfind
    rw [Loop.interest?, htable, hfind]
    dsimp only
    rw [hclearing, Descriptor.registered_of_rebind hbound hbinding]
    rfl
  obtain ⟨hfd, -⟩ := hregisters.fd_held h
  obtain ⟨entry, hbound⟩ := hregisters.bound
  obtain ⟨b, k, q, -, hcall, rfl⟩ := hregisters.result
  rw [hbound, call?_of_unregistered h hnone hreg.names hregisters.found reaction entry, ← hbound,
    hfd] at hcall
  have happly : (BackendCall.register flags.interest).apply m.loop.backend kernel fd =
    (.ok (), b, k) := hcall
  exact ⟨hvacant, ⟨kernel, hregisters.mode, happly⟩, Backend.lookup?_of_leaves happly rfl,
    hinterest⟩

/-- Wherever a descriptor was closed and its number opened again, a clear returns, leaves no
trace of it and touches no other descriptor.  As long as the number is not registered again
it has no entry, so a registration of the open descriptor makes a new one and is not
rejected. -/
theorem clear_is_complete
    (hbuilt : Built m) (hspares : m.host.kernel.Spares) (hcourse : Course m steps m')
    (heroding : Eroding steps) (hopen : m'.control.isOpen = true)
    (hserved : m'.control.served? ≠ some fd) :
    ∃ m'', m'.perform (.clearFd fd) = .ok (.done, m'') ∧ m''.Forgets fd ∧
      m'.KeepsOthers fd m'' ∧
      ∀ later m₃ flags timeout handler, Course m'' later m₃ → Eroding later →
        m₃.loop.interest? fd = none → m₃.Registrable fd flags timeout →
        ∃ m₄, m₃.perform (.setFd fd flags timeout handler) = .ok (.done, m₄) ∧
          m₃.RegistersAnew fd flags m₄ := by
  obtain ⟨hsound, htended⟩ := hcourse.tended heroding hbuilt.sound (hbuilt.tended hspares)
  have hlinked := hcourse.run.linked hbuilt.sound hbuilt.linked
  have hanchored := hsound.anchored (hcourse.run.attends hbuilt.sound hbuilt.attends)
  have hidle : ∀ slot d, m'.loop.table.get? slot = some d → d.fd = fd → d.busy = false := by
    rintro slot d hd rfl
    rw [← Bool.not_eq_true, hanchored.served_iff hopen slot d hd]
    exact hserved
  obtain ⟨m'', hclear⟩ := exists_clearFd hsound htended.spares fd
  have hperform : m'.perform (.clearFd fd) = .ok (.done, m'') :=
    Except.bind_eq_ok_iff.2 ⟨m'', hclear, rfl⟩
  have hsound'' := hsound.perform (perform_ok hperform)
  have htended'' := htended.deals (deals_clearFd hsound htended.spares hclear)
  have hlinked'' : m''.timing.Linked := by
    rw [timing_clearFd hsound hclear]
    exact hlinked.clear fd
  obtain ⟨hslot, hkeeps⟩ := keepsOthers_clearFd hsound hlinked hclear hidle
  refine ⟨m'', hperform, forgets_of_slotOf? hsound'' hlinked'' htended'' hslot, hkeeps, ?_⟩
  intro later m₃ flags timeout handler hlater heroding' hnone hreg
  obtain ⟨hsound₃, htended₃⟩ := hlater.tended heroding' hsound'' htended''
  obtain ⟨m₄, hset⟩ := exists_setFd hsound₃ htended₃ hnone hreg (.call handler)
  exact ⟨m₄, Except.bind_eq_ok_iff.2 ⟨(.ok (), m₄), hset, rfl⟩,
    registersAnew_of_setFd hsound₃ htended₃ hnone hreg hset⟩

/-- During the wait the descriptor 5, which has a timeout, is closed and its number is
opened again, and 6 is reported, the handler of which is run. -/
def reopenedLog : List (Act Nat) :=
  [Act.request (.setFd 5 .recv (.after 3) 1) .done,
    .request (.setFd 6 .recv .unlimited 2) .done, .request .dispatch .done] ++
  List.replicate 7 Act.advance ++ [Act.wait [⟨6, ⟨true, false, false⟩⟩]] ++
  List.replicate 4 Act.advance ++ [Act.fire 6 .recv (.call 2)]

/-- The script of `reopenedLog`. -/
def reopenedScript : List WaitEntry :=
  [{ events := [(6, { input := true })], closed := [5], opened := [5] }]

theorem clear_is_complete_reopenedLog :
    ∃ (m m' m'' m₃ : Machine Nat) (steps : List (Transition Nat)),
      Built m ∧ Course m steps m' ∧ Eroding steps ∧ steps.map (·.act) = reopenedLog ∧
      m'.loop.interest? 5 = some (.single .recv) ∧
      m'.perform (.clearFd 5) = .ok (.done, m'') ∧
      m''.host.kernel.record.head? = some ⟨.epollControl 5 .delete, some .notFound⟩ ∧
      m''.Forgets 5 ∧ m'.KeepsOthers 5 m'' ∧
      m''.perform (.setFd 5 .send .unlimited 3) = .ok (.done, m₃) ∧
      m''.RegistersAnew 5 .send m₃ := by
  have hbuilt := built_scriptedEpoll Nat reopenedScript
  obtain ⟨steps, m', hcourse, -, hlog, hopen, hserved, hinterest, hafter⟩ :=
    exists_timely_course_of_trail (m := scriptedEpoll Nat reopenedScript) reopenedLog
      (fun _ m' => m'.control.isOpen = true ∧ m'.control.served? = some 6 ∧
        m'.loop.interest? 5 = some (.single .recv) ∧
        (m'.perform (.clearFd 5)).toOption.map (fun r =>
          (r.2.host.kernel.record.head?, r.2.host.kernel.closed.contains 5, r.2.beyondLimit? 5)) =
          some (some ⟨.epollControl 5 .delete, some .notFound⟩, false, none))
      ([.request (.setFd 5 .recv (.after 3) 1), .request (.setFd 6 .recv .unlimited 2),
        .request .dispatch] ++ List.replicate 13 .step)
      (by decide +kernel)
  have hspares : (scriptedEpoll Nat reopenedScript).host.kernel.Spares := by
    intro f hf
    cases hf
  have heroding : Eroding steps := by
    intro s hs hworld
    have hin : s.act ∈ reopenedLog := hlog ▸ List.mem_map_of_mem hs
    rw [hworld] at hin
    exact absurd hin (by decide)
  have hother : m'.control.served? ≠ some 5 := by
    rw [hserved]
    decide
  obtain ⟨m'', hclear, hforgets, hkeeps, hlater⟩ :=
    clear_is_complete hbuilt hspares hcourse heroding hopen hother
  rw [hclear] at hafter
  obtain ⟨hrecord, hafter⟩ := Prod.mk.inj (Option.some.inj hafter)
  obtain ⟨hopened, hlimit⟩ := Prod.mk.inj hafter
  have hnone : m''.loop.interest? 5 = none := by
    rw [Loop.interest?, DescriptorTable.find?, hforgets.slotOf?]
    rfl
  obtain ⟨m₃, hset, hanew⟩ := hlater [] m'' .send .unlimited 3 .nil (by intro s hs; cases hs) hnone
    ⟨by decide, hopened, hlimit, rfl, rfl, rfl, by intro delay hdelay; cases hdelay⟩
  exact ⟨_, m', m'', m₃, steps, hbuilt, hcourse, heroding, hlog, hinterest, hclear, hrecord,
    hforgets, hkeeps, hset, hanew⟩

end Machine
end CallbackLoop
