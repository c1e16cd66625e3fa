import CallbackLoop.Proofs.Epoll
import CallbackLoop.Proofs.Loop.Calm
import CallbackLoop.Proofs.Loop.Course
import CallbackLoop.Proofs.Loop.Readiness

/-!
# Listening on epoll

A oneshot direction makes the whole entry of its descriptor oneshot, and a report
disarms such an entry.  From then on the kernel is silent about the descriptor until
the loop calls it again.  The loop does so when it queues a report, and whenever the
interest changes.

It does not do so for a report that names nothing of what is registered: a hang-up
alone, of a descriptor that is registered for sending alone.  This is the only way
for a registered descriptor to fall silent, and it is silent only until its entry is
armed again.
-/

namespace CallbackLoop

variable {H R : Type}

namespace Descriptor

variable {d d' : Descriptor R H} {row : Option EpollEntry} {excuse excuse' : Interest → Prop}

/-- The entry of a descriptor asks for what the descriptor records, and it is armed
unless there is an excuse. -/
def Attended (d : Descriptor R H) (row : Option EpollEntry) (excuse : Interest → Prop) :
    Prop :=
  ∀ interest, d.held = some interest →
    ∃ disarmed, row = some ⟨.ofInterest interest, disarmed⟩ ∧
      (disarmed = true → excuse interest)

/-- What is due is wanted, and it is not nothing. -/
theorem wanted_of_due
    {interest : Interest} (h : d.due = some interest) :
    interest = d.wanted ∧ interest.directions ≠ ∅ := by
  unfold due at h
  split at h
  next =>
      cases h
  next hwanted =>
      cases h
      exact ⟨rfl, fun hempty => hwanted (Directions.isEmpty_iff.2 hempty)⟩

/-- A report that may have disarmed an entry makes the loop call the host. -/
theorem call?_ne_none
    (h : d.rearms = true) (ready : Directions) :
    (d.notified ready).call? true ≠ none := by
  obtain ⟨held, hheld, -⟩ := (Option.any_eq_true _ _).1 h
  have hsame : (d.notified ready).held = some held := hheld
  unfold call?
  rw [hsame]
  dsimp only
  split <;> simp

theorem attended_of_held_eq_none
    (h : d.held = none) :
    d.Attended row excuse := by
  intro interest hheld
  rw [h] at hheld
  cases hheld

theorem Attended.of_held
    (h : d.Attended row excuse) (hheld : d'.held = d.held) :
    d'.Attended row excuse :=
  fun interest hi => h interest (hheld ▸ hi)

theorem Attended.mono
    (h : d.Attended row excuse)
    (hexcuse : ∀ interest, d.held = some interest → excuse interest → excuse' interest) :
    d.Attended row excuse' := by
  intro interest hheld
  obtain ⟨disarmed, hrow, hwhy⟩ := h interest hheld
  exact ⟨disarmed, hrow, fun hd => hexcuse interest hheld (hwhy hd)⟩

end Descriptor

namespace DescriptorTable

variable {t t' : DescriptorTable R H} {current current' : Option Nat} {slot : Nat}
  {d d' : Descriptor R H} {rows rows' : Int → Option EpollEntry}
  {excuse excuse' : Int → Interest → Prop}

/-- Every descriptor is attended to, and what is due is held for every descriptor
whose handlers are not running. -/
structure Attended (t : DescriptorTable R H) (rows : Int → Option EpollEntry)
    (excuse : Int → Interest → Prop) : Prop where
  due : ∀ i d, t.get? i = some d → d.busy = false → d.held = d.due
  row : ∀ i d, t.get? i = some d → d.Attended (rows d.fd) (excuse d.fd)

/-- A change in one slot that goes with a change of one entry. -/
theorem Attended.change
    {fd : Int} (h : t.Attended rows excuse) (hget : ∀ j, j ≠ slot → t'.get? j = t.get? j)
    (hother : ∀ j e, j ≠ slot → t.get? j = some e → e.fd ≠ fd)
    (hrows : ∀ other, other ≠ fd → rows' other = rows other)
    (hexcuse : ∀ other interest, other ≠ fd → excuse other interest → excuse' other interest)
    (hnew : ∀ d', t'.get? slot = some d' →
      (d'.busy = false → d'.held = d'.due) ∧ d'.Attended (rows' d'.fd) (excuse' d'.fd)) :
    t'.Attended rows' excuse' where
  due i e he := by
    by_cases hi : i = slot
    · exact (hnew e (hi ▸ he)).1
    · exact h.due i e (hget i hi ▸ he)
  row i e he := by
    by_cases hi : i = slot
    · exact (hnew e (hi ▸ he)).2
    · have hold := hget i hi ▸ he
      have hne := hother i e hi hold
      rw [hrows e.fd hne]
      exact (h.row i e hold).mono fun interest _ => hexcuse e.fd interest hne

/-- A descriptor is replaced by one that is held alike. -/
theorem Attended.replace
    (h : t.Attended rows excuse) (honly : OnlyAt slot t t') (hd : t.get? slot = some d)
    (hd' : t'.get? slot = some d') (hfd : d'.fd = d.fd) (hheld : d'.held = d.held)
    (hdue : d'.busy = false → d'.held = d'.due) :
    t'.Attended rows excuse where
  due i e he := by
    by_cases hi : i = slot
    · subst hi
      cases hd'.symm.trans he
      exact hdue
    · exact h.due i e (honly.get? i hi ▸ he)
  row i e he := by
    by_cases hi : i = slot
    · subst hi
      cases hd'.symm.trans he
      rw [hfd]
      exact (h.row i d hd).of_held hheld
    · exact h.row i e (honly.get? i hi ▸ he)

/-- What is armed for timeouts makes no difference. -/
theorem Attended.retimed
    (h : t.Attended rows excuse) (hretimed : Retimed t t') :
    t'.Attended rows excuse := by
  constructor
  · intro i d' hd' hbusy
    obtain ⟨entry, handler, heq⟩ := hretimed.get? i
    rw [hd'] at heq
    obtain ⟨d, hd, rfl⟩ := Option.map_eq_some_iff.1 heq.symm
    exact h.due i d hd hbusy
  · intro i d' hd'
    obtain ⟨entry, handler, heq⟩ := hretimed.get? i
    rw [hd'] at heq
    obtain ⟨d, hd, rfl⟩ := Option.map_eq_some_iff.1 heq.symm
    exact (h.row i d hd).of_held rfl

/-- Entries are changed, those of descriptors with nothing held at will. -/
theorem Attended.update
    (h : t.Attended rows excuse)
    (hrow : ∀ i d, t.get? i = some d → d.held ≠ none → d.Attended (rows d.fd) (excuse d.fd) →
      d.Attended (rows' d.fd) (excuse' d.fd)) :
    t.Attended rows' excuse' where
  due := h.due
  row i d hd := by
    by_cases hheld : d.held = none
    · exact Descriptor.attended_of_held_eq_none hheld
    · exact hrow i d hd hheld (h.row i d hd)

theorem Sound.fd_ne
    (h : t.Sound current) (hd : t.get? slot = some d) (j : Nat) (e : Descriptor R H)
    (hj : j ≠ slot) (he : t.get? j = some e) :
    e.fd ≠ d.fd :=
  fun heq => hj (h.inj j slot e d he hd heq)

end DescriptorTable

/-- Whatever is reported of a descriptor, nothing of an interest in it is. -/
def Unmet (events : List Event) (fd : Int) (interest : Interest) : Prop :=
  ∀ ready, ⟨fd, ready⟩ ∈ events → ready ∩ interest.directions = ∅

/-- A wait finds the entry of a descriptor armed and reports the descriptor, which disarms
the entry.  It names nothing of what is registered then: nothing at all, or something else
than sending where sending alone is registered. -/
structure Transition.Overlooks (s : Transition H) (e : EpollInstance) (fd : Int)
    (interest : Interest) : Prop where
  oneshot : interest.oneshot ≠ ∅
  armed : s.before.host.kernel.row? e.number fd = some ⟨.ofInterest interest, false⟩
  registered : s.before.loop.interest? fd = some interest.directions
  reported : ∃ events ready, s.act = .wait events ∧ ⟨fd, ready⟩ ∈ events ∧
    (ready = ∅ ∨ interest.directions = Directions.single .send) ∧ Unmet events fd interest

/-- A descriptor was overlooked in a wait.  Its entry has been disarmed ever since, and no
later report of it named something of the interest either. -/
def Overlooked (e : EpollInstance) (steps : List (Transition H)) (fd : Int)
    (interest : Interest) : Prop :=
  ∃ early s late, steps = early ++ s :: late ∧ s.Overlooks e fd interest ∧
    ∀ t ∈ late, t.before.host.kernel.row? e.number fd = some ⟨.ofInterest interest, true⟩ ∧
      ∀ events, t.act = .wait events → Unmet events fd interest

namespace Overlooked

variable {e : EpollInstance} {steps : List (Transition H)} {s : Transition H} {fd : Int}
  {interest : Interest}

theorem oneshot
    (h : Overlooked e steps fd interest) :
    interest.oneshot ≠ ∅ := by
  obtain ⟨_, _, _, _, hs, _⟩ := h
  exact hs.oneshot

theorem of_last
    (steps : List (Transition H)) (h : s.Overlooks e fd interest) :
    Overlooked e (steps ++ [s]) fd interest :=
  ⟨steps, s, [], rfl, h, fun _ ht => nomatch ht⟩

/-- What was overlooked stays so while the entry is disarmed and nothing that was asked for
is reported. -/
theorem snoc
    (h : Overlooked e steps fd interest)
    (hdisarmed : s.before.host.kernel.row? e.number fd = some ⟨.ofInterest interest, true⟩)
    (hunmet : ∀ events, s.act = .wait events → Unmet events fd interest) :
    Overlooked e (steps ++ [s]) fd interest := by
  obtain ⟨early, s₀, late, rfl, hs₀, hlate⟩ := h
  refine ⟨early, s₀, late ++ [s], by simp, hs₀, fun t ht => ?_⟩
  rcases List.mem_append.1 ht with ht | ht
  · exact hlate t ht
  · cases List.mem_singleton.1 ht
    exact ⟨hdisarmed, hunmet⟩

end Overlooked

namespace Machine

variable {m m' : Machine H} {e : EpollInstance} {excuse : Int → Interest → Prop}
  {steps : List (Transition H)}

/-- The loop is on an epoll instance, and all descriptors are attended to there. -/
structure Attended (m : Machine H) (e : EpollInstance) (excuse : Int → Interest → Prop) :
    Prop where
  backend : m.loop.backend = .epoll e
  table : m.loop.table.Attended (m.host.kernel.row? e.number) excuse

theorem Attended.mono
    {excuse' : Int → Interest → Prop} (hm : m.Attended e excuse)
    (hexcuse : ∀ fd interest, excuse fd interest → excuse' fd interest) :
    m.Attended e excuse' :=
  ⟨hm.backend, hm.table.update fun _ d _ _ hrow => hrow.mono fun interest _ => hexcuse d.fd interest⟩

/-- An excuse is needed only for an entry that is disarmed. -/
theorem Attended.disarmed
    (hm : m.Attended e excuse) :
    m.Attended e fun fd interest => excuse fd interest ∧
      m.host.kernel.row? e.number fd = some ⟨.ofInterest interest, true⟩ := by
  refine ⟨hm.backend, hm.table.update fun i d _ _ hrow interest hheld => ?_⟩
  obtain ⟨disarmed, hentry, hwhy⟩ := hrow interest hheld
  exact ⟨disarmed, hentry, fun hd => ⟨hwhy hd, hd ▸ hentry⟩⟩

/-- A call changes neither the mechanism nor the epoll instance. -/
theorem instance?_call
    {call? : Option BackendCall} {fd : Int} {result : Except Errno Unit} {b : Backend}
    {k : Kernel} (hcall : m.call call? fd = (result, b, k)) :
    b.instance? = m.loop.backend.instance? := by
  cases call? with
  | none =>
      cases hcall
      rfl
  | some call =>
      exact Backend.instance?_apply hcall

theorem rows_of_call
    {call? : Option BackendCall} {fd : Int} {b : Backend} {k : Kernel}
    (he : m.loop.backend = .epoll e) (hcall : m.call call? fd = (.ok (), b, k)) :
    b = .epoll e ∧
      ∀ other, other ≠ fd → k.row? e.number other = m.host.kernel.row? e.number other := by
  cases call? with
  | none =>
      cases hcall
      exact ⟨he, fun _ _ => rfl⟩
  | some call =>
      have happly : call.apply m.loop.backend m.host.kernel fd = (.ok (), b, k) := hcall
      rw [he] at happly
      obtain ⟨hb, hothers, -⟩ := Backend.rows_of_apply happly
      exact ⟨hb, hothers⟩

/-- Alignment arms the entry of a descriptor, unless nothing has to be done. -/
theorem attended_of_align
    {d : Descriptor (Reaction H) H} {force : Bool} {b : Backend} {k : Kernel}
    {excuse : Interest → Prop} (he : m.loop.backend = .epoll e)
    (hcall : m.call (d.call? force) d.fd = (.ok (), b, k))
    (h : d.call? force = none → d.Attended (m.host.kernel.row? e.number d.fd) excuse) :
    Descriptor.Attended { d with held := d.due } (k.row? e.number d.fd) excuse := by
  cases hneeded : d.call? force with
  | none =>
      rw [hneeded] at hcall
      cases hcall
      exact (h hneeded).of_held (Descriptor.held_eq_due_of_call? hneeded).symm
  | some call =>
      rw [hneeded] at hcall
      have happly : call.apply m.loop.backend m.host.kernel d.fd = (.ok (), b, k) := hcall
      rw [he] at happly
      obtain ⟨-, -, hrow⟩ := Backend.rows_of_apply happly
      obtain ⟨-, hleaves⟩ := Descriptor.fits_of_call? hneeded
      intro interest hdue
      exact ⟨false, hrow interest (hleaves.trans hdue), fun hfalse => nomatch hfalse⟩

theorem attended_clearFd
    (h : m.Sound) (hm : m.Attended e excuse) {fd : Int} (hclear : m.clearFd fd = .ok m') :
    m'.Attended e excuse := by
  rcases clearFd_ok hclear with ⟨-, rfl⟩ | ⟨slot, d, b, k, hslot, hd, hcall, rfl⟩
  · exact hm
  · obtain ⟨d₁, hd₁, rfl⟩ := h.table.slotOf?_eq_some_iff.1 hslot
    cases hd.symm.trans hd₁
    obtain ⟨hb, hrows⟩ := rows_of_call hm.backend hcall
    refine ⟨hb, hm.table.change (DescriptorTable.onlyAt_clear _ slot d).get?
      (h.table.fd_ne hd) hrows (fun _ _ _ => id) ?_⟩
    intro d' hd'
    rw [show Loop.table _ = m.loop.table.clear slot d from rfl,
      DescriptorTable.get?_clear_self hd] at hd'
    split at hd'
    next hbusy =>
        cases hd'
        refine ⟨fun hidle => ?_, Descriptor.attended_of_held_eq_none rfl⟩
        rw [show Descriptor.busy { d.cleared with stage := .clearing, ready := ∅ } = d.busy
          from rfl, hbusy] at hidle
        cases hidle
    next =>
        cases hd'

theorem attended_registers
    (h : m.Sound) (hm : m.Attended e excuse) {fd : Int} {flags : Flags} {timeout : FdTimeout}
    {reaction : Reaction H} {d d' : Descriptor (Reaction H) H} {kernel : Kernel}
    (hreg : m.Registers fd flags timeout reaction m' d d' kernel) :
    m'.Attended e excuse := by
  have hsound' := (h.registers hreg).table
  have hleaves := Kernel.leaves_applyMode m.host.kernel fd flags
  rw [hreg.mode] at hleaves
  obtain ⟨d₁, hd₁, hfd, -, -, -, hold⟩ := h.table.ensure_spec fd
  cases hreg.found.symm.trans hd₁
  obtain ⟨hfd', hheld'⟩ := hreg.fd_held h
  obtain ⟨b, k, q, -, hcall, rfl⟩ := hreg.result
  -- A descriptor that was just created has nothing held yet.
  have hattended : d.Attended (kernel.row? e.number fd) (excuse fd) := by
    rw [hleaves.row?]
    rcases hold with hold | ⟨-, -, rfl⟩
    · have hrow := hm.table.row _ d hold
      rwa [hfd] at hrow
    · exact Descriptor.attended_of_held_eq_none rfl
  have hbackend : ({ m with host := { m.host with kernel } } : Machine H).loop.backend =
    .epoll e := hm.backend
  obtain ⟨hb, hrows⟩ := rows_of_call hbackend hcall
  obtain ⟨honly, -, hget, -⟩ := h.table.register_spec fd { d' with held := d'.due }
  have hother : ∀ j f, j ≠ (m.loop.table.ensure fd).1 → m.loop.table.get? j = some f →
      f.fd ≠ d'.fd := by
    intro j f hj hf
    exact hsound'.fd_ne hget j f hj ((honly.get? j hj).trans hf)
  refine ⟨hb, hm.table.change honly.get? hother ?_ (fun _ _ _ => id) ?_⟩
  · exact fun other hne => (hrows other hne).trans (hleaves.row? e.number other)
  · intro f hf
    cases hget.symm.trans hf
    refine ⟨fun _ => rfl, attended_of_align hbackend hcall fun _ => ?_⟩
    rw [hfd']
    exact hattended.of_held hheld'

/-- Calls that leave the kernel's tables make no difference. -/
theorem Attended.leaves
    {k : Kernel} (hm : m.Attended e excuse) (hleaves : m.host.kernel.Leaves k) :
    m.loop.table.Attended (k.row? e.number) excuse :=
  hm.table.update fun _ d _ _ hd => by
    rw [hleaves.row?]
    exact hd

theorem attended_perform
    (h : m.Sound) (hm : m.Attended e excuse) {r : Request H} {reply : Reply}
    (hperform : Performed m r reply m') :
    m'.Attended e excuse := by
  cases hperform with
  | cleared hclear =>
      exact attended_clearFd h hm hclear
  | unset hclear =>
      exact attended_clearFd h hm hclear
  | refused _ =>
      exact hm
  | registered _ _ _ hreg =>
      exact attended_registers h hm hreg
  | handled _ hd =>
      exact ⟨hm.backend, hm.table.retimed (.set hd _ _)⟩
  | aside haside =>
      refine ⟨haside.backend.trans hm.backend, ?_⟩
      rw [haside.table]
      exact hm.leaves haside.leaves

theorem attended_settle
    {slot clears : Nat} {pending : Directions} (h : m.loop.table.Sound (some slot))
    (hm : m.Attended e excuse) (hsettle : m.settle slot clears pending = .ok m') :
    m'.Attended e excuse := by
  obtain ⟨d, hd, ⟨-, rfl⟩ | ⟨hclearing, b, k, hcall, rfl⟩⟩ := settle_ok hsettle
  · refine ⟨hm.backend, hm.table.change (DescriptorTable.onlyAt_remove _ slot).get? (h.fd_ne hd)
      (fun _ _ => rfl) (fun _ _ _ => id) ?_⟩
    intro d' hd'
    rw [show Loop.table _ = m.loop.table.remove slot from rfl,
      DescriptorTable.get?_remove_self] at hd'
    cases hd'
  · obtain ⟨hb, hrows⟩ := rows_of_call hm.backend hcall
    refine ⟨hb, hm.table.change (DescriptorTable.onlyAt_settle _ slot d clears pending).get?
      (h.fd_ne hd) hrows (fun _ _ _ => id) ?_⟩
    intro d' hd'
    cases (DescriptorTable.get?_settle_self hd clears pending).symm.trans hd'
    have halign := attended_of_align (d := d.settled clears pending) hm.backend hcall
      fun _ => (hm.table.row slot d hd).of_held rfl
    exact ⟨fun _ => rfl, halign⟩

/-- Queueing what an event reports arms the entry of its descriptor.  If nothing is queued,
nothing that the entry asks for was reported. -/
theorem attended_enqueue_of_excuse
    {event : Event} {excuse' : Int → Interest → Prop} (h : m.loop.table.Sound none)
    (hm : m.Attended e excuse) (henqueue : m.enqueue event = .ok m')
    (honeshot : ∀ fd interest, excuse fd interest → interest.oneshot ≠ ∅)
    (hother : ∀ fd interest, fd ≠ event.fd → excuse fd interest → excuse' fd interest)
    (hmiss : m' = m → ∀ fd interest, excuse fd interest →
      (fd = event.fd → event.ready ∩ interest.directions = ∅) → excuse' fd interest) :
    m'.Attended e excuse' := by
  rcases enqueue_ok henqueue with ⟨rfl, hnothing⟩ | ⟨slot, d, b, k, hslot, hd, -, hne, hcall, rfl⟩
  · refine ⟨hm.backend, hm.table.update fun i d hd hheld hrow => hrow.mono ?_⟩
    intro interest hinterest hexcused
    refine hmiss rfl d.fd interest hexcused fun hfd => ?_
    rcases hnothing i d (h.slotOf?_eq_some_iff.2 ⟨d, hd, hfd⟩) hd with hclearing | hmiss
    · exact absurd ((h.fits i d hd).idle_of_clearing hclearing).1 hheld
    · have hdue := hm.table.due i d hd (h.busy_eq_false hd)
      rw [(Descriptor.wanted_of_due (hdue.symm.trans hinterest)).1]
      exact hmiss
  · obtain ⟨d₁, hd₁, hfd⟩ := h.slotOf?_eq_some_iff.1 hslot
    cases hd.symm.trans hd₁
    obtain ⟨hb, hrows⟩ := rows_of_call hm.backend hcall
    refine ⟨hb, hm.table.change (DescriptorTable.onlyAt_notify _ slot d event.ready).get?
      (h.fd_ne hd) hrows ?_ ?_⟩
    · exact fun other interest hne => hother other interest (hfd ▸ hne)
    · intro d' hd'
      cases (DescriptorTable.get?_notify_self hd event.ready).symm.trans hd'
      by_cases hrearms : d.rearms = true
      · simp only [if_pos hrearms] at hcall ⊢
        refine ⟨fun _ => rfl, attended_of_align (d := d.notified event.ready) hm.backend hcall ?_⟩
        intro hnone
        exact absurd hnone (Descriptor.call?_ne_none hrearms event.ready)
      · simp only [if_neg hrearms] at hcall ⊢
        cases hcall
        have hdue := hm.table.due slot d hd (h.busy_eq_false hd)
        refine ⟨fun _ => ?_, ((hm.table.row slot d hd).mono ?_).of_held rfl⟩
        · show d.held = (d.notified event.ready).due
          rw [Descriptor.due_notified hdue (Bool.not_eq_true _ ▸ hrearms) hne]
          exact hdue
        · -- Without a oneshot direction the entry was never disarmed.
          intro interest hinterest hexcused
          refine absurd ?_ hrearms
          simp [Descriptor.rearms, hinterest, Bool.eq_false_iff, Directions.isEmpty_iff,
            honeshot _ _ hexcused]

/-- Queueing events arms every entry but those of which no event names anything that is
asked for. -/
theorem attended_foldlM
    {events : List Event} (h : m.loop.table.Sound none)
    (hm : m.Attended e fun fd interest =>
      interest.oneshot ≠ ∅ ∧ (Unmet events fd interest → excuse fd interest))
    (hfold : events.foldlM enqueue m = .ok m') :
    m'.Attended e excuse := by
  induction events generalizing m with
  | nil =>
      cases hfold
      exact hm.mono fun fd interest hexcused => hexcused.2 fun _ hin => nomatch hin
  | cons event events ih =>
      obtain ⟨m₁, henqueue, hrest⟩ := Except.bind_eq_ok_iff.1 hfold
      obtain ⟨k, b, t, hm₁, ht⟩ := enqueue_sound h henqueue
      have hsound : m₁.loop.table.Sound none := by
        rw [hm₁]
        exact ht
      have hunmet : ∀ fd interest, (fd = event.fd → event.ready ∩ interest.directions = ∅) →
          Unmet events fd interest → Unmet (event :: events) fd interest := by
        intro fd interest hevent hlater ready hin
        rcases List.mem_cons.1 hin with rfl | hin
        · exact hevent rfl
        · exact hlater ready hin
      refine ih hsound (attended_enqueue_of_excuse h hm henqueue (fun _ _ hexcused => hexcused.1)
        ?_ ?_) hrest
      · rintro fd interest hne ⟨honeshot, hwhy⟩
        exact ⟨honeshot, fun hlater => hwhy (hunmet fd interest (absurd · hne) hlater)⟩
      · rintro - fd interest ⟨honeshot, hwhy⟩ hevent
        exact ⟨honeshot, fun hlater => hwhy (hunmet fd interest hevent hlater)⟩

/-- A wait disarms an entry only with an event, and only if the entry was armed. -/
theorem attended_reported
    {timeout : Option Nat} {events : List Event} {host : Host} (h : m.loop.table.Sound none)
    (hm : m.Attended e excuse)
    (hclosed : ∀ fd ∈ m.host.kernel.nextEntry.1.closed, m.loop.table.bindings? fd = none)
    (hwait : m.loop.backend.wait m.host timeout = (.ok events, host)) :
    Attended { m with host } e fun fd interest =>
      excuse fd interest ∧
          m.host.kernel.row? e.number fd = some ⟨.ofInterest interest, true⟩ ∨
        interest.oneshot ≠ ∅ ∧
          m.host.kernel.row? e.number fd = some ⟨.ofInterest interest, false⟩ ∧
          m.loop.table.held? fd = some interest ∧ interest.directions ≠ ∅ ∧
          ∃ condition, ⟨fd, ((Conditions.ofInterest interest).reported condition).directions⟩ ∈
            events := by
  refine ⟨hm.backend, hm.table.update fun i d hd hheld hrow => ?_⟩
  have hsame := h.held?_of_get? hd
  have hbound : ¬m.loop.table.bindings? d.fd = none := by
    intro hnone
    have hnothing := h.held?_eq_none hnone
    rw [hsame] at hnothing
    exact hheld hnothing
  rw [hm.backend] at hwait
  obtain ⟨reports, rfl, hreported⟩ := Backend.rows_of_wait hwait hclosed hbound
  intro interest hinterest
  obtain ⟨disarmed, hentry, hwhy⟩ := hrow interest hinterest
  show ∃ disarmed, host.kernel.row? e.number d.fd = _ ∧ _
  rw [hentry] at hreported
  generalize host.kernel.row? e.number d.fd = row at hreported
  cases hreported with
  | kept _ =>
      exact ⟨disarmed, rfl, fun hd => .inl ⟨hwhy hd, hd ▸ hentry⟩⟩
  | @disarmed _ condition honeshot harmed hmem =>
      have hdue := hm.table.due i d hd (h.busy_eq_false hd)
      have hsome : interest.oneshot ≠ ∅ := by
        simpa [Conditions.ofInterest, Bool.eq_false_iff, Directions.isEmpty_iff] using honeshot
      cases harmed
      exact ⟨true, rfl, fun _ => .inr ⟨hsome, hentry, hsame.trans hinterest,
        (Descriptor.wanted_of_due (hdue.symm.trans hinterest)).2, condition,
        List.mem_map_of_mem hmem⟩⟩

/-- When a wait begins the loop has asked for what is registered. -/
theorem Attended.interest?_of_held?
    {fd : Int} {interest : Interest} (hm : m.Attended e excuse) (h : m.Sound)
    (hc : m.control = .dispatching .wait) (hheld : m.loop.table.held? fd = some interest) :
    m.loop.interest? fd = some interest.directions := by
  obtain ⟨d, hfind, hd⟩ := Option.bind_eq_some_iff.1 hheld
  have htable : m.loop.table.Sound none := h.table_of_dispatching hc
  obtain ⟨i, hi, -⟩ := htable.find?_eq_some_iff.1 hfind
  have hclearing : ¬d.isClearing = true := fun hclearing =>
    Option.some_ne_none interest (hd.symm.trans ((htable.fits i d hi).idle_of_clearing hclearing).1)
  have hdue := hm.table.due i d hi (htable.busy_eq_false hi)
  rw [hd, Descriptor.due_of_ready_eq_empty (h.ready_of_wait hc hi)] at hdue
  split at hdue
  next =>
      cases hdue
  next =>
      cases hdue
      simp [Loop.interest?, hfind, hclearing]

/-- What a wait reports of a descriptor names something of what was asked for, or the
descriptor is overlooked. -/
theorem Attended.wait
    {events : List Event} (hm : m.Attended e (Overlooked e steps)) (h : m.Sound)
    (hcloses : m.ClosesNone) (hmove : Move m (.wait events) m') :
    m'.Attended e (Overlooked e (steps ++ [⟨m, .wait events, m'⟩])) := by
  obtain ⟨hc, host, m₁, hwait, hfold, rfl⟩ := wait_of_move hmove
  have htable : m.loop.table.Sound none := h.table_of_dispatching hc
  have hreported := attended_reported htable hm
    (fun fd hfd => bindings?_eq_none_of_interest? (hcloses hc fd hfd)) hwait
  have hqueued : m₁.Attended e (Overlooked e (steps ++ [⟨m, .wait events, m₁.goTo .start⟩])) := by
    refine attended_foldlM (m := { m with host }) htable (hreported.mono ?_) hfold
    rintro fd interest (⟨hover, hdisarmed⟩ | ⟨honeshot, harmed, hheld, hne, condition, hevent⟩)
    · refine ⟨hover.oneshot, fun hunmet => hover.snoc hdisarmed ?_⟩
      rintro events' ⟨⟩
      exact hunmet
    · refine ⟨honeshot, fun hunmet => .of_last steps ⟨honeshot, harmed, ?_, ?_⟩⟩
      · exact hm.interest?_of_held? h hc hheld
      · exact ⟨events, _, rfl, hevent, Conditions.directions_reported hne (hunmet _ hevent), hunmet⟩
  exact ⟨hqueued.backend, hqueued.table⟩

theorem attended_turnMove
    {turn : Turn} {d : Descriptor (Reaction H) H} (h : m.loop.table.Sound (some turn.slot))
    (hm : m.Attended e excuse) (hd : m.loop.table.get? turn.slot = some d)
    (hmove : TurnMove m turn d m') :
    m'.Attended e excuse := by
  -- The binding that is used up belongs to the descriptor whose handler runs.
  have hspent : ∀ a, (m.setDescriptor turn.slot (d.spent a)).Attended e excuse := by
    intro a
    have hbusy : (d.spent a).busy = true :=
      (d.busy_spent a).trans ((h.fits turn.slot d hd).busy.2 rfl)
    exact ⟨hm.backend, hm.table.replace (DescriptorTable.onlyAt_set _ turn.slot _) hd
      (DescriptorTable.get?_set_self hd _) (d.fd_spent a) (d.held_spent a)
      fun hb => absurd (hbusy.symm.trans hb) Bool.noConfusion⟩
  cases hmove with
  | ended _ hsettle =>
      have hsettled := attended_settle h hm hsettle
      exact ⟨hsettled.backend, hsettled.table⟩
  | unbound _ _ _ =>
      exact ⟨hm.backend, hm.table⟩
  | @called a _ _ _ _ _ _ _ =>
      exact ⟨hm.backend, (hspent a).table⟩
  | @delivered a _ signos kernel _ _ _ _ _ hdrain =>
      have hleaves := Kernel.leaves_drain m.host.kernel turn.fd
      rw [hdrain] at hleaves
      exact ⟨hm.backend, (hspent a).leaves hleaves⟩

/-- Apart from waits the dispatcher leaves no descriptor unattended. -/
theorem attended_advance
    (h : m.Sound) (hm : m.Attended e excuse) {phase : Phase H}
    (hc : m.control = .dispatching phase) (hwait : phase ≠ .wait)
    (hadvance : Advance m phase m') :
    m'.Attended e excuse := by
  have htable := h.table_of_dispatching hc
  cases hadvance with
  | quiet hquiet =>
      refine ⟨hquiet.backend.trans hm.backend, ?_⟩
      rw [hquiet.table, hquiet.host]
      exact hm.table
  | @begins slot active d _ hactive hd =>
      have honly := DescriptorTable.onlyAt_takeActive hactive
      have hget : DescriptorTable.get? { m.loop.table with active } slot = some d := hd
      exact ⟨hm.backend, hm.table.replace
        (honly.trans (DescriptorTable.onlyAt_set _ slot _)) hd
        (DescriptorTable.get?_set_self hget _) rfl rfl (fun hb => nomatch hb)⟩
  | turn hd hmove =>
      exact attended_turnMove htable hm hd hmove
  | @postponed now deferred =>
      obtain ⟨t, q, hfold, -, hretimed⟩ := follows_postpone now deferred htable
      rw [hfold]
      exact ⟨hm.backend, hm.table.retimed hretimed⟩
  | @expires now deferred fd q slot d _ _ _ _ hd hexpiry =>
      cases hexpiry with
      | deferred _ =>
          exact ⟨hm.backend, hm.table.retimed (.set hd _ _)⟩
      | dropped _ _ =>
          exact ⟨hm.backend, hm.table.retimed (.set hd _ _)⟩
      | fired _ _ =>
          exact ⟨hm.backend, hm.table.replace (DescriptorTable.onlyAt_set _ slot _) hd
            (DescriptorTable.get?_set_self hd _) rfl rfl (fun hb => nomatch hb)⟩
  | settles hsettle =>
      have hsettled := attended_settle htable hm hsettle
      exact ⟨hsettled.backend, hsettled.table⟩
  | waits _ =>
      exact absurd rfl hwait

/-- The world does not touch the entries of registered descriptors in a move, and no
wait closes a registered descriptor. -/
def Undisturbed (e : EpollInstance) (m : Machine H) (act : Act H) (m' : Machine H) : Prop :=
  match act with
  | .world => ∀ fd, m.loop.interest? fd ≠ none →
      m'.host.kernel.row? e.number fd = m.host.kernel.row? e.number fd
  | _ => m.ClosesNone

/-- Nothing but a wait leaves a descriptor unattended. -/
theorem Attended.move_of_ne_wait
    {act : Act H} (h : m.Sound) (hm : m.Attended e excuse) (hmove : Move m act m')
    (hundisturbed : Undisturbed e m act m') (hwait : ∀ events, act ≠ .wait events) :
    m'.Attended e excuse := by
  cases hmove with
  | request _ hperform =>
      exact attended_perform h hm (perform_ok hperform)
  | @resume invocation next hc =>
      rw [resume_eq hc]
      exact ⟨hm.backend, hm.table⟩
  | step hc hstep =>
      simp only [step, hc] at hstep
      refine attended_advance h hm hc ?_ (advance_ok hstep)
      rintro rfl
      exact hwait m.reports (act_eq_wait hc)
  | world host =>
      have hsame : ∀ fd, m.loop.interest? fd ≠ none →
        host.kernel.row? e.number fd = m.host.kernel.row? e.number fd := hundisturbed
      refine ⟨hm.backend, hm.table.update fun i d hd hheld hrow => ?_⟩
      show d.Attended (host.kernel.row? e.number d.fd) _
      rw [hsame]
      · exact hrow
      · intro hnone
        have hnothing := h.table.held?_eq_none (bindings?_eq_none_of_interest? hnone)
        rw [h.table.held?_of_get? hd] at hnothing
        exact hheld hnothing

/-- A disarmed entry is that of a descriptor that was overlooked. -/
theorem Attended.move
    {act : Act H} (hm : m.Attended e (Overlooked e steps)) (h : m.Sound) (hmove : Move m act m')
    (hundisturbed : Undisturbed e m act m') :
    m'.Attended e (Overlooked e (steps ++ [⟨m, act, m'⟩])) := by
  by_cases hwaits : ∃ events, act = .wait events
  · obtain ⟨events, rfl⟩ := hwaits
    exact hm.wait h hundisturbed hmove
  · have hwait : ∀ events, act ≠ .wait events := fun events heq => hwaits ⟨events, heq⟩
    refine (hm.disarmed.move_of_ne_wait h hmove hundisturbed hwait).mono ?_
    rintro fd interest ⟨hover, hdisarmed⟩
    exact hover.snoc hdisarmed fun events heq => absurd heq (hwait events)

theorem attended_empty
    (rows : Int → Option EpollEntry) :
    ({} : DescriptorTable (Reaction H) H).Attended rows excuse := by
  have hnone : ∀ i, ({} : DescriptorTable (Reaction H) H).get? i = none :=
    Arena.get?_ofSize 64
  constructor
  · intro i d hd
    rw [hnone] at hd
    cases hd
  · intro i d hd
    rw [hnone] at hd
    cases hd

theorem Built.attended
    (h : Built m) (he : m.loop.backend = .epoll e) :
    m.Attended e excuse := by
  cases h with
  | mk hbuild =>
      obtain ⟨backend, kernel, -, ⟨rfl, rfl⟩ | ⟨pipe, host₁, m₁, -, hset, rfl, rfl⟩⟩ :=
        build_ok hbuild
      · exact ⟨he, attended_empty _⟩
      · rcases setFd_ok hset with ⟨hflags, -⟩ | ⟨-, -, limit, -, hresult⟩ |
          ⟨-, -, -, -, d, d', kernel, hreg⟩
        · exact absurd hflags (by decide)
        · cases hresult
        · have hbackend : backend = .epoll e := by
            obtain ⟨b, k, q, -, hcall, rfl⟩ := hreg.result
            have hb : b = .epoll e := he
            have hsame : b.instance? = backend.instance? := instance?_call hcall
            rw [hb] at hsame
            exact Backend.instance?_eq_some_iff.1 hsame.symm
          have hattended : m₁.Attended e excuse := attended_registers
            (sound_of_table_empty rfl rfl rfl) ⟨hbackend, attended_empty _⟩ hreg
          exact ⟨hattended.backend, hattended.table⟩

theorem Course.attended_overlooked
    (hcourse : Course m steps m') (hbuilt : Built m) (he : m.loop.backend = .epoll e)
    (hundisturbed : ∀ s ∈ steps, Undisturbed e s.before s.act s.after) :
    m'.Attended e (Overlooked e steps) := by
  induction hcourse with
  | nil =>
      exact hbuilt.attended he
  | snoc hfirst hmove ih =>
      have hbefore := ih fun s hs =>
        hundisturbed s (List.mem_append_left _ hs)
      exact hbefore.move (hfirst.run.sound hbuilt.sound) hmove
        (hundisturbed _ (List.mem_append_right _ List.mem_cons_self))

/-- On epoll a registered descriptor falls silent for one reason only.  In a run in
which nobody else closes registered descriptors or touches their entries, the entry
of every registered descriptor asks for all its registrations when a wait begins.  If
that entry is disarmed, then it was a report that disarmed it, and neither that report
nor any later one named something of what was registered; and if the report named
anything at all, sending alone was registered. -/
theorem undisturbed_run_listens
    (hbuilt : Built m) (he : m.loop.backend = .epoll e) (hcourse : Course m steps m')
    (hundisturbed : ∀ s ∈ steps, Undisturbed e s.before s.act s.after)
    (hc : m'.control = .dispatching .wait) {fd : Int} {d : Descriptor (Reaction H) H}
    (hfind : m'.loop.table.find? fd = some d) (hregistered : d.registered ≠ ∅) :
    ∃ disarmed,
      m'.host.kernel.row? e.number fd =
        some ⟨.ofInterest ⟨d.registered, d.oneshots⟩, disarmed⟩ ∧
      (disarmed = true → Overlooked e steps fd ⟨d.registered, d.oneshots⟩) := by
  have hm := hcourse.attended_overlooked hbuilt he hundisturbed
  have hsound := hcourse.run.sound hbuilt.sound
  have htable : m'.loop.table.Sound none := hsound.table_of_dispatching hc
  obtain ⟨i, hi, rfl⟩ := htable.find?_eq_some_iff.1 hfind
  have hready := hsound.ready_of_wait hc hi
  have hbusy : d.busy = false := htable.busy_eq_false hi
  refine hm.table.row i d hi _ ?_
  rw [hm.table.due i d hi hbusy, Descriptor.due_of_ready_eq_empty hready, if_neg hregistered]

/-- A loop on epoll that was just built, on a host whose waits follow a script. -/
def scriptedEpoll (H : Type) (script : List WaitEntry) : Machine H :=
  { host :=
      { kernel :=
          { script
            epolls := (∅ : Std.TreeMap Nat EpollTable).insert 0 ∅
            epollsCreated := 1 } }
    loop := { backend := .epoll ⟨0, 64⟩, hub := 0, tick := 10 * Time.milli } }

theorem built_scriptedEpoll
    (H : Type) (script : List WaitEntry) :
    Built (scriptedEpoll H script) :=
  .mk (show LoopOptions.build H { backend := .epoll } { kernel := { script } } = .ok (.ok _, _)
    from rfl)

/-- A run in which the world does nothing but wait and report is undisturbed. -/
theorem undisturbed_of_closed
    (hworld : .world ∉ steps.map (·.act))
    (hclosed : ∀ s ∈ steps, s.before.host.kernel.nextEntry.1.closed = []) :
    ∀ s ∈ steps, Undisturbed e s.before s.act s.after := by
  intro s hs
  unfold Undisturbed
  split
  next hact =>
      exact absurd (hact ▸ List.mem_map_of_mem hs) hworld
  next =>
      intro _ fd hfd
      rw [hclosed s hs] at hfd
      cases hfd

/-- The next wait begins, with the given directions of a descriptor registered and its entry
disarmed or not, and no wait closed anything. -/
def AwaitsWith (fd : Int) (directions : Directions) (disarmed : Bool)
    (steps : List (Transition Nat)) (m : Machine Nat) : Prop :=
  (∀ s ∈ steps, s.before.host.kernel.nextEntry.1.closed = []) ∧ m.control = .dispatching .wait ∧
    (m.loop.table.find? fd).map (·.registered) = some directions ∧
    (m.host.kernel.row? 0 fd).map (·.disarmed) = some disarmed

instance (fd : Int) (directions : Directions) (disarmed : Bool)
    (steps : List (Transition Nat)) (m : Machine Nat) :
    Decidable (AwaitsWith fd directions disarmed steps m) :=
  inferInstanceAs (Decidable (_ ∧ _ ∧ _ ∧ _))

/-- A descriptor that is registered for receiving once is reported, and its handler
registers it for sending once.  The wait after that is reached. -/
def turnedLog : List (Act Nat) :=
  [Act.request (.setFd 5 (.recv ∪ .oneshot) .unlimited 1) .done, .request .dispatch .done] ++
  List.replicate 7 Act.advance ++ [Act.wait [⟨5, ⟨true, false, false⟩⟩]] ++
  List.replicate 4 Act.advance ++
  [Act.fire 5 .recv (.call 1),
    .request (.setFd 5 (.send ∪ .oneshot) .unlimited 2) .done, .resume] ++
  List.replicate 5 Act.advance

theorem undisturbed_run_listens_turnedLog :
    ∃ (m m' : Machine Nat) (steps : List (Transition Nat)), ∃ d, Built m ∧ Course m steps m' ∧
      steps.map (·.act) = turnedLog ∧
      (∀ s ∈ steps, Undisturbed ⟨0, 64⟩ s.before s.act s.after) ∧
      m'.control = .dispatching .wait ∧ m'.loop.table.find? 5 = some d ∧
      d.registered = Directions.single .send ∧
      m'.host.kernel.row? 0 5 = some ⟨.ofInterest ⟨d.registered, d.oneshots⟩, false⟩ := by
  have hbuilt := built_scriptedEpoll Nat [{ events := [(5, { input := true })] }]
  obtain ⟨steps, m', hcourse, -, hlog, hclosed, hc, hfind, hrow⟩ :=
    exists_timely_course_of_trail
      (m := scriptedEpoll Nat [{ events := [(5, { input := true })] }]) turnedLog
      (AwaitsWith 5 (.single .send) false)
      (List.flatten [
        [.request (.setFd 5 (.recv ∪ .oneshot) .unlimited 1), .request .dispatch],
        List.replicate 13 .step, [.request (.setFd 5 (.send ∪ .oneshot) .unlimited 2), .resume],
        List.replicate 5 .step])
      (by decide +kernel)
  have hworld : .world ∉ steps.map (·.act) := by
    rw [hlog]
    decide
  have hundisturbed := undisturbed_of_closed (e := ⟨0, 64⟩) hworld hclosed
  obtain ⟨d, hd, hregistered⟩ := Option.map_eq_some_iff.1 hfind
  have hne : d.registered ≠ ∅ := by
    rw [hregistered]
    decide
  obtain ⟨disarmed, hentry, -⟩ :=
    undisturbed_run_listens hbuilt rfl hcourse hundisturbed hc hd hne
  obtain rfl : disarmed = false := by
    simpa [hentry] using hrow
  exact ⟨_, m', steps, d, hbuilt, hcourse, hlog, hundisturbed, hc, hd, hregistered, hentry⟩

/-- A descriptor that is registered for sending once is hung up, and the next wait is
reached. -/
def silencedLog : List (Act Nat) :=
  [Act.request (.setFd 5 (.send ∪ .oneshot) .unlimited 1) .done,
    .request .dispatch .done] ++
  List.replicate 7 Act.advance ++ [Act.wait [⟨5, ⟨true, false, true⟩⟩]] ++
  List.replicate 7 Act.advance

/-- A hang-up alone disarms the entry of a descriptor that is registered for sending
once, and the next wait begins with the entry still disarmed. -/
theorem hangup_silences_registration :
    ∃ (m m' : Machine Nat) (steps : List (Transition Nat)), ∃ d row, Built m ∧
      Course m steps m' ∧ steps.map (·.act) = silencedLog ∧
      (∀ s ∈ steps, Undisturbed ⟨0, 64⟩ s.before s.act s.after) ∧
      m'.control = .dispatching .wait ∧ m'.loop.table.find? 5 = some d ∧
      d.registered = Directions.single .send ∧ m'.host.kernel.row? 0 5 = some row ∧
      row.disarmed = true := by
  have hbuilt := built_scriptedEpoll Nat [{ events := [(5, { hangup := true })] }]
  obtain ⟨steps, m', hcourse, -, hlog, hclosed, hc, hfind, hrow⟩ :=
    exists_timely_course_of_trail
      (m := scriptedEpoll Nat [{ events := [(5, { hangup := true })] }]) silencedLog
      (AwaitsWith 5 (.single .send) true)
      (List.flatten [
        [.request (.setFd 5 (.send ∪ .oneshot) .unlimited 1), .request .dispatch],
        List.replicate 15 .step])
      (by decide +kernel)
  have hworld : .world ∉ steps.map (·.act) := by
    rw [hlog]
    decide
  obtain ⟨d, hd, hregistered⟩ := Option.map_eq_some_iff.1 hfind
  obtain ⟨row, hentry, hdisarmed⟩ := Option.map_eq_some_iff.1 hrow
  exact ⟨_, m', steps, d, row, hbuilt, hcourse, hlog, undisturbed_of_closed hworld hclosed, hc, hd,
    hregistered, hentry, hdisarmed⟩

end Machine
end CallbackLoop
