import CallbackLoop.Proofs.Backend
import CallbackLoop.Proofs.Loop.Registrations

/-!
# The host mirrors the registrations

A descriptor records which interest the host holds for it.  As long as the world
closes no registered descriptor and lays no faults, the record is right: the
backend's own table holds exactly that.  Every call of the backend then fits its
table and is accepted.  A descriptor whose handlers are not running is in line:
the host holds what is due, and when a wait begins that is everything registered.
-/

namespace CallbackLoop

variable {H R : Type}

namespace Descriptor

variable {d : Descriptor R H}

/-- With nothing waiting for its turn, all that is registered is due. -/
theorem due_of_ready_eq_empty
    (h : d.ready = ∅) :
    d.due = if d.registered = ∅ then none else some ⟨d.registered, d.oneshots⟩ := by
  have hfired : d.oneshots ∩ d.ready = ∅ := by
    ext a
    rw [h]
    simp
  have hwanted : d.wanted = ⟨d.registered, d.oneshots⟩ := by
    have hdiff : ∀ s : Directions, s \ ∅ = s := by
      intro s
      ext a
      simp
    simp only [wanted, hfired, hdiff]
  unfold due
  rw [hwanted]
  by_cases hempty : d.registered = ∅
  · rw [if_pos hempty]
    exact if_pos (Directions.isEmpty_iff.2 hempty)
  · rw [if_neg hempty]
    exact if_neg fun he => hempty (Directions.isEmpty_iff.1 he)

/-- Only what is registered is due. -/
theorem registered_of_due
    (h : d.due ≠ none) :
    d.registered ≠ ∅ := by
  intro hempty
  refine h (if_pos (Directions.isEmpty_iff.2 (Directions.ext fun a => ?_)))
  rw [Directions.contains_empty, ← Bool.not_eq_true]
  intro ha
  have hregistered := registered_of_wanted ha
  rw [hempty, Directions.contains_empty] at hregistered
  cases hregistered

/-- Whatever a registration names is due. -/
theorem isEmpty_of_due_bound
    {flags : Flags} {reaction : R} {entry : Option Handle}
    (h : Descriptor.due { d.bound flags reaction with timeout := entry } = none) :
    flags.directions.isEmpty = true := by
  by_contra hne
  obtain ⟨a, ha⟩ : ∃ a, flags.directions.contains a = true := by
    by_contra hnone
    refine hne (Directions.isEmpty_iff.2 (Directions.ext fun a => ?_))
    rw [Directions.contains_empty, ← Bool.not_eq_true]
    exact fun ha => hnone ⟨a, ha⟩
  have hwanted : (d.bound flags reaction).wanted.directions.contains a = true := by
    have hregistered : (d.bound flags reaction).registered.contains a = true := by
      rw [contains_registered, binding?_bound, Bindings.rebind, if_pos ha]
      rfl
    have hready : (d.bound flags reaction).ready.contains a = false := by
      unfold bound
      rw [if_neg hne]
      show (d.ready \ flags.directions).contains a = false
      simp [ha]
    simp [wanted, hregistered, hready, -contains_registered, -contains_oneshots]
  unfold due at h
  split at h
  next hempty =>
      have hnone : (d.bound flags reaction).wanted.directions = ∅ :=
        Directions.isEmpty_iff.1 hempty
      rw [hnone, Directions.contains_empty] at hwanted
      cases hwanted
  next =>
      cases h

/-- If the host holds what is due and is not told of a report again, the same stays
due: all oneshot directions were reported before. -/
theorem due_notified
    {ready : Directions} (hheld : d.held = d.due) (hrearms : d.rearms = false)
    (hne : ready ∩ d.wanted.directions ≠ ∅) :
    (d.notified ready).due = d.due := by
  have hwanted : ¬d.wanted.isEmpty = true := by
    intro hempty
    have hnone : d.wanted.directions = ∅ := Directions.isEmpty_iff.1 hempty
    refine hne (Directions.ext fun a => ?_)
    rw [hnone]
    simp
  have hsome : d.held = some d.wanted := hheld.trans (if_neg hwanted)
  have honeshot : d.wanted.oneshot = ∅ := by
    rw [rearms, hsome] at hrearms
    refine Directions.isEmpty_iff.1 ?_
    simpa using hrearms
  have hready : ∀ a, d.oneshots.contains a = true → d.ready.contains a = true := by
    intro a ha
    have hnone : d.wanted.oneshot.contains a = false := by
      rw [honeshot, Directions.contains_empty]
    have hwaits : (d.oneshots.contains a && !(d.oneshots.contains a && d.ready.contains a)) =
        false := by
      rw [← Directions.contains_inter, ← Directions.contains_sdiff]
      exact hnone
    rw [ha] at hwaits
    simpa using hwaits
  have hfired : d.oneshots ∩ (d.notified ready).ready = d.oneshots ∩ d.ready := by
    ext a
    rw [Directions.contains_inter, Directions.contains_inter]
    by_cases ha : d.oneshots.contains a = true
    · have hin := hready a ha
      simp [notified, hin]
    · rw [Bool.not_eq_true] at ha
      simp [ha, -contains_oneshots]
  have hsame : (d.notified ready).wanted = d.wanted := by
    show Interest.mk (d.registered \ (d.oneshots ∩ (d.notified ready).ready))
      (d.oneshots \ (d.oneshots ∩ (d.notified ready).ready)) = d.wanted
    rw [hfired]
    rfl
  unfold due
  rw [hsame]

/-- A registration that names no direction binds none. -/
theorem registered_bound
    {flags : Flags} {reaction : R} (h : flags.directions.isEmpty = true) :
    (d.revived.bound flags reaction).registered = d.registered := by
  rw [bound, if_pos h]
  unfold revived
  split <;> rfl

end Descriptor

namespace DescriptorTable

variable {t t' : DescriptorTable R H} {current current' : Option Nat} {slot : Nat}
  {d d' : Descriptor R H} {b b' : Backend} {k k' : Kernel}

/-- The interest that the host holds according to what is stored. -/
def held? (t : DescriptorTable R H) (fd : Int) : Option Interest :=
  (t.find? fd).bind (·.held)

theorem Sound.held?_of_get?
    (h : t.Sound current) (hd : t.get? slot = some d) :
    t.held? d.fd = d.held := by
  rw [held?, h.find?_eq_some_iff.2 ⟨slot, hd, rfl⟩]
  rfl

theorem Sound.held?_replace
    (h : t.Sound current) (h' : t'.Sound current') (honly : OnlyAt slot t t')
    (hd : t.get? slot = some d) (hd' : t'.get? slot = some d') (hfd : d'.fd = d.fd) :
    t'.held? = Function.update t.held? d.fd d'.held := by
  funext fd
  rw [held?, h.find?_replace h' honly hd hd' hfd, Function.update_apply]
  split <;> rfl

theorem Sound.held?_clear
    (h : t.Sound current) (hd : t.get? slot = some d) :
    (t.clear slot d).held? = Function.update t.held? d.fd none := by
  funext fd
  rw [held?, h.find?_clear hd, Function.update_apply]
  split
  · split <;> rfl
  · rfl

theorem Sound.held?_register
    (h : t.Sound current) {fd : Int} (h' : (t.register fd d).Sound current')
    (hfd : d.fd = fd) :
    (t.register fd d).held? = Function.update t.held? fd d.held := by
  funext other
  rw [held?, h.find?_register h' hfd, Function.update_apply]
  split <;> rfl

theorem Sound.held?_ensure
    (h : t.Sound current) {fd : Int}
    (hd : (t.ensure fd).2.get? (t.ensure fd).1 = some d) :
    t.held? fd = d.held := by
  obtain ⟨e, he, hfd, -, -, -, hold⟩ := h.ensure_spec fd
  cases hd.symm.trans he
  rcases hold with hold | ⟨hnone, -, rfl⟩
  · rw [← hfd]
    exact h.held?_of_get? hold
  · rw [held?, hnone]
    rfl

/-- A registration binds directions of the descriptor that was ensured. -/
theorem Sound.fd_bound
    (h : t.Sound current) {fd : Int} (hd : (t.ensure fd).2.get? (t.ensure fd).1 = some d)
    (flags : Flags) (reaction : R) :
    (d.revived.bound flags reaction).fd = fd := by
  obtain ⟨e, he, hfd, -⟩ := h.ensure_spec fd
  cases hd.symm.trans he
  rw [Descriptor.fd_bound, Descriptor.fd_revived, hfd]

/-- Nothing is held for what is not registered. -/
theorem Sound.held?_eq_none
    (h : t.Sound current) {fd : Int} (hfd : t.bindings? fd = none) :
    t.held? fd = none := by
  unfold bindings? at hfd
  unfold held?
  cases hfind : t.find? fd with
  | none =>
      rfl
  | some d =>
      rw [hfind] at hfd
      obtain ⟨i, hi, -⟩ := h.find?_eq_some_iff.1 hfind
      have hclearing : d.isClearing = true := by
        by_contra hc
        have hsome : d.bindings? = some d.binding? := if_neg hc
        have hnone : d.bindings? = none := hfd
        rw [hsome] at hnone
        cases hnone
      exact ((h.fits i d hi).idle_of_clearing hclearing).1

/-- What is armed for timeouts makes no difference to what is held. -/
theorem Retimed.held?
    (hretimed : Retimed t t') (h : t.Sound current) (h' : t'.Sound current') :
    t'.held? = t.held? := by
  funext fd
  obtain ⟨entry, handler, heq⟩ := hretimed.find? h h' fd
  rw [DescriptorTable.held?, DescriptorTable.held?, heq]
  cases t.find? fd <;> rfl

/-- What the backend holds is what the descriptors say, and it is what is due for
every descriptor whose handlers are not running.  Nothing keeps the backend from
accepting calls about descriptors with anything held or bound. -/
structure Mirrored (t : DescriptorTable R H) (b : Backend) (k : Kernel) : Prop where
  holds : b.Holds k t.held?
  takes : ∀ i d, t.get? i = some d → d.held ≠ none ∨ d.registered ≠ ∅ → b.Takes k d.fd
  due : ∀ i d, t.get? i = some d → d.busy = false → d.held = d.due

/-- What happens to unregistered descriptors makes no difference. -/
theorem Mirrored.keeps
    {gone : Int → Prop} (h : t.Mirrored b k) (hsound : t.Sound current)
    (hkeeps : b.Keeps gone k k') (hgone : ∀ fd, gone fd → t.bindings? fd = none) :
    t.Mirrored b k' where
  holds := h.holds.keeps hkeeps fun fd hfd => hsound.held?_eq_none (hgone fd hfd)
  takes i d hd hany := by
    refine (h.takes i d hd hany).keeps hkeeps fun hfd => ?_
    have hfit := hsound.fits i d hd
    have hclearing : d.isClearing = false := by
      rw [← Bool.not_eq_true]
      intro hc
      rcases hany with hheld | hregistered
      · exact hheld (hfit.idle_of_clearing hc).1
      · refine hregistered (Directions.ext fun a => ?_)
        rw [Descriptor.contains_registered, hfit.unbound_of_clearing hc]
        simp
    have hnone := hgone d.fd hfd
    rw [hsound.bindings?_of_get? hd, Descriptor.bindings?_eq_some_iff.2 ⟨hclearing, rfl⟩] at hnone
    cases hnone
  due := h.due

/-- A call that closes nothing makes no difference. -/
theorem Mirrored.passes
    (h : t.Mirrored b k) (hsound : t.Sound current) (hpasses : k.Passes (fun _ => False) k') :
    t.Mirrored b k' :=
  h.keeps hsound (Backend.keeps_of_passes b hpasses) fun _ hfalse => hfalse.elim

/-- A registration concerns a descriptor that the backend takes, unless it is new. -/
theorem Mirrored.takes_ensure
    {fd : Int} (h : t.Mirrored b k) (hsound : t.Sound current)
    (hd : (t.ensure fd).2.get? (t.ensure fd).1 = some d)
    (hany : d.held ≠ none ∨ d.registered ≠ ∅) :
    b.Takes k fd := by
  obtain ⟨e, he, hfd, -, -, -, hold⟩ := hsound.ensure_spec fd
  cases hd.symm.trans he
  rcases hold with hold | ⟨-, -, rfl⟩
  · rw [← hfd]
    exact h.takes _ d hold hany
  · exact (hany.elim (fun hne => hne rfl) (fun hne => hne rfl)).elim

/-- A change in one slot that goes with an accepted call. -/
theorem Mirrored.accept
    {fd : Int} {left : Option Interest} (h : t.Mirrored b k)
    (haccepted : Backend.Accepted b k fd t.held? left b' k')
    (hget : ∀ j, j ≠ slot → t'.get? j = t.get? j)
    (hheld : t'.held? = Function.update t.held? fd left)
    (htakes : ∀ d', t'.get? slot = some d' → d'.held ≠ none ∨ d'.registered ≠ ∅ →
      b'.Takes k' d'.fd)
    (hdue : ∀ d', t'.get? slot = some d' → d'.busy = false → d'.held = d'.due) :
    t'.Mirrored b' k' where
  holds := by
    rw [hheld]
    exact haccepted.holds
  takes i e he hany := by
    by_cases hi : i = slot
    · exact htakes e (hi ▸ he) hany
    · exact haccepted.takes e.fd (h.takes i e (hget i hi ▸ he) hany)
  due i e he hbusy := by
    by_cases hi : i = slot
    · exact hdue e (hi ▸ he) hbusy
    · exact h.due i e (hget i hi ▸ he) hbusy

/-- A descriptor is replaced by one that is held alike and has no more bound. -/
theorem Mirrored.replace
    (h : t.Mirrored b k) (hsound : t.Sound current) (hsound' : t'.Sound current')
    (honly : OnlyAt slot t t') (hd : t.get? slot = some d) (hd' : t'.get? slot = some d')
    (hfd : d'.fd = d.fd) (hheld : d'.held = d.held)
    (hregistered : d'.registered ≠ ∅ → d.registered ≠ ∅)
    (hdue : d'.busy = false → d'.held = d'.due) :
    t'.Mirrored b k := by
  have hsame := hsound.held?_of_get? hd
  have hself : Backend.Accepted b k d.fd t.held? (t.held? d.fd) b k :=
    Backend.accepted_self h.holds fun hne => h.takes slot d hd (.inl (hsame ▸ hne))
  refine h.accept hself honly.get? ?_ ?_ ?_
  · rw [hsound.held?_replace hsound' honly hd hd' hfd, hheld, hsame]
  · intro e he hany
    cases hd'.symm.trans he
    rw [hfd]
    refine h.takes slot d hd (hany.imp ?_ hregistered)
    rw [hheld]
    exact id
  · intro e he hbusy
    cases hd'.symm.trans he
    exact hdue hbusy

/-- A descriptor is replaced by one that alignment has brought in line. -/
theorem Mirrored.align
    (h : t.Mirrored b k) (hsound : t.Sound current) (hsound' : t'.Sound current')
    (honly : OnlyAt slot t t') (hd : t.get? slot = some d)
    (hd' : t'.get? slot = some { d' with held := d'.due }) (hfd : d'.fd = d.fd)
    (hregistered : d'.registered = d.registered)
    (haccepted : Backend.Accepted b k d.fd t.held? d'.due b' k') :
    t'.Mirrored b' k' := by
  refine h.accept haccepted honly.get? ?_ ?_ ?_
  · exact hsound.held?_replace hsound' honly hd hd' hfd
  · intro e he hany
    cases hd'.symm.trans he
    show b'.Takes k' d'.fd
    rw [hfd]
    refine haccepted.takes d.fd (h.takes slot d hd (.inr ?_))
    rw [← hregistered]
    exact hany.elim Descriptor.registered_of_due id
  · intro e he _
    cases hd'.symm.trans he
    rfl

/-- What is armed for timeouts makes no difference. -/
theorem Mirrored.retimed
    (h : t.Mirrored b k) (hretimed : Retimed t t') (hsound : t.Sound current)
    (hsound' : t'.Sound current') :
    t'.Mirrored b k := by
  refine ⟨hretimed.held? hsound hsound' ▸ h.holds, ?_, ?_⟩
  · intro i d' hd' hany
    obtain ⟨entry, handler, heq⟩ := hretimed.get? i
    rw [hd'] at heq
    obtain ⟨d, hd, rfl⟩ := Option.map_eq_some_iff.1 heq.symm
    exact h.takes i d hd hany
  · intro i d' hd' hbusy
    obtain ⟨entry, handler, heq⟩ := hretimed.get? i
    rw [hd'] at heq
    obtain ⟨d, hd, rfl⟩ := Option.map_eq_some_iff.1 heq.symm
    exact h.due i d hd hbusy

end DescriptorTable

namespace Machine

variable {m m' : Machine H}

/-- The host mirrors the registrations, and lays no faults for them. -/
structure Mirrored (m : Machine H) : Prop where
  table : m.loop.table.Mirrored m.loop.backend m.host.kernel
  spares : m.host.kernel.Spares

theorem mirrored_clearFd
    (h : m.Sound) (hm : m.Mirrored) {fd : Int} (hclear : m.clearFd fd = .ok m') :
    m'.Mirrored := by
  rcases clearFd_ok hclear with ⟨-, rfl⟩ | ⟨slot, d, b, k, hslot, hd, hcall, rfl⟩
  · exact hm
  · obtain ⟨e, he, rfl⟩ := h.table.slotOf?_eq_some_iff.1 hslot
    cases hd.symm.trans he
    have hsame := h.table.held?_of_get? hd
    have haccepted : Backend.Accepted m.loop.backend m.host.kernel d.fd
        m.loop.table.held? none b k := by
      rcases call_unregister_cases hcall with ⟨hheld, happly⟩ | ⟨hnone, rfl, rfl⟩
      · refine Backend.accepted_of_apply hm.table.holds ?_ (fun hne => ⟨?_, hm.spares⟩) happly
        · rw [hsame]
          exact Option.isSome_iff_ne_none.2 hheld
        · exact hm.table.takes slot d hd (.inl (hsame ▸ hne))
      · rw [hnone] at hsame
        have hself := Backend.accepted_self hm.table.holds fun hne => absurd hsame hne
        rwa [hsame] at hself
    refine ⟨?_, haccepted.spares hm.spares⟩
    show (m.loop.table.clear slot d).Mirrored b k
    refine hm.table.accept haccepted (DescriptorTable.onlyAt_clear _ slot d).get?
      (h.table.held?_clear hd) ?_ ?_
    · intro d' hd' hany
      rw [DescriptorTable.get?_clear_self hd] at hd'
      split at hd'
      · cases hd'
        exact (hany.elim (fun hne => hne rfl) (fun hne => hne rfl)).elim
      · cases hd'
    · intro d' hd' hbusy
      rw [DescriptorTable.get?_clear_self hd] at hd'
      split at hd'
      next hb =>
          cases hd'
          rw [show Descriptor.busy { d.cleared with stage := .clearing, ready := ∅ } = d.busy
            from rfl, hb] at hbusy
          cases hbusy
      next =>
          cases hd'

/-- A registration binds directions of its descriptor and has not touched yet what the host
holds for it. -/
theorem Registers.fd_held
    {fd : Int} {flags : Flags} {timeout : FdTimeout} {reaction : Reaction H}
    {d d' : Descriptor (Reaction H) H} {kernel : Kernel}
    (hreg : m.Registers fd flags timeout reaction m' d d' kernel) (h : m.Sound) :
    d'.fd = fd ∧ d'.held = d.held := by
  obtain ⟨entry, rfl⟩ := hreg.bound
  refine ⟨h.table.fd_bound hreg.found flags reaction, ?_⟩
  show (d.revived.bound flags reaction).held = d.held
  rw [Descriptor.held_bound, Descriptor.held_revived]

theorem mirrored_registers
    (h : m.Sound) (hm : m.loop.table.Mirrored m.loop.backend m.host.kernel) {fd : Int}
    {flags : Flags} {timeout : FdTimeout} {reaction : Reaction H}
    {d d' : Descriptor (Reaction H) H} {kernel : Kernel}
    (hspares : d.held ≠ none → m.host.kernel.Spares)
    (hreg : m.Registers fd flags timeout reaction m' d d' kernel) :
    m'.loop.table.Mirrored m'.loop.backend m'.host.kernel ∧
      (m.host.kernel.Spares → m'.host.kernel.Spares) := by
  have hsound' := (h.registers hreg).table
  have hleaves := Kernel.leaves_applyMode m.host.kernel fd flags
  rw [hreg.mode] at hleaves
  have hpasses := hleaves.passes fun _ => False
  have hm₁ := hm.passes h.table hpasses
  obtain ⟨hfd', hheld'⟩ := hreg.fd_held h
  obtain ⟨b, k, q, -, hcall, rfl⟩ := hreg.result
  have hsame := h.table.held?_ensure hreg.found
  have htakes := hm₁.takes_ensure h.table hreg.found
  have haccepted : Backend.Accepted m.loop.backend kernel d'.fd m.loop.table.held? d'.due b k := by
    refine accepted_of_align hm₁.holds ?_ ?_ hcall
    · rw [hfd', hheld', hsame]
    · rw [hheld', hfd']
      exact fun hne => ⟨htakes (.inl hne), hpasses.spares (hspares hne)⟩
  obtain ⟨honly, -, hget, -, -⟩ := h.table.register_spec fd { d' with held := d'.due }
  refine ⟨?_, fun hs => haccepted.spares (hpasses.spares hs)⟩
  show (m.loop.table.register fd { d' with held := d'.due }).Mirrored b k
  refine hm₁.accept haccepted honly.get? ?_ ?_ ?_
  · refine (h.table.held?_register hsound' hfd').trans ?_
    rw [hfd']
  · intro e he hany
    cases hget.symm.trans he
    by_cases hdue : d'.due = none
    · -- Nothing is due, so nothing was named, and what is bound was bound before.
      have hregistered : d'.registered = d.registered := by
        obtain ⟨entry, rfl⟩ := hreg.bound
        exact Descriptor.registered_bound (Descriptor.isEmpty_of_due_bound hdue)
      refine haccepted.takes d'.fd (hfd' ▸ htakes (.inr ?_))
      rw [← hregistered]
      exact hany.elim (fun hne => absurd hdue hne) id
    · exact haccepted.taken hdue
  · intro e he _
    cases hget.symm.trans he
    rfl

/-- A request that is not about descriptors leaves the kernel's tables. -/
theorem Aside.leaves
    {r : Request H} (h : Aside m r m') :
    m.host.kernel.Leaves m'.host.kernel := by
  rcases h.host with heq | ⟨signo, heq⟩ | ⟨signo, hrelease⟩
  · rw [heq]
    exact .refl _
  · rw [heq]
    exact Host.leaves_acquire _ _ _
  · exact Host.leaves_release hrelease

theorem mirrored_perform
    (h : m.Sound) (hm : m.Mirrored) {r : Request H} {reply : Reply}
    (hperform : Performed m r reply m') :
    m'.Mirrored := by
  have hsound := (h.perform hperform).table
  cases hperform with
  | cleared hclear =>
      exact mirrored_clearFd h hm hclear
  | unset hclear =>
      exact mirrored_clearFd h hm hclear
  | refused _ =>
      exact hm
  | registered _ _ _ hreg =>
      obtain ⟨htable, hspares⟩ := mirrored_registers h hm.table (fun _ => hm.spares) hreg
      exact ⟨htable, hspares hm.spares⟩
  | handled hslot hd =>
      exact ⟨hm.table.retimed (.set hd _ _) h.table hsound, hm.spares⟩
  | aside haside =>
      have hleaves := haside.leaves
      refine ⟨?_, hleaves.spares hm.spares⟩
      rw [haside.table, haside.backend]
      exact hm.table.passes h.table (hleaves.passes _)

theorem mirrored_settle
    {slot clears : Nat} {pending : Directions} (h : m.loop.table.Sound (some slot))
    (hm : m.Mirrored) (hsettle : m.settle slot clears pending = .ok m') :
    m'.Mirrored := by
  obtain ⟨d, hd, ⟨hclearing, rfl⟩ | ⟨hclearing, b, k, hcall, rfl⟩⟩ := settle_ok hsettle
  · have hnone : m.loop.table.held? d.fd = none := by
      rw [h.held?_of_get? hd]
      exact ((h.fits slot d hd).idle_of_clearing hclearing).1
    have hself := Backend.accepted_self hm.table.holds fun hne => absurd hnone hne
    refine ⟨?_, hm.spares⟩
    show (m.loop.table.remove slot).Mirrored m.loop.backend m.host.kernel
    refine hm.table.accept hself (DescriptorTable.onlyAt_remove _ slot).get? ?_ ?_ ?_
    · funext fd
      rw [DescriptorTable.held?, h.find?_remove (h.remove_current hd) hd, Function.update_apply]
      split
      · exact hnone.symm
      · rfl
    · intro d' hd'
      rw [DescriptorTable.get?_remove_self] at hd'
      cases hd'
    · intro d' hd'
      rw [DescriptorTable.get?_remove_self] at hd'
      cases hd'
  · have hsame : m.loop.table.held? (d.settled clears pending).fd =
        (d.settled clears pending).held :=
      show m.loop.table.held? d.fd = d.held from h.held?_of_get? hd
    have haccepted := accepted_of_align hm.table.holds hsame
      (fun hne => ⟨hm.table.takes slot d hd (.inl hne), hm.spares⟩) hcall
    exact ⟨hm.table.align h (h.settle hd hclearing clears pending)
      (DescriptorTable.onlyAt_settle _ slot d clears pending) hd
      (DescriptorTable.get?_settle_self hd clears pending) rfl rfl haccepted,
      haccepted.spares hm.spares⟩

theorem mirrored_enqueue
    {event : Event} (h : m.loop.table.Sound none) (hm : m.Mirrored)
    (henqueue : m.enqueue event = .ok m') :
    m'.Mirrored := by
  rcases enqueue_ok henqueue with ⟨rfl, -⟩ | ⟨slot, d, b, k, -, hd, hclearing, hne, hcall, rfl⟩
  · exact hm
  · have hsound := h.notify hd hclearing event.ready
    have honly := DescriptorTable.onlyAt_notify m.loop.table slot d event.ready
    have hget := DescriptorTable.get?_notify_self hd event.ready
    by_cases hrearms : d.rearms = true
    · rw [if_pos hrearms] at hcall hget
      have hsame : m.loop.table.held? (d.notified event.ready).fd =
          (d.notified event.ready).held :=
        show m.loop.table.held? d.fd = d.held from h.held?_of_get? hd
      have haccepted := accepted_of_align hm.table.holds hsame
        (fun hheld => ⟨hm.table.takes slot d hd (.inl hheld), hm.spares⟩) hcall
      exact ⟨hm.table.align h hsound honly hd hget rfl rfl haccepted,
        haccepted.spares hm.spares⟩
    · rw [if_neg hrearms] at hcall hget
      cases hcall
      refine ⟨hm.table.replace h hsound honly hd hget rfl rfl id fun hbusy => ?_, hm.spares⟩
      have hheld := hm.table.due slot d hd hbusy
      show d.held = (d.notified event.ready).due
      rw [Descriptor.due_notified hheld (Bool.not_eq_true _ ▸ hrearms) hne]
      exact hheld

theorem mirrored_foldlM
    {events : List Event} (h : m.loop.table.Sound none) (hm : m.Mirrored)
    (hfold : events.foldlM enqueue m = .ok m') :
    m'.loop.table.Sound none ∧ m'.Mirrored := by
  refine Except.foldlM_induction
    (fun m₁ : Machine H => m₁.loop.table.Sound none ∧ m₁.Mirrored) ?_ events ⟨h, hm⟩ hfold
  rintro m₁ event m₂ ⟨hsound, hm₁⟩ henqueue
  refine ⟨?_, mirrored_enqueue hsound hm₁ henqueue⟩
  obtain ⟨k, b, t, rfl, ht⟩ := enqueue_sound hsound henqueue
  exact ht

/-- A wait in which no registered descriptor is closed. -/
theorem mirrored_wait
    {current : Option Nat} {timeout : Option Nat} {result : Except Errno (List Event)}
    {host : Host} (h : m.loop.table.Sound current) (hm : m.Mirrored)
    (hclosed : ∀ fd ∈ m.host.kernel.nextEntry.1.closed, m.loop.table.bindings? fd = none)
    (hwait : m.loop.backend.wait m.host timeout = (result, host)) :
    Mirrored { m with host } := by
  have hpasses := Backend.passes_wait m.loop.backend m.host timeout hclosed
  rw [hwait] at hpasses
  have hkeeps := Backend.keeps_of_passes m.loop.backend hpasses
  exact ⟨hm.table.keeps h hkeeps fun _ hfd => hfd, hpasses.spares hm.spares⟩

theorem mirrored_awaitEvents
    (h : m.loop.table.Sound none) (hm : m.Mirrored)
    (hclosed : ∀ fd ∈ m.host.kernel.nextEntry.1.closed, m.loop.table.bindings? fd = none)
    (hawait : m.awaitEvents = .ok m') :
    m'.Mirrored := by
  unfold awaitEvents at hawait
  split at hawait
  next =>
      cases hawait
  next events host heq =>
      have hsound : ({ m with host } : Machine H).loop.table.Sound none := h
      exact (mirrored_foldlM hsound (mirrored_wait h hm hclosed heq) hawait).2

theorem mirrored_turnMove
    {turn : Turn} {d : Descriptor (Reaction H) H} (h : m.loop.table.Sound (some turn.slot))
    (hm : m.Mirrored) (hd : m.loop.table.get? turn.slot = some d)
    (hmove : TurnMove m turn d m') :
    m'.Mirrored := by
  -- The binding that is used up belongs to the descriptor whose handler runs.
  have hspent : ∀ a, (m.loop.table.set turn.slot (d.spent a)).Mirrored m.loop.backend
      m.host.kernel := by
    intro a
    have hbusy : (d.spent a).busy = true :=
      (d.busy_spent a).trans ((h.fits turn.slot d hd).busy.2 rfl)
    refine hm.table.replace h (follows_spent h hd a).sound
      (DescriptorTable.onlyAt_set _ turn.slot _) hd (DescriptorTable.get?_set_self hd _)
      (d.fd_spent a) (d.held_spent a) ?_ fun hb => absurd (hbusy.symm.trans hb) Bool.noConfusion
    intro hne hempty
    refine hne (Directions.ext fun a' => ?_)
    have hnone : d.registered.contains a' = false := by
      rw [hempty, Directions.contains_empty]
    rw [Descriptor.contains_registered] at hnone ⊢
    rw [Descriptor.binding?_spent, Bindings.spend, Directions.contains_empty]
    split
    · rw [Function.update_apply]
      split
      · rfl
      · exact hnone
    · exact hnone
  cases hmove with
  | ended _ hsettle =>
      have hsettled := mirrored_settle h hm hsettle
      exact ⟨hsettled.table, hsettled.spares⟩
  | unbound _ _ _ =>
      exact ⟨hm.table, hm.spares⟩
  | called _ _ _ _ _ =>
      exact ⟨hspent _, hm.spares⟩
  | @delivered a _ signos kernel _ _ _ _ _ hdrain =>
      have hleaves := Kernel.leaves_drain m.host.kernel turn.fd
      rw [hdrain] at hleaves
      exact ⟨(hspent a).passes (follows_spent h hd a).sound (hleaves.passes _),
        hleaves.spares hm.spares⟩

theorem mirrored_advance
    (h : m.Sound) (hm : m.Mirrored) {phase : Phase H} (hc : m.control = .dispatching phase)
    (hclosed : phase = .wait → ∀ fd ∈ m.host.kernel.nextEntry.1.closed,
      m.loop.table.bindings? fd = none)
    (hadvance : Advance m phase m') :
    m'.Mirrored := by
  have hsound := (h.advance hc hadvance).table
  have htable := h.table_of_dispatching hc
  cases hadvance with
  | quiet hquiet =>
      constructor
      · rw [hquiet.table, hquiet.backend, hquiet.host]
        exact hm.table
      · rw [hquiet.host]
        exact hm.spares
  | @begins slot active d _ hactive hd =>
      have honly := DescriptorTable.onlyAt_takeActive hactive
      have hget : DescriptorTable.get? { m.loop.table with active } slot = some d := hd
      exact ⟨hm.table.replace htable hsound (honly.trans (DescriptorTable.onlyAt_set _ slot _)) hd
        (DescriptorTable.get?_set_self hget _) rfl rfl id (fun hb => nomatch hb), hm.spares⟩
  | turn hd hmove =>
      exact mirrored_turnMove htable hm hd hmove
  | @postponed now deferred =>
      obtain ⟨t, q, hfold, ht, hretimed⟩ := follows_postpone now deferred htable
      rw [hfold]
      exact ⟨hm.table.retimed hretimed htable ht.sound, hm.spares⟩
  | @expires now deferred fd q slot d _ _ _ _ hd hexpiry =>
      cases hexpiry with
      | deferred _ =>
          exact ⟨hm.table.retimed (.set hd _ _) htable hsound, hm.spares⟩
      | dropped _ _ =>
          exact ⟨hm.table.retimed (.set hd _ _) htable hsound, hm.spares⟩
      | fired _ _ =>
          exact ⟨hm.table.replace htable hsound (DescriptorTable.onlyAt_set _ slot _) hd
            (DescriptorTable.get?_set_self hd _) rfl rfl id (fun hb => nomatch hb), hm.spares⟩
  | settles hsettle =>
      have hsettled := mirrored_settle htable hm hsettle
      exact ⟨hsettled.table, hsettled.spares⟩
  | waits hawait =>
      have hwaited := mirrored_awaitEvents htable hm (hclosed rfl) hawait
      exact ⟨hwaited.table, hwaited.spares⟩

end Machine
end CallbackLoop
