import CallbackLoop.Proofs.Loop.Invariant

/-!
# The dispatcher keeps the invariant

Of the dispatcher's moves only those that start or end the turn of a
descriptor, let a timeout expire, or queue an event change the table.  Together
with the requests of `Invariant` this makes every reachable machine sound.
-/

namespace CallbackLoop

variable {H : Type}

namespace DescriptorTable

variable {R : Type} {t : DescriptorTable R H} {slot : Nat} {d : Descriptor R H}

/-- Settling the current descriptor leaves none current. -/
theorem Sound.settle
    (h : t.Sound (some slot)) (hd : t.get? slot = some d) (hclearing : d.isClearing = false)
    (clears : Nat) (pending : Directions) :
    (t.settle slot d clears pending).Sound none := by
  have hfit := h.fits slot d hd
  have hready : d.ready = ∅ := hfit.ready_of_current rfl
  have hwaiting : slot ∈ t.waiting := hfit.waiting_iff.2 hclearing
  have htidy : (t.settle slot d clears pending).Tidy := by
    unfold DescriptorTable.settle
    split
    · exact (h.toTidy.activate slot).set slot _
    · exact h.toTidy.set slot _
  have hwaiting' : slot ∈ (t.settle slot d clears pending).waiting := by
    unfold DescriptorTable.settle
    split <;> exact hwaiting
  refine h.replace hd (get?_settle_self hd clears pending) rfl htidy
    (onlyAt_settle t slot d clears pending) ?_ ?_
  · intro j hj
    constructor
    · intro hj'
      cases hj'
    · intro hj'
      exact absurd (Option.some.inj hj').symm hj
  · refine Descriptor.fits_of_not_clearing hclearing hfit.not_freed hwaiting'
      ⟨fun hb => (nomatch hb), fun hc => (nomatch hc)⟩ ?_ (fun _ hc => nomatch hc)
    intro hne
    have hne' : (d.settled clears pending).ready ≠ ∅ := hne
    have hrequeues : d.requeues clears pending = true := by
      unfold Descriptor.requeues
      have hsome : (!(d.settled clears pending).ready.isEmpty) = true := by
        rw [Bool.not_eq_true', ← Bool.not_eq_true, Directions.isEmpty_iff]
        exact hne'
      by_cases hcond : (d.clears = clears && !pending.isEmpty) = true
      · rw [hcond, hsome]
        rfl
      · refine absurd ?_ hne'
        unfold Descriptor.settled
        rw [if_neg hcond]
        exact hready
    unfold DescriptorTable.settle
    rw [if_pos hrequeues]
    exact mem_enlist.2 (.inr rfl)

/-- The oldest active descriptor becomes current when its turn begins. -/
theorem Sound.begin_turn
    {active : List Nat} (h : t.Sound none) (hactive : t.active = slot :: active)
    (hd : t.get? slot = some d) {d' : Descriptor R H} (hfd : d'.fd = d.fd)
    (hstage : d'.stage = d.stage) (hbusy : d'.busy = true) (hready : d'.ready = ∅) :
    (DescriptorTable.set { t with active } slot d').Sound (some slot) := by
  have hfit := h.fits slot d hd
  have hin : slot ∈ t.active := by rw [hactive]; exact List.mem_cons_self
  have hwaiting := hfit.waiting_of_active hin
  have hclearing : d'.isClearing = false := by
    unfold Descriptor.isClearing
    rw [hstage]
    exact hfit.waiting_iff.1 hwaiting
  have hnodup : (slot :: active).Nodup := hactive ▸ h.active
  have hout : slot ∉ active := (List.nodup_cons.1 hnodup).1
  have honly := onlyAt_takeActive hactive
  have htidy : Tidy { t with active } :=
    ⟨h.arena, h.waiting, (List.nodup_cons.1 hnodup).2⟩
  have hget : DescriptorTable.get? { t with active } slot = some d := hd
  refine h.replace hd (get?_set_self hget d') hfd
    (htidy.set slot d')
    (honly.trans (onlyAt_set _ slot d')) ?_ ?_
  · intro j hj
    constructor
    · intro hj'
      exact absurd (Option.some.inj hj').symm hj
    · intro hj'
      cases hj'
  · exact Descriptor.fits_of_not_clearing hclearing (hstage ▸ hfit.not_freed) hwaiting
      ⟨fun _ => rfl, fun _ => hbusy⟩ (fun hne => absurd hready hne) (fun ha => absurd ha hout)

/-- A descriptor that is not active becomes current when its timeout fires. -/
theorem Sound.begin_timeout
    (h : t.Sound none) (hactive : t.active = []) (hd : t.get? slot = some d) :
    (t.set slot { d with timeout := none, busy := true }).Sound (some slot) := by
  have hfit := h.fits slot d hd
  have hout : slot ∉ t.active := by
    rw [hactive]
    exact List.not_mem_nil
  have hclearing := hfit.not_clearing fun hc => nomatch hc
  refine h.replace hd (get?_set_self hd _) rfl (h.toTidy.set slot _) (onlyAt_set t slot _) ?_ ?_
  · intro j hj
    constructor
    · intro hj'
      exact absurd (Option.some.inj hj').symm hj
    · intro hj'
      cases hj'
  · exact Descriptor.fits_of_not_clearing hclearing hfit.not_freed (hfit.waiting_iff.2 hclearing)
      ⟨fun _ => rfl, fun _ => rfl⟩ hfit.active_of_ready (fun ha => absurd ha hout)

/-- Queuing an event puts its descriptor on the active list. -/
theorem Sound.notify
    (h : t.Sound none) (hd : t.get? slot = some d) (hclearing : d.isClearing = false)
    (ready : Directions) :
    (t.notify slot d ready).Sound none := by
  have hfit := h.fits slot d hd
  have hwaiting : slot ∈ t.waiting := hfit.waiting_iff.2 hclearing
  refine h.replace hd (get?_notify_self hd ready) rfl ((h.toTidy.activate slot).set slot _)
    (onlyAt_notify t slot d ready) (fun _ _ => Iff.rfl) ?_
  exact Descriptor.fits_of_not_clearing hclearing hfit.not_freed hwaiting hfit.busy
    (fun _ => mem_enlist.2 (.inr rfl)) (fun _ hc => nomatch hc)

end DescriptorTable

namespace Machine

variable {m m' : Machine H}

theorem settle_sound
    {slot clears : Nat} {pending : Directions} (h : m.loop.table.Sound (some slot))
    (hsettle : m.settle slot clears pending = .ok m') :
    ∃ k b t, m' = m.patch k b t m.loop.timeouts ∧ t.Sound none ∧
      (pending = ∅ → ∀ i ∈ t.active, i ∈ m.loop.table.active) := by
  obtain ⟨d, hd, ⟨-, rfl⟩ | ⟨hclearing, b, k, -, rfl⟩⟩ := settle_ok hsettle
  · refine ⟨m.host.kernel, m.loop.backend, _, rfl, h.remove_current hd, ?_⟩
    intro _ i hi
    exact List.mem_of_mem_erase hi
  · refine ⟨k, b, _, rfl, h.settle hd hclearing clears pending, ?_⟩
    rintro rfl i hi
    unfold DescriptorTable.settle at hi
    rw [d.requeues_empty clears] at hi
    exact hi

theorem follows_postpone
    {current : Option Nat} (now : Nat) (fds : List Int) {m : Machine H}
    (h : m.loop.table.Sound current) :
    ∃ t q, fds.foldl (postpone now) m = m.patch m.host.kernel m.loop.backend t q ∧
      DescriptorTable.Follows current m.loop.table t ∧ m.loop.table.Retimed t := by
  induction fds generalizing m with
  | nil =>
      exact ⟨_, _, rfl, .refl h, .refl _⟩
  | cons fd fds ih =>
      rw [List.foldl_cons]
      rcases postpone_cases now m fd with hsame | ⟨slot, d, -, hd, hclearing, -, heq⟩
      · rw [hsame]
        exact ih h
      · rw [heq]
        have hretimed := DescriptorTable.Retimed.set hd
          (some (m.loop.timeouts.arm none fd now).1) d.onTimeout
        generalize hd' : { d with timeout := some (m.loop.timeouts.arm none fd now).1 } = d' at *
        have hset : DescriptorTable.Follows current m.loop.table
            (m.loop.table.set slot d') := by
          subst hd'
          refine h.follows_set hd rfl fun hfit => ?_
          exact Descriptor.fits_of_not_clearing hclearing hfit.not_freed
            (hfit.waiting_iff.2 hclearing) hfit.busy hfit.active_of_ready hfit.not_current
        obtain ⟨t, q, hfold, ht, hr⟩ := ih (show (m.patch m.host.kernel m.loop.backend
          (m.loop.table.set slot d') (m.loop.timeouts.arm none fd now).2).loop.table.Sound
            current from hset.sound)
        exact ⟨t, q, hfold, hset.trans ht, hretimed.trans hr⟩

theorem enqueue_sound
    {event : Event} (h : m.loop.table.Sound none) (henqueue : m.enqueue event = .ok m') :
    ∃ k b t, m' = m.patch k b t m.loop.timeouts ∧ t.Sound none := by
  rcases enqueue_ok henqueue with ⟨rfl, -⟩ | ⟨slot, d, b, k, -, hd, hclearing, -, -, rfl⟩
  · exact ⟨_, _, _, rfl, h⟩
  · exact ⟨k, b, _, rfl, h.notify hd hclearing event.ready⟩

theorem awaitEvents_sound
    (h : m.loop.table.Sound none) (hawait : m.awaitEvents = .ok m') :
    ∃ host b t, m' = { m with host, loop := { m.loop with backend := b, table := t } } ∧
      t.Sound none := by
  unfold awaitEvents at hawait
  split at hawait
  next =>
      cases hawait
  next events host _ =>
      refine Except.foldlM_induction
        (fun m₁ : Machine H => ∃ host b t,
          m₁ = { m with host, loop := { m.loop with backend := b, table := t } } ∧
            t.Sound none) ?_ events ⟨host, m.loop.backend, m.loop.table, rfl, h⟩ hawait
      rintro m₁ event m₂ ⟨host, b, t, rfl, ht⟩ henqueue
      obtain ⟨k, b', t', rfl, ht'⟩ := enqueue_sound ht henqueue
      exact ⟨{ host with kernel := k }, b', t', rfl, ht'⟩

/-- A move in which the dispatcher changes neither the descriptors nor what the
host holds. -/
structure Quiet (m : Machine H) (phase : Phase H) (m' : Machine H) : Prop where
  host : m'.host = m.host
  backend : m'.loop.backend = m.loop.backend
  table : m'.loop.table = m.loop.table
  slot : m'.control.slot? = phase.slot?
  turn : m'.control.turn? = phase.turn?
  not_turn : ∀ turn, phase ≠ .turn turn
  not_wait : phase ≠ .wait
  dispatching : m.loop.dispatching = true →
    (m'.loop.dispatching = true ↔ m'.control.phase?.isSome = true)
  drained : phase.Drained m.loop.broken m.loop.table.active →
    ∀ next, m'.control.phase? = some next →
      next.Drained m'.loop.broken m'.loop.table.active

/-- What the dispatcher does in each phase. -/
inductive Advance (m : Machine H) : Phase H → Machine H → Prop
  | quiet {phase : Phase H} {m' : Machine H} :
      Quiet m phase m' →
      Advance m phase m'
  | begins {slot : Nat} {active : List Nat} {d : Descriptor (Reaction H) H} :
      m.loop.broken = false →
      m.loop.table.active = slot :: active →
      m.loop.table.get? slot = some d →
      Advance m .ready
        ((m.patch m.host.kernel m.loop.backend
          (DescriptorTable.set { m.loop.table with active } slot
            { d with
              ready := ∅
              busy := true
              lastTurn := m.loop.iteration
              timeout := none })
          (m.loop.timeouts.without d.timeout)).goTo (.turn ⟨slot, d.fd, d.clears, d.ready⟩))
  | turn {turn : Turn} {d : Descriptor (Reaction H) H} {m' : Machine H} :
      m.loop.table.get? turn.slot = some d →
      TurnMove m turn d m' →
      Advance m (.turn turn) m'
  | postponed {now : Nat} {deferred : List Int} :
      Advance m (.timeouts now deferred)
        ((deferred.foldl (postpone now) m).goTo (.timers .late m.host.kernel.clock))
  | expires {now : Nat} {deferred : List Int} {fd : Int} {q : DeadlineQueue} {slot : Nat}
      {d : Descriptor (Reaction H) H} {m' : Machine H} :
      m.loop.broken = false →
      m.loop.timeouts.takeDue? now = some (fd, q) →
      m.loop.table.slotOf? fd = some slot →
      m.loop.table.get? slot = some d →
      Expiry { m with loop := { m.loop with timeouts := q } } fd now deferred slot d m' →
      Advance m (.timeouts now deferred) m'
  | settles {slot clears now : Nat} {deferred : List Int} {m₁ : Machine H} :
      m.settle slot clears ∅ = .ok m₁ →
      Advance m (.timedOut slot clears now deferred) (m₁.goTo (.timeouts now deferred))
  | waits {m₁ : Machine H} :
      m.awaitEvents = .ok m₁ →
      Advance m .wait (m₁.goTo .start)

section Quiet

variable {phase : Phase H}

theorem quiet_finish
    (hslot : phase.slot? = none) (hturn : phase.turn? = none)
    (hnot : ∀ turn, phase ≠ .turn turn) (hwait : phase ≠ .wait) :
    Quiet m phase m.finish where
  host := rfl
  backend := rfl
  table := rfl
  slot := hslot.symm
  turn := hturn.symm
  not_turn := hnot
  not_wait := hwait
  dispatching _ := ⟨fun h => (nomatch h), fun h => (nomatch h)⟩
  drained _ _ hnext := nomatch hnext

/-- A move that only changes phase, or stops at an invocation. -/
theorem quiet_of_phase?
    {next : Phase H} (hhost : m'.host = m.host) (hbackend : m'.loop.backend = m.loop.backend)
    (htable : m'.loop.table = m.loop.table) (hbroken : m'.loop.broken = m.loop.broken)
    (hdispatching : m'.loop.dispatching = m.loop.dispatching)
    (hnext : m'.control.phase? = some next)
    (hslot : next.slot? = phase.slot?) (hturn : next.turn? = phase.turn?)
    (hnot : ∀ turn, phase ≠ .turn turn) (hwait : phase ≠ .wait)
    (hdrained : phase.Drained m.loop.broken m.loop.table.active →
      next.Drained m.loop.broken m.loop.table.active) :
    Quiet m phase m' where
  host := hhost
  backend := hbackend
  table := htable
  slot := by
    unfold Control.slot?
    rw [hnext]
    exact hslot
  turn := by
    unfold Control.turn?
    rw [hnext]
    exact hturn
  not_turn := hnot
  not_wait := hwait
  dispatching h := by
    rw [hdispatching, hnext, h]
    exact ⟨fun _ => rfl, fun _ => rfl⟩
  drained h next' hnext' := by
    rw [hnext] at hnext'
    cases hnext'
    rw [hbroken, htable]
    exact hdrained h

end Quiet

theorem advance_timers
    {pass : TimerPass} {now : Nat} (next : Phase H)
    (hslot : next.slot? = none) (hturn : next.turn? = none)
    (hdrained : (Phase.timers (H := H) pass now).Drained m.loop.broken m.loop.table.active →
      next.Drained m.loop.broken m.loop.table.active)
    (hadvance :
      (if m.loop.broken then .ok (m.goTo next)
      else
        match m.loop.timers.takeDue? now with
        | none => .ok (m.goTo next)
        | some (timer, timers) =>
            .ok ({ m with loop := { m.loop with timers } }.invoke (.timer timer.handler)
              (.timers pass now)) : Except Crash (Machine H)) = .ok m') :
    Quiet m (.timers pass now) m' := by
  split at hadvance
  next =>
      cases hadvance
      exact quiet_of_phase? rfl rfl rfl rfl rfl rfl hslot hturn (fun _ h => nomatch h)
        (fun h => nomatch h) hdrained
  next =>
      split at hadvance
      next =>
          cases hadvance
          exact quiet_of_phase? rfl rfl rfl rfl rfl rfl hslot hturn (fun _ h => nomatch h)
            (fun h => nomatch h) hdrained
      next =>
          cases hadvance
          exact quiet_of_phase? rfl rfl rfl rfl rfl rfl rfl rfl (fun _ h => nomatch h)
            (fun h => nomatch h) id

theorem advance_ok
    {phase : Phase H} (h : m.advance phase = .ok m') :
    Advance m phase m' := by
  cases phase with
  | start =>
      simp only [Machine.advance] at h
      split at h
      next =>
          cases h
          exact .quiet (quiet_finish rfl rfl (fun _ h => nomatch h) (fun h => nomatch h))
      next =>
          split at h
          next =>
              cases h
              exact .quiet (quiet_of_phase? rfl rfl rfl rfl rfl rfl rfl rfl
                (fun _ h => nomatch h) (fun h => nomatch h) fun _ => trivial)
          next =>
              cases h
              exact .quiet (quiet_of_phase? rfl rfl rfl rfl rfl rfl rfl rfl
                (fun _ h => nomatch h) (fun h => nomatch h) fun _ => trivial)
  | called =>
      simp only [Machine.advance] at h
      split at h
      next =>
          cases h
          exact .quiet (quiet_finish rfl rfl (fun _ h => nomatch h) (fun h => nomatch h))
      next =>
          cases h
          exact .quiet (quiet_of_phase? rfl rfl rfl rfl rfl rfl rfl rfl
            (fun _ h => nomatch h) (fun h => nomatch h) fun _ => trivial)
  | timers pass now =>
      cases pass with
      | early =>
          exact .quiet (advance_timers .ready rfl rfl (fun _ => trivial) h)
      | late =>
          exact .quiet (advance_timers .settled rfl rfl id h)
  | ready =>
      simp only [Machine.advance] at h
      split at h
      next hbroken =>
          cases h
          exact .quiet (quiet_of_phase? rfl rfl rfl rfl rfl rfl rfl rfl
            (fun _ h => nomatch h) (fun h => nomatch h) fun _ => .inl hbroken)
      next hbroken =>
          unfold DescriptorTable.takeActive? at h
          cases hactive : m.loop.table.active with
          | nil =>
              simp only [hactive] at h
              cases h
              exact .quiet (quiet_of_phase? rfl rfl rfl rfl rfl rfl rfl rfl
                (fun _ h => nomatch h) (fun h => nomatch h) fun _ => .inr hactive)
          | cons slot active =>
              simp only [hactive] at h
              obtain ⟨d, hd, rfl⟩ := beginTurn_ok h
              exact .begins (Bool.not_eq_true _ ▸ hbroken) hactive hd
  | turn turn =>
      obtain ⟨d, hd, hmove⟩ := advanceTurn_ok h
      exact .turn hd hmove
  | deliver signos turn =>
      cases signos with
      | nil =>
          cases h
          exact .quiet (quiet_of_phase? rfl rfl rfl rfl rfl rfl rfl rfl
            (fun _ h => nomatch h) (fun h => nomatch h) fun _ => trivial)
      | cons signo signos =>
          cases h
          exact .quiet (quiet_of_phase? rfl rfl rfl rfl rfl rfl rfl rfl
            (fun _ h => nomatch h) (fun h => nomatch h) fun _ => trivial)
  | signal signo left signos turn =>
      cases left with
      | nil =>
          cases h
          exact .quiet (quiet_of_phase? rfl rfl rfl rfl rfl rfl rfl rfl
            (fun _ h => nomatch h) (fun h => nomatch h) fun _ => trivial)
      | cons r left =>
          simp only [Machine.advance] at h
          split at h
          next =>
              cases h
              exact .quiet (quiet_of_phase? rfl rfl rfl rfl rfl rfl rfl rfl
                (fun _ h => nomatch h) (fun h => nomatch h) fun _ => trivial)
          next =>
              cases h
              exact .quiet (quiet_of_phase? rfl rfl rfl rfl rfl rfl rfl rfl
                (fun _ h => nomatch h) (fun h => nomatch h) fun _ => trivial)
  | timeouts now deferred =>
      simp only [Machine.advance] at h
      split at h
      next =>
          cases h
          exact .postponed
      next hbroken =>
          split at h
          next =>
              cases h
              exact .postponed
          next fd q hdue =>
              obtain ⟨slot, d, hslot, hd, hexpiry⟩ := expire_ok h
              exact .expires (Bool.not_eq_true _ ▸ hbroken) hdue hslot hd hexpiry
  | timedOut slot clears now deferred =>
      obtain ⟨m₁, hsettle, h⟩ := Except.bind_eq_ok_iff.1 h
      cases h
      exact .settles hsettle
  | settled =>
      simp only [Machine.advance] at h
      split at h
      next =>
          cases h
          exact .quiet (quiet_finish rfl rfl (fun _ h => nomatch h) (fun h => nomatch h))
      next hbroken =>
          cases h
          exact .quiet (quiet_of_phase? rfl rfl rfl rfl rfl rfl rfl rfl
            (fun _ h => nomatch h) (fun h => nomatch h) fun h => h.resolve_left hbroken)
  | wait =>
      obtain ⟨m₁, hawait, h⟩ := Except.bind_eq_ok_iff.1 h
      cases h
      exact .waits hawait

theorem act_eq_wait
    (hc : m.control = .dispatching .wait) :
    m.act m' = .wait m.reports := by
  unfold act
  rw [hc]

theorem act_eq_advance
    {phase : Phase H} (hc : m.control = .dispatching phase)
    (hturn : ∀ turn, phase ≠ .turn turn) (hwait : phase ≠ .wait) :
    m.act m' = .advance := by
  unfold act started?
  rw [hc]
  cases phase with
  | turn turn =>
      exact absurd rfl (hturn turn)
  | wait =>
      exact absurd rfl hwait
  | _ =>
      rfl

theorem act_ne_fire
    {fd : Int} {a : Direction} {reaction : Reaction H} (hact : m.act m' = .advance) :
    m.act m' ≠ .fire fd a reaction := by
  rw [hact]
  exact fun hfire => nomatch hfire

/-- Within a turn a reaction starts when a handler is called or signals are
delivered, and in no other case. -/
theorem act_of_turn
    {turn : Turn} {d : Descriptor (Reaction H) H} (hc : m.control = .dispatching (.turn turn))
    (hmove : TurnMove m turn d m') :
    (m.act m' = .advance ∧
      ((∃ m₁, (turn.pending.first? = none ∨ m.loop.broken = true ∨ d.clears ≠ turn.clears) ∧
          m.settle turn.slot turn.clears turn.pending = .ok m₁ ∧ m' = m₁.goTo .ready) ∨
        ∃ a, turn.pending.first? = some a ∧ d.clears = turn.clears ∧ d.binding? a = none ∧
          m' = m.goTo (.turn { turn with pending := turn.pending.erase a }))) ∨
    ∃ a binding, m.act m' = .fire turn.fd a binding.reaction ∧
      turn.pending.first? = some a ∧ m.loop.broken = false ∧ d.clears = turn.clears ∧
      d.binding? a = some binding ∧
      m'.loop.table = m.loop.table.set turn.slot (d.spent a) ∧
      m'.control.turn? = some { turn with pending := turn.pending.erase a } := by
  cases hmove with
  | ended hwhy hsettle =>
      refine .inl ⟨?_, .inl ⟨_, hwhy, hsettle, rfl⟩⟩
      unfold act started?
      rw [hc]
      rfl
  | unbound hfirst hclears hbinding =>
      refine .inl ⟨?_, .inr ⟨_, hfirst, hclears, hbinding, rfl⟩⟩
      unfold act started?
      rw [hc]
      rfl
  | @called a binding handler hfirst hbroken hclears hbinding hreaction =>
      refine .inr ⟨a, binding, ?_, hfirst, hbroken, hclears, hbinding, rfl, rfl⟩
      unfold act started?
      rw [hc, hreaction]
      rfl
  | @delivered a binding signos kernel hfirst hbroken hclears hbinding hreaction hdrain =>
      refine .inr ⟨a, binding, ?_, hfirst, hbroken, hclears, hbinding, rfl, rfl⟩
      unfold act started?
      rw [hc, hreaction]
      simp only [goTo, hfirst]
      rfl

section Goes

variable {phase next : Phase H}

/-- The dispatcher goes on with the same descriptor current. -/
theorem Sound.goes
    (h : m.Sound) (hc : m.control = .dispatching phase)
    (htable : DescriptorTable.Follows phase.slot? m.loop.table m'.loop.table)
    (hnext : m'.control.phase? = some next) (hslot : next.slot? = phase.slot?)
    (hturn : ∀ turn', next.turn? = some turn' →
      ∃ turn, phase.turn? = some turn ∧ turn'.slot = turn.slot ∧ turn'.fd = turn.fd)
    (hdispatching : m'.loop.dispatching = m.loop.dispatching)
    (hdrained : next.Drained m'.loop.broken m'.loop.table.active) :
    m'.Sound := by
  have hslot' : m.control.slot? = phase.slot? := by rw [hc]; rfl
  refine h.of_follows (hslot' ▸ htable) ?_ ?_ ?_ ?_
  · rw [hslot', ← hslot]
    unfold Control.slot?
    rw [hnext]
    rfl
  · intro turn' hturn'
    unfold Control.turn? at hturn' ⊢
    rw [hnext] at hturn'
    rw [hc]
    exact hturn turn' hturn'
  · rw [hdispatching, hnext, h.dispatching, hc]
    exact ⟨fun _ => rfl, fun _ => rfl⟩
  · intro phase' hphase'
    rw [hnext] at hphase'
    cases hphase'
    exact hdrained

/-- The dispatcher goes on with another descriptor current, or with none. -/
theorem Sound.arrives
    (h : m.Sound) (hc : m.control = .dispatching phase)
    (hnext : m'.control.phase? = some next) (htable : m'.loop.table.Sound next.slot?)
    (hturn : ∀ turn d, next.turn? = some turn →
      m'.loop.table.get? turn.slot = some d → d.fd = turn.fd)
    (hdispatching : m'.loop.dispatching = m.loop.dispatching)
    (hdrained : next.Drained m'.loop.broken m'.loop.table.active) :
    m'.Sound := by
  refine ⟨?_, ?_, ?_, ?_⟩
  · unfold Control.slot?
    rw [hnext]
    exact htable
  · intro turn d hturn'
    unfold Control.turn? at hturn'
    rw [hnext] at hturn'
    exact hturn turn d hturn'
  · rw [hdispatching, hnext, h.dispatching, hc]
    exact ⟨fun _ => rfl, fun _ => rfl⟩
  · intro phase' hphase'
    rw [hnext] at hphase'
    cases hphase'
    exact hdrained

end Goes

theorem Sound.quiet
    {phase : Phase H} (h : m.Sound) (hc : m.control = .dispatching phase)
    (hquiet : Quiet m phase m') :
    m'.Sound := by
  have hphase : m.control.phase? = some phase := by rw [hc]; rfl
  refine h.of_follows ?_ ?_ ?_ ?_ ?_
  · rw [hquiet.table]
    exact .refl h.table
  · rw [hquiet.slot, hc]
    rfl
  · intro turn hturn
    refine ⟨turn, ?_, rfl, rfl⟩
    rw [hquiet.turn] at hturn
    rw [hc]
    exact hturn
  · refine hquiet.dispatching (h.dispatching.2 ?_)
    rw [hphase]
    rfl
  · exact hquiet.drained (h.drained phase hphase)

/-- Running a direction uses up its binding if that is oneshot. -/
theorem follows_spent
    {slot : Nat} {d : Descriptor (Reaction H) H} (h : m.loop.table.Sound (some slot))
    (hd : m.loop.table.get? slot = some d) (a : Direction) :
    DescriptorTable.Follows (some slot) m.loop.table (m.loop.table.set slot (d.spent a)) := by
  refine h.follows_set hd (d.fd_spent a) fun hfit => ?_
  by_cases hbinding : d.binding? a = none
  · have hsame : d.spent a = d := by
      rw [Descriptor.spent, hbinding]
      rfl
    rwa [hsame]
  · have hclearing := hfit.not_clearing_of_binding? hbinding
    obtain ⟨recv, send, error, heq⟩ := d.spent_eq a
    rw [heq]
    exact Descriptor.fits_of_not_clearing hclearing hfit.not_freed
      (hfit.waiting_iff.2 hclearing) hfit.busy hfit.active_of_ready hfit.not_current

theorem Sound.turnMove
    (h : m.Sound) {turn : Turn} {d : Descriptor (Reaction H) H}
    (hc : m.control = .dispatching (.turn turn))
    (hd : m.loop.table.get? turn.slot = some d) (hmove : TurnMove m turn d m') :
    m'.Sound := by
  have htable : m.loop.table.Sound (some turn.slot) := h.table_of_dispatching hc
  have hturn : ∀ (pending : Directions) (turn' : Turn),
      some { turn with pending } = some turn' →
      ∃ turn₀, (Phase.turn (H := H) turn).turn? = some turn₀ ∧
        turn'.slot = turn₀.slot ∧ turn'.fd = turn₀.fd := by
    intro pending turn' hturn'
    cases hturn'
    exact ⟨turn, rfl, rfl, rfl⟩
  cases hmove with
  | ended _ hsettle =>
      obtain ⟨k, b, t, rfl, ht, -⟩ := settle_sound htable hsettle
      exact h.arrives hc rfl ht (fun _ _ ht => nomatch ht) rfl trivial
  | unbound hfirst _ _ =>
      exact h.goes hc (.refl htable) rfl rfl (hturn _) rfl trivial
  | called hfirst _ _ _ _ =>
      exact h.goes hc (follows_spent htable hd _) rfl rfl (hturn _) rfl trivial
  | delivered hfirst _ _ _ _ _ =>
      exact h.goes hc (follows_spent htable hd _) rfl rfl (hturn _) rfl trivial

/-- Every move of the dispatcher keeps the machine sound. -/
theorem Sound.advance
    (h : m.Sound) {phase : Phase H} (hc : m.control = .dispatching phase)
    (hadvance : Advance m phase m') :
    m'.Sound := by
  have hdrained : phase.Drained m.loop.broken m.loop.table.active :=
    h.drained phase (by rw [hc]; rfl)
  have htable := h.table_of_dispatching hc
  cases hadvance with
  | quiet hquiet =>
      exact h.quiet hc hquiet
  | @begins slot active d _ hactive hd =>
      have hsound : (DescriptorTable.set { m.loop.table with active } slot
          { d with
            ready := ∅
            busy := true
            lastTurn := m.loop.iteration
            timeout := none }).Sound (some slot) :=
        htable.begin_turn hactive hd rfl rfl rfl rfl
      refine h.arrives hc rfl hsound ?_ rfl trivial
      intro turn e hturn he
      cases hturn
      have hget : DescriptorTable.get? { m.loop.table with active } slot = some d := hd
      cases (DescriptorTable.get?_set_self hget _).symm.trans he
      rfl
  | turn hd hmove =>
      exact h.turnMove hc hd hmove
  | @postponed now deferred =>
      obtain ⟨t, q, hfold, ht, -⟩ := follows_postpone now deferred htable
      rw [hfold]
      exact h.goes hc ht rfl rfl (fun _ ht => nomatch ht) rfl
        (hdrained.imp id ht.active_eq_nil)
  | @expires now deferred fd q slot d _ hbroken _ _ hd hexpiry =>
      have hactive : m.loop.table.active = [] :=
        hdrained.resolve_left (by rw [hbroken]; exact Bool.false_ne_true)
      have hclearing := (htable.fits slot d hd).not_clearing fun hc => nomatch hc
      have hset : DescriptorTable.Follows none m.loop.table
          (m.loop.table.set slot { d with timeout := none }) :=
        htable.follows_set hd rfl fun hfit =>
          Descriptor.fits_of_not_clearing hclearing hfit.not_freed
            (hfit.waiting_iff.2 hclearing) hfit.busy hfit.active_of_ready
            hfit.not_current
      cases hexpiry with
      | deferred _ =>
          exact h.goes hc hset rfl rfl (fun _ ht => nomatch ht) rfl (.inr hactive)
      | dropped _ _ =>
          exact h.goes hc hset rfl rfl (fun _ ht => nomatch ht) rfl (.inr hactive)
      | fired _ _ =>
          exact h.arrives hc rfl (htable.begin_timeout hactive hd)
            (fun _ _ ht => nomatch ht) rfl (.inr hactive)
  | settles hsettle =>
      obtain ⟨k, b, t, rfl, ht, hactive⟩ := settle_sound htable hsettle
      refine h.arrives hc rfl ht (fun _ _ ht => nomatch ht) rfl (hdrained.imp id ?_)
      intro hnil
      refine List.eq_nil_iff_forall_not_mem.2 fun i hi => ?_
      have := hactive rfl i hi
      rw [hnil] at this
      cases this
  | waits hawait =>
      obtain ⟨host, b, t, rfl, ht⟩ := awaitEvents_sound htable hawait
      exact h.arrives hc rfl ht (fun _ _ ht => nomatch ht) rfl trivial

theorem Sound.move
    {act : Act H} (h : m.Sound) (hmove : Move m act m') :
    m'.Sound := by
  cases hmove with
  | request _ hperform =>
      exact h.perform (perform_ok hperform)
  | resume hc =>
      rw [resume_eq hc]
      exact h.of_phase?_eq (.refl h.table) (by rw [hc]; rfl) rfl id
  | step hc hstep =>
      simp only [step, hc] at hstep
      exact h.advance hc (advance_ok hstep)
  | world host =>
      exact h.of_phase?_eq (.refl h.table) rfl rfl id

/-- A loop that was just built has no descriptor but the reading end of its pipe,
if it has one. -/
theorem build_ok
    {o : LoopOptions} {host host' : Host} {loop : Loop H}
    (h : o.build H host = .ok (.ok loop, host')) :
    ∃ backend kernel, Backend.create host.kernel o.backend o.capacity = (.ok backend, kernel) ∧
      ((loop = { backend, hub := o.hub, tick := o.tick } ∧ host' = { host with kernel }) ∨
      ∃ pipe host₁ m,
        SelfPipe.acquire? { host with kernel } o.hub = (.ok pipe, host₁) ∧
        Machine.setFd
          { host := host₁, loop := { backend, hub := o.hub, tick := o.tick, pipe := some pipe } }
          pipe.reader (.recv ∪ .nonblock) .unlimited .deliver = .ok (.ok (), m) ∧
        loop = m.loop ∧ host' = m.host) := by
  unfold LoopOptions.build at h
  split at h
  next =>
      cases h
  next =>
      split at h
      next =>
          cases h
      next backend kernel hcreate =>
          refine ⟨backend, kernel, hcreate, ?_⟩
          dsimp only at h
          split at h
          next =>
              right
              unfold LoopOptions.buildPrimary at h
              split at h
              next =>
                  obtain ⟨host₁, -, h⟩ := Except.bind_eq_ok_iff.1 h
                  cases h
              next pipe host₁ hacquire =>
                  obtain ⟨⟨result, m⟩, hset, h⟩ := Except.bind_eq_ok_iff.1 h
                  cases result with
                  | error refusal =>
                      obtain ⟨host₂, -, h⟩ := Except.bind_eq_ok_iff.1 h
                      cases h
                  | ok u =>
                      cases h
                      exact ⟨pipe, host₁, m, hacquire, hset, rfl, rfl⟩
          next =>
              cases h
              exact .inl ⟨rfl, rfl⟩

theorem sound_empty
    (current : Option Nat) (hcurrent : current = none) :
    ({} : DescriptorTable (Reaction H) H).Sound current := by
  subst hcurrent
  have hnone : ∀ i, ({} : DescriptorTable (Reaction H) H).get? i = none :=
    Arena.get?_ofSize 64
  refine ⟨⟨Arena.sound_ofSize 64, .nil, .nil⟩, ?_, ?_, ?_⟩
  · intro i j d e hi
    rw [hnone] at hi
    cases hi
  · intro i d hi
    rw [hnone] at hi
    cases hi
  · intro i _
    exact ⟨fun h => (nomatch h), List.not_mem_nil, List.not_mem_nil⟩

theorem find?_empty
    (fd : Int) :
    ({} : DescriptorTable (Reaction H) H).find? fd = none := by
  have hnone : ∀ i, ({} : DescriptorTable (Reaction H) H).get? i = none :=
    Arena.get?_ofSize 64
  rw [Option.eq_none_iff_forall_ne_some]
  intro d hd
  obtain ⟨i, hi, -⟩ := (sound_empty none rfl).find?_eq_some_iff.1 hd
  rw [hnone] at hi
  cases hi

/-- Nothing is registered, scheduled or armed, and code outside of dispatch is in
control. -/
structure Blank (m : Machine H) : Prop where
  control : m.control = .idle
  table : m.loop.table = {}
  timers : m.loop.timers = {}
  timeouts : m.loop.timeouts = {}
  dispatching : m.loop.dispatching = false

theorem sound_of_table_empty
    {m : Machine H} (hc : m.control = .idle) (htable : m.loop.table = {})
    (hdispatching : m.loop.dispatching = false) :
    m.Sound := by
  refine ⟨?_, ?_, ?_, ?_⟩
  · rw [htable, hc]
    exact sound_empty _ rfl
  · intro turn d hturn
    rw [hc] at hturn
    cases hturn
  · rw [hdispatching, hc]
    exact ⟨fun h => (nomatch h), fun h => (nomatch h)⟩
  · intro phase hphase
    rw [hc] at hphase
    cases hphase

theorem Blank.sound
    (h : m.Blank) :
    m.Sound :=
  sound_of_table_empty h.control h.table h.dispatching

/-- A loop that was just built is blank, or the notification pipe is all that is
registered. -/
theorem Built.blank_or_registers
    (h : Built m) :
    m.Blank ∨ ∃ m₀ fd d d' kernel, Blank m₀ ∧
      m₀.Registers fd (.recv ∪ .nonblock) .unlimited .deliver m d d' kernel := by
  cases h with
  | mk hbuild =>
      obtain ⟨backend, kernel, -, ⟨rfl, rfl⟩ | ⟨pipe, host₁, m, -, hset, rfl, rfl⟩⟩ :=
        build_ok hbuild
      · exact .inl ⟨rfl, rfl, rfl, rfl, rfl⟩
      · rcases setFd_ok hset with ⟨hflags, -⟩ | ⟨-, -, limit, -, hresult⟩ |
          ⟨-, -, -, -, d, d', kernel, hreg⟩
        · exact absurd hflags (by decide)
        · cases hresult
        · have hsame := hreg
          obtain ⟨b, k, q, -, -, rfl⟩ := hreg.result
          exact .inr ⟨_, pipe.reader, d, d', kernel, ⟨rfl, rfl, rfl, rfl, rfl⟩, hsame⟩

theorem Built.sound
    (h : Built m) :
    m.Sound := by
  rcases h.blank_or_registers with hblank | ⟨m₀, fd, d, d', kernel, hblank, hreg⟩
  · exact hblank.sound
  · exact hblank.sound.registers hreg

/-- Every machine that a run from a built one reaches is sound. -/
theorem Run.sound
    {log : List (Act H)} (hrun : Run m log m') (h : m.Sound) :
    m'.Sound :=
  hrun.induction Sound.move h

end Machine
end CallbackLoop
