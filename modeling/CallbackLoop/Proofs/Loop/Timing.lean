import CallbackLoop.Proofs.Loop.Registrations

/-!
# Timeouts of a machine

As far as timeouts are concerned a machine is the queue of deadlines, for each
descriptor its entry in the queue and its handler, and the descriptors whose
expired timeouts are deferred to the next iteration.  `Timing.Change` says what a
move does to these four.
-/

namespace CallbackLoop

variable {H R : Type}

/-- Whether a move clears a descriptor. -/
def Act.clears (act : Act H) (fd : Int) : Bool :=
  match act with
  | .request (.clearFd other) _ => other = fd
  | .request (.setFd other flags _ _) .done => other = fd && flags = .clear
  | _ => false

/-- A move that is no request about the timeout of a descriptor. -/
def Act.Untimed (act : Act H) : Prop :=
  match act with
  | .request (.setFd _ _ _ _) .done => False
  | .request (.clearFd _) _ => False
  | .request (.setTimeoutHandler _ _) .done => False
  | _ => True

theorem Act.Untimed.clears
    {act : Act H} (h : act.Untimed) (fd : Int) :
    act.clears fd = false := by
  unfold Act.clears
  split
  · exact h.elim
  · exact h.elim
  · rfl

/-- Whether a request is about a timer. -/
def Request.isTimer : Request H → Bool
  | setTimer _ _ => true
  | cancelTimer _ => true
  | _ => false

/-- Whether a request makes dispatch return. -/
def Request.isBreak : Request H → Bool
  | setBreak => true
  | _ => false

/-- The expired timeouts that a phase defers. -/
def Phase.deferred : Phase H → List Int
  | timeouts _ fds => fds
  | timedOut _ _ _ fds => fds
  | _ => []

/-- Whether a phase has nothing to do with descriptors and their timeouts. -/
def Phase.passesTimeouts : Phase H → Bool
  | ready => false
  | turn _ => false
  | timeouts _ _ => false
  | timedOut _ _ _ _ => false
  | wait => false
  | _ => true

/-- The expired timeouts that the dispatcher defers. -/
def Control.deferred (c : Control H) : List Int :=
  (c.phase?.map Phase.deferred).getD []

/-- The timeouts of a machine. -/
structure Timing (H : Type) where
  /-- The entry of each descriptor in the queue. -/
  entry : Int → Option Handle
  /-- What runs when the timeout of a descriptor expires. -/
  handler : Int → Option H
  queue : DeadlineQueue
  /-- The descriptors whose expired timeouts are deferred. -/
  deferred : List Int

namespace Timing

/-- Removes the timeout of a descriptor. -/
def disarm (τ : Timing H) (fd : Int) : Timing H :=
  { τ with
    entry := Function.update τ.entry fd none
    queue := τ.queue.without (τ.entry fd) }

/-- Removes the timeout of a descriptor and its handler. -/
def clear (τ : Timing H) (fd : Int) : Timing H :=
  { τ.disarm fd with handler := Function.update τ.handler fd none }

/-- Arms the timeout of a descriptor, for the first time or anew. -/
def arm (τ : Timing H) (fd : Int) (instant : Nat) : Timing H :=
  { τ with
    entry := Function.update τ.entry fd (some (τ.queue.arm (τ.entry fd) fd instant).1)
    queue := (τ.queue.arm (τ.entry fd) fd instant).2 }

/-- Installs a handler for an expired timeout. -/
def handle (τ : Timing H) (fd : Int) (handler : H) : Timing H :=
  { τ with handler := Function.update τ.handler fd (some handler) }

/-- Takes an expired timeout from its descriptor, with the queue that is left. -/
def expire (τ : Timing H) (fd : Int) (queue : DeadlineQueue) : Timing H :=
  { τ with entry := Function.update τ.entry fd none, queue }

/-- Clearing changes nothing where there is nothing to clear. -/
theorem clear_eq_self
    (τ : Timing H) {fd : Int} (hentry : τ.entry fd = none) (hhandler : τ.handler fd = none) :
    τ.clear fd = τ := by
  have hentry' := Function.update_eq_self fd τ.entry
  have hhandler' := Function.update_eq_self fd τ.handler
  rw [hentry] at hentry'
  rw [hhandler] at hhandler'
  simp only [clear, disarm, hentry, hentry', hhandler']
  rfl

/-- Arms deferred timeouts again.  One is passed over unless its descriptor is
registered and has no timeout. -/
inductive Postponed (registered : Int → Prop) (now : Nat) :
    List Int → Timing H → Timing H → Prop
  | nil {τ : Timing H} :
      Postponed registered now [] τ τ
  | passed {fd : Int} {fds : List Int} {τ τ' : Timing H} :
      Postponed registered now fds τ τ' →
      Postponed registered now (fd :: fds) τ τ'
  | armed {fd : Int} {fds : List Int} {τ τ' : Timing H} :
      registered fd →
      τ.entry fd = none →
      Postponed registered now fds (τ.arm fd now) τ' →
      Postponed registered now (fd :: fds) τ τ'

/-- What a move that goes by the instant `now` does to the timeouts. -/
inductive Change (registered : Int → Prop) (now : Nat) (τ : Timing H) :
    Act H → Timing H → Prop
  | still {act : Act H} :
      act.Untimed →
      Change registered now τ act τ
  | cleared {act : Act H} {fd : Int} :
      act.clears fd = true →
      Change registered now τ act (τ.clear fd)
  | removed {fd : Int} {flags : Flags} {handler : H} :
      flags ≠ .clear →
      Change registered now τ (.request (.setFd fd flags .unlimited handler) .done) (τ.disarm fd)
  | kept {fd : Int} {flags : Flags} {handler : H} :
      flags ≠ .clear →
      Change registered now τ (.request (.setFd fd flags .unmodified handler) .done) τ
  | armed {fd : Int} {flags : Flags} {delay : Nat} {handler : H} :
      flags ≠ .clear →
      Change registered now τ (.request (.setFd fd flags (.after delay) handler) .done)
        (τ.arm fd (now + delay))
  | handled {fd : Int} {handler : H} :
      Change registered now τ (.request (.setTimeoutHandler fd handler) .done) (τ.handle fd handler)
  /-- The turn of a descriptor ends its wait for activity. -/
  | began {act : Act H} {fd : Int} :
      act.Untimed →
      Change registered now τ act (τ.disarm fd)
  | expired {act : Act H} {fd : Int} {queue : DeadlineQueue} {deferred : List Int} :
      act.Untimed →
      τ.queue.takeDue? now = some (fd, queue) →
      deferred = τ.deferred ∨ deferred = τ.deferred ++ [fd] →
      Change registered now τ act { τ.expire fd queue with deferred }
  | postponed {act : Act H} {τ' : Timing H} :
      act.Untimed →
      Postponed registered now τ.deferred τ τ' →
      Change registered now τ act { τ' with deferred := [] }
  /-- A descriptor that was cleared by its own handler leaves storage. -/
  | dropped {act : Act H} {fd : Int} :
      act.Untimed →
      ¬registered fd →
      τ.entry fd = none →
      Change registered now τ act (τ.clear fd)

end Timing

namespace Descriptor

variable (d : Descriptor R H)

@[simp] theorem timeout_revived :
    d.revived.timeout = d.timeout := by
  unfold revived
  split <;> rfl

@[simp] theorem onTimeout_revived :
    d.revived.onTimeout = d.onTimeout := by
  unfold revived
  split <;> rfl

@[simp] theorem timeout_bound (flags : Flags) (reaction : R) :
    (d.bound flags reaction).timeout = d.timeout := by
  unfold bound
  split
  · rfl
  · split <;> rfl

@[simp] theorem onTimeout_bound (flags : Flags) (reaction : R) :
    (d.bound flags reaction).onTimeout = d.onTimeout := by
  unfold bound
  split
  · rfl
  · split <;> rfl

end Descriptor

namespace DescriptorTable

variable {t t' : DescriptorTable R H} {current current' : Option Nat} {slot : Nat}
  {d d' : Descriptor R H} {α : Type}

/-- An optional part of each stored descriptor. -/
def part? (t : DescriptorTable R H) (part : Descriptor R H → Option α) (fd : Int) : Option α :=
  (t.find? fd).bind part

theorem part?_of_find?
    {fd : Int} (h : t.find? fd = some d) (part : Descriptor R H → Option α) :
    t.part? part fd = part d := by
  rw [part?, h, Option.bind_some]

theorem part?_of_slotOf?_eq_none
    {fd : Int} (h : t.slotOf? fd = none) (part : Descriptor R H → Option α) :
    t.part? part fd = none := by
  rw [part?, find?, h]
  rfl

theorem Sound.part?_of_get?
    (h : t.Sound current) (hd : t.get? slot = some d) (part : Descriptor R H → Option α) :
    t.part? part d.fd = part d :=
  part?_of_find? (h.find?_eq_some_iff.2 ⟨slot, hd, rfl⟩) part

theorem Sound.part?_replace
    (h : t.Sound current) (h' : t'.Sound current') (honly : OnlyAt slot t t')
    (hd : t.get? slot = some d) (hd' : t'.get? slot = some d') (hfd : d'.fd = d.fd)
    (part : Descriptor R H → Option α) :
    t'.part? part = Function.update (t.part? part) d.fd (part d') := by
  funext fd
  rw [part?, h.find?_replace h' honly hd hd' hfd, Function.update_apply]
  split <;> rfl

/-- A descriptor with the same part makes no difference. -/
theorem Sound.part?_of_eq
    (h : t.Sound current) (h' : t'.Sound current') (honly : OnlyAt slot t t')
    (hd : t.get? slot = some d) (hd' : t'.get? slot = some d') (hfd : d'.fd = d.fd)
    {part : Descriptor R H → Option α} (hsame : part d' = part d) :
    t'.part? part = t.part? part := by
  rw [h.part?_replace h' honly hd hd' hfd, hsame, ← h.part?_of_get? hd part,
    Function.update_eq_self]

theorem Sound.part?_remove
    (h : t.Sound current) (h' : (t.remove slot).Sound current') (hd : t.get? slot = some d)
    (part : Descriptor R H → Option α) :
    (t.remove slot).part? part = Function.update (t.part? part) d.fd none := by
  funext fd
  rw [part?, h.find?_remove h' hd, Function.update_apply]
  split <;> rfl

theorem Sound.part?_clear
    (h : t.Sound current) (hd : t.get? slot = some d) {part : Descriptor R H → Option α}
    (hnone : part { d.cleared with stage := .clearing, ready := ∅ } = none) :
    (t.clear slot d).part? part = Function.update (t.part? part) d.fd none := by
  funext fd
  rw [part?, h.find?_clear hd, Function.update_apply]
  split
  · split
    · exact hnone
    · rfl
  · rfl

theorem Sound.part?_register
    (h : t.Sound current) {fd : Int} (h' : (t.register fd d').Sound current') (hfd : d'.fd = fd)
    (part : Descriptor R H → Option α) :
    (t.register fd d').part? part = Function.update (t.part? part) fd (part d') := by
  funext other
  rw [part?, h.find?_register h' hfd, Function.update_apply]
  split <;> rfl

/-- A new descriptor has the parts that nothing stored has. -/
theorem Sound.part?_ensure
    (h : t.Sound current) {fd : Int}
    (hd : (t.ensure fd).2.get? (t.ensure fd).1 = some d) {part : Descriptor R H → Option α}
    (hnone : part { fd } = none) :
    t.part? part fd = part d := by
  obtain ⟨e, he, hfd, -, -, -, hold⟩ := h.ensure_spec fd
  cases hd.symm.trans he
  rcases hold with hold | ⟨hfind, -, rfl⟩
  · rw [← hfd]
    exact h.part?_of_get? hold part
  · rw [part?, hfind, hnone]
    rfl

end DescriptorTable

namespace Kernel

theorem clock_obstacle
    (k : Kernel) (name : CallName) (fd : Int) :
    (k.obstacle name fd).2.clock = k.clock := by
  unfold obstacle
  split <;> rfl

theorem clock_setStatusFlags
    (k : Kernel) (fd : Int) (flags : Nat) :
    (k.setStatusFlags fd flags).2.clock = k.clock := by
  have hobstacle := k.clock_obstacle .setStatusFlags fd
  unfold setStatusFlags
  split
  next heq =>
      rw [heq] at hobstacle
      exact hobstacle
  next heq =>
      rw [heq] at hobstacle
      exact hobstacle

theorem clock_setNonblocking
    (k : Kernel) (fd : Int) (nonblocking : Bool) :
    (k.setNonblocking fd nonblocking).2.clock = k.clock := by
  have hget : (k.getStatusFlags fd).2.clock = k.clock := by
    have hobstacle := k.clock_obstacle .getStatusFlags fd
    unfold getStatusFlags
    split
    next heq =>
        rw [heq] at hobstacle
        exact hobstacle
    next heq =>
        rw [heq] at hobstacle
        exact hobstacle
  unfold setNonblocking
  split
  next heq =>
      rw [heq] at hget
      exact hget
  next flags heq =>
      rw [heq] at hget
      dsimp only
      split
      · exact hget
      · exact (clock_setStatusFlags _ fd _).trans hget

/-- Switching the mode of a descriptor takes no time. -/
theorem clock_applyMode
    {k k' : Kernel} {fd : Int} {flags : Flags} (h : k.applyMode fd flags = (.ok (), k')) :
    k'.clock = k.clock := by
  unfold applyMode at h
  split at h
  · rw [← k.clock_setNonblocking fd (flags.contains .nonblock), h]
  · cases h
    rfl

end Kernel

namespace Machine

variable {m m' : Machine H} {fd : Int} {act : Act H}

/-- The timeouts of a machine. -/
def timing (m : Machine H) : Timing H where
  entry := m.loop.table.part? (·.timeout)
  handler := m.loop.table.part? (·.onTimeout)
  queue := m.loop.timeouts
  deferred := m.control.deferred

/-- The instant that a move goes by: that of the pass over expired timeouts, or what the
clock shows. -/
def now (m : Machine H) : Nat :=
  match m.control with
  | .dispatching (.timeouts now _) => now
  | _ => m.clock

/-- The descriptors that are stored and not cleared. -/
def Registered (m : Machine H) (fd : Int) : Prop :=
  (m.loop.table.bindings? fd).isSome = true

theorem timing_ext
    {τ : Timing H} (hentry : m.loop.table.part? (·.timeout) = τ.entry)
    (hhandler : m.loop.table.part? (·.onTimeout) = τ.handler)
    (hqueue : m.loop.timeouts = τ.queue) (hdeferred : m.control.deferred = τ.deferred) :
    m.timing = τ := by
  obtain ⟨entry, handler, queue, deferred⟩ := τ
  simp only [timing, hentry, hhandler, hqueue, hdeferred]

/-- Timeouts are a matter of the descriptors, the queue and the phase. -/
theorem timing_eq
    (htable : m'.loop.table = m.loop.table) (hqueue : m'.loop.timeouts = m.loop.timeouts)
    (hdeferred : m'.control.deferred = m.control.deferred) :
    m'.timing = m.timing := by
  simp only [timing, htable, hqueue, hdeferred]

theorem timing_clearFd
    (h : m.Sound) (hclear : m.clearFd fd = .ok m') :
    m'.timing = m.timing.clear fd := by
  rcases clearFd_ok hclear with ⟨hslot, heq⟩ | ⟨slot, d, b, k, hslot, hd, -, rfl⟩
  · have hentry : m.timing.entry fd = none := DescriptorTable.part?_of_slotOf?_eq_none hslot _
    have hhandler : m.timing.handler fd = none := DescriptorTable.part?_of_slotOf?_eq_none hslot _
    rw [heq, m.timing.clear_eq_self hentry hhandler]
  · obtain ⟨e, he, rfl⟩ := h.table.slotOf?_eq_some_iff.1 hslot
    cases hd.symm.trans he
    have hentry : m.timing.entry d.fd = d.timeout := h.table.part?_of_get? hd _
    refine timing_ext (h.table.part?_clear hd rfl) (h.table.part?_clear hd rfl) ?_ rfl
    exact congrArg m.loop.timeouts.without hentry.symm

/-- A registration changes the timeout of its descriptor as it asks for. -/
theorem timing_registers
    (h : m.Sound) {flags : Flags} {timeout : FdTimeout} {reaction : Reaction H}
    {d d' : Descriptor (Reaction H) H} {kernel : Kernel}
    (hreg : m.Registers fd flags timeout reaction m' d d' kernel) :
    ∃ entry queue,
      timeout.rearm m.timing.queue (m.timing.entry fd) fd m.clock = some (entry, queue) ∧
        m'.timing =
          { m.timing with entry := Function.update m.timing.entry fd entry, queue } := by
  have hsound := (h.registers hreg).table
  obtain ⟨e, he, hfd, -⟩ := h.table.ensure_spec fd
  cases hreg.found.symm.trans he
  have hentry : m.timing.entry fd = d.timeout := h.table.part?_ensure hreg.found rfl
  have hhandler : m.timing.handler fd = d.onTimeout := h.table.part?_ensure hreg.found rfl
  obtain ⟨entry, rfl⟩ := hreg.bound
  obtain ⟨b, k, queue, hrearm, -, rfl⟩ := hreg.result
  have hfd' : (d.revived.bound flags reaction).fd = fd := by simp [hfd]
  rw [Descriptor.timeout_bound, Descriptor.timeout_revived, ← hentry,
    Kernel.clock_applyMode hreg.mode] at hrearm
  refine ⟨entry, queue, hrearm,
    timing_ext (h.table.part?_register hsound hfd' _) ?_ rfl rfl⟩
  refine (h.table.part?_register hsound hfd' _).trans ?_
  have hsame : (d.revived.bound flags reaction).onTimeout = m.timing.handler fd := by
    simp [hhandler]
  exact (congrArg (Function.update m.timing.handler fd) hsame).trans
    (Function.update_eq_self fd m.timing.handler)

/-- What a request that concerns no descriptor leaves alone, and whether it breaks the loop. -/
theorem frame_of_fd?
    {r : Request H} {reply : Reply} (hfd : r.fd? = none)
    (hperform : m.perform r = .ok (reply, m')) :
    m'.loop.timeouts = m.loop.timeouts ∧ m'.loop.iteration = m.loop.iteration ∧
      m'.loop.broken = (r.isBreak || m.loop.broken) ∧
      (r.isTimer = false → m'.loop.timers = m.loop.timers) := by
  cases r with
  | setFd | clearFd | setTimeoutHandler =>
      cases hfd
  | interest | setBreak | setCallback | clearCallback =>
      cases hperform
      exact ⟨rfl, rfl, rfl, fun _ => rfl⟩
  | cancelTimer id =>
      cases hperform
      exact ⟨rfl, rfl, rfl, nofun⟩
  | setTimer delay handler =>
      obtain ⟨⟨id, m₁⟩, hset, heq⟩ := Except.bind_eq_ok_iff.1 hperform
      cases heq
      unfold setTimer at hset
      split at hset <;> cases hset
      exact ⟨rfl, rfl, rfl, nofun⟩
  | setSignal signo handler =>
      have hsame : ∃ host signals, (m.setSignal signo handler).2 =
          { m with host, loop := { m.loop with signals } } := by
        unfold setSignal
        split
        · split <;> exact ⟨_, _, rfl⟩
        · exact ⟨_, _, rfl⟩
      obtain ⟨host, signals, hsame⟩ := hsame
      simp only [perform] at hperform
      split at hperform
      next heq =>
          cases hperform
          rw [heq] at hsame
          subst hsame
          exact ⟨rfl, rfl, rfl, fun _ => rfl⟩
      next heq =>
          cases hperform
          rw [heq] at hsame
          subst hsame
          exact ⟨rfl, rfl, rfl, fun _ => rfl⟩
  | unsetSignal signo key =>
      obtain ⟨⟨result, m₁⟩, hunset, heq⟩ := Except.bind_eq_ok_iff.1 hperform
      cases heq
      unfold unsetSignal at hunset
      split at hunset
      · cases hunset
        exact ⟨rfl, rfl, rfl, fun _ => rfl⟩
      · split at hunset
        · cases hunset
          exact ⟨rfl, rfl, rfl, fun _ => rfl⟩
        · obtain ⟨host, -, heq⟩ := Except.bind_eq_ok_iff.1 hunset
          cases heq
          exact ⟨rfl, rfl, rfl, fun _ => rfl⟩
  | dispatch =>
      simp only [perform, dispatch] at hperform
      split at hperform
      next heq =>
          split at heq <;> cases heq
          cases hperform
          exact ⟨rfl, rfl, rfl, fun _ => rfl⟩
      next heq =>
          cases hperform
          exact ⟨rfl, rfl, rfl, fun _ => rfl⟩

theorem now_of_isOpen
    (hopen : m.control.isOpen = true) :
    m.now = m.clock := by
  unfold now
  split
  next hc =>
      rw [hc] at hopen
      cases hopen
  next =>
      rfl

theorem Aside.untimed
    {r : Request H} (h : Aside m r m') (reply : Reply) :
    (Act.request r reply).Untimed := by
  cases r with
  | setFd | clearFd | setTimeoutHandler =>
      cases h.fd?
  | _ =>
      trivial

theorem change_perform
    (h : m.Sound) {r : Request H} {reply : Reply} (hopen : m.control.isOpen = true)
    (hperform : m.perform r = .ok (reply, m')) :
    m.timing.Change m.Registered m.now (.request r reply) m'.timing := by
  have hsound := (h.perform (perform_ok hperform)).table
  cases perform_ok hperform with
  | cleared hclear =>
      rw [timing_clearFd h hclear]
      exact .cleared (decide_eq_true rfl)
  | unset hclear =>
      rw [timing_clearFd h hclear]
      exact .cleared (by simp [Act.clears])
  | refused _ =>
      exact .still trivial
  | @registered fd flags timeout handler _ _ _ _ hclear _ _ hreg =>
      have hflags : flags ≠ .clear := by
        rintro rfl
        cases hclear
      obtain ⟨entry, queue, hrearm, htiming⟩ := timing_registers h hreg
      rw [htiming]
      cases timeout with
      | unlimited =>
          cases hrearm
          exact .removed hflags
      | unmodified =>
          cases hrearm
          rw [Function.update_eq_self]
          exact .kept hflags
      | after delay =>
          obtain ⟨instant, hinstant, heq⟩ := Option.map_eq_some_iff.1 hrearm
          cases heq
          unfold Time.after? at hinstant
          split at hinstant <;> cases hinstant
          rw [← now_of_isOpen hopen]
          exact .armed hflags
  | handled hslot hd =>
      obtain ⟨e, he, rfl⟩ := h.table.slotOf?_eq_some_iff.1 hslot
      cases hd.symm.trans he
      have hset := DescriptorTable.get?_set_self hd
      have honly := DescriptorTable.onlyAt_set m.loop.table
      rw [show Machine.timing _ = m.timing.handle _ _ from timing_ext
        (h.table.part?_of_eq hsound (honly _ _) hd (hset _) rfl rfl)
        (h.table.part?_replace hsound (honly _ _) hd (hset _) rfl _) rfl rfl]
      exact .handled
  | aside haside =>
      have hdeferred : m'.control.deferred = m.control.deferred := by
        rcases haside.control with ⟨hcontrol, -⟩ | ⟨hidle, -, hcontrol⟩
        · rw [hcontrol]
        · rw [hcontrol, Control.deferred, Control.deferred, h.phase?_eq_none hidle]
          rfl
      rw [timing_eq haside.table (frame_of_fd? haside.fd? hperform).1 hdeferred]
      exact .still (haside.untimed reply)

theorem untimed_act
    (m m' : Machine H) :
    (m.act m').Untimed := by
  unfold act
  split
  · trivial
  · split <;> trivial

/-- Settling leaves the timeout of a descriptor, or drops a descriptor that has
none. -/
theorem change_settle
    {slot clears : Nat} {pending : Directions} (h : m.loop.table.Sound (some slot))
    (hsettle : m.settle slot clears pending = .ok m') {m'' : Machine H}
    (htable : m''.loop.table = m'.loop.table) (hqueue : m''.loop.timeouts = m'.loop.timeouts)
    (hdeferred : m''.control.deferred = m.control.deferred) (hact : act.Untimed) :
    m.timing.Change m.Registered m.now act m''.timing := by
  obtain ⟨d, hd, ⟨hclearing, rfl⟩ | ⟨hclearing, b, k, -, rfl⟩⟩ := settle_ok hsettle
  · have hentry : m.timing.entry d.fd = none := by
      rw [← ((h.fits slot d hd).idle_of_clearing hclearing).2]
      exact h.part?_of_get? hd _
    have hremoved : m''.loop.table = m.loop.table.remove slot := htable
    have htiming : m''.timing = m.timing.clear d.fd := by
      refine timing_ext ?_ ?_ ?_ hdeferred
      · rw [hremoved]
        exact h.part?_remove (h.remove_current hd) hd _
      · rw [hremoved]
        exact h.part?_remove (h.remove_current hd) hd _
      · rw [hqueue, Timing.clear, Timing.disarm, hentry]
        rfl
    have hgone : ¬m.Registered d.fd := by
      rw [Registered, h.bindings?_of_get? hd, Descriptor.bindings?, if_pos hclearing]
      exact Bool.false_ne_true
    rw [htiming]
    exact .dropped hact hgone hentry
  · have hsettled : m''.loop.table = m.loop.table.settle slot d clears pending := htable
    have honly := DescriptorTable.onlyAt_settle m.loop.table slot d clears pending
    have hget := DescriptorTable.get?_settle_self hd clears pending
    have hsound := h.settle hd hclearing clears pending
    have htiming : m''.timing = m.timing := by
      refine timing_ext ?_ ?_ hqueue hdeferred
      · rw [hsettled]
        exact h.part?_of_eq hsound honly hd hget rfl rfl
      · rw [hsettled]
        exact h.part?_of_eq hsound honly hd hget rfl rfl
    rw [htiming]
    exact .still hact

theorem timing_enqueue
    {event : Event} (h : m.loop.table.Sound none) (henqueue : m.enqueue event = .ok m') :
    m'.timing = m.timing := by
  rcases enqueue_ok henqueue with ⟨rfl, -⟩ | ⟨slot, d, b, k, -, hd, hclearing, -, -, rfl⟩
  · rfl
  · have honly := DescriptorTable.onlyAt_notify m.loop.table slot d event.ready
    have hget := DescriptorTable.get?_notify_self hd event.ready
    have hsound := h.notify hd hclearing event.ready
    exact timing_ext (h.part?_of_eq hsound honly hd hget rfl rfl)
      (h.part?_of_eq hsound honly hd hget rfl rfl) rfl rfl

theorem timing_awaitEvents
    (h : m.loop.table.Sound none) (hawait : m.awaitEvents = .ok m') :
    m'.timing = m.timing := by
  unfold awaitEvents at hawait
  split at hawait
  next =>
      cases hawait
  next events host _ =>
      refine (Except.foldlM_induction
        (fun m₁ : Machine H => m₁.loop.table.Sound none ∧ m₁.timing = m.timing) ?_ events ?_
          hawait).2
      · rintro m₁ event m₂ ⟨hsound, hsame⟩ henqueue
        obtain ⟨k, b, t, hm₂, ht⟩ := enqueue_sound hsound henqueue
        refine ⟨?_, (timing_enqueue hsound henqueue).trans hsame⟩
        rw [hm₂]
        exact ht
      · exact ⟨h, rfl⟩

/-- Arming deferred timeouts again arms those of registered descriptors that have
none. -/
theorem postponed_foldl
    {current : Option Nat} (now : Nat) (fds : List Int) (h : m.loop.table.Sound current) :
    m.timing.Postponed m.Registered now fds (fds.foldl (postpone now) m).timing := by
  induction fds generalizing m with
  | nil =>
      exact .nil
  | cons fd fds ih =>
      rw [List.foldl_cons]
      rcases postpone_cases now m fd with hsame | ⟨slot, d, hslot, hd, hclearing, hnone, heq⟩
      · rw [hsame]
        exact .passed (ih h)
      · obtain ⟨e, he, rfl⟩ := h.slotOf?_eq_some_iff.1 hslot
        cases hd.symm.trans he
        obtain ⟨t, q, hone, ht, hretimed⟩ := follows_postpone now [d.fd] h
        generalize hm₁ : postpone now m d.fd = m₁ at heq
        have htable : m₁.loop.table = t := by
          rw [← hm₁]
          exact congrArg (fun m : Machine H => m.loop.table) hone
        have hsound : m₁.loop.table.Sound current := htable ▸ ht.sound
        have hregistered : m₁.Registered = m.Registered := by
          unfold Registered
          rw [htable, hretimed.bindings? h ht.sound]
        have hentry : m.timing.entry d.fd = none := (h.part?_of_get? hd _).trans hnone
        have hset : m₁.loop.table = m.loop.table.set slot _ :=
          congrArg (fun m : Machine H => m.loop.table) heq
        rw [hset] at hsound
        have hget := DescriptorTable.get?_set_self hd
          { d with timeout := some (m.loop.timeouts.arm none d.fd now).1 }
        have honly := DescriptorTable.onlyAt_set m.loop.table slot
          { d with timeout := some (m.loop.timeouts.arm none d.fd now).1 }
        have htiming : m₁.timing = m.timing.arm d.fd now := by
          unfold Timing.arm
          rw [hentry]
          refine timing_ext ?_ ?_ ?_ ?_
          · rw [hset]
            exact h.part?_replace hsound honly hd hget rfl _
          · rw [hset]
            exact h.part?_of_eq hsound honly hd hget rfl rfl
          · rw [heq]
            rfl
          · rw [heq]
            rfl
        refine .armed ?_ hentry ?_
        · rw [Registered, h.bindings?_of_get? hd, Descriptor.bindings?, if_neg (by simp [hclearing])]
          rfl
        · rw [← htiming, ← hregistered]
          exact ih (hset ▸ hsound)

/-- Using up a binding leaves whatever does not depend on it. -/
theorem part?_spent
    {α : Type} {slot : Nat} {d : Descriptor (Reaction H) H} {a : Direction}
    {part : Descriptor (Reaction H) H → Option α} (h : m.loop.table.Sound (some slot))
    (hd : m.loop.table.get? slot = some d) (hsame : part (d.spent a) = part d) :
    (m.loop.table.set slot (d.spent a)).part? part = m.loop.table.part? part :=
  h.part?_of_eq (follows_spent h hd a).sound (DescriptorTable.onlyAt_set _ slot _) hd
    (DescriptorTable.get?_set_self hd _) (d.fd_spent a) hsame

/-- A turn leaves timeouts alone, apart from the timeout of its own descriptor when
it ends. -/
theorem change_turn
    (h : m.Sound) {turn : Turn} (hc : m.control = .dispatching (.turn turn))
    (hadvance : m.advanceTurn turn = .ok m') :
    m.timing.Change m.Registered m.now (m.act m') m'.timing := by
  have htable : m.loop.table.Sound (some turn.slot) := h.table_of_dispatching hc
  have hdeferred : m.control.deferred = [] := by
    rw [hc]
    rfl
  obtain ⟨d, hd, hmove⟩ := advanceTurn_ok hadvance
  have hspent : ∀ {a : Direction} {m'' : Machine H},
      m''.loop.table = m.loop.table.set turn.slot (d.spent a) →
      m''.loop.timeouts = m.loop.timeouts → m''.control.deferred = [] →
      m.timing.Change m.Registered m.now (m.act m') m''.timing := by
    intro a m'' hset hqueue hnone
    have hsame : m''.timing = m.timing := by
      refine timing_ext ?_ ?_ hqueue (hnone.trans hdeferred.symm)
      · rw [hset]
        exact part?_spent htable hd (d.timeout_spent a)
      · rw [hset]
        exact part?_spent htable hd (d.onTimeout_spent a)
    rw [hsame]
    exact .still (untimed_act m m')
  have huntimed := untimed_act m m'
  generalize m.act m' = act at hspent huntimed ⊢
  cases hmove with
  | ended _ hsettle =>
      exact change_settle htable hsettle rfl rfl hdeferred.symm huntimed
  | @unbound a _ _ hnone =>
      have hsame : d.spent a = d := by
        rw [Descriptor.spent, hnone]
        rfl
      exact hspent (by rw [hsame, DescriptorTable.set_get? hd]; rfl) rfl rfl
  | called _ _ _ _ _ =>
      exact hspent rfl rfl rfl
  | delivered _ _ _ _ _ _ =>
      exact hspent rfl rfl rfl

theorem timing_expire
    {now : Nat} {fds : List Int} {queue : DeadlineQueue} (h : m.loop.table.Sound none)
    (hexpire : { m with loop := { m.loop with timeouts := queue } }.expire fd now fds = .ok m')
    (hsound : m'.loop.table.Sound m'.control.slot?) :
    m'.timing = { m.timing.expire fd queue with deferred := m'.control.deferred } ∧
      (m'.control.deferred = fds ∨ m'.control.deferred = fds ++ [fd]) := by
  obtain ⟨slot, d, hslot, hd, hexpiry⟩ := expire_ok hexpire
  obtain ⟨e, he, rfl⟩ := h.slotOf?_eq_some_iff.1 hslot
  cases hd.symm.trans he
  obtain ⟨busy, htable⟩ := hexpiry.table_eq
  have htable' : m'.loop.table = m.loop.table.set slot { d with timeout := none, busy } := htable
  have hget := DescriptorTable.get?_set_self hd { d with timeout := none, busy }
  have honly := DescriptorTable.onlyAt_set m.loop.table slot { d with timeout := none, busy }
  have hcontrol : m'.loop.timeouts = queue ∧
      (m'.control.deferred = fds ∨ m'.control.deferred = fds ++ [d.fd]) := by
    cases hexpiry with
    | deferred _ =>
        exact ⟨rfl, .inr rfl⟩
    | dropped _ _ | fired _ _ =>
        exact ⟨rfl, .inl rfl⟩
  rw [htable'] at hsound
  refine ⟨timing_ext ?_ ?_ hcontrol.1 rfl, hcontrol.2⟩
  · rw [htable']
    exact h.part?_replace hsound honly hd hget rfl _
  · rw [htable']
    exact h.part?_of_eq hsound honly hd hget rfl rfl

theorem change_expire
    {fds : List Int} {queue : DeadlineQueue} (h : m.loop.table.Sound none)
    (hdeferred : m.control.deferred = fds)
    (hdue : m.loop.timeouts.takeDue? m.now = some (fd, queue)) {now : Nat}
    (hexpire : { m with loop := { m.loop with timeouts := queue } }.expire fd now fds = .ok m')
    (hsound : m'.loop.table.Sound m'.control.slot?) (hact : act.Untimed) :
    m.timing.Change m.Registered m.now act m'.timing := by
  obtain ⟨htiming, hcontrol⟩ := timing_expire h hexpire hsound
  rw [htiming]
  exact .expired hact hdue (by rw [← hdeferred] at hcontrol; exact hcontrol)

/-- The turn of a descriptor begins by removing its timeout. -/
theorem timing_begins
    {slot : Nat} {active : List Nat} {d : Descriptor (Reaction H) H}
    (h : m.loop.table.Sound none) (hdeferred : m.control.deferred = [])
    (hactive : m.loop.table.active = slot :: active) (hd : m.loop.table.get? slot = some d)
    (hset : m'.loop.table = DescriptorTable.set { m.loop.table with active } slot
      { d with ready := ∅, busy := true, lastTurn := m.loop.iteration, timeout := none })
    (hsound : m'.loop.table.Sound m'.control.slot?)
    (hqueue : m'.loop.timeouts = m.loop.timeouts.without d.timeout)
    (hnone : m'.control.deferred = []) :
    m'.timing = m.timing.disarm d.fd := by
  have hd' : DescriptorTable.get? { m.loop.table with active } slot = some d := hd
  have honly := (DescriptorTable.onlyAt_takeActive hactive).trans
    (DescriptorTable.onlyAt_set _ slot
      { d with ready := ∅, busy := true, lastTurn := m.loop.iteration, timeout := none })
  have hget := DescriptorTable.get?_set_self hd'
    { d with ready := ∅, busy := true, lastTurn := m.loop.iteration, timeout := none }
  have hentry : m.timing.entry d.fd = d.timeout := h.part?_of_get? hd _
  rw [hset] at hsound
  refine timing_ext ?_ ?_ ?_ (hnone.trans hdeferred.symm)
  · rw [hset]
    exact h.part?_replace hsound honly hd hget rfl _
  · rw [hset]
    exact h.part?_of_eq hsound honly hd hget rfl rfl
  · rw [hqueue, Timing.disarm, hentry]
    rfl

theorem change_beginTurn
    {slot : Nat} {table : DescriptorTable (Reaction H) H} (h : m.loop.table.Sound none)
    (hdeferred : m.control.deferred = []) (htake : m.loop.table.takeActive? = some (slot, table))
    (hbegin : (m.withTable table).beginTurn slot = .ok m')
    (hsound : m'.loop.table.Sound m'.control.slot?) (hact : act.Untimed) :
    m.timing.Change m.Registered m.now act m'.timing := by
  obtain ⟨active, hactive, rfl⟩ :
      ∃ active, m.loop.table.active = slot :: active ∧ table = { m.loop.table with active } := by
    unfold DescriptorTable.takeActive? at htake
    split at htake <;> cases htake
    exact ⟨_, ‹_›, rfl⟩
  obtain ⟨d, hd, rfl⟩ := beginTurn_ok hbegin
  rw [timing_begins h hdeferred hactive hd rfl hsound rfl rfl]
  exact .began hact

/-- In other phases the dispatcher leaves the timeouts alone, and handles none. -/
theorem advance_of_passesTimeouts
    {phase : Phase H} (hphase : phase.passesTimeouts = true)
    (hadvance : m.advance phase = .ok m') :
    m'.loop.table = m.loop.table ∧ m'.loop.timeouts = m.loop.timeouts ∧
      m'.control.deferred = phase.deferred ∧
      ∀ handler fd next, m'.control ≠ .running (.timeout handler fd) next := by
  cases phase with
  | ready | turn | timeouts | timedOut | wait =>
      cases hphase
  | start =>
      simp only [advance] at hadvance
      split at hadvance
      · cases hadvance
        exact ⟨rfl, rfl, rfl, by simp [finish]⟩
      · split at hadvance <;> cases hadvance <;> exact ⟨rfl, rfl, rfl, by simp [goTo, invoke]⟩
  | called | settled =>
      simp only [advance] at hadvance
      split at hadvance <;> cases hadvance <;> exact ⟨rfl, rfl, rfl, by simp [goTo, finish]⟩
  | timers pass now =>
      simp only [advance] at hadvance
      split at hadvance
      · cases hadvance
        exact ⟨rfl, rfl, by cases pass <;> rfl, by simp [goTo]⟩
      · split at hadvance
        · cases hadvance
          exact ⟨rfl, rfl, by cases pass <;> rfl, by simp [goTo]⟩
        · cases hadvance
          exact ⟨rfl, rfl, rfl, by simp [invoke]⟩
  | deliver signos turn =>
      cases signos with
      | nil | cons _ _ =>
          cases hadvance
          exact ⟨rfl, rfl, rfl, by simp [goTo]⟩
  | signal signo left signos turn =>
      cases left with
      | nil =>
          cases hadvance
          exact ⟨rfl, rfl, rfl, by simp [goTo]⟩
      | cons r left =>
          simp only [advance] at hadvance
          split at hadvance <;> cases hadvance <;> exact ⟨rfl, rfl, rfl, by simp [goTo, invoke]⟩

/-- What a move of the dispatcher does to the timeouts. -/
theorem change_advance
    (h : m.Sound) {phase : Phase H} (hc : m.control = .dispatching phase)
    (hadvance : m.advance phase = .ok m') :
    m.timing.Change m.Registered m.now (m.act m') m'.timing := by
  have htable := h.table_of_dispatching hc
  have hsound := (h.advance hc (advance_ok hadvance)).table
  have huntimed := untimed_act m m'
  have hdeferred : m.control.deferred = phase.deferred := by
    rw [hc]
    rfl
  have hstill : ∀ {m'' : Machine H}, m''.loop.table = m.loop.table →
      m''.loop.timeouts = m.loop.timeouts → m''.control.deferred = phase.deferred →
      m.timing.Change m.Registered m.now (m.act m') m''.timing := by
    intro m'' htable hqueue hsame
    rw [timing_eq htable hqueue (hsame.trans hdeferred.symm)]
    exact .still huntimed
  cases phase with
  | start | called | timers | deliver | signal | settled =>
      obtain ⟨hsame, hqueue, hkept, -⟩ := advance_of_passesTimeouts rfl hadvance
      exact hstill hsame hqueue hkept
  | turn turn =>
      exact change_turn h hc hadvance
  | ready =>
      simp only [advance] at hadvance
      split at hadvance
      · cases hadvance
        exact hstill rfl rfl rfl
      · split at hadvance
        · cases hadvance
          exact hstill rfl rfl rfl
        next slot table htake =>
            exact change_beginTurn htable hdeferred htake hadvance hsound huntimed
  | timeouts now fds =>
      have hnow : m.now = now := by
        rw [Machine.now, hc]
      have hpostponed : m.timing.Change m.Registered m.now (m.act m')
          ((fds.foldl (postpone now) m).goTo (.timers .late m.host.kernel.clock)).timing := by
        have hfold := postponed_foldl now fds htable
        rw [show fds = m.timing.deferred from hdeferred.symm] at hfold ⊢
        rw [← hnow] at hfold ⊢
        exact .postponed huntimed hfold
      simp only [advance] at hadvance
      split at hadvance
      · cases hadvance
        exact hpostponed
      · split at hadvance
        · cases hadvance
          exact hpostponed
        next fd queue hdue =>
            rw [← hnow] at hdue
            exact change_expire htable hdeferred hdue hadvance hsound huntimed
  | timedOut slot clears now fds =>
      obtain ⟨m₁, hsettle, heq⟩ := Except.bind_eq_ok_iff.1 hadvance
      cases heq
      exact change_settle htable hsettle rfl rfl hdeferred.symm huntimed
  | wait =>
      obtain ⟨m₁, hawait, heq⟩ := Except.bind_eq_ok_iff.1 hadvance
      cases heq
      have hsame := timing_awaitEvents htable hawait
      obtain ⟨host, b, t, hm₁, -⟩ := awaitEvents_sound htable hawait
      have hcontrol : m₁.control.deferred = [] := by
        rw [hm₁]
        exact hdeferred
      have hstart : (m₁.goTo .start).timing = m₁.timing := timing_eq rfl rfl hcontrol.symm
      rw [hstart, hsame]
      exact .still huntimed

/-- What a move does to the timeouts. -/
theorem change_move
    (h : m.Sound) (hmove : Move m act m') :
    m.timing.Change m.Registered m.now act m'.timing := by
  cases hmove with
  | request hopen hperform =>
      exact change_perform h hopen hperform
  | @resume _ next hc =>
      have hnext : (m.goTo next).timing = m.timing := timing_eq rfl rfl (by rw [hc]; rfl)
      rw [resume_eq hc, hnext]
      exact .still trivial
  | step hc hstep =>
      simp only [step, hc] at hstep
      exact change_advance h hc hstep
  | world host =>
      exact .still trivial

/-- A move in which the handler for an expired timeout of a descriptor starts. -/
structure TimesOut (m : Machine H) (fd : Int) (handler : H) (m' : Machine H) : Prop where
  dispatching : m.control.isOpen = false
  move : ∃ act, Move m act m'
  running : ∃ next, m'.control = .running (.timeout handler fd) next

/-- What is known when the handler of an expired timeout of a descriptor starts. -/
structure Expires (m : Machine H) (fd : Int) (handler : H) (m' : Machine H) (now : Nat)
    (fds : List Int) (queue : DeadlineQueue) (d : Descriptor (Reaction H) H) : Prop where
  control : m.control = .dispatching (.timeouts now fds)
  due : m.loop.timeouts.takeDue? now = some (fd, queue)
  found : m.loop.table.find? fd = some d
  resting : d.lastTurn ≠ m.loop.iteration
  handled : d.onTimeout = some handler
  timing : m'.timing = m.timing.expire fd queue

/-- The dispatcher handles a timeout only in the pass over expired timeouts, and if a
deadline of the descriptor is due. -/
theorem expires_of_running
    {phase next : Phase H} {handler : H} (h : m.Sound) (hc : m.control = .dispatching phase)
    (hadvance : m.advance phase = .ok m')
    (hrunning : m'.control = .running (.timeout handler fd) next) :
    ∃ now fds queue d, m.Expires fd handler m' now fds queue d := by
  have htable := h.table_of_dispatching hc
  have hsound := (h.advance hc (advance_ok hadvance)).table
  cases phase with
  | start | called | timers | deliver | signal | settled =>
      obtain ⟨-, -, -, hnone⟩ := advance_of_passesTimeouts rfl hadvance
      exact absurd hrunning (hnone handler fd next)
  | timeouts now fds =>
      simp only [advance] at hadvance
      split at hadvance
      · cases hadvance
        cases hrunning
      · split at hadvance
        · cases hadvance
          cases hrunning
        next other queue hdue =>
            obtain ⟨slot, d, hslot, hd, hexpiry⟩ := expire_ok hadvance
            have hfind := htable.slotOf?_eq_some_iff.1 hslot
            obtain ⟨htiming, -⟩ := timing_expire htable hadvance hsound
            cases hexpiry with
            | deferred _ | dropped _ _ =>
                cases hrunning
            | fired hlast hhandler =>
                cases hrunning
                obtain ⟨e, he, rfl⟩ := hfind
                cases hd.symm.trans he
                have hdeferred : m.timing.deferred = fds := by
                  rw [timing, hc]
                  rfl
                refine ⟨now, fds, queue, d, hc, hdue,
                  htable.find?_eq_some_iff.2 ⟨slot, hd, rfl⟩, hlast, hhandler, ?_⟩
                rw [htiming, Timing.expire, hdeferred]
                rfl
  | ready =>
      simp only [advance] at hadvance
      split at hadvance
      · cases hadvance
        cases hrunning
      · split at hadvance
        · cases hadvance
          cases hrunning
        · obtain ⟨d, -, rfl⟩ := beginTurn_ok hadvance
          cases hrunning
  | turn turn =>
      obtain ⟨d, -, hmove⟩ := advanceTurn_ok hadvance
      cases hmove <;> cases hrunning
  | timedOut | wait =>
      obtain ⟨m₁, -, heq⟩ := Except.bind_eq_ok_iff.1 hadvance
      cases heq
      cases hrunning

theorem TimesOut.expires
    {handler : H} (h : m.Sound) (hout : TimesOut m fd handler m') :
    ∃ now fds queue d, m.Expires fd handler m' now fds queue d := by
  obtain ⟨hclosed, ⟨act, hmove⟩, next, hrunning⟩ := hout
  cases hmove with
  | request hopen _ =>
      rw [hclosed] at hopen
      cases hopen
  | resume hc =>
      rw [hc] at hclosed
      cases hclosed
  | world host =>
      have hc : m.control = .running (.timeout handler fd) next := hrunning
      rw [hc] at hclosed
      cases hclosed
  | step hc hstep =>
      simp only [step, hc] at hstep
      exact expires_of_running h hc hstep hrunning

theorem TimesOut.due
    {handler : H} (h : m.Sound) (hout : TimesOut m fd handler m') :
    m.timing.handler fd = some handler ∧
      ∃ now queue, m.loop.timeouts.takeDue? now = some (fd, queue) := by
  obtain ⟨now, fds, queue, d, hexpires⟩ := hout.expires h
  exact ⟨(DescriptorTable.part?_of_find? hexpires.found _).trans hexpires.handled, now, queue,
    hexpires.due⟩

end Machine
end CallbackLoop
