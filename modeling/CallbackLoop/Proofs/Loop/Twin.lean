import CallbackLoop.Proofs.Loop.Listening
import CallbackLoop.Proofs.Loop.Timing

/-!
# Twins

Two machines are twins if one is on epoll, the other on select, and their loops are the
same otherwise.  Whatever is done to both of them keeps them twins: every operation ends
alike for both, with the same reply and twins again, or with the same panic.

This is shown operation by operation.  The only two things in which the hosts of twins
have to be alike are the clock, where it is read, and what a wait reports.  What a host
rejects is left open here.
-/

namespace CallbackLoop

variable {H : Type}

section Matches

variable {α β α' β' : Type} {R R' : α → β → Prop} {S : α' → β' → Prop} {x : Except Crash α}
  {y : Except Crash β}

/-- Two programs end alike: with related results, or with the same panic.  Nothing is
said if a host rejects a change. -/
inductive Matches (R : α → β → Prop) : Except Crash α → Except Crash β → Prop
  | ok {a : α} {b : β} :
      R a b →
      Matches R (.ok a) (.ok b)
  | panic {panic : Panic} {host host' : Host} :
      Matches R (.error ⟨panic, host⟩) (.error ⟨panic, host'⟩)
  | rejectedLeft {change : HostChange} {fd : Int} {cause : Errno} {host : Host}
      {y : Except Crash β} :
      Matches R (.error ⟨.rejected change fd cause, host⟩) y
  | rejectedRight {change : HostChange} {fd : Int} {cause : Errno} {host : Host}
      {x : Except Crash α} :
      Matches R x (.error ⟨.rejected change fd cause, host⟩)

theorem Matches.mono
    (h : Matches R x y) (hR : ∀ a b, R a b → R' a b) :
    Matches R' x y := by
  cases h with
  | ok hab =>
      exact .ok (hR _ _ hab)
  | panic =>
      exact .panic
  | rejectedLeft =>
      exact .rejectedLeft
  | rejectedRight =>
      exact .rejectedRight

/-- Programs that go on alike after programs that end alike end alike. -/
theorem Matches.bind
    {f : α → Except Crash α'} {g : β → Except Crash β'} (h : Matches R x y)
    (hfg : ∀ a b, x = .ok a → R a b → Matches S (f a) (g b)) :
    Matches S (x >>= f) (y >>= g) := by
  cases h with
  | @ok a b hab =>
      exact hfg a b rfl hab
  | panic =>
      exact .panic
  | rejectedLeft =>
      exact .rejectedLeft
  | rejectedRight =>
      exact .rejectedRight

/-- Where no host rejects anything, programs that end alike show the same or end with
the same panic. -/
theorem Matches.outcome_eq
    {γ : Type} {f : α → γ} {g : β → γ} (h : Matches R x y) (hx : Unrejected x)
    (hy : Unrejected y) (hfg : ∀ a b, R a b → f a = g b) :
    (x.map f).mapError Crash.panic = (y.map g).mapError Crash.panic := by
  cases h with
  | ok hab =>
      exact congrArg Except.ok (hfg _ _ hab)
  | panic =>
      rfl
  | rejectedLeft =>
      exact absurd rfl (hx _ rfl _ _ _)
  | rejectedRight =>
      exact absurd rfl (hy _ rfl _ _ _)

end Matches

namespace Kernel

theorem clock_epollControl
    (k : Kernel) (number : Nat) (fd : Int) (change : EpollChange) :
    (k.epollControl number fd change).2.clock = k.clock := by
  obtain ⟨faults, hfaults⟩ := obstacle_eq k .epollControl fd (some (changeVariant change))
  unfold epollControl
  generalize k.obstacle .epollControl fd (some (changeVariant change)) = result at hfaults
  obtain ⟨failure, k'⟩ := result
  cases hfaults
  cases failure with
  | some cause =>
      rfl
  | none =>
      dsimp only
      split <;> rfl

end Kernel

/-- A call of a backend takes no time. -/
theorem Backend.clock_of_apply
    {b b' : Backend} {k k' : Kernel} {fd : Int} {call : BackendCall}
    {result : Except Errno Unit} (h : call.apply b k fd = (result, b', k')) :
    k'.clock = k.clock := by
  cases b with
  | epoll e =>
      have hclock := fun change => k.clock_epollControl e.number fd change
      cases call with
      | register interest =>
          obtain ⟨hcontrol, -⟩ := unchanged_eq h
          rw [← hclock (.add (.ofInterest interest))]
          exact congrArg (fun r => r.2.clock) hcontrol.symm
      | modify interest =>
          obtain ⟨hcontrol, -⟩ := unchanged_eq h
          rw [← hclock (.modify (.ofInterest interest))]
          exact congrArg (fun r => r.2.clock) hcontrol.symm
      | unregister =>
          obtain ⟨hunregister, -⟩ := unchanged_eq h
          rw [← hclock .delete]
          split at hunregister
          next hcontrol =>
              rw [hcontrol]
              exact congrArg (fun r => r.2.clock) hunregister.symm
          next =>
              exact congrArg (fun r => r.2.clock) hunregister.symm
  | select t =>
      cases call with
      | register interest =>
          simp only [BackendCall.apply, register] at h
          split at h <;> cases h <;> rfl
      | modify interest =>
          simp only [BackendCall.apply, modify] at h
          split at h <;> cases h <;> rfl
      | unregister =>
          cases h
          rfl

namespace Machine

variable {m n : Machine H} {e : EpollInstance} {P : Nat → Nat → Prop} {slot : Nat}

/-- The machine with its loop on select and on another host. -/
def onSelect (m : Machine H) (host : Host) (t : SelectTable) (hub tick : Nat) : Machine H :=
  { m with host, loop := { m.loop with backend := .select t, hub, tick } }

/-- One machine is on an epoll instance, the other on select, neither receives signals,
and else their loops are the same.  Their clocks may differ as `P` says. -/
structure Twin (e : EpollInstance) (P : Nat → Nat → Prop) (m n : Machine H) : Prop where
  epoll : m.loop.backend = .epoll e
  pipe : m.loop.pipe = none
  select : ∃ host t hub tick, n = m.onSelect host t hub tick
  clock : P m.clock n.clock

namespace Twin

/-- The loops of twins differ in what concerns the host. -/
theorem loop
    (h : Twin e P m n) :
    n.loop = { m.loop with
      backend := n.loop.backend, hub := n.loop.hub, tick := n.loop.tick } := by
  obtain ⟨-, -, ⟨host, t, hub, tick, rfl⟩, -⟩ := h
  rfl

theorem control
    (h : Twin e P m n) :
    n.control = m.control := by
  obtain ⟨-, -, ⟨host, t, hub, tick, rfl⟩, -⟩ := h
  rfl

theorem table
    (h : Twin e P m n) :
    n.loop.table = m.loop.table := by
  rw [h.loop]

theorem timers
    (h : Twin e P m n) :
    n.loop.timers = m.loop.timers := by
  rw [h.loop]

theorem timeouts
    (h : Twin e P m n) :
    n.loop.timeouts = m.loop.timeouts := by
  rw [h.loop]

theorem broken
    (h : Twin e P m n) :
    n.loop.broken = m.loop.broken := by
  rw [h.loop]

theorem iteration
    (h : Twin e P m n) :
    n.loop.iteration = m.loop.iteration := by
  rw [h.loop]

theorem retime
    {Q : Nat → Nat → Prop} (h : Twin e P m n) (hQ : Q m.clock n.clock) :
    Twin e Q m n :=
  ⟨h.epoll, h.pipe, h.select, hQ⟩

/-- What does not concern the host keeps twins. -/
theorem update
    (h : Twin e P m n) (f : Machine H → Machine H)
    (hf : ∀ host t hub tick, f (m.onSelect host t hub tick) = (f m).onSelect host t hub tick)
    (hbackend : (f m).loop.backend = m.loop.backend) (hpipe : (f m).loop.pipe = m.loop.pipe)
    (hhost : (f m).host = m.host) :
    Twin e P (f m) (f n) := by
  obtain ⟨he, hp, ⟨host, t, hub, tick, rfl⟩, hclock⟩ := h
  rw [hf]
  refine ⟨hbackend.trans he, hpipe.trans hp, ⟨host, t, hub, tick, rfl⟩, ?_⟩
  show P (f m).host.kernel.clock host.kernel.clock
  rw [hhost]
  exact hclock

theorem withTable
    (h : Twin e P m n) (t : DescriptorTable (Reaction H) H) :
    Twin e P (m.withTable t) (n.withTable t) :=
  h.update (·.withTable t) (fun _ _ _ _ => rfl) rfl rfl rfl

theorem setDescriptor
    (h : Twin e P m n) (slot : Nat) (d : Descriptor (Reaction H) H) :
    Twin e P (m.setDescriptor slot d) (n.setDescriptor slot d) :=
  h.update (·.setDescriptor slot d) (fun _ _ _ _ => rfl) rfl rfl rfl

theorem disarm
    (h : Twin e P m n) (timeout : Option Handle) :
    Twin e P (m.disarm timeout) (n.disarm timeout) := by
  cases timeout with
  | none =>
      exact h
  | some id =>
      exact h.update (·.disarm (some id)) (fun _ _ _ _ => rfl) rfl rfl rfl

theorem activate
    (h : Twin e P m n) (slot : Nat) :
    Twin e P (m.withTable (m.loop.table.activate slot))
      (n.withTable (n.loop.table.activate slot)) := by
  rw [h.table]
  exact h.withTable _

theorem setTimeouts
    (h : Twin e P m n) (timeouts : DeadlineQueue) :
    Twin e P { m with loop := { m.loop with timeouts } }
      { n with loop := { n.loop with timeouts } } :=
  h.update (fun m => { m with loop := { m.loop with timeouts } }) (fun _ _ _ _ => rfl) rfl rfl rfl

theorem setTimers
    (h : Twin e P m n) (timers : TimerQueue H) :
    Twin e P { m with loop := { m.loop with timers } }
      { n with loop := { n.loop with timers } } :=
  h.update (fun m => { m with loop := { m.loop with timers } }) (fun _ _ _ _ => rfl) rfl rfl rfl

theorem goTo
    (h : Twin e P m n) (phase : Phase H) :
    Twin e P (m.goTo phase) (n.goTo phase) :=
  h.update (·.goTo phase) (fun _ _ _ _ => rfl) rfl rfl rfl

theorem invoke
    (h : Twin e P m n) (invocation : Invocation H) (next : Phase H) :
    Twin e P (m.invoke invocation next) (n.invoke invocation next) :=
  h.update (·.invoke invocation next) (fun _ _ _ _ => rfl) rfl rfl rfl

theorem finish
    (h : Twin e P m n) :
    Twin e P m.finish n.finish :=
  h.update (·.finish) (fun _ _ _ _ => rfl) rfl rfl rfl

end Twin

theorem matches_descriptor
    (h : Twin e P m n) (slot : Nat) :
    Matches Eq (m.descriptor slot) (n.descriptor slot) := by
  unfold descriptor
  rw [h.table]
  split
  · exact .ok rfl
  · exact .panic

theorem matches_free
    (h : Twin e P m n) (slot : Nat) :
    Matches (Twin e P) (m.free slot) (n.free slot) := by
  unfold free
  rw [h.table]
  split
  · exact .ok (h.withTable _)
  · exact .panic

/-- Twins stay twins when both backends accept a call. -/
theorem matches_adopt
    (h : Twin e P m n) (change : HostChange) (fd : Int) (call? : Option BackendCall) :
    Matches (Twin e P) (m.adopt change fd (m.call call? fd))
      (n.adopt change fd (n.call call? fd)) := by
  have hclock : ∀ {m : Machine H} {result b k}, m.call call? fd = (result, b, k) →
      k.clock = m.clock := by
    intro m result b k hcall
    cases call? with
    | none =>
        cases hcall
        rfl
    | some call =>
        exact Backend.clock_of_apply hcall
  obtain ⟨he, hp, ⟨host, t, hub, tick, rfl⟩, hP⟩ := h
  have hselect : ∀ {result b k}, (m.onSelect host t hub tick).call call? fd = (result, b, k) →
      ∃ t', b = .select t' := by
    intro result b k hcall
    exact Backend.instance?_eq_none_iff.1 (instance?_call hcall)
  rcases hm : m.call call? fd with ⟨result, b, k⟩
  rcases hn : (m.onSelect host t hub tick).call call? fd with ⟨result', b', k'⟩
  cases result with
  | error cause =>
      exact .rejectedLeft
  | ok u =>
      cases result' with
      | error cause =>
          exact .rejectedRight
      | ok u' =>
          obtain ⟨t', rfl⟩ := hselect hn
          refine .ok ⟨(rows_of_call he hm).1, hp, ⟨{ host with kernel := k' }, t', hub, tick, rfl⟩, ?_⟩
          show P k.clock k'.clock
          rw [hclock hm, hclock hn]
          exact hP

theorem matches_align
    (h : Twin e P m n) (slot : Nat) (force : Bool) :
    Matches (Twin e P) (m.align slot force) (n.align slot force) := by
  rw [align_eq, align_eq]
  refine (matches_descriptor h slot).bind ?_
  rintro d _ - rfl
  refine (matches_adopt h .interest d.fd (d.call? force)).bind fun m₁ n₁ _ h₁ => ?_
  exact .ok (h₁.setDescriptor slot _)

theorem matches_clearSlot
    (h : Twin e P m n) (slot : Nat) (d : Descriptor (Reaction H) H) :
    Matches (Twin e P) (m.clearSlot slot d) (n.clearSlot slot d) := by
  unfold clearSlot
  rw [h.table]
  split
  · exact .ok ((h.setDescriptor slot _).withTable _)
  · exact matches_free (h.setDescriptor slot _) slot

theorem matches_clearFd
    (h : Twin e P m n) (fd : Int) :
    Matches (Twin e P) (m.clearFd fd) (n.clearFd fd) := by
  unfold clearFd
  rw [h.table]
  split
  next =>
      exact .ok h
  next slot _ =>
      refine (matches_descriptor h slot).bind ?_
      rintro d _ - rfl
      dsimp only
      split
      next =>
          exact (matches_adopt h .removal fd (some .unregister)).bind fun m₁ n₁ _ h₁ =>
            matches_clearSlot (h₁.disarm d.timeout) slot d
      next =>
          exact matches_clearSlot (h.disarm d.timeout) slot d

theorem matches_applyMode
    (h : Twin e P m n) (fd : Int) (flags : Flags) :
    Matches (Twin e P) (m.applyMode fd flags) (n.applyMode fd flags) := by
  unfold applyMode
  split
  next =>
      have hclock := m.host.kernel.clock_setNonblocking fd (flags.contains .nonblock)
      have hclock' := n.host.kernel.clock_setNonblocking fd (flags.contains .nonblock)
      generalize m.host.kernel.setNonblocking fd (flags.contains .nonblock) = left at hclock
      generalize n.host.kernel.setNonblocking fd (flags.contains .nonblock) = right at hclock'
      obtain ⟨result, k⟩ := left
      obtain ⟨result', k'⟩ := right
      cases result with
      | error cause =>
          exact .rejectedLeft
      | ok u =>
          cases result' with
          | error cause =>
              exact .rejectedRight
          | ok u' =>
              obtain ⟨he, hp, ⟨host, t, hub, tick, rfl⟩, hP⟩ := h
              refine .ok ⟨he, hp, ⟨{ host with kernel := k' }, t, hub, tick, rfl⟩, ?_⟩
              show P k.clock k'.clock
              rw [show k.clock = _ from hclock, show k'.clock = _ from hclock']
              exact hP
  next =>
      exact .ok h

theorem matches_enroll
    (h : Twin e P m n) (fd : Int) :
    Matches (fun a b => a.1 = b.1 ∧ Twin e P a.2 b.2) (m.enroll fd) (n.enroll fd) := by
  unfold enroll
  rw [h.table]
  obtain ⟨slot, t⟩ := m.loop.table.ensure fd
  refine (matches_descriptor (h.withTable (t.watch slot)) slot).bind ?_
  rintro d _ - rfl
  split
  · exact .ok ⟨rfl, (h.withTable _).setDescriptor slot _⟩
  · exact .ok ⟨rfl, h.withTable _⟩

theorem matches_bind
    (h : Twin e P m n) (slot : Nat) (flags : Flags) (reaction : Reaction H) :
    Matches (Twin e P) (m.bind slot flags reaction) (n.bind slot flags reaction) := by
  unfold bind
  refine (matches_descriptor h slot).bind ?_
  rintro d _ - rfl
  dsimp only
  split
  · exact .ok h
  · exact .ok (h.setDescriptor slot _)

theorem matches_applyTimeout
    (h : Twin e Eq m n) (slot : Nat) (fd : Int) (timeout : FdTimeout) :
    Matches (Twin e Eq) (m.applyTimeout slot fd timeout) (n.applyTimeout slot fd timeout) := by
  have hclock : n.host.kernel.clock = m.host.kernel.clock := h.clock.symm
  unfold applyTimeout
  rw [hclock, h.timeouts]
  refine (matches_descriptor h slot).bind ?_
  rintro d _ - rfl
  cases timeout with
  | unmodified =>
      exact .ok h
  | unlimited =>
      exact .ok ((h.disarm d.timeout).setDescriptor slot _)
  | after delay =>
      dsimp only
      split
      · exact .panic
      · exact .ok ((h.setTimeouts _).setDescriptor slot _)

/-- A descriptor below the limit is beyond no backend's limit. -/
theorem Twin.beyondLimit?
    (h : Twin e P m n) {fd : Int} (hfd : fd < (SelectSets.limit : Int)) :
    m.beyondLimit? fd = none ∧ n.beyondLimit? fd = none := by
  obtain ⟨he, -, ⟨host, t, hub, tick, rfl⟩, -⟩ := h
  refine ⟨?_, ?_⟩
  · rw [Machine.beyondLimit?, he]
    rfl
  · show (some SelectSets.limit).filter (fun limit : Nat => decide ((limit : Int) ≤ fd)) = none
    rw [Option.filter_some, if_neg]
    simpa using hfd

theorem matches_setFd
    (h : Twin e Eq m n) {fd : Int} (hfd : fd < (SelectSets.limit : Int)) (flags : Flags)
    (timeout : FdTimeout) (reaction : Reaction H) :
    Matches (fun a b => a.1 = b.1 ∧ Twin e Eq a.2 b.2) (m.setFd fd flags timeout reaction)
      (n.setFd fd flags timeout reaction) := by
  obtain ⟨hlimit, hlimit'⟩ := h.beyondLimit? hfd
  unfold setFd
  rw [hlimit, hlimit']
  split
  next =>
      exact .panic
  next =>
      split
      next =>
          split
          next =>
              exact (matches_clearFd h fd).bind fun _ _ _ h₁ => .ok ⟨rfl, h₁⟩
          next =>
              exact .panic
      next =>
          split
          next =>
              exact .panic
          next =>
              refine (matches_applyMode h fd flags).bind fun m₁ n₁ _ h₁ => ?_
              refine (matches_enroll h₁ fd).bind ?_
              rintro ⟨slot, m₂⟩ ⟨_, n₂⟩ - ⟨rfl, h₂⟩
              refine (matches_bind h₂ slot flags reaction).bind fun m₃ n₃ _ h₃ => ?_
              refine (matches_applyTimeout h₃ slot fd timeout).bind fun m₄ n₄ _ h₄ => ?_
              exact (matches_align h₄ slot false).bind fun _ _ _ h₅ => .ok ⟨rfl, h₅⟩

theorem matches_setTimeoutHandler
    (h : Twin e P m n) (fd : Int) (handler : H) :
    Matches (Twin e P) (m.setTimeoutHandler fd handler) (n.setTimeoutHandler fd handler) := by
  unfold setTimeoutHandler
  rw [h.table]
  split
  · exact .panic
  · refine (matches_descriptor h _).bind ?_
    rintro d _ - rfl
    exact .ok (h.setDescriptor _ _)

theorem matches_setTimer
    (h : Twin e Eq m n) (delay : Nat) (handler : H) :
    Matches (fun a b => a.1 = b.1 ∧ Twin e Eq a.2 b.2) (m.setTimer delay handler)
      (n.setTimer delay handler) := by
  have hclock : n.host.kernel.clock = m.host.kernel.clock := h.clock.symm
  unfold setTimer
  rw [hclock, h.timers]
  split
  · exact .panic
  · exact .ok ⟨rfl, h.setTimers _⟩

/-- A request that names a descriptor to register names one that select can watch. -/
def InRange : Request H → Prop
  | .setFd fd _ _ _ => fd < (SelectSets.limit : Int)
  | _ => True

instance : (r : Request H) → Decidable (InRange r)
  | .setFd fd _ _ _ => inferInstanceAs (Decidable (fd < (SelectSets.limit : Int)))
  | .clearFd _ | .setTimeoutHandler _ _ | .interest _ | .setTimer _ _ | .cancelTimer _
  | .setSignal _ _ | .unsetSignal _ _ | .setBreak | .setCallback _ | .clearCallback
  | .dispatch => .isTrue trivial

theorem matches_perform
    (h : Twin e Eq m n) {r : Request H} (hr : InRange r) :
    Matches (fun a b => a.1 = b.1 ∧ Twin e Eq a.2 b.2) (m.perform r) (n.perform r) := by
  have hprimary : m.loop.isPrimary = false := by
    rw [Loop.isPrimary, h.pipe]
    rfl
  have hprimary' : n.loop.isPrimary = false := by
    rw [h.loop]
    exact hprimary
  cases r with
  | setFd fd flags timeout handler =>
      refine (matches_setFd h hr flags timeout _).bind ?_
      rintro ⟨result, m₁⟩ ⟨_, n₁⟩ - ⟨rfl, h₁⟩
      exact .ok ⟨rfl, h₁⟩
  | clearFd fd =>
      exact (matches_clearFd h fd).bind fun _ _ _ h₁ => .ok ⟨rfl, h₁⟩
  | setTimeoutHandler fd handler =>
      exact (matches_setTimeoutHandler h fd handler).bind fun _ _ _ h₁ => .ok ⟨rfl, h₁⟩
  | interest fd =>
      refine .ok ⟨?_, h⟩
      show Reply.interest (m.loop.interest? fd) = .interest (n.loop.interest? fd)
      rw [h.loop]
      rfl
  | setTimer delay handler =>
      refine (matches_setTimer h delay handler).bind ?_
      rintro ⟨id, m₁⟩ ⟨_, n₁⟩ - ⟨rfl, h₁⟩
      exact .ok ⟨rfl, h₁⟩
  | cancelTimer id =>
      unfold perform cancelTimer
      rw [h.timers]
      exact .ok ⟨rfl, h.setTimers _⟩
  | setSignal signo handler =>
      simp only [perform, setSignal, hprimary, hprimary', Bool.false_eq_true, if_false]
      exact .ok ⟨rfl, h⟩
  | unsetSignal signo key =>
      simp only [perform, unsetSignal, hprimary, hprimary', Bool.not_false, if_true]
      exact .ok ⟨rfl, h⟩
  | setBreak =>
      exact .ok ⟨rfl, h.update (·.setBreak) (fun _ _ _ _ => rfl) rfl rfl rfl⟩
  | setCallback handler =>
      exact .ok ⟨rfl, h.update (fun m => { m with loop := { m.loop with callback := some handler } })
        (fun _ _ _ _ => rfl) rfl rfl rfl⟩
  | clearCallback =>
      exact .ok ⟨rfl, h.update (fun m => { m with loop := { m.loop with callback := none } })
        (fun _ _ _ _ => rfl) rfl rfl rfl⟩
  | dispatch =>
      have hdispatching : n.loop.dispatching = m.loop.dispatching := by
        rw [h.loop]
      unfold perform dispatch
      rw [hdispatching]
      by_cases hd : m.loop.dispatching = true
      · simp only [if_pos hd]
        exact .ok ⟨rfl, h⟩
      · simp only [if_neg hd]
        exact .ok ⟨rfl, h.update (fun m => { m with
          loop := { m.loop with dispatching := true }
          control := .dispatching .start }) (fun _ _ _ _ => rfl) rfl rfl rfl⟩

theorem matches_settle
    (h : Twin e P m n) (slot clears : Nat) (pending : Directions) :
    Matches (Twin e P) (m.settle slot clears pending) (n.settle slot clears pending) := by
  rw [settle_eq, settle_eq, h.table]
  refine (matches_descriptor h slot).bind ?_
  rintro d _ - rfl
  split
  · exact matches_free (h.setDescriptor slot _) slot
  · exact matches_align (h.withTable _) slot false

theorem matches_beginTurn
    (h : Twin e P m n) (slot : Nat) :
    Matches (Twin e P) (m.beginTurn slot) (n.beginTurn slot) := by
  unfold beginTurn
  refine (matches_descriptor h slot).bind ?_
  rintro d _ - rfl
  have hdisarmed := h.disarm d.timeout
  dsimp only
  rw [hdisarmed.iteration]
  exact .ok ((hdisarmed.setDescriptor slot _).goTo _)

/-- Every binding calls a handler: there is no notification pipe. -/
def CallsOnly (m : Machine H) : Prop :=
  ∀ i d a binding, m.loop.table.get? i = some d → d.binding? a = some binding →
    ∃ handler, binding.reaction = .call handler

theorem matches_advanceTurn
    (h : Twin e P m n) (hcalls : m.CallsOnly) (turn : Turn) :
    Matches (Twin e P) (m.advanceTurn turn) (n.advanceTurn turn) := by
  have hend : Matches (Twin e P) (m.endTurn turn) (n.endTurn turn) :=
    (matches_settle h turn.slot turn.clears turn.pending).bind fun _ _ _ h₁ => .ok (h₁.goTo _)
  unfold advanceTurn
  rw [h.broken]
  refine (matches_descriptor h turn.slot).bind ?_
  rintro d _ hd rfl
  split
  next =>
      exact hend
  next a _ =>
      split
      next =>
          exact hend
      next =>
          dsimp only
          split
          next =>
              exact .ok (h.goTo _)
          next binding hbinding =>
              obtain ⟨handler, hreaction⟩ := hcalls turn.slot d a binding
                (descriptor_eq_ok_iff.1 hd) hbinding
              rw [hreaction]
              refine .ok (Twin.invoke ?_ _ _)
              split
              · exact h.setDescriptor turn.slot _
              · exact h

theorem matches_expire
    (h : Twin e P m n) (fd : Int) (now : Nat) (deferred : List Int) :
    Matches (Twin e P) (m.expire fd now deferred) (n.expire fd now deferred) := by
  unfold expire
  rw [h.table, h.iteration]
  split
  next =>
      exact .panic
  next slot _ =>
      refine (matches_descriptor h slot).bind ?_
      rintro d _ - rfl
      dsimp only
      split
      next =>
          exact .ok ((h.setDescriptor slot _).goTo _)
      next =>
          split
          next =>
              exact .ok ((h.setDescriptor slot _).goTo _)
          next =>
              exact .ok ((h.setDescriptor slot _).invoke _ _)

theorem Twin.postpone
    (h : Twin e P m n) (now : Nat) (fd : Int) :
    Twin e P (postpone now m fd) (postpone now n fd) := by
  unfold Machine.postpone
  rw [h.table, h.timeouts]
  split
  next =>
      exact h
  next =>
      split
      next =>
          exact h
      next =>
          split
          next =>
              exact h
          next =>
              exact (h.setTimeouts _).setDescriptor _ _

theorem Twin.foldl_postpone
    (h : Twin e P m n) (now : Nat) (deferred : List Int) :
    Twin e P (deferred.foldl (Machine.postpone now) m) (deferred.foldl (Machine.postpone now) n) := by
  induction deferred generalizing m n with
  | nil =>
      exact h
  | cons fd deferred ih =>
      exact ih (h.postpone now fd)

theorem matches_enqueue
    (h : Twin e P m n) (event : Event) :
    Matches (Twin e P) (m.enqueue event) (n.enqueue event) := by
  unfold enqueue
  rw [h.table]
  split
  next =>
      exact .ok h
  next slot _ =>
      refine (matches_descriptor h slot).bind ?_
      rintro d _ - rfl
      split
      next =>
          exact .ok h
      next =>
          dsimp only
          split
          next =>
              exact .ok h
          next =>
              split
              · exact matches_align ((h.setDescriptor slot _).activate slot) slot true
              · exact .ok ((h.setDescriptor slot _).activate slot)

theorem matches_foldlM
    (h : Twin e P m n) (events : List Event) :
    Matches (Twin e P) (events.foldlM enqueue m) (events.foldlM enqueue n) := by
  induction events generalizing m n with
  | nil =>
      exact .ok h
  | cons event events ih =>
      rw [List.foldlM_cons, List.foldlM_cons]
      exact (matches_enqueue h event).bind fun _ _ _ h₁ => ih h₁

/-- The wait that comes next ends alike for both machines. -/
def WaitsAlike (m n : Machine H) : Prop :=
  (n.loop.backend.wait n.host (n.loop.waitBound n.clock)).1 =
    (m.loop.backend.wait m.host (m.loop.waitBound m.clock)).1

/-- A wait takes its time, but twins stay twins if it reports the same. -/
theorem matches_awaitEvents
    (h : Twin e P m n) (hwait : m.WaitsAlike n) :
    Matches (Twin e fun _ _ => True) m.awaitEvents n.awaitEvents := by
  unfold awaitEvents
  unfold WaitsAlike clock at hwait
  generalize m.loop.backend.wait m.host (m.loop.waitBound m.host.kernel.clock) = left at hwait ⊢
  generalize n.loop.backend.wait n.host (n.loop.waitBound n.host.kernel.clock) = right at hwait ⊢
  obtain ⟨result, host⟩ := left
  obtain ⟨result', host'⟩ := right
  cases hwait
  cases result with
  | error cause =>
      exact .panic
  | ok events =>
      refine matches_foldlM ?_ events
      obtain ⟨he, hp, ⟨_, t, hub, tick, rfl⟩, -⟩ := h
      exact ⟨he, hp, ⟨host', t, hub, tick, rfl⟩, trivial⟩

theorem advance_start
    (m : Machine H) :
    m.advance .start =
      if m.loop.broken then .ok m.finish
      else
        match m.loop.callback with
        | some handler =>
            .ok (({ m with loop := { m.loop with iteration := m.loop.iteration + 1 } } :
              Machine H).invoke (.callback handler) .called)
        | none =>
            .ok (({ m with loop := { m.loop with iteration := m.loop.iteration + 1 } } :
              Machine H).goTo .called) :=
  rfl

/-- Twins that move stay twins, but for the time that a wait takes. -/
theorem matches_advance
    (h : Twin e Eq m n) (hcalls : m.CallsOnly) {phase : Phase H}
    (hwait : phase = .wait → m.WaitsAlike n) :
    Matches (Twin e fun _ _ => True) (m.advance phase) (n.advance phase) := by
  have hclock : n.host.kernel.clock = m.host.kernel.clock := h.clock.symm
  have hany : ∀ {m n : Machine H}, Twin e Eq m n → Twin e (fun _ _ => True) m n :=
    fun h => h.retime trivial
  have hcallback : n.loop.callback = m.loop.callback := by
    rw [h.loop]
  have hsignals : n.loop.signals = m.loop.signals := by
    rw [h.loop]
  cases phase with
  | start =>
      have hcounted := h.update
        (fun m => { m with loop := { m.loop with iteration := m.loop.iteration + 1 } })
        (fun _ _ _ _ => rfl) rfl rfl rfl
      rw [advance_start, advance_start, h.broken, hcallback]
      split
      · exact .ok (hany h.finish)
      · split
        · exact .ok (hany (hcounted.invoke _ _))
        · exact .ok (hany (hcounted.goTo _))
  | called =>
      show Matches _ (.ok (if m.loop.broken then _ else _)) (.ok (if n.loop.broken then _ else _))
      rw [h.broken, hclock]
      split
      · exact .ok (hany h.finish)
      · exact .ok (hany (h.goTo _))
  | timers pass now =>
      unfold advance
      rw [h.broken, h.timers]
      dsimp only
      split
      · exact .ok (hany (h.goTo _))
      · split
        · exact .ok (hany (h.goTo _))
        · exact .ok (hany ((h.setTimers _).invoke _ _))
  | ready =>
      unfold advance
      rw [h.broken, hclock, h.table]
      dsimp only
      split
      · exact .ok (hany (h.goTo _))
      · split
        · exact .ok (hany (h.goTo _))
        · exact (matches_beginTurn (h.withTable _) _).mono fun _ _ => hany
  | turn turn =>
      exact (matches_advanceTurn h hcalls turn).mono fun _ _ => hany
  | deliver signos turn =>
      cases signos with
      | nil =>
          exact .ok (hany (h.goTo _))
      | cons signo signos =>
          unfold advance
          rw [hsignals]
          dsimp only
          exact .ok (hany (h.goTo _))
  | signal signo left signos turn =>
      cases left with
      | nil =>
          exact .ok (hany (h.goTo _))
      | cons r left =>
          unfold advance
          rw [hsignals]
          dsimp only
          split
          · exact .ok (hany (h.invoke _ _))
          · exact .ok (hany (h.goTo _))
  | timeouts now deferred =>
      have hended := hany ((h.foldl_postpone now deferred).goTo (.timers .late m.host.kernel.clock))
      unfold advance
      rw [h.broken, hclock, h.timeouts]
      dsimp only
      split
      · exact .ok hended
      · split
        · exact .ok hended
        · exact (matches_expire (h.setTimeouts _) _ now deferred).mono fun _ _ => hany
  | timedOut slot clears now deferred =>
      exact (matches_settle h slot clears ∅).bind fun _ _ _ h₁ => .ok (hany (h₁.goTo _))
  | settled =>
      show Matches _ (.ok (if m.loop.broken then _ else _)) (.ok (if n.loop.broken then _ else _))
      rw [h.broken]
      split
      · exact .ok (hany h.finish)
      · exact .ok (hany (h.goTo _))
  | wait =>
      exact (matches_awaitEvents h (hwait rfl)).bind fun _ _ _ h₁ => .ok (h₁.goTo _)

theorem matches_step
    (h : Twin e Eq m n) (hcalls : m.CallsOnly)
    (hwait : m.control = .dispatching .wait → m.WaitsAlike n) :
    Matches (Twin e fun _ _ => True) m.step n.step := by
  unfold step
  rw [h.control]
  split
  next phase hc =>
      exact matches_advance h hcalls fun hphase => hwait (hphase ▸ hc)
  next =>
      exact .ok (h.retime trivial)

end Machine
end CallbackLoop
