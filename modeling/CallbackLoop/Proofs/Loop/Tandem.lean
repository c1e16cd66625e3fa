import CallbackLoop.Proofs.Loop.Course
import CallbackLoop.Proofs.Loop.Twin
import CallbackLoop.Proofs.Poll

/-!
# Epoll and select agree

Two loops that do not receive signals, one on epoll and one on select, are built alike
and then driven by the same code.  They start as twins.  As long as no call fails, no
descriptor is closed and their waits find the same conditions, they stay twins, and
nothing that can be seen of them tells the one from the other.

What keeps them in step over the waits is that every entry in the epoll table is armed
when a wait begins and asks for what select has registered.
-/

namespace CallbackLoop

variable {H : Type}

/-- What is to be done next, without what it leads to. -/
inductive Prompt (H : Type) where
  | request (request : Request H)
  | resume
  | step
  | world

/-- What prompts a move. -/
def Act.prompt : Act H → Prompt H
  | request r _ => .request r
  | resume => .resume
  | fire _ _ _ => .step
  | wait _ => .step
  | advance => .step
  | world => .world

/-- What is registered by a move is something that select can watch. -/
def Act.InRange : Act H → Prop
  | .request r _ => Machine.InRange r
  | _ => True

instance : (act : Act H) → Decidable act.InRange
  | .request r _ => inferInstanceAs (Decidable (Machine.InRange r))
  | .resume | .fire _ _ _ | .wait _ | .advance | .world => .isTrue trivial

/-- What can be seen of a machine: who is in control, with the handler that runs and its
arguments, what the clock shows, and the answers to questions about the loop. -/
structure View (H : Type) where
  control : Control H
  clock : Nat
  interest? : Int → Option Directions
  fdCount : Nat
  timerCount : Nat

/-- What can be seen of a machine now. -/
def Machine.view (m : Machine H) : View H :=
  ⟨m.control, m.clock, m.loop.interest?, m.loop.fdCount, m.loop.timerCount⟩

/-- What can be seen of a transition: the move with its reply, and the machine after
it. -/
def Transition.sight (s : Transition H) : Act H × View H :=
  (s.act, s.after.view)

/-- Every move is what the given behaviour prompts after all that was seen before. -/
def Directed (behaviour : List (Act H × View H) → Prompt H) (steps : List (Transition H)) :
    Prop :=
  ∀ before s after, steps = before ++ s :: after →
    s.act.prompt = behaviour (before.map Transition.sight)

theorem Directed.of_append
    {behaviour : List (Act H × View H) → Prompt H} {steps steps' : List (Transition H)}
    (h : Directed behaviour (steps ++ steps')) :
    Directed behaviour steps := by
  intro before s after heq
  refine h before s (after ++ steps') ?_
  rw [heq, List.append_assoc, List.cons_append]

/-- No fault is laid for a registration, and no descriptor is closed. -/
structure Kernel.Obliges (k : Kernel) : Prop where
  spares : k.Spares
  opened : k.closed.isEmpty = true

instance (k : Kernel) : Decidable k.Obliges :=
  decidable_of_iff
    ((∀ f ∈ k.faults, f.name.registers = true → f.times = 0) ∧ k.closed.isEmpty = true)
    ⟨fun ⟨hspares, hopened⟩ => ⟨hspares, hopened⟩, fun h => ⟨h.spares, h.opened⟩⟩

theorem Kernel.Obliges.contains_closed
    {k : Kernel} (h : k.Obliges) (fd : Int) :
    k.closed.contains fd = false :=
  Std.TreeSet.isEmpty_iff_forall_contains.1 h.opened fd

namespace Machine

variable {m n m' n' : Machine H} {e : EpollInstance} {act act' : Act H}

theorem prompt_act
    (m m' : Machine H) :
    (m.act m').prompt = .step := by
  unfold act
  split
  · rfl
  · split <;> rfl

/-- The host when the machine has begun to wait. -/
def waiter (m : Machine H) : Host :=
  m.loop.backend.noted m.host (m.loop.waitBound m.clock)

theorem nextEntry_waiter
    (m : Machine H) :
    m.waiter.kernel.nextEntry.1 = m.host.kernel.nextEntry.1 :=
  Kernel.nextEntry_note _ _ _

/-- The next waits of two machines, the first one on epoll, find the same conditions and
last, or else end with an event.  Epoll has room for all that meets its entries. -/
structure PollsAlike (e : EpollInstance) (m n : Machine H) : Prop where
  polls : m.waiter.Polls
  polls' : n.waiter.Polls
  conditions : n.waiter.conditions = m.waiter.conditions
  lasts : n.waiter.kernel.nextEntry.1.duration.isSome =
    m.waiter.kernel.nextEntry.1.duration.isSome
  room : (m.waiter.conditions.filterMap
    (Kernel.meet? (m.host.kernel.epollTable e.number))).length ≤ e.capacity

instance (e : EpollInstance) (m n : Machine H) : Decidable (m.PollsAlike e n) :=
  decidable_of_iff
    (m.waiter.Polls ∧ n.waiter.Polls ∧ n.waiter.conditions = m.waiter.conditions ∧
      n.waiter.kernel.nextEntry.1.duration.isSome =
        m.waiter.kernel.nextEntry.1.duration.isSome ∧
      (m.waiter.conditions.filterMap
        (Kernel.meet? (m.host.kernel.epollTable e.number))).length ≤ e.capacity)
    ⟨fun ⟨a, b, c, d, f⟩ => ⟨a, b, c, d, f⟩, fun ⟨a, b, c, d, f⟩ => ⟨a, b, c, d, f⟩⟩

/-- What a request comes to: its reply, or the panic that ends the program. -/
def answer (m : Machine H) (r : Request H) : Except Panic Reply :=
  ((m.perform r).map Prod.fst).mapError Crash.panic

/-- What the next move of the dispatcher comes to: who is in control then, or the panic
that ends the program. -/
def onward (m : Machine H) : Except Panic (Control H) :=
  (m.step.map control).mapError Crash.panic

end Machine

/-- What a move of a machine on epoll has in common with a move of one on select that is
prompted alike: the clocks show the same, nothing fails or is closed, requests concern
descriptors that select can watch, and waits find the same.  The world does not touch the
table of the epoll instance. -/
structure Shared (e : EpollInstance) (s s' : Transition H) : Prop where
  clock : s'.after.clock = s.after.clock
  obliges : s.after.host.kernel.Obliges
  obliges' : s'.after.host.kernel.Obliges
  inRange : s.act.InRange
  polls : s.before.control = .dispatching .wait → s.before.PollsAlike e s'.before
  rows : s.act = .world → ∀ fd,
    s.after.host.kernel.row? e.number fd = s.before.host.kernel.row? e.number fd

/-- What has to be checked of two moves that do not concern the world. -/
def SharedChecks (e : EpollInstance) (s s' : Transition H) : Prop :=
  s.act ≠ .world ∧ s'.after.clock = s.after.clock ∧ s.after.host.kernel.Obliges ∧
    s'.after.host.kernel.Obliges ∧ s.act.InRange ∧
    (s.before.control = .dispatching .wait → s.before.PollsAlike e s'.before)

instance [DecidableEq H] (e : EpollInstance) (s s' : Transition H) :
    Decidable (SharedChecks e s s') :=
  inferInstanceAs (Decidable (_ ∧ _))

theorem SharedChecks.shared
    {e : EpollInstance} {s s' : Transition H} (h : SharedChecks e s s') :
    Shared e s s' := by
  obtain ⟨hworld, hclock, hobliges, hobliges', hrange, hpolls⟩ := h
  exact ⟨hclock, hobliges, hobliges', hrange, hpolls, fun hact => absurd hact hworld⟩

/-- Every binding calls a handler. -/
def Bindings.CallsOnly (b : Bindings (Reaction H)) : Prop :=
  ∀ a binding, b a = some binding → ∃ handler, binding.reaction = .call handler

theorem Bindings.CallsOnly.rebind
    {b : Bindings (Reaction H)} (h : b.CallsOnly) (flags : Flags) (handler : H) :
    (b.rebind flags (.call handler)).CallsOnly := by
  intro a binding hbinding
  unfold Bindings.rebind at hbinding
  split at hbinding
  · cases hbinding
    exact ⟨handler, rfl⟩
  · split at hbinding
    · exact h a binding hbinding
    · cases hbinding

theorem Bindings.CallsOnly.spend
    {b : Bindings (Reaction H)} (h : b.CallsOnly) (a : Direction) :
    (b.spend a).CallsOnly := by
  intro other binding hbinding
  unfold Bindings.spend at hbinding
  split at hbinding
  · rw [Function.update_apply] at hbinding
    split at hbinding
    · cases hbinding
    · exact h other binding hbinding
  · exact h other binding hbinding

/-- Every binding of every registered descriptor calls a handler. -/
def Registry.CallsOnly (A : Registry H) : Prop :=
  ∀ fd b, A.lookup fd = some b → b.CallsOnly

theorem Registry.CallsOnly.after
    {A : Registry H} (h : A.CallsOnly) (act : Act H) :
    (A.after act).CallsOnly := by
  intro fd b hb
  have hold : ((A.lookup fd).getD fun _ => none).CallsOnly := by
    cases hlookup : A.lookup fd with
    | none =>
        exact fun _ _ hnone => nomatch hnone
    | some b =>
        exact h fd b hlookup
  rw [lookup_after] at hb
  unfold Act.rebound at hb
  split at hb
  next =>
      split at hb
      · exact h fd b hb
      · split at hb
        · cases hb
        · cases hb
          exact hold.rebind _ _
  next =>
      split at hb
      · exact h fd b hb
      · cases hb
  next =>
      split at hb
      · exact h fd b hb
      · obtain ⟨b, hlookup, rfl⟩ := Option.map_eq_some_iff.1 hb
        exact (h fd b hlookup).spend _
  next =>
      exact h fd b hb

namespace Machine

variable {m n m' n' : Machine H} {e : EpollInstance} {act act' : Act H}

theorem callsOnly_of_represents
    {A : Registry H} (h : m.Sound) (hr : m.Represents A) (hA : A.CallsOnly) :
    m.CallsOnly := by
  intro i d a binding hd hbinding
  by_cases hclearing : d.isClearing = true
  · have hnone := (h.table.fits i d hd).unbound_of_clearing hclearing a
    rw [hnone] at hbinding
    cases hbinding
  · rw [Bool.not_eq_true] at hclearing
    refine hA d.fd d.binding? ?_ a binding hbinding
    rw [hr, h.table.bindings?_of_get? hd]
    exact Descriptor.bindings?_eq_some_iff.2 ⟨hclearing, rfl⟩

theorem Built.loop_eq
    (h : Built m) (hpipe : m.loop.pipe = none) :
    m.loop = { backend := m.loop.backend, hub := m.loop.hub, tick := m.loop.tick } := by
  cases h with
  | mk hbuild =>
      obtain ⟨backend, kernel, -, ⟨rfl, rfl⟩ | ⟨pipe, host₁, m₁, -, hset, rfl, rfl⟩⟩ :=
        build_ok hbuild
      · rfl
      · rcases setFd_ok hset with ⟨hflags, -⟩ | ⟨-, -, limit, -, hresult⟩ |
          ⟨-, -, -, -, d, d', kernel, hreg⟩
        · exact absurd hflags (by decide)
        · cases hresult
        · obtain ⟨b, k, q, -, -, rfl⟩ := hreg.result
          cases hpipe

theorem WaitsAlike.reports
    (h : m.WaitsAlike n) :
    n.reports = m.reports := by
  unfold WaitsAlike clock at h
  unfold Machine.reports
  generalize m.loop.backend.wait m.host (m.loop.waitBound m.host.kernel.clock) = left at h ⊢
  generalize n.loop.backend.wait n.host (n.loop.waitBound n.host.kernel.clock) = right at h ⊢
  obtain ⟨result, host⟩ := left
  obtain ⟨result', host'⟩ := right
  cases h
  cases result <;> rfl

theorem Twin.act_eq
    {P Q : Nat → Nat → Prop} (h : Twin e P m n) (h' : Twin e Q m' n')
    (hwait : m.control = .dispatching .wait → m.WaitsAlike n) :
    n.act n' = m.act m' := by
  unfold act started?
  rw [h.control, h'.control]
  split
  next hc =>
      rw [(hwait hc).reports]
  next =>
      rfl

/-- Twins that are prompted alike do the same, and they stay twins if the clocks show the
same then. -/
theorem Twin.move
    (h : Twin e Eq m n) (hcalls : m.CallsOnly)
    (hwait : m.control = .dispatching .wait → m.WaitsAlike n)
    (hrange : act.InRange) (hmove : Move m act m') (hmove' : Move n act' n')
    (hprompt : act'.prompt = act.prompt) (hclock : n'.clock = m'.clock) :
    act' = act ∧ Twin e Eq m' n' := by
  cases hmove with
  | @request _ r _ _ hperform =>
      cases hmove' with
      | request _ hperform' =>
          cases hprompt
          have hmatches := matches_perform h (r := r) hrange
          rw [hperform, hperform'] at hmatches
          cases hmatches with
          | ok hsame =>
              obtain ⟨rfl, htwin⟩ := hsame
              exact ⟨rfl, htwin⟩
      | step _ _ =>
          rw [prompt_act] at hprompt
          cases hprompt
      | resume _ | world _ =>
          cases hprompt
  | @resume _ next hc =>
      cases hmove' with
      | @resume _ next' hc' =>
          cases hc'.symm.trans (h.control.trans hc)
          rw [resume_eq hc, resume_eq hc']
          exact ⟨rfl, h.goTo next⟩
      | step _ _ =>
          rw [prompt_act] at hprompt
          cases hprompt
      | request _ _ | world _ =>
          cases hprompt
  | step hc hstep =>
      cases hmove' with
      | step _ hstep' =>
          have hmatches := matches_step h hcalls hwait
          rw [hstep, hstep'] at hmatches
          cases hmatches with
          | ok htwin =>
              exact ⟨h.act_eq htwin hwait, htwin.retime hclock.symm⟩
      | request _ _ | resume _ | world _ =>
          rw [prompt_act] at hprompt
          cases hprompt
  | world host =>
      cases hmove' with
      | world host' =>
          obtain ⟨he, hpipe, ⟨_, t, hub, tick, rfl⟩, -⟩ := h
          exact ⟨rfl, he, hpipe, ⟨host', t, hub, tick, rfl⟩, hclock.symm⟩
      | step _ _ =>
          rw [prompt_act] at hprompt
          cases hprompt
      | request _ _ | resume _ =>
          cases hprompt

/-- Where nothing fails and nothing is closed, a move is calm if the world leaves what
the epoll table asks for. -/
theorem calm_of_obliges
    (hobliges : m'.host.kernel.Obliges) (hcloses : m.ClosesNone)
    (hmasks : act = .world → ∀ e, m.loop.backend = .epoll e → ∀ fd,
      m'.host.kernel.mask? e.number fd = m.host.kernel.mask? e.number fd) :
    Calm m act m' := by
  unfold Calm
  split
  next =>
      exact
        { spares := fun _ => hobliges.spares
          closed := fun fd _ _ => hobliges.contains_closed fd
          mask? := fun e he fd _ => hmasks rfl e he fd }
  next =>
      exact hcloses

theorem admits_of_obliges
    (h : m.host.kernel.Obliges) (r : Request H) :
    m.Admits r := by
  unfold Admits
  split
  · exact fun _ => h.contains_closed _
  · trivial

/-- Two machines are in tandem: they are twins, each in order by itself, and no entry in
the epoll table is disarmed. -/
structure Tandem (e : EpollInstance) (m n : Machine H) : Prop where
  twin : Twin e Eq m n
  sound : m.Sound
  sound' : n.Sound
  mirrored : m.Mirrored
  mirrored' : n.Mirrored
  attended : m.Attended e fun _ _ => False
  calls : ∃ A, m.Represents A ∧ A.CallsOnly
  obliges : m.host.kernel.Obliges
  obliges' : n.host.kernel.Obliges

theorem Built.tandem
    {t : SelectTable} (hm : Built m) (hn : Built n) (he : m.loop.backend = .epoll e)
    (ht : n.loop.backend = .select t) (hpipe : m.loop.pipe = none) (hpipe' : n.loop.pipe = none)
    (hclock : n.clock = m.clock) (hobliges : m.host.kernel.Obliges)
    (hobliges' : n.host.kernel.Obliges) :
    Tandem e m n where
  twin := by
    refine ⟨he, hpipe, ⟨n.host, t, n.loop.hub, n.loop.tick, ?_⟩, hclock.symm⟩
    have hcontrol := hn.control.trans hm.control.symm
    have hloop := hn.loop_eq hpipe'
    obtain ⟨host, loop, control⟩ := n
    obtain rfl : control = m.control := hcontrol
    rw [ht] at hloop
    unfold onSelect
    rw [hm.loop_eq hpipe]
    exact congrArg (Machine.mk host · m.control) hloop
  sound := hm.sound
  sound' := hn.sound
  mirrored := hm.mirrored hobliges.spares
  mirrored' := hn.mirrored hobliges'.spares
  attended := hm.attended he
  calls := by
    have hr := hm.represents
    rw [builtRegistry, hpipe] at hr
    refine ⟨∅, hr, fun fd b hb => ?_⟩
    rw [Finmap.lookup_empty] at hb
    cases hb
  obliges := hobliges
  obliges' := hobliges'

theorem Twin.view_eq
    (h : Twin e Eq m n) :
    n.view = m.view := by
  have hclock : n.clock = m.clock := h.clock.symm
  unfold view
  rw [h.control, hclock, h.loop]
  rfl

namespace Tandem

theorem callsOnly
    (h : Tandem e m n) :
    m.CallsOnly := by
  obtain ⟨A, hr, hA⟩ := h.calls
  exact callsOnly_of_represents h.sound hr hA

/-- Every entry in the epoll table asks for what is held, and it is armed. -/
theorem rows
    (h : Tandem e m n) (fd : Int) :
    m.host.kernel.row? e.number fd =
      (m.loop.table.held? fd).map fun interest => ⟨.ofInterest interest, false⟩ := by
  have hholds : m.host.kernel.mask? e.number fd =
      (m.loop.table.held? fd).map .ofInterest := by
    have hholds := h.mirrored.table.holds
    rw [h.twin.epoll] at hholds
    exact hholds fd
  cases hheld : m.loop.table.held? fd with
  | none =>
      rw [hheld, Kernel.mask?_eq] at hholds
      exact Option.map_eq_none_iff.1 hholds
  | some interest =>
      obtain ⟨d, hfind, hinterest⟩ := Option.bind_eq_some_iff.1 hheld
      obtain ⟨i, hi, rfl⟩ := h.sound.table.find?_eq_some_iff.1 hfind
      obtain ⟨disarmed, hrow, hwhy⟩ := h.attended.table.row i d hi interest hinterest
      cases disarmed with
      | false =>
          exact hrow
      | true =>
          exact (hwhy rfl).elim

/-- What is held lies within the range of select. -/
theorem range
    (h : Tandem e m n) {fd : Int} (hheld : m.loop.table.held? fd ≠ none) :
    0 ≤ fd ∧ fd < (SelectSets.limit : Int) := by
  obtain ⟨interest, hinterest⟩ := Option.ne_none_iff_exists'.1 hheld
  obtain ⟨d, hfind, hd⟩ := Option.bind_eq_some_iff.1 hinterest
  have hne : d.held ≠ none := by
    rw [hd]
    exact Option.some_ne_none interest
  rw [← h.twin.table] at hfind
  obtain ⟨i, hi, rfl⟩ := h.sound'.table.find?_eq_some_iff.1 hfind
  have htakes := h.mirrored'.table.takes i d hi (.inl hne)
  obtain ⟨-, -, ⟨host, t, hub, tick, rfl⟩, -⟩ := h.twin
  exact htakes

/-- What the wait of the machine on epoll comes to. -/
theorem wait_epoll
    (h : Tandem e m n) (hpolls : m.PollsAlike e n) :
    (m.loop.backend.wait m.host (m.loop.waitBound m.clock)).1 =
      (let events := m.waiter.conditions.filterMap (event? m.loop.table.held?)
      Host.waited (!events.isEmpty)
        (m.waiter.kernel.nextEntry.1.duration.isSome || (m.loop.waitBound m.clock).isSome)
        events) := by
  obtain ⟨hm, -, -, -, hroom⟩ := hpolls
  unfold waiter at hm hroom ⊢
  rw [h.twin.epoll] at hm hroom ⊢
  exact Backend.wait_epoll hm h.obliges.contains_closed h.rows hroom

/-- What the wait of the machine on select comes to. -/
theorem wait_select
    (h : Tandem e m n) (hpolls : m.PollsAlike e n) :
    (n.loop.backend.wait n.host (n.loop.waitBound n.clock)).1 =
      (let events := n.waiter.conditions.filterMap (event? m.loop.table.held?)
      Host.waited (!events.isEmpty)
        (n.waiter.kernel.nextEntry.1.duration.isSome || (n.loop.waitBound n.clock).isSome)
        events) := by
  have hpolls' := hpolls.polls'
  have hholds := h.mirrored'.table.holds
  have hopen := h.obliges'.contains_closed
  have hrange : ∀ fd, m.loop.table.held? fd ≠ none → 0 ≤ fd ∧ fd < (SelectSets.limit : Int) :=
    fun _ hheld => h.range hheld
  obtain ⟨-, -, ⟨host, t, hub, tick, rfl⟩, -⟩ := h.twin
  exact Backend.wait_select hpolls' hopen hholds hrange

/-- Both machines report the same at their next wait. -/
theorem waitsAlike
    (h : Tandem e m n) (hpolls : m.PollsAlike e n) :
    m.WaitsAlike n := by
  have hbound : (n.loop.waitBound n.clock).isSome = (m.loop.waitBound m.clock).isSome := by
    rw [Loop.waitBound, Loop.waitBound, Option.isSome_map, Option.isSome_map, h.twin.loop]
    rfl
  unfold WaitsAlike
  rw [h.wait_epoll hpolls, h.wait_select hpolls, hpolls.conditions, hpolls.lasts, hbound]

/-- Each event of a wait names something that is asked for. -/
theorem held_of_event
    (h : Tandem e m n) (hpolls : m.PollsAlike e n) {events : List Event} {host : Host}
    (hwait : m.loop.backend.wait m.host (m.loop.waitBound m.clock) = (.ok events, host))
    {event : Event} (hevent : event ∈ events) {interest : Interest}
    (hheld : m.loop.table.held? event.fd = some interest) :
    event.ready ∩ interest.directions ≠ ∅ := by
  have heq := h.wait_epoll hpolls
  rw [hwait] at heq
  dsimp only at heq
  unfold Host.waited at heq
  split at heq
  next =>
      cases heq
      obtain ⟨found, -, hfound⟩ := List.mem_filterMap.1 hevent
      obtain ⟨interest', hinterest, hfd, hready, hne⟩ := event?_eq_some_iff.1 hfound
      rw [← hfd] at hinterest
      cases hheld.symm.trans hinterest
      have hall : event.ready ∩ interest.directions = event.ready := by
        rw [hready]
        ext a
        simp
      rw [hall]
      intro hempty
      rw [hempty] at hne
      cases hne
  next =>
      cases heq

/-- No wait closes anything. -/
theorem closesNone
    (h : Tandem e m n) (hpolls : m.control = .dispatching .wait → m.PollsAlike e n) :
    m.ClosesNone ∧ n.ClosesNone := by
  refine ⟨fun hc fd hfd => ?_, fun hc fd hfd => ?_⟩
  · rw [← nextEntry_waiter, (hpolls hc).polls.closed] at hfd
    cases hfd
  · rw [← nextEntry_waiter, (hpolls (h.twin.control.symm.trans hc)).polls'.closed] at hfd
    cases hfd

/-- A wait disarms no entry for good: each event names something that is asked for, so
the entry is armed again when the event is queued. -/
theorem attended_wait
    (h : Tandem e m n) (hpolls : m.control = .dispatching .wait → m.PollsAlike e n)
    {events : List Event} (hmove : Move m (.wait events) m') :
    m'.Attended e fun _ _ => False := by
  obtain ⟨hc, host, m₁, hwait, hfold, rfl⟩ := wait_of_move hmove
  have htable : m.loop.table.Sound none := h.sound.table_of_dispatching hc
  have hclosed : ∀ fd ∈ m.host.kernel.nextEntry.1.closed, m.loop.table.bindings? fd = none :=
    fun fd hfd => bindings?_eq_none_of_interest? ((h.closesNone hpolls).1 hc fd hfd)
  have hqueued : m₁.Attended e fun _ _ => False := by
    refine attended_foldlM (m := { m with host }) htable
      ((attended_reported htable h.attended hclosed hwait).mono ?_) hfold
    rintro fd interest (⟨hfalse, -⟩ | ⟨honeshot, -, hheld, -, condition, hevent⟩)
    · exact hfalse.elim
    · exact ⟨honeshot, fun hunmet =>
        h.held_of_event (hpolls hc) hwait hevent hheld (hunmet _ hevent)⟩
  exact ⟨hqueued.backend, hqueued.table⟩

/-- No move leaves an entry disarmed. -/
theorem attended_move
    (h : Tandem e m n) (hpolls : m.control = .dispatching .wait → m.PollsAlike e n)
    (hrows : act = .world → ∀ fd,
      m'.host.kernel.row? e.number fd = m.host.kernel.row? e.number fd)
    (hmove : Move m act m') :
    m'.Attended e fun _ _ => False := by
  by_cases hwaits : ∃ events, act = .wait events
  · obtain ⟨events, rfl⟩ := hwaits
    exact h.attended_wait hpolls hmove
  · have hundisturbed : Undisturbed e m act m' := by
      unfold Undisturbed
      split
      · exact fun fd _ => hrows rfl fd
      · exact (h.closesNone hpolls).1
    exact h.attended.move_of_ne_wait h.sound hmove hundisturbed
      fun events heq => hwaits ⟨events, heq⟩

/-- What the machines do next keeps them in tandem, and they do the same. -/
theorem move
    (h : Tandem e m n) (hmove : Move m act m') (hmove' : Move n act' n')
    (hprompt : act'.prompt = act.prompt) (hshared : Shared e ⟨m, act, m'⟩ ⟨n, act', n'⟩) :
    act' = act ∧ Tandem e m' n' := by
  obtain ⟨hclock, hobliges, hobliges', hrange, hpolls, hrows⟩ := hshared
  obtain ⟨hcloses, hcloses'⟩ := h.closesNone hpolls
  have hmasks : act = .world → ∀ fd,
      m'.host.kernel.mask? e.number fd = m.host.kernel.mask? e.number fd := by
    intro hact fd
    rw [Kernel.mask?_eq, Kernel.mask?_eq]
    exact congrArg _ (hrows hact fd)
  obtain ⟨rfl, htwin⟩ := h.twin.move h.callsOnly (fun hc => h.waitsAlike (hpolls hc)) hrange
    hmove hmove' hprompt hclock
  have hcalm : Calm m act' m' := calm_of_obliges hobliges hcloses fun hact e' he' fd => by
    cases h.twin.epoll.symm.trans he'
    exact hmasks hact fd
  have hcalm' : Calm n act' n' := calm_of_obliges hobliges' hcloses' fun _ e' he' => by
    obtain ⟨-, -, ⟨host, t, hub, tick, rfl⟩, -⟩ := h.twin
    cases he'
  obtain ⟨A, hr, hA⟩ := h.calls
  exact ⟨rfl,
    { twin := htwin
      sound := h.sound.move hmove
      sound' := h.sound'.move hmove'
      mirrored := h.mirrored.move h.sound hmove hcalm
      mirrored' := h.mirrored'.move h.sound' hmove' hcalm'
      attended := h.attended_move hpolls hrows hmove
      calls := ⟨A.after act', (represents_move h.sound hr hmove).1, hA.after act'⟩
      obliges := hobliges
      obliges' := hobliges' }⟩

/-- A request that the machines can take comes to the same. -/
theorem answer_eq
    (h : Tandem e m n) {r : Request H} (hr : InRange r) :
    n.answer r = m.answer r := by
  refine ((matches_perform h.twin hr).outcome_eq
    (unrejected_perform h.sound h.mirrored (admits_of_obliges h.obliges r))
    (unrejected_perform h.sound' h.mirrored' (admits_of_obliges h.obliges' r)) ?_).symm
  rintro ⟨reply, m₁⟩ ⟨reply', n₁⟩ ⟨heq, -⟩
  exact heq

/-- The dispatchers of the machines go on alike. -/
theorem onward_eq
    (h : Tandem e m n) (hpolls : m.control = .dispatching .wait → m.PollsAlike e n) :
    n.onward = m.onward := by
  obtain ⟨hcloses, hcloses'⟩ := h.closesNone hpolls
  have hmatches := matches_step h.twin h.callsOnly fun hc => h.waitsAlike (hpolls hc)
  refine (hmatches.outcome_eq (unrejected_step h.sound h.mirrored hcloses)
    (unrejected_step h.sound' h.mirrored' hcloses') ?_).symm
  exact fun _ _ htwin => htwin.control.symm

end Tandem

/-- Courses that are driven alike keep the machines in tandem. -/
theorem Tandem.course
    {behaviour : List (Act H × View H) → Prompt H} {pairs : List (Transition H × Transition H)}
    (h : Tandem e m n) (hcourse : Course m (pairs.map Prod.fst) m')
    (hcourse' : Course n (pairs.map Prod.snd) n')
    (hdirected : Directed behaviour (pairs.map Prod.fst))
    (hdirected' : Directed behaviour (pairs.map Prod.snd))
    (hshared : ∀ p ∈ pairs, Shared e p.1 p.2) :
    (∀ p ∈ pairs, p.2.sight = p.1.sight) ∧ Tandem e m' n' := by
  induction pairs using List.reverseRecOn generalizing m' n' with
  | nil =>
      rw [hcourse.eq_of_nil, hcourse'.eq_of_nil]
      exact ⟨fun p hp => absurd hp List.not_mem_nil, h⟩
  | append_singleton pairs last ih =>
      obtain ⟨s, s'⟩ := last
      rw [List.map_append, List.map_singleton] at hcourse hcourse' hdirected hdirected'
      obtain ⟨hfirst, hmove, rfl⟩ := hcourse.last
      obtain ⟨hfirst', hmove', rfl⟩ := hcourse'.last
      obtain ⟨hsights, htandem⟩ := ih hfirst hfirst' hdirected.of_append hdirected'.of_append
        fun p hp => hshared p (List.mem_append_left _ hp)
      -- What was seen before is the same, so both machines are prompted alike.
      have hseen : (pairs.map Prod.snd).map Transition.sight =
          (pairs.map Prod.fst).map Transition.sight := by
        rw [List.map_map, List.map_map]
        exact List.map_congr_left hsights
      have hprompt : s'.act.prompt = s.act.prompt := by
        rw [hdirected _ s [] rfl, hdirected' _ s' [] rfl, hseen]
      have hlast := hshared (s, s') (List.mem_append_right _ List.mem_cons_self)
      obtain ⟨hact, htandem'⟩ := htandem.move hmove hmove' hprompt hlast
      refine ⟨fun p hp => ?_, htandem'⟩
      rcases List.mem_append.1 hp with hp | hp
      · exact hsights p hp
      · cases List.mem_singleton.1 hp
        exact Prod.ext hact htandem'.twin.view_eq

/-- A loop on epoll and a loop on select, both just built and neither receiving signals,
are driven alike: what code outside of dispatch and the handlers do depends only on what
was seen so far.  No call fails, no descriptor is closed, the clocks show the same, and
the waits find the same plain conditions.  Then move by move the same happens to both:
the same requests are made with the same replies, the same handlers run with the same
arguments, and what the loops answer about interest, descriptors and timers is the same.
And so it goes on: neither loop can do what the other cannot. -/
theorem epoll_and_select_agree
    {t : SelectTable} {behaviour : List (Act H × View H) → Prompt H}
    {pairs : List (Transition H × Transition H)} (hm : Built m) (hn : Built n)
    (he : m.loop.backend = .epoll e) (ht : n.loop.backend = .select t)
    (hpipe : m.loop.pipe = none) (hpipe' : n.loop.pipe = none) (hclock : n.clock = m.clock)
    (hobliges : m.host.kernel.Obliges) (hobliges' : n.host.kernel.Obliges)
    (hcourse : Course m (pairs.map Prod.fst) m') (hcourse' : Course n (pairs.map Prod.snd) n')
    (hdirected : Directed behaviour (pairs.map Prod.fst))
    (hdirected' : Directed behaviour (pairs.map Prod.snd))
    (hshared : ∀ p ∈ pairs, Shared e p.1 p.2) :
    (∀ p ∈ pairs, p.2.sight = p.1.sight) ∧ n'.view = m'.view ∧
      (∀ r, InRange r → n'.answer r = m'.answer r) ∧
      ((m'.control = .dispatching .wait → m'.PollsAlike e n') → n'.onward = m'.onward) := by
  have hbuilt := Built.tandem hm hn he ht hpipe hpipe' hclock hobliges hobliges'
  obtain ⟨hsights, htandem⟩ := hbuilt.course hcourse hcourse' hdirected hdirected' hshared
  exact ⟨hsights, htandem.twin.view_eq, fun _ => htandem.answer_eq, htandem.onward_eq⟩

/-- A behaviour that follows a log, whatever is seen. -/
def rehearsed (log : List (Act H)) (seen : List (Act H × View H)) : Prompt H :=
  log[seen.length]?.elim .step Act.prompt

theorem directed_rehearsed
    {steps : List (Transition H)} {log : List (Act H)} (h : steps.map (·.act) = log) :
    Directed (rehearsed log) steps := by
  rintro before s after rfl
  subst h
  simp [rehearsed]

/-- Two courses with the given log that have in common what they should, if following
cues shows that. -/
theorem exists_courses_of_trail
    [DecidableEq H] (log : List (Act H)) (cues : List (Cue H))
    (h : ((m.trail cues).bind fun steps => (n.trail cues).map fun steps' =>
      (steps.map (·.act), steps'.map (·.act),
        decide (∀ p ∈ steps.zip steps', SharedChecks e p.1 p.2))) = some (log, log, true)) :
    ∃ (pairs : List (Transition H × Transition H)) (m' n' : Machine H),
      Course m (pairs.map Prod.fst) m' ∧ Course n (pairs.map Prod.snd) n' ∧
      (pairs.map Prod.fst).map (·.act) = log ∧ (pairs.map Prod.snd).map (·.act) = log ∧
      ∀ p ∈ pairs, Shared e p.1 p.2 := by
  obtain ⟨steps, htrail, h⟩ := Option.bind_eq_some_iff.1 h
  obtain ⟨steps', htrail', h⟩ := Option.map_eq_some_iff.1 h
  obtain ⟨hlog, h⟩ := Prod.mk.inj h
  obtain ⟨hlog', hchecks⟩ := Prod.mk.inj h
  obtain ⟨m', hcourse⟩ := course_of_trail htrail
  obtain ⟨n', hcourse'⟩ := course_of_trail htrail'
  have hlength : steps.length = steps'.length := by
    rw [← List.length_map (·.act), hlog, ← hlog', List.length_map]
  have hfst := List.map_fst_zip hlength.le
  have hsnd := List.map_snd_zip hlength.ge
  refine ⟨steps.zip steps', m', n', ?_⟩
  rw [hfst, hsnd]
  exact ⟨hcourse, hcourse', hlog, hlog', fun p hp => (of_decide_eq_true hchecks p hp).shared⟩

/-- A descriptor is registered for receiving once and for sending, and it is ready for
both at two waits.  Each of the handlers runs after the first wait, and after the second
one only that for sending, which then asks for the interest. -/
def onceLog : List (Act Nat) :=
  [Act.request (.setFd 5 (.recv ∪ .oneshot) .unlimited 1) .done,
    .request (.setFd 5 (.send ∪ .append) .unlimited 2) .done, .request .dispatch .done] ++
  List.replicate 7 Act.advance ++ [Act.wait [⟨5, ⟨true, true, false⟩⟩]] ++
  List.replicate 4 Act.advance ++
  [Act.fire 5 .recv (.call 1), .resume, .fire 5 .send (.call 2), .resume] ++
  List.replicate 5 Act.advance ++ [Act.wait [⟨5, ⟨false, true, false⟩⟩]] ++
  List.replicate 4 Act.advance ++
  [Act.fire 5 .send (.call 2), .request (.interest 5) (.interest (some (.single .send))),
    .resume]

theorem epoll_and_select_agree_onceLog :
    ∃ m n m' n' : Machine Nat, ∃ pairs : List (Transition Nat × Transition Nat),
      Built m ∧ Built n ∧ m.loop.backend = .epoll ⟨0, 64⟩ ∧ n.loop.backend = .select {} ∧
      Course m (pairs.map Prod.fst) m' ∧ Course n (pairs.map Prod.snd) n' ∧
      (pairs.map Prod.fst).map (·.act) = onceLog ∧ (∀ p ∈ pairs, p.2.sight = p.1.sight) ∧
      n'.view = m'.view ∧ (∀ r, InRange r → n'.answer r = m'.answer r) ∧
      ((m'.control = .dispatching .wait → m'.PollsAlike ⟨0, 64⟩ n') → n'.onward = m'.onward) := by
  have hbuilt := built_scriptedEpoll Nat
    (List.replicate 2 { events := [(5, { input := true, output := true })] })
  have hbuilt' := built_scripted Nat
    (List.replicate 2 { events := [(5, { input := true, output := true })] })
  obtain ⟨pairs, m', n', hcourse, hcourse', hlog, hlog', hshared⟩ :=
    exists_courses_of_trail (e := ⟨0, 64⟩) onceLog
      (m := scriptedEpoll Nat
        (List.replicate 2 { events := [(5, { input := true, output := true })] }))
      (n := scripted Nat
        (List.replicate 2 { events := [(5, { input := true, output := true })] }))
      (List.flatten [
        [.request (.setFd 5 (.recv ∪ .oneshot) .unlimited 1),
          .request (.setFd 5 (.send ∪ .append) .unlimited 2), .request .dispatch],
        List.replicate 13 .step, [.resume, .step, .resume], List.replicate 11 .step,
        [.request (.interest 5), .resume]])
      (by decide +kernel)
  obtain ⟨hsights, hview, hanswer, honward⟩ := epoll_and_select_agree hbuilt hbuilt' rfl rfl rfl
    rfl rfl (by decide) (by decide) hcourse hcourse' (directed_rehearsed hlog)
    (directed_rehearsed hlog') hshared
  exact ⟨_, _, m', n', pairs, hbuilt, hbuilt', rfl, rfl, hcourse, hcourse', hlog, hsights, hview,
    hanswer, honward⟩

end Machine
end CallbackLoop
