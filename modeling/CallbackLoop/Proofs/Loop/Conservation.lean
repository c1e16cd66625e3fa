import CallbackLoop.Proofs.Loop.Course
import CallbackLoop.Proofs.Loop.Schedule
import CallbackLoop.Proofs.Loop.Timing

/-!
# Conservation of timers

No timer is lost or doubled.  Along a course every timer that was set is pending, or
its handler ran once, or one request cancelled it.  What carries this through passes,
requests and breaks is that every move schedules, cancels or fires at most one timer,
and that no handle is given out twice.
-/

namespace CallbackLoop

variable {H : Type}

/-- Whether the dispatcher is in a pass over timers, or has ended the last one of the
iteration and not yet waited. -/
def Phase.isTimed : Phase H → Bool
  | timers _ _ => true
  | settled => true
  | wait => true
  | _ => false

/-- The pass over timers that can begin in a phase. -/
def Phase.opens? : Phase H → Option TimerPass
  | called => some .early
  | timeouts _ _ => some .late
  | _ => none

/-- Where the dispatcher goes on after a pass over timers. -/
def TimerPass.next : TimerPass → Phase H
  | early => .ready
  | late => .settled

/-- Whether timers are about to be fired, or the last pass of the iteration is over. -/
def Control.isTimed : Control H → Bool
  | idle => false
  | dispatching phase => phase.isTimed
  | running (.timer _) _ => true
  | running _ next => next.isTimed

/-- Whether a move is a request about a timer. -/
def Act.isTimer : Act H → Bool
  | request r _ => r.isTimer
  | _ => false

/-- Whether a timer is pending. -/
def Machine.pending (m : Machine H) (id : Handle) : Bool :=
  (m.loop.timers.timer? id).isSome

namespace Transition

/-- The timer that a request is answered with. -/
def scheduled? (s : Transition H) : Option Handle :=
  match s.act with
  | .request (.setTimer _ _) (.timer id) => some id
  | _ => none

/-- Whether a request to cancel a timer is told that the timer was pending. -/
def cancels (s : Transition H) (id : Handle) : Bool :=
  match s.act with
  | .request (.cancelTimer other) (.cancelled true) => other = id
  | _ => false

/-- Whether the dispatcher takes a timer out and starts its handler. -/
def fires (s : Transition H) (id : Handle) : Bool :=
  match s.before.control, s.after.control with
  | .dispatching (.timers _ _), .running (.timer _) _ =>
      s.before.pending id && !s.after.pending id
  | _, _ => false

/-- The handler that the dispatcher starts for a timer. -/
def timerStarted? (s : Transition H) : Option H :=
  match s.before.control, s.after.control with
  | .dispatching _, .running (.timer handler) _ => some handler
  | _, _ => none

/-- The pass over timers that begins, with the instant up to which it fires them. -/
def pass? (s : Transition H) : Option (TimerPass × Nat) :=
  match s.before.control, s.after.control with
  | .dispatching .called, .dispatching (.timers .early now) => some (.early, now)
  | .dispatching (.timeouts _ _), .dispatching (.timers .late now) => some (.late, now)
  | _, _ => none

variable {s : Transition H} {id : Handle}

theorem scheduled?_eq_some_iff :
    s.scheduled? = some id ↔
      ∃ delay handler, s.act = .request (.setTimer delay handler) (.timer id) := by
  unfold scheduled?
  constructor
  · intro h
    split at h
    next delay handler other hact =>
        cases h
        exact ⟨delay, handler, hact⟩
    next =>
        cases h
  · rintro ⟨delay, handler, hact⟩
    rw [hact]

theorem cancels_eq_true_iff :
    s.cancels id = true ↔ s.act = .request (.cancelTimer id) (.cancelled true) := by
  unfold cancels
  constructor
  · intro h
    split at h
    next other hact =>
        rw [hact, of_decide_eq_true h]
    next =>
        cases h
  · intro hact
    rw [hact]
    exact decide_eq_true rfl

theorem cancels_eq_false
    (id : Handle) (hact : s.act.isTimer = false) :
    s.cancels id = false := by
  rw [← Bool.not_eq_true, cancels_eq_true_iff]
  intro heq
  rw [heq] at hact
  cases hact

/-- A timer fires only in a pass over timers. -/
theorem fires_eq_false
    (h : ∀ pass now, s.before.control ≠ .dispatching (.timers pass now)) :
    s.fires id = false := by
  unfold fires
  split
  next pass now _ _ hbefore _ =>
      exact absurd hbefore (h pass now)
  next =>
      rfl

theorem pass?_eq_none
    (h : ∀ phase, s.before.control = .dispatching phase → phase.opens? = none) :
    s.pass? = none := by
  unfold pass?
  split
  next hbefore _ =>
      cases h _ hbefore
  next hbefore _ =>
      cases h _ hbefore
  next =>
      rfl

end Transition

namespace Machine

variable {m m' m'' : Machine H} {act : Act H} {steps : List (Transition H)} {id : Handle}

/-- What no request changes: the iteration, a break, timers unless it is about one, and
where the dispatcher goes on, unless it starts. -/
theorem frame_perform
    {r : Request H} {reply : Reply} (hperform : m.perform r = .ok (reply, m')) :
    m'.loop.iteration = m.loop.iteration ∧ (m.loop.broken = true → m'.loop.broken = true) ∧
      (m'.control = m.control ∨
        m.loop.dispatching = false ∧ m'.control = .dispatching .start) ∧
      (r.isTimer = false → m'.loop.timers = m.loop.timers) := by
  cases perform_ok hperform with
  | cleared hclear | unset hclear =>
      rcases clearFd_ok hclear with ⟨-, rfl⟩ | ⟨slot, d, b, k, -, -, -, rfl⟩ <;>
        exact ⟨rfl, id, .inl rfl, fun _ => rfl⟩
  | refused _ | handled _ _ =>
      exact ⟨rfl, id, .inl rfl, fun _ => rfl⟩
  | registered _ _ _ hreg =>
      obtain ⟨b, k, q, -, -, rfl⟩ := hreg.result
      exact ⟨rfl, id, .inl rfl, fun _ => rfl⟩
  | aside haside =>
      obtain ⟨-, hiteration, -, htimers⟩ := frame_of_fd? haside.fd? hperform
      refine ⟨hiteration, haside.broken, ?_, htimers⟩
      rcases haside.control with ⟨hsame, -⟩ | ⟨hidle, -, hstart⟩
      · exact .inl hsame
      · exact .inr ⟨hidle, hstart⟩

/-- What a move does to the timers. -/
inductive TimerChange (m : Machine H) : Act H → Machine H → Prop
  | still {act : Act H} {m' : Machine H} :
      act.isTimer = false →
      m'.loop.timers = m.loop.timers →
      TimerChange m act m'
  | scheduled {delay : Nat} {handler : H} {id : Handle} {m' : Machine H} :
      m.control.isOpen = true →
      m.loop.timers.schedule (m.clock + delay) handler = (id, m'.loop.timers) →
      TimerChange m (.request (.setTimer delay handler) (.timer id)) m'
  | cancelled {id : Handle} {wasPending : Bool} {m' : Machine H} :
      m.control.isOpen = true →
      m.loop.timers.cancel id = (wasPending, m'.loop.timers) →
      TimerChange m (.request (.cancelTimer id) (.cancelled wasPending)) m'
  | fired {pass : TimerPass} {now : Nat} {timer : Timer H} {m' : Machine H} :
      m.control = .dispatching (.timers pass now) →
      m.loop.timers.takeDue? now = some (timer, m'.loop.timers) →
      m'.control = .running (.timer timer.handler) (.timers pass now) →
      TimerChange m .advance m'

theorem timerChange_perform
    {r : Request H} {reply : Reply} (hopen : m.control.isOpen = true)
    (hperform : m.perform r = .ok (reply, m')) :
    TimerChange m (.request r reply) m' := by
  cases r with
  | setTimer delay handler =>
      obtain ⟨⟨id, m₁⟩, hset, heq⟩ := Except.bind_eq_ok_iff.1 hperform
      cases heq
      unfold setTimer Time.after? at hset
      split at hset
      · cases hset
      next instant hinstant =>
          split at hinstant <;> cases hinstant
          cases hset
          exact .scheduled hopen rfl
  | cancelTimer id =>
      cases hperform
      exact .cancelled hopen rfl
  | _ =>
      exact .still rfl ((frame_perform hperform).2.2.2 rfl)

/-- What the dispatcher does with timers in each phase, and when an iteration begins. -/
inductive TimerMove (m : Machine H) : Phase H → Machine H → Prop
  | starts {m' : Machine H} :
      m'.loop.timers = m.loop.timers →
      m'.loop.iteration = m.loop.iteration + 1 →
      m'.control.isTimed = false →
      TimerMove m .start m'
  | apart {phase : Phase H} {m' : Machine H} :
      m'.loop.timers = m.loop.timers →
      m'.loop.iteration = m.loop.iteration →
      m'.control.isTimed = false →
      (phase = .start → m'.control = .idle) →
      TimerMove m phase m'
  | begins {phase : Phase H} {pass : TimerPass} {m' : Machine H} :
      phase.opens? = some pass →
      m'.loop.timers = m.loop.timers →
      m'.loop.iteration = m.loop.iteration →
      m'.control = .dispatching (.timers pass m.clock) →
      TimerMove m phase m'
  | fires {pass : TimerPass} {now : Nat} {timer : Timer H} {timers : TimerQueue H} :
      m.loop.timers.takeDue? now = some (timer, timers) →
      TimerMove m (.timers pass now)
        ({ m with loop := { m.loop with timers } }.invoke (.timer timer.handler)
          (.timers pass now))
  | ends {pass : TimerPass} {now : Nat} :
      m.loop.broken = true ∨ m.loop.timers.takeDue? now = none →
      TimerMove m (.timers pass now) (m.goTo pass.next)
  | waits :
      m.loop.broken = false →
      TimerMove m .settled (m.goTo .wait)

theorem timerMove_settle
    {slot clears : Nat} {pending : Directions} {m₁ : Machine H} {phase next : Phase H}
    (hsettle : m.settle slot clears pending = .ok m₁) (hphase : phase ≠ .start)
    (hnext : next.isTimed = false) :
    TimerMove m phase (m₁.goTo next) := by
  obtain ⟨d, -, ⟨-, rfl⟩ | ⟨-, b, k, -, rfl⟩⟩ := settle_ok hsettle <;>
    exact .apart rfl rfl hnext fun h => absurd h hphase

theorem timerMove_advance
    (h : m.Sound) {phase : Phase H} (hc : m.control = .dispatching phase)
    (hadvance : m.advance phase = .ok m') :
    TimerMove m phase m' := by
  have htable := h.table_of_dispatching hc
  cases phase with
  | start =>
      simp only [advance] at hadvance
      split at hadvance
      · cases hadvance
        exact .apart rfl rfl rfl fun _ => rfl
      · split at hadvance <;> cases hadvance <;> exact .starts rfl rfl rfl
  | called =>
      simp only [advance] at hadvance
      split at hadvance <;> cases hadvance
      · exact .apart rfl rfl rfl (by rintro ⟨⟩)
      · exact .begins rfl rfl rfl rfl
  | timers pass now =>
      simp only [advance] at hadvance
      split at hadvance
      next hbroken =>
          cases hadvance
          cases pass <;> exact .ends (.inl hbroken)
      next =>
          split at hadvance
          next hnone =>
              cases hadvance
              cases pass <;> exact .ends (.inr hnone)
          next hdue =>
              cases hadvance
              exact .fires hdue
  | ready =>
      simp only [advance] at hadvance
      split at hadvance
      · cases hadvance
        exact .apart rfl rfl rfl (by rintro ⟨⟩)
      · split at hadvance
        · cases hadvance
          exact .apart rfl rfl rfl (by rintro ⟨⟩)
        · obtain ⟨d, -, rfl⟩ := beginTurn_ok hadvance
          exact .apart rfl rfl rfl (by rintro ⟨⟩)
  | turn turn =>
      obtain ⟨d, -, hmove⟩ := advanceTurn_ok hadvance
      cases hmove with
      | ended _ hsettle =>
          exact timerMove_settle hsettle (by rintro ⟨⟩) rfl
      | unbound _ _ _ | called _ _ _ _ _ | delivered _ _ _ _ _ _ =>
          exact .apart rfl rfl rfl (by rintro ⟨⟩)
  | deliver signos turn =>
      cases signos <;> cases hadvance <;> exact .apart rfl rfl rfl (by rintro ⟨⟩)
  | signal signo left signos turn =>
      cases left with
      | nil =>
          cases hadvance
          exact .apart rfl rfl rfl (by rintro ⟨⟩)
      | cons r left =>
          simp only [advance] at hadvance
          split at hadvance <;> cases hadvance <;> exact .apart rfl rfl rfl (by rintro ⟨⟩)
  | timeouts now fds =>
      obtain ⟨t, q, hfold, -⟩ := follows_postpone now fds htable
      simp only [advance, hfold] at hadvance
      split at hadvance
      · cases hadvance
        exact .begins rfl rfl rfl rfl
      · split at hadvance
        · cases hadvance
          exact .begins rfl rfl rfl rfl
        · obtain ⟨slot, d, -, -, hexpiry⟩ := expire_ok hadvance
          cases hexpiry <;> exact .apart rfl rfl rfl (by rintro ⟨⟩)
  | timedOut slot clears now fds =>
      obtain ⟨m₁, hsettle, heq⟩ := Except.bind_eq_ok_iff.1 hadvance
      cases heq
      exact timerMove_settle hsettle (by rintro ⟨⟩) rfl
  | settled =>
      simp only [advance] at hadvance
      split at hadvance
      · cases hadvance
        exact .apart rfl rfl rfl (by rintro ⟨⟩)
      next hbroken =>
          cases hadvance
          exact .waits (Bool.not_eq_true _ ▸ hbroken)
  | wait =>
      obtain ⟨m₁, hawait, heq⟩ := Except.bind_eq_ok_iff.1 hadvance
      cases heq
      obtain ⟨host, b, t, rfl, -⟩ := awaitEvents_sound htable hawait
      exact .apart rfl rfl rfl (by rintro ⟨⟩)

/-- What a move does to the timers. -/
theorem timerChange_move
    (h : m.Sound) (hmove : Move m act m') :
    TimerChange m act m' := by
  cases hmove with
  | request hopen hperform =>
      exact timerChange_perform hopen hperform
  | resume hc =>
      rw [resume_eq hc]
      exact .still rfl rfl
  | world host =>
      exact .still rfl rfl
  | @step _ phase hc hstep =>
      simp only [step, hc] at hstep
      have hstill : m'.loop.timers = m.loop.timers → TimerChange m (m.act m') m' := by
        refine .still ?_
        unfold act
        split
        · rfl
        · split <;> rfl
      cases timerMove_advance h hc hstep with
      | starts hsame _ _ | apart hsame _ _ _ =>
          exact hstill hsame
      | begins _ hsame _ _ =>
          exact hstill hsame
      | ends _ | waits _ =>
          exact hstill rfl
      | fires hdue =>
          rw [act_eq_advance hc (by rintro _ ⟨⟩) (by rintro ⟨⟩)]
          exact .fired hc hdue rfl

/-- The timers that were set, in order. -/
def scheduled (steps : List (Transition H)) : List Handle :=
  steps.filterMap (·.scheduled?)

theorem scheduled_snoc
    (steps : List (Transition H)) (s : Transition H) :
    scheduled (steps ++ [s]) = scheduled steps ++ s.scheduled?.toList := by
  rw [scheduled, List.filterMap_append, List.filterMap_cons, List.filterMap_nil]
  cases s.scheduled? <;> rfl

theorem mem_scheduled_iff :
    id ∈ scheduled steps ↔
      ∃ s ∈ steps, ∃ delay handler, s.act = .request (.setTimer delay handler) (.timer id) := by
  simp only [scheduled, List.mem_filterMap, Transition.scheduled?_eq_some_iff]

/-- The timers of a course add up, and what is pending is what was set. -/
structure Accounted (steps : List (Transition H)) (m : Machine H) : Prop where
  settled : m.loop.timers.Settled
  distinct : (scheduled steps).Nodup
  old : ∀ id ∈ scheduled steps, id.serial < m.loop.timers.nextSerial
  balanced : ∀ id,
    (m.pending id).toNat + steps.countP (·.fires id) + steps.countP (·.cancels id) =
      (scheduled steps).count id
  kept : ∀ id timer, m.loop.timers.timer? id = some timer →
    ∀ s ∈ steps, ∀ delay handler, s.act = .request (.setTimer delay handler) (.timer id) →
      timer.handler = handler ∧ timer.deadline = s.before.clock + delay

/-- A pending timer was set. -/
theorem Accounted.mem_scheduled
    (h : Accounted steps m) (hpending : m.pending id = true) :
    id ∈ scheduled steps := by
  have hbalanced := h.balanced id
  rw [hpending] at hbalanced
  refine List.count_pos_iff.1 ?_
  rw [← hbalanced, Bool.toNat_true]
  omega

theorem accounted_nil
    (h : m.loop.timers = {}) :
    Accounted [] m where
  settled := by
    rw [h]
    exact TimerQueue.settled_empty
  distinct := List.nodup_nil
  old := nofun
  balanced id := by
    rw [pending, h, TimerQueue.timer?_empty]
    rfl
  kept _ _ _ _ hs := nomatch hs

theorem scheduled?_eq_none
    (hact : act.isTimer = false) :
    Transition.scheduled? ⟨m, act, m'⟩ = none := by
  rw [Option.eq_none_iff_forall_ne_some]
  intro id hid
  obtain ⟨delay, handler, heq⟩ := Transition.scheduled?_eq_some_iff.1 hid
  cases heq
  cases hact

theorem Accounted.still
    (h : Accounted steps m) (hact : act.isTimer = false)
    (hsame : m'.loop.timers = m.loop.timers) :
    Accounted (steps ++ [⟨m, act, m'⟩]) m' := by
  have hpending : m'.pending = m.pending := by
    funext id
    rw [pending, hsame, pending]
  have hcancels : ∀ id, Transition.cancels ⟨m, act, m'⟩ id = false :=
    fun id => Transition.cancels_eq_false id hact
  have hfires : ∀ id, Transition.fires ⟨m, act, m'⟩ id = false := by
    intro id
    unfold Transition.fires
    split
    · rw [hpending, Bool.and_not_self]
    · rfl
  have hlist : scheduled (steps ++ [⟨m, act, m'⟩]) = scheduled steps := by
    rw [scheduled_snoc, scheduled?_eq_none hact, Option.toList_none, List.append_nil]
  refine ⟨?_, ?_, ?_, ?_, ?_⟩
  · rw [hsame]
    exact h.settled
  · rw [hlist]
    exact h.distinct
  · rw [hlist, hsame]
    exact h.old
  · intro id
    rw [hlist, ← h.balanced id, hpending]
    simp [List.countP_append, hfires, hcancels]
  · intro id timer htimer s hs delay handler hset
    rw [hsame] at htimer
    rcases List.mem_append.1 hs with hs | hs
    · exact h.kept id timer htimer s hs delay handler hset
    · cases List.mem_singleton.1 hs
      cases hset
      cases hact

/-- A new timer is pending, under a handle that was not given out before. -/
theorem Accounted.schedules
    {delay : Nat} {handler : H} (h : Accounted steps m) (hopen : m.control.isOpen = true)
    (hschedule : m.loop.timers.schedule (m.clock + delay) handler = (id, m'.loop.timers)) :
    Accounted (steps ++ [⟨m, .request (.setTimer delay handler) (.timer id), m'⟩]) m' := by
  obtain ⟨hsettled, hlookup, hserial, hnext⟩ :=
    TimerQueue.schedule_spec h.settled (m.clock + delay) handler
  rw [hschedule] at hsettled hlookup hserial hnext
  have hnew : id ∉ scheduled steps := by
    intro hid
    have hlt := h.old id hid
    rw [hserial] at hlt
    exact Nat.lt_irrefl _ hlt
  have hlist : scheduled
      (steps ++ [⟨m, .request (.setTimer delay handler) (.timer id), m'⟩]) =
      scheduled steps ++ [id] :=
    scheduled_snoc steps _
  have hpending : ∀ other, m'.pending other = (decide (other = id) || m.pending other) := by
    intro other
    rw [pending, hlookup, Function.update_apply]
    by_cases heq : other = id <;> simp [heq, pending]
  have hfires : ∀ other, Transition.fires
      ⟨m, .request (.setTimer delay handler) (.timer id), m'⟩ other = false :=
    fun other => Transition.fires_eq_false fun pass now hc => by
      rw [show m.control = _ from hc] at hopen
      cases hopen
  have hcancels : ∀ other, Transition.cancels
      ⟨m, .request (.setTimer delay handler) (.timer id), m'⟩ other = false :=
    fun _ => rfl
  refine ⟨hsettled, ?_, ?_, ?_, ?_⟩
  · rw [hlist]
    exact h.distinct.append (List.nodup_singleton id) (by simpa using hnew)
  · intro other hother
    rw [hlist, List.mem_append, List.mem_singleton] at hother
    show other.serial < m'.loop.timers.nextSerial
    rw [hnext]
    rcases hother with hother | rfl
    · exact Nat.lt_succ_of_lt (h.old other hother)
    · exact hserial ▸ Nat.lt_succ_self _
  · intro other
    have hbalanced := h.balanced other
    rw [hlist, hpending, List.countP_append, List.countP_append, List.count_append,
      List.countP_singleton, List.countP_singleton, hfires, hcancels]
    by_cases heq : other = id
    · subst heq
      rw [List.count_eq_zero_of_not_mem hnew] at hbalanced ⊢
      simp
      omega
    · have hne : ¬id = other := fun h => heq h.symm
      simp [heq, hne]
      omega
  · intro other timer htimer s hs delay' handler' hset
    rw [hlookup, Function.update_apply] at htimer
    rw [List.mem_append, List.mem_singleton] at hs
    split at htimer
    next heq =>
        subst heq
        cases htimer
        rcases hs with hs | rfl
        · exact absurd (mem_scheduled_iff.2 ⟨s, hs, delay', handler', hset⟩) hnew
        · cases hset
          exact ⟨rfl, rfl⟩
    next hne =>
        rcases hs with hs | rfl
        · exact h.kept other timer htimer s hs delay' handler' hset
        · cases hset
          exact absurd rfl hne

theorem pending_of_left
    (hlookup : m'.loop.timers.timer? = Function.update m.loop.timers.timer? id none)
    (other : Handle) :
    m'.pending other = (!decide (other = id) && m.pending other) := by
  rw [pending, hlookup, Function.update_apply]
  by_cases heq : other = id <;> simp [heq, pending]

/-- A timer that leaves the queue was cancelled or fired. -/
theorem Accounted.left
    {s : Transition H} (h : Accounted steps m) (hsettled : m'.loop.timers.Settled)
    (hlookup : m'.loop.timers.timer? = Function.update m.loop.timers.timer? id none)
    (hnext : m'.loop.timers.nextSerial = m.loop.timers.nextSerial)
    (hscheduled : s.scheduled? = none)
    (hgone : ∀ other, (s.fires other).toNat + (s.cancels other).toNat =
      (decide (other = id) && m.pending other).toNat) :
    Accounted (steps ++ [s]) m' := by
  have hlist : scheduled (steps ++ [s]) = scheduled steps := by
    rw [scheduled_snoc, hscheduled, Option.toList_none, List.append_nil]
  refine ⟨hsettled, ?_, ?_, ?_, ?_⟩
  · rw [hlist]
    exact h.distinct
  · rw [hlist, hnext]
    exact h.old
  · intro other
    have hbalanced := h.balanced other
    have hother := hgone other
    rw [hlist, pending_of_left hlookup, List.countP_append, List.countP_append,
      List.countP_singleton, List.countP_singleton]
    revert hother hbalanced
    cases decide (other = id) <;> cases m.pending other <;> cases s.fires other <;>
      cases s.cancels other <;> simp <;> omega
  · intro other timer htimer t ht delay handler hset
    rw [hlookup, Function.update_apply] at htimer
    split at htimer
    · cases htimer
    · rcases List.mem_append.1 ht with ht | ht
      · exact h.kept other timer htimer t ht delay handler hset
      · cases List.mem_singleton.1 ht
        rw [Transition.scheduled?_eq_some_iff.2 ⟨delay, handler, hset⟩] at hscheduled
        cases hscheduled

theorem fires_of_left
    {pass : TimerPass} {now : Nat} {timer : Timer H}
    (hc : m.control = .dispatching (.timers pass now))
    (hnext : m'.control = .running (.timer timer.handler) (.timers pass now))
    (hid : m.pending id = true)
    (hlookup : m'.loop.timers.timer? = Function.update m.loop.timers.timer? id none)
    (other : Handle) :
    Transition.fires ⟨m, act, m'⟩ other = decide (other = id) := by
  unfold Transition.fires
  simp only [hc, hnext]
  rw [pending_of_left hlookup]
  by_cases heq : other = id
  · subst heq
    simp [hid]
  · simp [heq]

theorem Accounted.move
    (h : Accounted steps m) (hchange : TimerChange m act m') :
    Accounted (steps ++ [⟨m, act, m'⟩]) m' := by
  cases hchange with
  | still hact hsame =>
      exact h.still hact hsame
  | scheduled hopen hschedule =>
      exact h.schedules hopen hschedule
  | @cancelled id wasPending _ hopen hcancel =>
      obtain ⟨hwas, hsettled, hlookup, hnext⟩ := TimerQueue.cancel_spec h.settled id
      rw [hcancel] at hwas hsettled hlookup hnext
      refine h.left hsettled hlookup hnext rfl fun other => ?_
      rw [Transition.fires_eq_false fun pass now hc => ?_]
      · have hpending : m.pending id = wasPending := hwas.symm
        by_cases heq : other = id
        · subst heq
          cases wasPending <;> simp [Transition.cancels, hpending]
        · have hne : ¬id = other := fun h => heq h.symm
          cases wasPending <;> simp [Transition.cancels, heq, hne]
      · rw [show m.control = _ from hc] at hopen
        cases hopen
  | @fired pass now timer _ hc hdue hnext =>
      rcases TimerQueue.takeDue?_cases h.settled now with ⟨hnone, -⟩ |
        ⟨id, timer', q, hsome, hsettled, hid, -, hlookup, hserial⟩
      · rw [hnone] at hdue
        cases hdue
      · cases hsome.symm.trans hdue
        have hpending : m.pending id = true := by
          rw [pending, hid]
          rfl
        refine h.left hsettled hlookup hserial rfl fun other => ?_
        rw [fires_of_left hc hnext hpending hlookup]
        by_cases heq : other = id
        · subst heq
          simp [Transition.cancels, hpending]
        · simp [Transition.cancels, heq]

theorem Built.timers
    (h : Built m) :
    m.loop.timers = {} := by
  rcases h.blank_or_registers with hblank | ⟨m₀, fd, d, d', kernel, hblank, hreg⟩
  · exact hblank.timers
  · obtain ⟨b, k, q, -, -, rfl⟩ := hreg.result
    exact hblank.timers

theorem Course.accounted
    (hcourse : Course m steps m') (hbuilt : Built m) :
    Accounted steps m' := by
  induction hcourse with
  | nil =>
      exact accounted_nil hbuilt.timers
  | snoc hfirst hmove ih =>
      exact ih.move (timerChange_move (hfirst.run.sound hbuilt.sound) hmove)

/-- The last pass over timers that began, with the instant up to which it fires them. -/
def LastPass (steps : List (Transition H)) (pass : TimerPass) (now iteration : Nat) : Prop :=
  ∃ early s late, steps = early ++ s :: late ∧ s.pass? = some (pass, now) ∧
    s.before.clock = now ∧ s.before.loop.iteration = iteration ∧ ∀ t ∈ late, t.pass? = none

/-- No pending timer is due by an instant. -/
def NoneDue (m : Machine H) (now : Nat) : Prop :=
  ∀ id timer, m.loop.timers.timer? id = some timer → now < timer.deadline

/-- What is known of the last pass over timers in a phase, from its beginning to the
wait. -/
def PassingAt (steps : List (Transition H)) (m : Machine H) : Phase H → Prop
  | .timers pass now => LastPass steps pass now m.loop.iteration
  | .settled =>
      m.control.isOpen = false ∧ ∃ now, LastPass steps .late now m.loop.iteration ∧
        (m.loop.broken = true ∨ m.NoneDue now)
  | .wait =>
      m.control.isOpen = false ∧ ∃ now, LastPass steps .late now m.loop.iteration ∧
        m.NoneDue now
  | _ => True

/-- What is known of the last pass over timers. -/
def Passing (steps : List (Transition H)) (m : Machine H) : Prop :=
  ∀ phase, m.control.phase? = some phase → PassingAt steps m phase

theorem LastPass.snoc
    {s : Transition H} {pass : TimerPass} {now iteration : Nat}
    (h : LastPass steps pass now iteration) (hs : s.pass? = none) :
    LastPass (steps ++ [s]) pass now iteration := by
  obtain ⟨early, t, late, rfl, ht, hclock, hiteration, hlate⟩ := h
  refine ⟨early, t, late ++ [s], by simp, ht, hclock, hiteration, ?_⟩
  intro t' ht'
  rcases List.mem_append.1 ht' with ht' | ht'
  · exact hlate t' ht'
  · rwa [List.mem_singleton.1 ht']

theorem lastPass_begins
    {s : Transition H} {pass : TimerPass} (hs : s.pass? = some (pass, s.before.clock)) :
    LastPass (steps ++ [s]) pass s.before.clock s.before.loop.iteration :=
  ⟨steps, s, [], rfl, hs, rfl, rfl, fun _ ht => absurd ht List.not_mem_nil⟩

theorem passing_of_not_timed
    (h : m.control.isTimed = false) :
    Passing steps m := by
  intro phase hphase
  have hphase' : phase.isTimed = false := by
    cases hc : m.control with
    | idle =>
        rw [hc] at hphase
        cases hphase
    | dispatching next =>
        rw [hc] at h hphase
        cases hphase
        exact h
    | running invocation next =>
        rw [hc] at h hphase
        cases hphase
        cases invocation <;> first | exact h | cases h
  cases phase <;> trivial

/-- Passes do not begin while other code is in control. -/
theorem pass?_of_isOpen
    (hopen : m.control.isOpen = true) :
    Transition.pass? ⟨m, act, m'⟩ = none :=
  Transition.pass?_eq_none fun phase hc => by
    rw [show m.control = _ from hc] at hopen
    cases hopen

/-- What is known of a pass stays known if a move changes nothing about it. -/
theorem PassingAt.stays
    {s : Transition H} {phase : Phase H} (h : PassingAt steps m phase) (hs : s.pass? = none)
    (hiteration : m'.loop.iteration = m.loop.iteration)
    (hclosed : m.control.isOpen = false → m'.loop = m.loop ∧ m'.control.isOpen = false) :
    PassingAt (steps ++ [s]) m' phase := by
  cases phase with
  | timers pass now =>
      unfold PassingAt at h ⊢
      rw [hiteration]
      exact h.snoc hs
  | settled | wait =>
      obtain ⟨hcontrol, now, hlast, hdue⟩ := h
      obtain ⟨hloop, hcontrol'⟩ := hclosed hcontrol
      refine ⟨hcontrol', now, ?_, ?_⟩
      · rw [hloop]
        exact hlast.snoc hs
      · unfold NoneDue at hdue ⊢
        rw [hloop]
        exact hdue
  | _ =>
      trivial

theorem Passing.move
    (h : Passing steps m) (hsound : m.Sound) (hsettled : m.loop.timers.Settled)
    (hmove : Move m act m') :
    Passing (steps ++ [⟨m, act, m'⟩]) m' := by
  intro phase' hphase'
  cases hmove with
  | request hopen hperform =>
      obtain ⟨hiteration, -, hsame | ⟨-, hstart⟩, -⟩ := frame_perform hperform
      · rw [hsame] at hphase'
        refine (h phase' hphase').stays (pass?_of_isOpen hopen) hiteration fun hclosed => ?_
        rw [hopen] at hclosed
        cases hclosed
      · exact passing_of_not_timed (by rw [hstart]; rfl) phase' hphase'
  | @resume invocation next hc =>
      have hopen : m.control.isOpen = true := by
        rw [hc]
        rfl
      have hnone : Transition.pass? ⟨m, .resume, m.resume⟩ = none := pass?_of_isOpen hopen
      rw [resume_eq hc] at hphase' hnone ⊢
      cases hphase'
      refine (h phase' (by rw [hc]; rfl)).stays hnone rfl fun hclosed => ?_
      rw [hopen] at hclosed
      cases hclosed
  | world host =>
      refine (h phase' hphase').stays ?_ rfl fun hclosed => ⟨rfl, hclosed⟩
      unfold Transition.pass?
      split
      next hbefore hafter =>
          cases hbefore.symm.trans hafter
      next hbefore hafter =>
          cases hbefore.symm.trans hafter
      next =>
          rfl
  | @step _ phase hc hstep =>
      simp only [step, hc] at hstep
      have hphase := h phase (by rw [hc]; rfl)
      have hnone : phase.opens? = none → Transition.pass? ⟨m, m.act m', m'⟩ = none := by
        refine fun hopens => Transition.pass?_eq_none fun other hother => ?_
        cases hc.symm.trans hother
        exact hopens
      cases timerMove_advance hsound hc hstep with
      | starts _ _ hnot | apart _ _ hnot _ =>
          exact passing_of_not_timed hnot phase' hphase'
      | @begins _ pass _ hopens _ hiteration hnext =>
          have hbegins : Transition.pass? ⟨m, m.act m', m'⟩ = some (pass, m.clock) := by
            unfold Transition.pass?
            cases phase <;> cases hopens <;> simp only [hc, hnext]
          rw [hnext] at hphase'
          cases hphase'
          unfold PassingAt
          rw [hiteration]
          exact lastPass_begins hbegins
      | fires _ =>
          cases hphase'
          exact LastPass.snoc hphase (hnone rfl)
      | @ends pass now hend =>
          cases hphase'
          cases pass with
          | early =>
              trivial
          | late =>
              refine ⟨rfl, now, LastPass.snoc hphase (hnone rfl), hend.imp_right fun htake => ?_⟩
              rcases TimerQueue.takeDue?_cases hsettled now with ⟨-, hlater⟩ |
                ⟨id, timer, q, hsome, -⟩
              · exact hlater
              · rw [htake] at hsome
                cases hsome
      | waits hbroken =>
          cases hphase'
          obtain ⟨-, now, hlast, hdue⟩ := hphase
          exact ⟨rfl, now, hlast.snoc (hnone rfl), hdue.resolve_left (by simp [hbroken])⟩

theorem Course.passing
    (hcourse : Course m steps m') (hbuilt : Built m) :
    Passing steps m' := by
  induction hcourse with
  | nil =>
      exact passing_of_not_timed (by rw [hbuilt.control]; rfl)
  | snoc hfirst hmove ih =>
      exact ih.move (hfirst.run.sound hbuilt.sound) (hfirst.accounted hbuilt).settled hmove

/-- The number of pending timers is the number of those that were set and are
pending. -/
theorem Accounted.timerCount_eq
    (h : Accounted steps m) :
    m.loop.timerCount = ((scheduled steps).filter m.pending).length := by
  refine (TimerQueue.length_eq_size h.settled (h.distinct.filter _) fun id => ?_).symm
  rw [List.mem_filter]
  exact and_iff_right_of_imp h.mem_scheduled

/-- A request to cancel a timer tells whether the timer is pending. -/
theorem Accounted.reply_of_cancelTimer
    {reply : Reply} (h : Accounted steps m)
    (hchange : TimerChange m (.request (.cancelTimer id) reply) m') :
    reply = .cancelled (m.pending id) := by
  cases hchange with
  | still hact _ =>
      cases hact
  | cancelled _ hcancel =>
      have hwas := (TimerQueue.cancel_spec h.settled id).1
      rw [hcancel] at hwas
      exact congrArg Reply.cancelled hwas

/-- The instant up to which a pass fires timers has come. -/
theorem LastPass.le_clock
    {pass : TimerPass} {now iteration : Nat} (h : LastPass steps pass now iteration)
    (hcourse : Course m steps m') (htimely : Timely steps) :
    now ≤ m'.clock := by
  obtain ⟨early, s, late, rfl, -, rfl, -, -⟩ := h
  exact hcourse.clock_le_of_mem htimely (List.mem_append_right _ List.mem_cons_self)

/-- A timer that fires was set before, and its instant has come. -/
theorem Course.timer_of_started
    {handler : H} (hcourse : Course m steps m') (hbuilt : Built m) (hmove : Move m' act m'')
    (hstarted : Transition.timerStarted? ⟨m', act, m''⟩ = some handler) :
    ∃ id s delay pass now,
      (∀ other, Transition.fires ⟨m', act, m''⟩ other = decide (other = id)) ∧
      s ∈ steps ∧ s.act = .request (.setTimer delay handler) (.timer id) ∧
      LastPass steps pass now m'.loop.iteration ∧ s.before.clock + delay ≤ now := by
  have hsound := hcourse.run.sound hbuilt.sound
  have haccounted := hcourse.accounted hbuilt
  obtain ⟨phase, next, hc, hnext⟩ :
      ∃ phase next, m'.control = .dispatching phase ∧
        m''.control = .running (.timer handler) next := by
    unfold Transition.timerStarted? at hstarted
    split at hstarted <;> cases hstarted
    exact ⟨_, _, ‹_›, ‹_›⟩
  cases hmove with
  | request hopen _ =>
      rw [hc] at hopen
      cases hopen
  | resume hrunning =>
      cases hrunning.symm.trans hc
  | world host =>
      cases hnext.symm.trans hc
  | @step _ phase' hc' hstep =>
      cases hc'.symm.trans hc
      simp only [step, hc] at hstep
      cases timerMove_advance hsound hc hstep with
      | starts _ _ hnot | apart _ _ hnot _ =>
          rw [hnext] at hnot
          cases hnot
      | begins _ _ _ hbegins =>
          cases hnext.symm.trans hbegins
      | ends _ | waits _ =>
          cases hnext
      | @fires pass now timer q hdue =>
          cases hnext
          rcases TimerQueue.takeDue?_cases haccounted.settled now with ⟨hnone, -⟩ |
            ⟨id, timer', q', hsome, -, hid, hle, hlookup, -⟩
          · rw [hnone] at hdue
            cases hdue
          · cases hsome.symm.trans hdue
            have hpending : m'.pending id = true := by
              rw [pending, hid]
              rfl
            obtain ⟨s, hs, delay, handler, hset⟩ :=
              mem_scheduled_iff.1 (haccounted.mem_scheduled hpending)
            obtain ⟨rfl, hdeadline⟩ := haccounted.kept id timer hid s hs delay handler hset
            refine ⟨id, s, delay, pass, now, fires_of_left hc rfl hpending hlookup, hs, hset,
              hcourse.passing hbuilt (.timers pass now) (by rw [hc]; rfl), ?_⟩
            rw [← hdeadline]
            exact hle

/-- Timers are neither lost nor doubled.  Every timer is pending, has fired once, or was
cancelled once; a request to cancel it tells whether it was pending; its handler starts
when its instant has come; and no pending timer is due when the loop waits. -/
theorem timers_are_conserved
    (hbuilt : Built m) (hcourse : Course m steps m') (htimely : Timely steps) :
    (scheduled steps).Nodup ∧
    (∀ id, (m'.pending id).toNat + steps.countP (·.fires id) + steps.countP (·.cancels id) =
      (scheduled steps).count id) ∧
    m'.loop.timerCount = ((scheduled steps).filter m'.pending).length ∧
    (∀ s ∈ steps, ∀ id reply, s.act = .request (.cancelTimer id) reply →
      reply = .cancelled (s.before.pending id)) ∧
    (∀ early s late handler, steps = early ++ s :: late → s.timerStarted? = some handler →
      ∃ id t delay pass now, (∀ other, s.fires other = decide (other = id)) ∧
        t ∈ early ∧ t.act = .request (.setTimer delay handler) (.timer id) ∧
        LastPass early pass now s.before.loop.iteration ∧
        t.before.clock + delay ≤ now ∧ now ≤ s.before.clock) ∧
    (m'.control = .dispatching .wait →
      ∃ now, LastPass steps .late now m'.loop.iteration ∧
        ∀ s ∈ steps, ∀ id delay handler, s.act = .request (.setTimer delay handler) (.timer id) →
          m'.pending id = true → now < s.before.clock + delay) := by
  have haccounted := hcourse.accounted hbuilt
  refine ⟨haccounted.distinct, haccounted.balanced, haccounted.timerCount_eq, ?_, ?_, ?_⟩
  · intro s hs id reply hact
    obtain ⟨early, late, rfl⟩ := List.append_of_mem hs
    obtain ⟨hfirst, hmove, -⟩ := hcourse.cut
    rw [hact] at hmove
    exact (hfirst.accounted hbuilt).reply_of_cancelTimer
      (timerChange_move (hfirst.run.sound hbuilt.sound) hmove)
  · rintro early s late handler rfl hstarted
    obtain ⟨hfirst, hmove, -⟩ := hcourse.cut
    obtain ⟨id, t, delay, pass, now, hfires, ht, hset, hlast, hle⟩ :=
      hfirst.timer_of_started hbuilt hmove hstarted
    exact ⟨id, t, delay, pass, now, hfires, ht, hset, hlast, hle,
      hlast.le_clock hfirst htimely.of_append_left⟩
  · intro hwait
    obtain ⟨-, now, hlast, hdue⟩ := hcourse.passing hbuilt .wait (by rw [hwait]; rfl)
    refine ⟨now, hlast, fun s hs id delay handler hset hpending => ?_⟩
    obtain ⟨timer, htimer⟩ := Option.isSome_iff_exists.1 hpending
    obtain ⟨-, hdeadline⟩ := haccounted.kept id timer htimer s hs delay handler hset
    rw [← hdeadline]
    exact hdue id timer htimer

/-- One timer is cancelled and one fires; each leaves its slot of the heap to a timer
that is set later, and does not answer to its handle again. -/
def reusedLog : List (Act Nat) :=
  [Act.request (.setTimer 0 1) (.timer ⟨0, 0⟩), .request (.setTimer 100 2) (.timer ⟨1, 1⟩),
    .request (.cancelTimer ⟨1, 1⟩) (.cancelled true),
    .request (.setTimer 100 3) (.timer ⟨1, 2⟩),
    .request (.cancelTimer ⟨1, 1⟩) (.cancelled false), .request .dispatch .done] ++
  List.replicate 3 Act.advance ++
  [Act.request (.cancelTimer ⟨0, 0⟩) (.cancelled false),
    .request (.setTimer 50 4) (.timer ⟨0, 3⟩), .resume] ++
  List.replicate 5 Act.advance

theorem timers_are_conserved_reusedLog :
    ∃ (m m' : Machine Nat) (steps : List (Transition Nat)), Built m ∧ Course m steps m' ∧
      Timely steps ∧ steps.map (·.act) = reusedLog ∧ m'.control = .dispatching .wait ∧
      m'.loop.timerCount = 2 ∧ m'.pending ⟨1, 2⟩ = true ∧
      steps.countP (·.cancels ⟨1, 1⟩) = 1 ∧ steps.countP (·.fires ⟨0, 0⟩) = 1 ∧
      ∃ now, LastPass steps .late now m'.loop.iteration ∧
        ∀ s ∈ steps, s.act = .request (.setTimer 50 4) (.timer ⟨0, 3⟩) →
          now < s.before.clock + 50 := by
  have hbuilt := built_scripted Nat []
  obtain ⟨steps, m', hcourse, htimely, hlog, hwait, hpending, hset, hcancels⟩ :=
    exists_timely_course_of_trail (m := scripted Nat []) reusedLog
      (fun steps m' => m'.control = .dispatching .wait ∧
        ([⟨0, 0⟩, ⟨1, 1⟩, ⟨1, 2⟩, ⟨0, 3⟩] : List Handle).map m'.pending =
          [false, false, true, true] ∧
        scheduled steps = [⟨0, 0⟩, ⟨1, 1⟩, ⟨1, 2⟩, ⟨0, 3⟩] ∧
        steps.countP (·.cancels ⟨0, 0⟩) = 0 ∧ steps.countP (·.fires ⟨1, 1⟩) = 0)
      ([.request (.setTimer 0 1), .request (.setTimer 100 2), .request (.cancelTimer ⟨1, 1⟩),
        .request (.setTimer 100 3), .request (.cancelTimer ⟨1, 1⟩), .request .dispatch] ++
        List.replicate 3 .step ++
        [.request (.cancelTimer ⟨0, 0⟩), .request (.setTimer 50 4), .resume] ++
        List.replicate 5 .step)
      (by decide +kernel)
  obtain ⟨-, hbalanced, hcount, -, -, hdue⟩ := timers_are_conserved hbuilt hcourse htimely
  simp only [List.map_cons, List.map_nil, List.cons.injEq, and_true] at hpending
  obtain ⟨hfired, hcancelled, hslot, hnew⟩ := hpending
  have hfired' := hbalanced ⟨0, 0⟩
  have hcancelled' := hbalanced ⟨1, 1⟩
  rw [hset, hfired, hcancels.1] at hfired'
  rw [hset, hcancelled, hcancels.2] at hcancelled'
  obtain ⟨now, hlast, hlater⟩ := hdue hwait
  refine ⟨_, m', steps, hbuilt, hcourse, htimely, hlog, hwait, ?_, hslot, ?_, ?_, now, hlast, ?_⟩
  · rw [hcount, hset]
    simp [hfired, hcancelled, hslot, hnew]
  · simpa using hcancelled'
  · simpa using hfired'
  · exact fun s hs hact => hlater s hs ⟨0, 3⟩ 50 4 hact hnew

end Machine
end CallbackLoop
