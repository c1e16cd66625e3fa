import CallbackLoop.Proofs.Loop.Agenda
import CallbackLoop.Proofs.Loop.Breaking

/-!
# Passes over due timers

A pass takes the head of the agenda again and again, while the handlers that it starts set
and cancel timers.  What has fired, followed by what is left of the agenda, is at every
moment the agenda at the beginning of the pass without the timers that were cancelled.
-/

namespace CallbackLoop

variable {H : Type}

/-- Whether a move is a request that makes dispatch return. -/
def Act.isBreak : Act H → Bool
  | request r _ => r.isBreak
  | _ => false

/-- The timer that the dispatcher takes out when it starts its handler. -/
def Transition.fired? (s : Transition H) : Option (Item (Timer H)) :=
  s.before.loop.timers.heap.items.find? fun x => s.fires x.handle

theorem Transition.fires_of_fired?
    {s : Transition H} {x : Item (Timer H)} (h : s.fired? = some x) :
    s.fires x.handle = true := by
  rw [fired?, List.find?_eq_some_iff_append] at h
  exact h.1

theorem Transition.fired?_eq_none
    {s : Transition H} (h : s.timerStarted? = none) :
    s.fired? = none := by
  refine List.find?_eq_none.2 fun x _ => ?_
  rw [Bool.not_eq_true]
  unfold fires
  unfold timerStarted? at h
  split
  next hbefore hafter =>
      simp only [hbefore, hafter] at h
      cases h
  next =>
      rfl

namespace Machine

variable {m m₀ m' : Machine H} {act : Act H} {prior steps : List (Transition H)}
  {pass : TimerPass} {now : Nat} {x : Item (Timer H)}

/-- The timers that fire, in order. -/
def firings (steps : List (Transition H)) : List (Item (Timer H)) :=
  steps.filterMap (·.fired?)

/-- A request breaks the loop if that is what it asks for. -/
theorem broken_perform
    {r : Request H} {reply : Reply} (hperform : m.perform r = .ok (reply, m')) :
    m'.loop.broken = (r.isBreak || m.loop.broken) := by
  cases perform_ok hperform with
  | cleared hclear | unset hclear =>
      rcases clearFd_ok hclear with ⟨-, rfl⟩ | ⟨slot, d, b, k, -, -, -, rfl⟩ <;> rfl
  | refused _ | handled _ _ =>
      rfl
  | registered _ _ _ hreg =>
      obtain ⟨b, k, q, -, -, rfl⟩ := hreg.result
      rfl
  | aside haside =>
      exact (frame_of_fd? haside.fd? hperform).2.2.1

/-- No timer fires while other code is in control. -/
theorem timerStarted?_of_isOpen
    (hopen : m.control.isOpen = true) :
    Transition.timerStarted? ⟨m, act, m'⟩ = none := by
  unfold Transition.timerStarted?
  split
  next hbefore _ =>
      rw [show m.control = _ from hbefore] at hopen
      cases hopen
  next =>
      rfl

theorem fired?_eq_some
    (hsettled : m.loop.timers.Settled) (hx : m.loop.timers.timer? x.handle = some x.key)
    (hfires : ∀ id, Transition.fires ⟨m, act, m'⟩ id = decide (id = x.handle)) :
    Transition.fired? ⟨m, act, m'⟩ = some x := by
  have hinj : ∀ y ∈ m.loop.timers.heap.items, ∀ z ∈ m.loop.timers.heap.items,
      y.handle = z.handle → y = z := by
    intro y hy z hz heq
    exact Heap.Sound.item_ext hsettled.toSound hy hz (Item.handle_eq_iff.1 heq).1
  simp only [Transition.fired?, hfires]
  exact (Heap.find?_eq_some_iff_of_inj hinj).2 ⟨(TimerQueue.mem_items_iff hsettled).2 hx, rfl⟩

/-- What a move does during a pass over timers. -/
inductive PassMove (m : Machine H) (pass : TimerPass) (now : Nat) :
    Act H → Machine H → Prop
  | fires {timer : Timer H} {timers : TimerQueue H} :
      m.control = .dispatching (.timers pass now) →
      m.loop.broken = false →
      m.loop.timers.takeDue? now = some (timer, timers) →
      PassMove m pass now .advance
        ({ m with loop := { m.loop with timers } }.invoke (.timer timer.handler)
          (.timers pass now))
  | ends :
      m.control = .dispatching (.timers pass now) →
      m.loop.broken = true ∨ m.loop.timers.takeDue? now = none →
      PassMove m pass now .advance (m.goTo pass.next)
  | apart {act : Act H} {m' : Machine H} :
      act.isDispatchers = false →
      m'.control.phase? = some (.timers pass now) →
      m'.loop.broken = (act.isBreak || m.loop.broken) →
      Transition.timerStarted? ⟨m, act, m'⟩ = none →
      PassMove m pass now act m'

theorem passMove_advance
    (hc : m.control = .dispatching (.timers pass now))
    (hadvance : m.advance (.timers pass now) = .ok m') :
    PassMove m pass now .advance m' := by
  simp only [advance] at hadvance
  split at hadvance
  next hbroken =>
      cases hadvance
      cases pass <;> exact .ends hc (.inl hbroken)
  next hbroken =>
      split at hadvance
      next hnone =>
          cases hadvance
          cases pass <;> exact .ends hc (.inr hnone)
      next hdue =>
          cases hadvance
          exact .fires hc (Bool.not_eq_true _ ▸ hbroken) hdue

theorem passMove_move
    (h : m.Sound) (hphase : m.control.phase? = some (.timers pass now)) (hmove : Move m act m') :
    PassMove m pass now act m' := by
  cases hmove with
  | request hopen hperform =>
      obtain ⟨-, -, hsame | ⟨hidle, -⟩, -⟩ := frame_perform hperform
      · exact .apart rfl (hsame ▸ hphase) (broken_perform hperform)
          (timerStarted?_of_isOpen hopen)
      · rw [h.phase?_eq_none hidle] at hphase
        cases hphase
  | resume hc =>
      have hopen : m.control.isOpen = true := by rw [hc]; rfl
      refine .apart rfl ?_ ?_ (timerStarted?_of_isOpen hopen) <;> rw [resume_eq hc]
      · rwa [hc] at hphase
      · rfl
  | world host =>
      refine .apart rfl hphase rfl ?_
      unfold Transition.timerStarted?
      split
      next hbefore hafter =>
          cases hbefore.symm.trans hafter
      next =>
          rfl
  | step hc hstep =>
      rw [hc] at hphase
      cases hphase
      simp only [step, hc] at hstep
      rw [act_eq_advance hc (by rintro _ ⟨⟩) (by rintro ⟨⟩)]
      exact passMove_advance hc hstep

/-- What has been done since a pass over timers began at `m₀`. -/
structure Sweeping (pass : TimerPass) (now : Nat) (m₀ : Machine H) (steps : List (Transition H))
    (m : Machine H) : Prop where
  agenda : firings steps ++ m.loop.timers.due now =
    (m₀.loop.timers.due now).filter fun x => !steps.any (·.cancels x.handle)
  handlers : steps.filterMap (·.timerStarted?) = (firings steps).map (·.key.handler)
  broken : m.loop.broken = (steps.any (·.act.isBreak) || m₀.loop.broken)
  idle : ∀ t ∈ steps, t.before.loop.broken = true → t.timerStarted? = none
  stage :
    m.control.phase? = some (.timers pass now) ∧
      steps.countP (·.act.isDispatchers) = (firings steps).length ∨
    m.control = .dispatching pass.next ∧ (m.loop.timers.due now = [] ∨ m.loop.broken = true) ∧
      steps.countP (·.act.isDispatchers) = (firings steps).length + 1

theorem firings_snoc
    (steps : List (Transition H)) (s : Transition H) :
    firings (steps ++ [s]) = firings steps ++ s.fired?.toList := by
  rw [firings, List.filterMap_append, List.filterMap_cons, List.filterMap_nil]
  cases s.fired? <;> rfl

theorem sweeping_nil
    (hc : m.control = .dispatching (.timers pass now)) :
    Sweeping pass now m [] m where
  agenda := (List.filter_true _).symm
  handlers := rfl
  broken := rfl
  idle _ ht := nomatch ht
  stage := .inl ⟨congrArg Control.phase? hc, rfl⟩

/-- A timer that has fired is no longer pending. -/
theorem Accounted.not_pending_of_firings
    (h : Accounted (prior ++ steps) m) (hx : x ∈ firings steps) :
    m.pending x.handle = false := by
  obtain ⟨t, ht, hfired⟩ := List.mem_filterMap.1 hx
  have hfires : t.fires x.handle = true := Transition.fires_of_fired? hfired
  have hcount : 0 < steps.countP (·.fires x.handle) :=
    List.countP_pos_iff.2 ⟨t, ht, hfires⟩
  have hbalanced := h.balanced x.handle
  have honce := List.nodup_iff_count_le_one.1 h.distinct x.handle
  rw [List.countP_append] at hbalanced
  cases hpending : m.pending x.handle with
  | false =>
      rfl
  | true =>
      rw [hpending, Bool.toNat_true] at hbalanced
      omega

/-- Requests strike out of the agenda what they cancel, and enter nothing in it. -/
theorem due_timerChange
    (haccounted : Accounted steps m) (hnumbered : Numbered steps m)
    (hchange : TimerChange m act m') (hstarted : Transition.timerStarted? ⟨m, act, m'⟩ = none)
    (hlater : ∀ delay handler reply, act = .request (.setTimer delay handler) reply →
      now < m.clock + delay) :
    m'.loop.timers.due now =
      (m.loop.timers.due now).filter fun x => !Transition.cancels ⟨m, act, m'⟩ x.handle := by
  have hranked' := (hnumbered.move haccounted.settled hchange).ranked
  cases hchange with
  | still hact hsame =>
      have hcancels : ∀ id, Transition.cancels ⟨m, act, m'⟩ id = false :=
        fun id => Transition.cancels_eq_false id hact
      simp [hsame, hcancels]
  | @scheduled delay handler id _ _ hschedule =>
      have hdue := TimerQueue.due_schedule haccounted.settled hnumbered.ranked
        (by rwa [hschedule]) (hlater delay handler _ rfl)
      rw [hschedule] at hdue
      rw [hdue]
      exact (List.filter_true _).symm
  | @cancelled id wasPending _ _ hcancel =>
      obtain ⟨hwas, hsettled, hleft, -⟩ := TimerQueue.cancel_spec haccounted.settled id
      rw [hcancel] at hwas hsettled hleft
      rw [TimerQueue.due_of_left haccounted.settled hnumbered.ranked hsettled hleft]
      refine List.filter_congr fun x hx => congrArg _ ?_
      obtain ⟨htimer, -⟩ := (TimerQueue.mem_due_iff haccounted.settled).1 hx
      rw [Bool.eq_iff_iff, decide_eq_true_iff, Transition.cancels_eq_true_iff]
      constructor
      · rintro rfl
        rw [htimer] at hwas
        rw [show wasPending = true from hwas]
      · rintro ⟨⟩
        rfl
  | fired hc _ hnext =>
      simp only [Transition.timerStarted?, hc, hnext] at hstarted
      cases hstarted

theorem Sweeping.countP_eq
    (h : Sweeping pass now m₀ steps m) (hphase : m.control.phase? = some (.timers pass now)) :
    steps.countP (·.act.isDispatchers) = (firings steps).length := by
  rcases h.stage with ⟨-, hcount⟩ | ⟨hc, -⟩
  · exact hcount
  · rw [hc] at hphase
    cases pass <;> cases hphase

/-- A move that starts no handler keeps the pass going, or ends it. -/
theorem Sweeping.rests
    (h : Sweeping pass now m₀ steps m) (hphase : m.control.phase? = some (.timers pass now))
    (haccounted : Accounted (prior ++ steps) m) (hnumbered : Numbered (prior ++ steps) m)
    (hchange : TimerChange m act m') (hbroken : m'.loop.broken = (act.isBreak || m.loop.broken))
    (hstarted : Transition.timerStarted? ⟨m, act, m'⟩ = none)
    (hlater : ∀ delay handler reply, act = .request (.setTimer delay handler) reply →
      now < m.clock + delay)
    (hstage : m'.control.phase? = some (.timers pass now) ∧ act.isDispatchers = false ∨
      m'.control = .dispatching pass.next ∧
        (m'.loop.timers.due now = [] ∨ m'.loop.broken = true) ∧ act.isDispatchers = true) :
    Sweeping pass now m₀ (steps ++ [⟨m, act, m'⟩]) m' := by
  have hfirings : firings (steps ++ [⟨m, act, m'⟩]) = firings steps := by
    rw [firings_snoc, Transition.fired?_eq_none hstarted, Option.toList_none, List.append_nil]
  -- what has fired is not pending, so no request can cancel it
  have hkept : (firings steps).filter
      (fun x => !Transition.cancels ⟨m, act, m'⟩ x.handle) = firings steps := by
    refine List.filter_eq_self.2 fun x hx => ?_
    rw [Bool.not_eq_true', ← Bool.not_eq_true, Transition.cancels_eq_true_iff]
    rintro rfl
    have hreply := haccounted.reply_of_cancelTimer hchange
    rw [haccounted.not_pending_of_firings hx] at hreply
    cases hreply
  refine ⟨?_, ?_, ?_, ?_, ?_⟩
  · rw [hfirings, due_timerChange haccounted hnumbered hchange hstarted hlater, ← hkept,
      ← List.filter_append, h.agenda, List.filter_filter]
    simp [Bool.and_comm]
  · rw [hfirings, List.filterMap_append, h.handlers, List.filterMap_cons, hstarted]
    exact List.append_nil _
  · rw [hbroken, h.broken, List.any_append, List.any_cons, List.any_nil, Bool.or_false,
      Bool.or_left_comm, Bool.or_assoc]
  · intro t ht hbefore
    rcases List.mem_append.1 ht with ht | ht
    · exact h.idle t ht hbefore
    · rw [List.mem_singleton.1 ht]
      exact hstarted
  · rw [hfirings, List.countP_append, List.countP_singleton, h.countP_eq hphase]
    rcases hstage with ⟨hphase', hact⟩ | ⟨hc', hend, hact⟩ <;> rw [hact]
    · exact .inl ⟨hphase', rfl⟩
    · exact .inr ⟨hc', hend, rfl⟩

/-- The dispatcher takes the head of the agenda. -/
theorem Sweeping.fires
    {timer : Timer H} {timers : TimerQueue H} (h : Sweeping pass now m₀ steps m)
    (hsettled : m.loop.timers.Settled) (hranked : m.loop.timers.Ranked)
    (hc : m.control = .dispatching (.timers pass now)) (hbroken : m.loop.broken = false)
    (hdue : m.loop.timers.takeDue? now = some (timer, timers))
    (hm' : m' = { m with loop := { m.loop with timers } }.invoke (.timer timer.handler)
      (.timers pass now)) :
    Sweeping pass now m₀ (steps ++ [⟨m, .advance, m'⟩]) m' := by
  obtain ⟨x, rfl, hx, hleft, hcons⟩ := TimerQueue.due_of_takeDue? hsettled hranked hdue
  have hnext : m'.control = .running (.timer x.key.handler) (.timers pass now) := by
    rw [hm']
    rfl
  have htimers : m'.loop.timers = timers := by
    rw [hm']
    rfl
  have hpending : m.pending x.handle = true := by
    rw [pending, hx]
    rfl
  have hfired : Transition.fired? ⟨m, .advance, m'⟩ = some x :=
    fired?_eq_some hsettled hx (fires_of_left hc hnext hpending (htimers ▸ hleft))
  have hstarted : Transition.timerStarted? ⟨m, .advance, m'⟩ = some x.key.handler := by
    simp only [Transition.timerStarted?, hc, hnext]
  have hfirings : firings (steps ++ [⟨m, .advance, m'⟩]) = firings steps ++ [x] := by
    rw [firings_snoc, hfired, Option.toList_some]
  refine ⟨?_, ?_, ?_, ?_, .inl ⟨congrArg Control.phase? hnext, ?_⟩⟩
  · rw [hfirings, htimers, List.append_assoc, List.singleton_append, ← hcons, h.agenda]
    simp [Transition.cancels]
  · rw [hfirings, List.filterMap_append, h.handlers, List.filterMap_cons, hstarted,
      List.map_append]
    rfl
  · rw [List.any_append, List.any_cons, List.any_nil, Bool.or_false, hm']
    exact h.broken.trans (congrArg (· || _) (Bool.or_false _).symm)
  · intro t ht hbefore
    rcases List.mem_append.1 ht with ht | ht
    · exact h.idle t ht hbefore
    · rw [List.mem_singleton.1 ht] at hbefore
      cases hbroken.symm.trans hbefore
  · rw [hfirings, List.countP_append, h.countP_eq (congrArg Control.phase? hc)]
    simp [Act.isDispatchers]

/-- One more move of a pass. -/
theorem Sweeping.move
    (h : Sweeping pass now m₀ steps m) (hphase : m.control.phase? = some (.timers pass now))
    (hsound : m.Sound) (haccounted : Accounted (prior ++ steps) m)
    (hnumbered : Numbered (prior ++ steps) m) (hmove : Move m act m')
    (hlater : ∀ delay handler reply, act = .request (.setTimer delay handler) reply →
      now < m.clock + delay) :
    Sweeping pass now m₀ (steps ++ [⟨m, act, m'⟩]) m' := by
  have hchange := timerChange_move hsound hmove
  cases passMove_move hsound hphase hmove with
  | fires hc hbroken hdue =>
      exact h.fires haccounted.settled hnumbered.ranked hc hbroken hdue rfl
  | ends hc hend =>
      refine h.rests hphase haccounted hnumbered hchange rfl ?_ hlater (.inr ⟨rfl, ?_, rfl⟩)
      · unfold Transition.timerStarted?
        split
        next hafter =>
            cases hafter
        next =>
            rfl
      · exact hend.symm.imp (TimerQueue.due_eq_nil haccounted.settled) id
  | apart hact hphase' hbroken hstarted =>
      exact h.rests hphase haccounted hnumbered hchange hbroken hstarted hlater
        (.inl ⟨hphase', hact⟩)

theorem Course.sweeping
    (hprior : Course m prior m₀) (hbuilt : Built m)
    (hc : m₀.control = .dispatching (.timers pass now)) (hcourse : Course m₀ steps m')
    (hphase : ∀ t ∈ steps, t.before.control.phase? = some (.timers pass now))
    (hlater : ∀ t ∈ steps, ∀ delay handler reply,
      t.act = .request (.setTimer delay handler) reply → now < t.before.clock + delay) :
    Sweeping pass now m₀ steps m' := by
  induction hcourse with
  | nil =>
      exact sweeping_nil hc
  | @snoc m₁ m₂ act steps hfirst hmove ih =>
      have hall := hprior.append hfirst
      have hlast : ⟨m₁, act, m₂⟩ ∈ steps ++ [⟨m₁, act, m₂⟩] :=
        List.mem_append_right _ (List.mem_singleton.2 rfl)
      have h := ih (fun t ht => hphase t (List.mem_append_left _ ht))
        fun t ht => hlater t (List.mem_append_left _ ht)
      exact h.move (hphase _ hlast) (hall.run.sound hbuilt.sound) (hall.accounted hbuilt)
        (hall.numbered hbuilt) hmove (hlater _ hlast)

/-- A list names the pending timers that are due at an instant, each with the handler and
the deadline that it was set with, in the order in which they are to fire. -/
structure Agenda (steps : List (Transition H)) (m : Machine H) (now : Nat)
    (xs : List (Item (Timer H))) : Prop where
  /-- Earlier deadlines first, and among equal ones the timer that was set first. -/
  ordered : xs.Pairwise fun x y => x.key.deadline < y.key.deadline ∨
    x.key.deadline = y.key.deadline ∧
      (scheduled steps).idxOf x.handle < (scheduled steps).idxOf y.handle
  due : ∀ id, (∃ x ∈ xs, x.handle = id) ↔
    ∃ t ∈ steps, ∃ delay handler, t.act = .request (.setTimer delay handler) (.timer id) ∧
      m.pending id = true ∧ t.before.clock + delay ≤ now
  set : ∀ x ∈ xs, ∀ t ∈ steps, ∀ delay handler,
    t.act = .request (.setTimer delay handler) (.timer x.handle) →
    x.key.handler = handler ∧ x.key.deadline = t.before.clock + delay

theorem Accounted.agenda
    (h : Accounted steps m) (hnumbered : Numbered steps m) (now : Nat) :
    Agenda steps m now (m.loop.timers.due now) := by
  refine ⟨?_, fun id => ⟨?_, ?_⟩, ?_⟩
  · refine (TimerQueue.pairwise_due h.settled hnumbered.ranked now).imp_of_mem fun hx hy hxy => ?_
    rw [TimerQueue.mem_due_iff h.settled] at hx hy
    exact (Item.precedes_iff.1 hxy).imp_right
      (And.imp_right (hnumbered.idxOf_lt h.distinct hx.1 hy.1))
  · rintro ⟨x, hx, rfl⟩
    obtain ⟨htimer, hle⟩ := (TimerQueue.mem_due_iff h.settled).1 hx
    have hpending : m.pending x.handle = true := by
      rw [pending, htimer]
      rfl
    obtain ⟨t, ht, delay, handler, hset⟩ := mem_scheduled_iff.1 (h.mem_scheduled hpending)
    refine ⟨t, ht, delay, handler, hset, hpending, ?_⟩
    rwa [(h.kept _ _ htimer t ht delay handler hset).2] at hle
  · rintro ⟨t, ht, delay, handler, hset, hpending, hle⟩
    obtain ⟨timer, htimer⟩ := Option.isSome_iff_exists.1 hpending
    refine ⟨⟨id.slot, id.serial, timer⟩, (TimerQueue.mem_due_iff h.settled).2 ⟨htimer, ?_⟩, rfl⟩
    rwa [← (h.kept id timer htimer t ht delay handler hset).2] at hle
  · intro x hx t ht delay handler hset
    exact h.kept _ _ ((TimerQueue.mem_due_iff h.settled).1 hx).1 t ht delay handler hset

/-- A timer that is pending or is set stays pending unless it is cancelled or fires. -/
theorem Accounted.pending_iff
    (h₀ : Accounted prior m₀) (h : Accounted (prior ++ steps) m) (id : Handle) :
    m.pending id = true ↔ (m₀.pending id = true ∨ id ∈ scheduled steps) ∧
      ∀ t ∈ steps, t.cancels id = false ∧ t.fires id = false := by
  have hbefore := h₀.balanced id
  have hafter := h.balanced id
  have honce := List.nodup_iff_count_le_one.1 h.distinct id
  have hlist : scheduled (prior ++ steps) = scheduled prior ++ scheduled steps :=
    List.filterMap_append
  rw [hlist, List.count_append] at hafter honce
  rw [List.countP_append, List.countP_append] at hafter
  have hkept : (∀ t ∈ steps, t.cancels id = false ∧ t.fires id = false) ↔
      steps.countP (·.cancels id) = 0 ∧ steps.countP (·.fires id) = 0 := by
    simp only [List.countP_eq_zero, Bool.not_eq_true, ← forall_and]
  have hle := Bool.toNat_le (m.pending id)
  rw [hkept, ← List.count_pos_iff, ← Bool.toNat_eq_one, ← Bool.toNat_eq_one]
  omega

/-- What a pass over timers has come to. -/
structure Swept (pass : TimerPass) (now : Nat) (m₀ : Machine H) (steps : List (Transition H))
    (m : Machine H) : Prop where
  /-- The due timers that were not cancelled have fired in order, up to those that are
  left. -/
  fired : firings steps ++ m.loop.timers.due now =
    (m₀.loop.timers.due now).filter fun x => !steps.any (·.cancels x.handle)
  handlers : steps.filterMap (·.timerStarted?) = (firings steps).map (·.key.handler)
  /-- Once the loop is broken no handler is started. -/
  breaks : ∀ early t late, steps = early ++ t :: late →
    (m₀.loop.broken = true ∨ ∃ b ∈ early, b.act.isBreak = true) → t.timerStarted? = none
  pending : ∀ id, m.pending id = true ↔ (m₀.pending id = true ∨ id ∈ scheduled steps) ∧
    ∀ t ∈ steps, t.cancels id = false ∧ t.fires id = false
  /-- The dispatcher makes one move for each timer that fires, and one to end the pass. -/
  bounded : steps.countP (·.act.isDispatchers) ≤ (m₀.loop.timers.due now).length + 1
  goes_on : m.control = .dispatching (.timers pass now) → ∃ m', Move m .advance m'
  /-- The pass ends when no due timer is left, or the loop is broken. -/
  ends : m.control.phase? ≠ some (.timers pass now) → m.control = .dispatching pass.next ∧
    (m.loop.timers.due now = [] ∨ m₀.loop.broken = true ∨ ∃ b ∈ steps, b.act.isBreak = true)

theorem exists_move_of_timers
    (hc : m.control = .dispatching (.timers pass now)) :
    ∃ m', Move m .advance m' := by
  obtain ⟨m', hadvance⟩ : ∃ m', m.advance (.timers pass now) = .ok m' := by
    simp only [advance]
    split
    · exact ⟨_, rfl⟩
    · split <;> exact ⟨_, rfl⟩
  have hmove : Move m (m.act m') m' := .step hc (by simp only [step, hc, hadvance])
  rw [act_eq_advance hc (by rintro _ ⟨⟩) (by rintro ⟨⟩)] at hmove
  exact ⟨m', hmove⟩

theorem Sweeping.broken_iff
    (h : Sweeping pass now m₀ steps m) :
    m.loop.broken = true ↔ m₀.loop.broken = true ∨ ∃ b ∈ steps, b.act.isBreak = true := by
  rw [h.broken, Bool.or_eq_true, List.any_eq_true, or_comm]

theorem Sweeping.bounded
    (h : Sweeping pass now m₀ steps m) :
    steps.countP (·.act.isDispatchers) ≤ (m₀.loop.timers.due now).length + 1 := by
  have hagenda := congrArg List.length h.agenda
  have hle := List.length_filter_le (fun x => !steps.any (·.cancels x.handle))
    (m₀.loop.timers.due now)
  rw [List.length_append] at hagenda
  rcases h.stage with ⟨-, hcount⟩ | ⟨-, -, hcount⟩ <;> omega

theorem Sweeping.swept
    (h : Sweeping pass now m₀ steps m) (h₀ : Accounted prior m₀)
    (haccounted : Accounted (prior ++ steps) m)
    (hearlier : ∀ early t late, steps = early ++ t :: late →
      Sweeping pass now m₀ early t.before) :
    Swept pass now m₀ steps m where
  fired := h.agenda
  handlers := h.handlers
  breaks early t late heq hbroken := by
    refine h.idle t ?_ ((hearlier early t late heq).broken_iff.2 hbroken)
    rw [heq]
    exact List.mem_append_right _ List.mem_cons_self
  pending := h₀.pending_iff haccounted
  bounded := h.bounded
  goes_on := exists_move_of_timers
  ends hphase := by
    rcases h.stage with ⟨hphase', -⟩ | ⟨hc, hend, -⟩
    · exact absurd hphase' hphase
    · exact ⟨hc, hend.imp_right h.broken_iff.1⟩

theorem control_of_pass?
    {s : Transition H} (hs : s.pass? = some (pass, now)) :
    s.after.control = .dispatching (.timers pass now) := by
  unfold Transition.pass? at hs
  split at hs
  next hafter =>
      cases hs
      exact hafter
  next hafter =>
      cases hs
      exact hafter
  next =>
      cases hs

/-- A pass fires the timers that were due at the reading of the clock with which it
began. -/
theorem Course.now_of_pass?
    {s : Transition H} (hcourse : Course m (prior ++ [s]) m₀) (hbuilt : Built m)
    (hs : s.pass? = some (pass, now)) :
    now = s.before.clock := by
  have hcontrol := control_of_pass? hs
  rw [hcourse.last.2.2] at hcontrol
  obtain ⟨early, t, late, heq, -, hclock, -, hlate⟩ :
      LastPass (prior ++ [s]) pass now m₀.loop.iteration :=
    hcourse.passing hbuilt _ (congrArg Control.phase? hcontrol)
  rcases List.eq_nil_or_concat late with rfl | ⟨late, t', rfl⟩
  · obtain ⟨-, hlast⟩ := List.append_inj' heq rfl
    cases hlast
    exact hclock.symm
  · rw [List.concat_eq_append, ← List.cons_append, ← List.append_assoc] at heq
    obtain ⟨-, hlast⟩ := List.append_inj' heq rfl
    cases hlast
    rw [hlate s (by simp)] at hs
    cases hs

/-- A pass over timers fires the timers that were due when it began, by their deadlines and
then in the order in which they were set, except for those that are cancelled before their
turn and those that are left when the loop is broken.  It does so whatever its handlers do,
as long as the timers that they set are due later. -/
theorem pass_fires_due_timers
    {s : Transition H} (hbuilt : Built m) (hprior : Course m (prior ++ [s]) m₀)
    (hbegins : s.pass? = some (pass, now)) (hcourse : Course m₀ steps m')
    (hphase : ∀ t ∈ steps, t.before.control.phase? = some (.timers pass now))
    (hlater : ∀ t ∈ steps, ∀ delay handler reply,
      t.act = .request (.setTimer delay handler) reply → now < t.before.clock + delay) :
    now = s.before.clock ∧
      Agenda (prior ++ [s]) m₀ now (m₀.loop.timers.due now) ∧ Swept pass now m₀ steps m' := by
  have hc : m₀.control = .dispatching (.timers pass now) :=
    hprior.last.2.2 ▸ control_of_pass? hbegins
  have haccounted := hprior.accounted hbuilt
  refine ⟨hprior.now_of_pass? hbuilt hbegins, haccounted.agenda (hprior.numbered hbuilt) now, ?_⟩
  refine (hprior.sweeping hbuilt hc hcourse hphase hlater).swept haccounted
    ((hprior.append hcourse).accounted hbuilt) ?_
  rintro early t late rfl
  have hin : ∀ t' ∈ early, t' ∈ early ++ t :: late := fun t' => List.mem_append_left _
  exact hprior.sweeping hbuilt hc hcourse.cut.1 (fun t' ht => hphase t' (hin t' ht))
    fun t' ht => hlater t' (hin t' ht)

/-- Five timers, all of which are due when the loop is dispatched. -/
def dueLog : List (Act Nat) :=
  [.request (.setTimer 100 1) (.timer ⟨0, 0⟩), .request (.setTimer 100 2) (.timer ⟨1, 1⟩),
    .request (.setTimer 50 3) (.timer ⟨2, 2⟩), .request (.setTimer 100 4) (.timer ⟨3, 3⟩),
    .request (.setTimer 100 5) (.timer ⟨4, 4⟩), .world, .request .dispatch .done, .advance,
    .advance]

/-- The third timer fires first and cancels the first one; the second sets another timer
and breaks the loop. -/
def passLog : List (Act Nat) :=
  [.advance, .request (.cancelTimer ⟨0, 0⟩) (.cancelled true), .resume, .advance,
    .request (.setTimer 1 6) (.timer ⟨1, 5⟩), .request .setBreak .done, .resume, .advance]

theorem pass_fires_due_timers_passLog :
    ∃ (m m₀ m' : Machine Nat) (prior steps : List (Transition Nat)), Built m ∧
      Course m prior m₀ ∧ prior.map (·.act) = dueLog ∧ Course m₀ steps m' ∧
      steps.map (·.act) = passLog ∧ (firings steps).map (·.handle) = [⟨2, 2⟩, ⟨1, 1⟩] ∧
      (m₀.loop.timers.due 100).map (·.handle) =
        [⟨2, 2⟩, ⟨0, 0⟩, ⟨1, 1⟩, ⟨3, 3⟩, ⟨4, 4⟩] ∧
      Agenda prior m₀ 100 (m₀.loop.timers.due 100) ∧ Swept .early 100 m₀ steps m' := by
  have hbuilt := built_scripted Nat []
  obtain ⟨prior, m₀, hprior, -, hdue, hbegins, htrail⟩ :=
    exists_timely_course_of_trail (m := scripted Nat []) dueLog
      (fun prior m₀ => prior.getLast?.bind (·.pass?) = some (.early, 100) ∧
        (m₀.trail [.step, .request (.cancelTimer ⟨0, 0⟩), .resume, .step,
            .request (.setTimer 1 6), .request .setBreak, .resume, .step]).map
          (fun steps => (steps.map (·.act), decide
            ((firings steps).map (·.handle) = [⟨2, 2⟩, ⟨1, 1⟩] ∧
              (m₀.loop.timers.due 100).map (·.handle) =
                [⟨2, 2⟩, ⟨0, 0⟩, ⟨1, 1⟩, ⟨3, 3⟩, ⟨4, 4⟩] ∧
              ∀ t ∈ steps, t.before.control.phase? = some (.timers .early 100 : Phase Nat) ∧
                t.before.clock = 100))) = some (passLog, true))
      [.request (.setTimer 100 1), .request (.setTimer 100 2), .request (.setTimer 50 3),
        .request (.setTimer 100 4), .request (.setTimer 100 5),
        .world { kernel := { clock := 100 } }, .request .dispatch, .step, .step]
      (by decide +kernel)
  obtain ⟨steps, m', hcourse, hview⟩ := exists_course_of_trail _ _ htrail
  obtain ⟨hlog, hview⟩ := Prod.mk.inj hview
  obtain ⟨hfirings, hagenda, hstages⟩ := of_decide_eq_true hview
  obtain ⟨s, hs, hpass⟩ := Option.bind_eq_some_iff.1 hbegins
  obtain ⟨earlier, rfl⟩ := List.getLast?_eq_some_iff.1 hs
  have hlater : ∀ t ∈ steps, ∀ delay handler reply,
      t.act = .request (.setTimer delay handler) reply → 100 < t.before.clock + delay := by
    intro t ht delay handler reply hact
    have hin : t.act ∈ passLog := hlog ▸ List.mem_map_of_mem ht
    rw [hact] at hin
    obtain ⟨⟨rfl, -⟩, -⟩ : (delay = 1 ∧ handler = 6) ∧ reply = .timer ⟨1, 5⟩ := by
      simpa [passLog] using hin
    rw [(hstages t ht).2]
    decide
  obtain ⟨-, hnamed, hswept⟩ := pass_fires_due_timers hbuilt hprior hpass hcourse
    (fun t ht => (hstages t ht).1) hlater
  exact ⟨_, m₀, m', _, steps, hbuilt, hprior, hdue, hcourse, hlog, hfirings, hagenda, hnamed,
    hswept⟩

end Machine
end CallbackLoop
