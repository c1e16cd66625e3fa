import CallbackLoop.Proofs.Loop.Fates

/-!
# Passes over expired timeouts

In each iteration the dispatcher takes out the deadlines that are due when the pass
begins.  While the pass goes on the queue only ages, apart from what handlers arm; when
it ends without a break, nothing in the queue is due, and what is armed then belongs to
descriptors that had their turn in this iteration.
-/

namespace CallbackLoop

variable {H : Type}

/-- The pass over expired timeouts that goes on. -/
def Control.pass? (c : Control H) : Option (Nat × List Int) :=
  c.phase?.bind Phase.pass?

theorem Control.deferred_of_pass?
    {c : Control H} {now : Nat} {fds : List Int} (h : c.pass? = some (now, fds)) :
    c.deferred = fds := by
  obtain ⟨phase, hphase, hpass⟩ := Option.bind_eq_some_iff.1 h
  rw [deferred, hphase]
  cases phase <;> cases hpass <;> rfl

theorem Control.pass?_of_mem_deferred
    {c : Control H} {fd : Int} (h : fd ∈ c.deferred) :
    ∃ now, c.pass? = some (now, c.deferred) := by
  unfold Control.deferred Control.pass? at *
  cases hphase : c.phase? with
  | none =>
      rw [hphase] at h
      cases h
  | some phase =>
      rw [hphase] at h
      cases phase with
      | timeouts now fds | timedOut _ _ now fds =>
          exact ⟨now, rfl⟩
      | _ =>
          cases h

theorem Phase.deferred_of_pass?_eq_none
    {phase : Phase H} (h : phase.pass? = none) :
    phase.deferred = [] := by
  cases phase <;> first | rfl | cases h

theorem Phase.pass?_of_isLate
    {phase : Phase H} (h : phase.isLate = true) :
    phase.pass? = none := by
  cases phase <;> first | rfl | cases h

/-- A move in which the pass over expired timeouts begins. -/
structure Transition.BeginsPass (s : Transition H) (now : Nat) : Prop where
  ready : s.before.control = .dispatching .ready
  begins : s.after.control = .dispatching (.timeouts now [])
  reading : s.before.clock = now

namespace Machine

variable {m m' : Machine H} {act : Act H} {steps : List (Transition H)} {fd : Int}
  {now : Nat} {fds : List Int}

/-- What the dispatcher does about the pass over expired timeouts in each phase. -/
inductive ExpiryMove (m : Machine H) : Phase H → Machine H → Prop
  | apart {phase : Phase H} {m' : Machine H} :
      phase.pass? = none →
      (∀ next, m'.control.phase? = some next → next.pass? = none ∧ next.isLate = false) →
      ExpiryMove m phase m'
  | begins :
      ExpiryMove m .ready (m.goTo (.timeouts m.clock []))
  | returns {slot clears now : Nat} {fds : List Int} {m' : Machine H} :
      m'.loop.iteration = m.loop.iteration →
      m'.control = .dispatching (.timeouts now fds) →
      ExpiryMove m (.timedOut slot clears now fds) m'
  | takes {now : Nat} {fds fds' : List Int} {next : Phase H} {m' : Machine H} :
      m'.loop.iteration = m.loop.iteration →
      m'.control.phase? = some next →
      next.pass? = some (now, fds') →
      (fds' = fds ∨ ∃ fd clearing, fds' = fds ++ [fd] ∧
        m.past fd = some (clearing, m.loop.iteration)) →
      ExpiryMove m (.timeouts now fds) m'
  | ends {now : Nat} {fds : List Int} {m' : Machine H} :
      m.loop.broken = true ∨ m.loop.timeouts.takeDue? now = none →
      m'.loop.broken = m.loop.broken →
      m'.loop.iteration = m.loop.iteration →
      m'.control = .dispatching (.timers .late m.clock) →
      ExpiryMove m (.timeouts now fds) m'
  | stays {phase next : Phase H} {m' : Machine H} :
      phase.isLate = true →
      m'.loop.broken = m.loop.broken →
      m'.loop.iteration = m.loop.iteration →
      m'.control.phase? = some next →
      next.isLate = true →
      (next = .wait → m.loop.broken = false) →
      ExpiryMove m phase m'

theorem expiryMove_apart
    {phase next : Phase H} (hphase : phase.pass? = none) (hcontrol : m'.control.phase? = some next)
    (hnext : next.pass? = none) (hlate : next.isLate = false) :
    ExpiryMove m phase m' := by
  refine .apart hphase fun next' hnext' => ?_
  cases hcontrol.symm.trans hnext'
  exact ⟨hnext, hlate⟩

theorem expiryMove_finish
    {phase : Phase H} (hphase : phase.pass? = none) :
    ExpiryMove m phase m.finish :=
  .apart hphase nofun

theorem expiryMove_timers
    {pass : TimerPass} (hadvance : m.advance (.timers pass now) = .ok m') :
    ExpiryMove m (.timers pass now) m' := by
  simp only [advance] at hadvance
  cases pass with
  | early =>
      split at hadvance
      · cases hadvance
        exact expiryMove_apart rfl rfl rfl rfl
      · split at hadvance <;> cases hadvance <;> exact expiryMove_apart rfl rfl rfl rfl
  | late =>
      split at hadvance
      · cases hadvance
        exact .stays rfl rfl rfl rfl rfl (by rintro ⟨⟩)
      · split at hadvance <;> cases hadvance <;> exact .stays rfl rfl rfl rfl rfl (by rintro ⟨⟩)

theorem expiryMove_timeouts
    (htable : m.loop.table.Sound none) (hadvance : m.advance (.timeouts now fds) = .ok m') :
    ExpiryMove m (.timeouts now fds) m' := by
  obtain ⟨t, q, hfold, -⟩ := follows_postpone now fds htable
  simp only [advance, hfold] at hadvance
  split at hadvance
  next hbroken =>
      cases hadvance
      exact .ends (.inl hbroken) rfl rfl rfl
  next =>
      split at hadvance
      next hnone =>
          cases hadvance
          exact .ends (.inr hnone) rfl rfl rfl
      next fd queue hdue =>
          obtain ⟨slot, d, hslot, hd, hexpiry⟩ := expire_ok hadvance
          obtain ⟨e, he, rfl⟩ := htable.slotOf?_eq_some_iff.1 hslot
          cases hd.symm.trans he
          cases hexpiry with
          | deferred hlast =>
              refine .takes rfl rfl rfl (.inr ⟨d.fd, d.isClearing, rfl, ?_⟩)
              rw [past, htable.part?_of_get? hd, Descriptor.past]
              exact congrArg (fun n => some (d.isClearing, n)) hlast
          | dropped _ _ | fired _ _ =>
              exact .takes rfl rfl rfl (.inl rfl)

theorem iteration_settle
    {slot clears : Nat} {pending : Directions} (hsettle : m.settle slot clears pending = .ok m') :
    m'.loop.iteration = m.loop.iteration := by
  obtain ⟨d, -, ⟨-, rfl⟩ | ⟨-, b, k, -, rfl⟩⟩ := settle_ok hsettle <;> rfl

theorem expiryMove_advance
    (h : m.Sound) {phase : Phase H} (hc : m.control = .dispatching phase)
    (hadvance : m.advance phase = .ok m') :
    ExpiryMove m phase m' := by
  have htable := h.table_of_dispatching hc
  cases phase with
  | start =>
      simp only [advance] at hadvance
      split at hadvance
      · cases hadvance
        exact expiryMove_finish rfl
      · split at hadvance <;> cases hadvance <;> exact expiryMove_apart rfl rfl rfl rfl
  | called =>
      simp only [advance] at hadvance
      split at hadvance <;> cases hadvance
      · exact expiryMove_finish rfl
      · exact expiryMove_apart rfl rfl rfl rfl
  | timers pass now =>
      exact expiryMove_timers hadvance
  | ready =>
      simp only [advance] at hadvance
      split at hadvance
      · cases hadvance
        exact .begins
      · split at hadvance
        · cases hadvance
          exact .begins
        · obtain ⟨d, -, rfl⟩ := beginTurn_ok hadvance
          exact expiryMove_apart rfl rfl rfl rfl
  | turn turn =>
      obtain ⟨d, -, hmove⟩ := advanceTurn_ok hadvance
      cases hmove <;> exact expiryMove_apart rfl rfl rfl rfl
  | deliver signos turn =>
      cases signos <;> cases hadvance <;> exact expiryMove_apart rfl rfl rfl rfl
  | signal signo left signos turn =>
      cases left with
      | nil =>
          cases hadvance
          exact expiryMove_apart rfl rfl rfl rfl
      | cons r left =>
          simp only [advance] at hadvance
          split at hadvance <;> cases hadvance <;> exact expiryMove_apart rfl rfl rfl rfl
  | timeouts now fds =>
      exact expiryMove_timeouts htable hadvance
  | timedOut slot clears now fds =>
      obtain ⟨m₁, hsettle, heq⟩ := Except.bind_eq_ok_iff.1 hadvance
      cases heq
      have hsame := iteration_settle hsettle
      exact .returns hsame rfl
  | settled =>
      simp only [advance] at hadvance
      split at hadvance
      · cases hadvance
        exact expiryMove_finish rfl
      next hbroken =>
          cases hadvance
          exact .stays rfl rfl rfl rfl rfl fun _ => Bool.not_eq_true _ ▸ hbroken
  | wait =>
      obtain ⟨m₁, -, heq⟩ := Except.bind_eq_ok_iff.1 hadvance
      cases heq
      exact expiryMove_apart rfl rfl rfl rfl

/-- A pass that goes on after a move has just begun, with nothing deferred, or it went on
before. -/
theorem pass?_move
    (h : m.Sound) (hmove : Move m act m') (hpass : m'.control.pass? = some (now, fds)) :
    fds = [] ∨ ∃ fds₀, m.control.pass? = some (now, fds₀) := by
  cases hmove with
  | request hopen hperform =>
      obtain ⟨-, -, hsame | ⟨-, hstart⟩, -⟩ := frame_perform hperform
      · exact .inr ⟨fds, hsame ▸ hpass⟩
      · rw [hstart] at hpass
        cases hpass
  | resume hc =>
      refine .inr ⟨fds, ?_⟩
      rw [resume_eq hc] at hpass
      rw [hc]
      exact hpass
  | world host =>
      exact .inr ⟨fds, hpass⟩
  | @step _ phase hc hstep =>
      simp only [step, hc] at hstep
      obtain ⟨next, hnext, hpass⟩ := Option.bind_eq_some_iff.1 hpass
      cases expiryMove_advance h hc hstep with
      | apart _ hnot =>
          rw [(hnot next hnext).1] at hpass
          cases hpass
      | begins =>
          cases hnext
          cases hpass
          exact .inl rfl
      | @returns slot clears now' fds' _ _ hcontrol =>
          rw [hcontrol] at hnext
          cases hnext
          cases hpass
          exact .inr ⟨fds, by rw [hc]; rfl⟩
      | @takes now' fds' fds'' next' _ _ hnext' hpass' _ =>
          cases hnext.symm.trans hnext'
          cases hpass.symm.trans hpass'
          exact .inr ⟨fds', by rw [hc]; rfl⟩
      | ends _ _ _ hcontrol =>
          rw [hcontrol] at hnext
          cases hnext
          cases hpass
      | stays _ _ _ hnext' hlate _ =>
          cases hnext.symm.trans hnext'
          cases (Phase.pass?_of_isLate hlate).symm.trans hpass

/-- What is deferred changes only while the dispatcher takes out deadlines. -/
theorem deferred_move
    (h : m.Sound) (hmove : Move m act m') (hne : m'.control.deferred ≠ m.control.deferred) :
    ∃ fds, m.control = .dispatching (.timeouts m.now fds) := by
  cases hmove with
  | request hopen hperform =>
      obtain ⟨-, -, hsame | ⟨hidle, hstart⟩, -⟩ := frame_perform hperform
      · exact absurd (by rw [hsame]) hne
      · refine absurd ?_ hne
        rw [hstart, Control.deferred, Control.deferred, h.phase?_eq_none hidle]
        rfl
  | resume hc =>
      exact absurd (by rw [resume_eq hc, hc]; rfl) hne
  | world host =>
      exact absurd rfl hne
  | @step _ phase hc hstep =>
      simp only [step, hc] at hstep
      have hdeferred : m.control.deferred = phase.deferred := by
        rw [hc]
        rfl
      rw [hdeferred] at hne
      cases expiryMove_advance h hc hstep with
      | apart hphase hnot =>
          rw [Phase.deferred_of_pass?_eq_none hphase] at hne
          obtain ⟨fd, hfd⟩ := List.exists_mem_of_ne_nil _ hne
          obtain ⟨now, hpass⟩ := Control.pass?_of_mem_deferred hfd
          obtain ⟨next, hnext, hpass⟩ := Option.bind_eq_some_iff.1 hpass
          rw [(hnot next hnext).1] at hpass
          cases hpass
      | begins =>
          exact absurd rfl hne
      | returns _ hcontrol =>
          rw [hcontrol] at hne
          exact absurd rfl hne
      | @takes now' fds' | @ends now' fds' =>
          refine ⟨fds', ?_⟩
          rw [hc, now, hc]
      | stays hlate _ _ hnext hlate' _ =>
          have hsame := Phase.deferred_of_pass?_eq_none (Phase.pass?_of_isLate hlate)
          have hsame' := Phase.deferred_of_pass?_eq_none (Phase.pass?_of_isLate hlate')
          refine absurd ?_ hne
          rw [Control.deferred, hnext, hsame]
          exact hsame'

/-- One of the late moves ended an entry of the queue, and this is what the move did. -/
def Ended (steps late : List (Transition H)) (id : Handle) (deadline : Deadline) : Prop :=
  ∃ before between t rest, steps = before ++ t :: rest ∧ late = between ++ t :: rest ∧
    t.before.loop.timeouts.deadline? id = some deadline ∧
    t.after.loop.timeouts.deadline? id ≠ some deadline ∧ Fate before t deadline.fd

/-- The last pass over expired timeouts that began, and the queue of which it takes out
what is due by `now`. -/
structure LastExpiry (steps : List (Transition H)) (m : Machine H)
    (s : Transition H) (late : List (Transition H)) (now : Nat) : Prop where
  cut : ∃ early, steps = early ++ s :: late
  begins : s.BeginsPass now
  last : ∀ t ∈ late, ∀ now', ¬t.BeginsPass now'
  iteration : s.before.loop.iteration = m.loop.iteration
  settled : s.before.loop.timeouts.Settled
  ages : s.before.loop.timeouts.Ages m.loop.timeouts
  fates : ∀ id deadline, s.before.loop.timeouts.deadline? id = some deadline →
    m.loop.timeouts.deadline? id = some deadline ∨ Ended steps late id deadline

/-- Of the entries that a pass found nothing is left that is due by `now`, and each of them
was handled, or was removed or armed anew by a request, or had no handler, or its descriptor
had a turn in this iteration.  An entry that is due by then belongs to a descriptor that had
a turn, or that was armed after the pass began. -/
structure Exhausted (steps : List (Transition H)) (m : Machine H)
    (s : Transition H) (late : List (Transition H)) (now : Nat) : Prop where
  gone : ∀ id deadline, s.before.loop.timeouts.deadline? id = some deadline →
    deadline.instant ≤ now →
      m.loop.timeouts.deadline? id = none ∧ Ended steps late id deadline
  left : ∀ id deadline, m.loop.timeouts.deadline? id = some deadline → deadline.instant ≤ now →
    TurnIn steps deadline.fd m.loop.iteration ∨
      ∃ t ∈ late, t.act.armsTimeout deadline.fd = true

/-- What is known while a pass over expired timeouts goes on. -/
def Expiring (steps : List (Transition H)) (m : Machine H) (now : Nat) (fds : List Int) : Prop :=
  (∃ s late, LastExpiry steps m s late now) ∧ ∀ fd ∈ fds, TurnIn steps fd m.loop.iteration

/-- What is known after a pass over expired timeouts that no break ended. -/
def Spent (steps : List (Transition H)) (m : Machine H) : Prop :=
  ∃ s late now, LastExpiry steps m s late now ∧ Exhausted steps m s late now

/-- What is known of the last pass over expired timeouts, up to the wait. -/
structure ExpiryKnown (steps : List (Transition H)) (m : Machine H) : Prop where
  going : ∀ now fds, m.control.pass? = some (now, fds) → Expiring steps m now fds
  ended : ∀ phase, m.control.phase? = some phase → phase.isLate = true →
    m.loop.broken = true ∨ Spent steps m
  waiting : m.control.phase? = some .wait → Spent steps m

theorem not_beginsPass
    {phase : Phase H} (hphase : m.control.phase? = some phase) (hready : phase ≠ .ready)
    (now : Nat) :
    ¬Transition.BeginsPass ⟨m, act, m'⟩ now := by
  rintro ⟨hc, -, -⟩
  have hc' : m.control = .dispatching .ready := hc
  rw [hc'] at hphase
  cases hphase
  exact hready rfl

theorem Ended.snoc
    {late : List (Transition H)} {id : Handle} {deadline : Deadline}
    (h : Ended steps late id deadline) (s : Transition H) :
    Ended (steps ++ [s]) (late ++ [s]) id deadline := by
  obtain ⟨before, between, t, rest, rfl, rfl, hbefore, hafter, hfate⟩ := h
  exact ⟨before, between, t, rest ++ [s], by simp, by simp, hbefore, hafter, hfate⟩

theorem LastExpiry.snoc
    {s : Transition H} {late : List (Transition H)} (h : LastExpiry steps m s late now)
    (hnot : ∀ now, ¬Transition.BeginsPass ⟨m, act, m'⟩ now)
    (hiteration : m'.loop.iteration = m.loop.iteration)
    (hages : m.loop.timeouts.Ages m'.loop.timeouts) (hfated : Fated steps ⟨m, act, m'⟩) :
    LastExpiry (steps ++ [⟨m, act, m'⟩]) m' s (late ++ [⟨m, act, m'⟩]) now := by
  obtain ⟨⟨early, rfl⟩, hbegins, hlast, hsame, hsettled, hages', hfates⟩ := h
  refine ⟨⟨early, by simp⟩, hbegins, ?_, hsame.trans hiteration.symm, hsettled,
    hages'.trans hages, ?_⟩
  · intro t ht
    rcases List.mem_append.1 ht with ht | ht
    · exact hlast t ht
    · rw [List.mem_singleton.1 ht]
      exact hnot
  · intro id deadline hid
    rcases hfates id deadline hid with hkept | hended
    · by_cases hsame : m'.loop.timeouts.deadline? id = some deadline
      · exact .inl hsame
      · have hfate := (hfated id deadline hkept).resolve_left hsame
        exact .inr ⟨_, late, _, [], rfl, rfl, hkept, hsame, hfate⟩
    · exact .inr (hended.snoc _)

section Snoc

variable {m₀ : Machine H} {phase : Phase H}

theorem Expiring.snoc
    {now' : Nat} {fds' : List Int} (h : Expiring steps m now fds) (hcourse : Course m₀ steps m)
    (hbuilt : Built m₀) (hmove : Move m act m') (hphase : m.control.phase? = some phase)
    (hpass : phase.pass? = some (now', fds')) (hiteration : m'.loop.iteration = m.loop.iteration) :
    Expiring (steps ++ [⟨m, act, m'⟩]) m' now fds := by
  obtain ⟨⟨s, late, hlast⟩, hturns⟩ := h
  have hages := (change_move (hcourse.run.sound hbuilt.sound) hmove).ages
    (hcourse.run.linked hbuilt.sound hbuilt.linked)
  have hnot : ∀ now, ¬Transition.BeginsPass ⟨m, act, m'⟩ now := by
    refine not_beginsPass hphase ?_
    rintro rfl
    cases hpass
  have hfated := hcourse.fated hbuilt hmove hphase (.inl (by rw [hpass]; exact nofun))
  refine ⟨⟨s, _, hlast.snoc hnot hiteration hages hfated⟩, fun fd hfd => ?_⟩
  rw [hiteration]
  exact (hturns fd hfd).snoc _

/-- When a pass is over, moves keep what is known of it. -/
theorem Spent.snoc
    (h : Spent steps m) (hcourse : Course m₀ steps m) (hbuilt : Built m₀)
    (hmove : Move m act m') (hphase : m.control.phase? = some phase) (hlate : phase.isLate = true)
    (hiteration : m'.loop.iteration = m.loop.iteration) :
    Spent (steps ++ [⟨m, act, m'⟩]) m' := by
  obtain ⟨s, late, now, hlast, hgone, hleft⟩ := h
  have hlinked := hcourse.run.linked hbuilt.sound hbuilt.linked
  have hnot : ∀ now, ¬Transition.BeginsPass ⟨m, act, m'⟩ now := by
    refine not_beginsPass hphase ?_
    rintro rfl
    cases hlate
  have hdeferred : m.timing.deferred = [] := by
    rw [timing, Control.deferred, hphase]
    exact Phase.deferred_of_pass?_eq_none (Phase.pass?_of_isLate hlate)
  have hchange := change_move (hcourse.run.sound hbuilt.sound) hmove
  have hages : m.loop.timeouts.Ages m'.loop.timeouts := hchange.ages hlinked
  have hfated := hcourse.fated hbuilt hmove hphase (.inr hlate)
  refine ⟨s, _, now, hlast.snoc hnot hiteration hages hfated, ?_, ?_⟩
  · intro id deadline hid hle
    obtain ⟨hnone, hended⟩ := hgone id deadline hid hle
    have hserial := DeadlineQueue.serial_lt hlast.settled hid
    exact ⟨hages.deadline?_eq_none (Nat.lt_of_lt_of_le hserial hlast.ages.nextSerial_le) hnone,
      hended.snoc _⟩
  · intro id deadline hid hle
    rw [hiteration]
    rcases hchange.deadline?_cases hlinked hid with hold | harms | hin
    · rcases hleft id deadline hold hle with hturn | ⟨t, ht, harms⟩
      · exact .inl (hturn.snoc _)
      · exact .inr ⟨t, List.mem_append_left _ ht, harms⟩
    · exact .inr ⟨_, List.mem_append_right _ (List.mem_singleton.2 rfl), harms⟩
    · rw [hdeferred] at hin
      cases hin

/-- Entries are never due later than before, so what was due is gone when nothing is due. -/
theorem LastExpiry.deadline?_eq_none
    {s : Transition H} {late : List (Transition H)} {id : Handle} {deadline : Deadline}
    (h : LastExpiry steps m s late now)
    (hlater : ∀ id deadline, m.loop.timeouts.deadline? id = some deadline →
      now < deadline.instant)
    (hid : s.before.loop.timeouts.deadline? id = some deadline) (hle : deadline.instant ≤ now) :
    m.loop.timeouts.deadline? id = none := by
  rw [Option.eq_none_iff_forall_ne_some]
  intro deadline' hid'
  obtain ⟨older, holder, hle'⟩ :=
    h.ages.known id deadline' (DeadlineQueue.serial_lt h.settled hid) hid'
  cases hid.symm.trans holder
  have hlt := hlater id deadline' hid'
  omega

/-- When a pass ends because nothing is due, what was due at its beginning is gone. -/
theorem Expiring.spent
    (h : Expiring steps m now fds) (hcourse : Course m₀ steps m) (hbuilt : Built m₀)
    (hmove : Move m act m') (hc : m.control = .dispatching (.timeouts now fds))
    (hnone : m.loop.timeouts.takeDue? now = none)
    (hiteration : m'.loop.iteration = m.loop.iteration) :
    Spent (steps ++ [⟨m, act, m'⟩]) m' := by
  have hlinked := hcourse.run.linked hbuilt.sound hbuilt.linked
  have hchange := change_move (hcourse.run.sound hbuilt.sound) hmove
  have hages : m.loop.timeouts.Ages m'.loop.timeouts := hchange.ages hlinked
  have hphase : m.control.phase? = some (.timeouts now fds) := congrArg Control.phase? hc
  have hfated := hcourse.fated hbuilt hmove hphase (.inl nofun)
  obtain ⟨⟨s, late, hlast⟩, hturns⟩ := h
  have hlast' := hlast.snoc (not_beginsPass hphase nofun) hiteration hages hfated
  have hlater : ∀ id deadline, m.loop.timeouts.deadline? id = some deadline →
      now < deadline.instant := by
    rcases DeadlineQueue.takeDue?_cases hlinked.settled now with ⟨-, hlater⟩ |
      ⟨id, instant, fd, q, hsome, -⟩
    · exact hlater
    · cases hnone.symm.trans hsome
  refine ⟨s, _, now, hlast', ?_, ?_⟩
  · intro id deadline hid hle
    have hserial := DeadlineQueue.serial_lt hlast.settled hid
    have hgone : m'.loop.timeouts.deadline? id = none :=
      hages.deadline?_eq_none (Nat.lt_of_lt_of_le hserial hlast.ages.nextSerial_le)
        (hlast.deadline?_eq_none hlater hid hle)
    refine ⟨hgone, (hlast'.fates id deadline hid).resolve_left fun hkept => ?_⟩
    cases hgone.symm.trans hkept
  · intro id deadline hid hle
    rw [hiteration]
    rcases hchange.deadline?_cases hlinked hid with hold | harms | hin
    · exact absurd hle (Nat.not_le_of_lt (hlater id deadline hold))
    · exact .inr ⟨_, List.mem_append_right _ (List.mem_singleton.2 rfl), harms⟩
    · have hdeferred : m.timing.deferred = fds := by
        rw [timing, hc]
        rfl
      rw [hdeferred] at hin
      exact .inl ((hturns deadline.fd hin).snoc _)

/-- Moves that keep the phase keep what is known of the pass. -/
theorem ExpiryKnown.snoc
    (h : ExpiryKnown steps m) (hcourse : Course m₀ steps m) (hbuilt : Built m₀)
    (hmove : Move m act m') (hphase : m'.control.phase? = m.control.phase?)
    (hiteration : m'.loop.iteration = m.loop.iteration)
    (hbroken : m.loop.broken = true → m'.loop.broken = true) :
    ExpiryKnown (steps ++ [⟨m, act, m'⟩]) m' := by
  refine ⟨?_, ?_, ?_⟩
  · intro now fds hpass
    have hpass' : m.control.pass? = some (now, fds) := by
      rw [Control.pass?, ← hphase]
      exact hpass
    obtain ⟨phase, hphase', hpass''⟩ := Option.bind_eq_some_iff.1 hpass'
    exact (h.going now fds hpass').snoc hcourse hbuilt hmove hphase' hpass'' hiteration
  · intro phase hphase' hlate
    rw [hphase] at hphase'
    exact (h.ended phase hphase' hlate).imp hbroken
      fun hspent => hspent.snoc hcourse hbuilt hmove hphase' hlate hiteration
  · intro hwait
    rw [hphase] at hwait
    exact (h.waiting hwait).snoc hcourse hbuilt hmove hwait rfl hiteration

end Snoc

theorem expiryKnown_of_apart
    (h : ∀ phase, m.control.phase? = some phase → phase.pass? = none ∧ phase.isLate = false) :
    ExpiryKnown steps m := by
  refine ⟨?_, ?_, ?_⟩
  · intro now fds hpass
    obtain ⟨phase, hphase, hpass⟩ := Option.bind_eq_some_iff.1 hpass
    cases (h phase hphase).1.symm.trans hpass
  · intro phase hphase hlate
    cases (h phase hphase).2.symm.trans hlate
  · intro hwait
    cases (h _ hwait).2

/-- A pass that goes on is not over. -/
theorem expiryKnown_of_going
    {phase : Phase H} (hphase : m.control.phase? = some phase) (hpass : phase.pass? = some (now, fds))
    (h : Expiring steps m now fds) :
    ExpiryKnown steps m := by
  refine ⟨?_, ?_, ?_⟩
  · intro now' fds' hpass'
    rw [Control.pass?, hphase, Option.bind_some] at hpass'
    cases hpass.symm.trans hpass'
    exact h
  · intro phase' hphase' hlate
    cases hphase.symm.trans hphase'
    cases hpass.symm.trans (Phase.pass?_of_isLate hlate)
  · intro hwait
    cases hphase.symm.trans hwait
    cases hpass

/-- A pass that is over does not go on. -/
theorem expiryKnown_of_over
    {phase : Phase H} (hphase : m.control.phase? = some phase) (hlate : phase.isLate = true)
    (h : m.loop.broken = true ∨ Spent steps m) (hwait : phase = .wait → Spent steps m) :
    ExpiryKnown steps m := by
  refine ⟨?_, ?_, ?_⟩
  · intro now fds hpass
    rw [Control.pass?, hphase, Option.bind_some] at hpass
    cases (Phase.pass?_of_isLate hlate).symm.trans hpass
  · exact fun _ _ _ => h
  · intro hwait'
    cases hphase.symm.trans hwait'
    exact hwait rfl

theorem ExpiryKnown.advance
    {m₀ : Machine H} {phase : Phase H} (h : ExpiryKnown steps m) (hbuilt : Built m₀)
    (hcourse : Course m₀ steps m) (hc : m.control = .dispatching phase)
    (hadvance : m.advance phase = .ok m') (hmove : Move m act m') :
    ExpiryKnown (steps ++ [⟨m, act, m'⟩]) m' := by
  have hsound := hcourse.run.sound hbuilt.sound
  have hlinked := hcourse.run.linked hbuilt.sound hbuilt.linked
  have hages : m.loop.timeouts.Ages m'.loop.timeouts := (change_move hsound hmove).ages hlinked
  have hphase : m.control.phase? = some phase := by
    rw [hc]
    rfl
  have hgoing : ∀ {now fds}, phase.pass? = some (now, fds) → Expiring steps m now fds := by
    intro now fds hpass
    refine h.going now fds ?_
    rw [Control.pass?, hphase]
    exact hpass
  cases expiryMove_advance hsound hc hadvance with
  | apart _ hnot =>
      exact expiryKnown_of_apart hnot
  | begins =>
      have hlast : LastExpiry (steps ++ [⟨m, act, m.goTo (.timeouts m.clock [])⟩])
          (m.goTo (.timeouts m.clock [])) ⟨m, act, m.goTo (.timeouts m.clock [])⟩ [] m.clock :=
        ⟨⟨steps, rfl⟩, ⟨hc, rfl, rfl⟩, fun t ht => absurd ht List.not_mem_nil, rfl,
          hlinked.settled, hages, fun _ _ hid => .inl hid⟩
      exact expiryKnown_of_going rfl rfl ⟨⟨_, _, hlast⟩, fun _ hfd => absurd hfd List.not_mem_nil⟩
  | returns hiteration hcontrol =>
      refine expiryKnown_of_going (congrArg Control.phase? hcontrol) rfl ?_
      exact (hgoing rfl).snoc hcourse hbuilt hmove hphase rfl hiteration
  | @takes now fds fds' next _ hiteration hnext hpass hfds =>
      have hsnoc : Expiring (steps ++ [⟨m, act, m'⟩]) m' now fds :=
        (hgoing rfl).snoc hcourse hbuilt hmove hphase rfl hiteration
      refine expiryKnown_of_going hnext hpass ?_
      rcases hfds with rfl | ⟨fd, clearing, rfl, hpast⟩
      · exact hsnoc
      · obtain ⟨hlast, hturns⟩ := hsnoc
        refine ⟨hlast, fun other hother => ?_⟩
        rcases List.mem_append.1 hother with hother | hother
        · exact hturns other hother
        · rw [List.mem_singleton.1 hother, hiteration]
          have hpos := hcourse.iteration_pos hbuilt hphase nofun
          have hturn : TurnIn steps fd m.loop.iteration :=
            (hcourse.turn_of_past hbuilt hpast).resolve_left (Nat.ne_of_gt hpos)
          exact hturn.snoc _
  | ends hend hbroken hiteration hcontrol =>
      refine expiryKnown_of_over (congrArg Control.phase? hcontrol) rfl ?_ nofun
      rcases hend with hbreak | hnone
      · exact .inl (hbroken.trans hbreak)
      · exact .inr ((hgoing rfl).spent hcourse hbuilt hmove hc hnone hiteration)
  | stays hlate hbroken hiteration hnext hlate' hwait =>
      have hover := h.ended phase hphase hlate
      have hspent : Spent steps m → Spent (steps ++ [⟨m, act, m'⟩]) m' := fun hspent =>
        hspent.snoc hcourse hbuilt hmove hphase hlate hiteration
      refine expiryKnown_of_over hnext hlate' (hover.imp hbroken.trans hspent) fun heq => ?_
      refine hspent (hover.resolve_left ?_)
      simp [hwait heq]

theorem ExpiryKnown.move
    {m₀ : Machine H} (h : ExpiryKnown steps m) (hbuilt : Built m₀)
    (hcourse : Course m₀ steps m) (hmove : Move m act m') :
    ExpiryKnown (steps ++ [⟨m, act, m'⟩]) m' := by
  have hmove' := hmove
  cases hmove with
  | request hopen hperform =>
      obtain ⟨hiteration, hbroken, hsame | ⟨-, hstart⟩, -⟩ := frame_perform hperform
      · exact h.snoc hcourse hbuilt hmove' (congrArg Control.phase? hsame) hiteration hbroken
      · refine expiryKnown_of_apart fun phase hphase => ?_
        rw [hstart] at hphase
        cases hphase
        exact ⟨rfl, rfl⟩
  | resume hc =>
      rw [resume_eq hc] at hmove' ⊢
      exact h.snoc hcourse hbuilt hmove' (by rw [hc]; rfl) rfl id
  | world host =>
      exact h.snoc hcourse hbuilt hmove' rfl rfl id
  | step hc hstep =>
      simp only [step, hc] at hstep
      exact h.advance hbuilt hcourse hc hstep hmove'

end Machine
end CallbackLoop
