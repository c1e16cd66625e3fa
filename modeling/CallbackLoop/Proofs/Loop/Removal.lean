import CallbackLoop.Proofs.Loop.Clearing
import CallbackLoop.Proofs.Loop.Course
import CallbackLoop.Proofs.Loop.Deadlines

/-!
# Removing the timeout of a descriptor is final

The deadlines in the queue are those of the descriptors, one each.  So once a
timeout is removed there is no deadline left that could expire.  What can bring
one back, apart from arming it, is the pass over expired timeouts: it remembers
the descriptors that it defers by number alone, and arms those that are
registered when it ends.

`removal_is_final` is the result for whole runs.
-/

namespace CallbackLoop

variable {H : Type}

namespace Act

/-- Whether a move removes the timeout of a descriptor. -/
def removesTimeout (act : Act H) (fd : Int) : Bool :=
  match act with
  | .request (.setFd other _ .unlimited _) .done => other = fd
  | _ => act.clears fd

/-- Whether a move arms the timeout of a descriptor. -/
def armsTimeout (act : Act H) (fd : Int) : Bool :=
  match act with
  | .request (.setFd other flags (.after _) _) .done => other = fd && flags ≠ .clear
  | _ => false

/-- Whether a move registers a descriptor. -/
def registers (act : Act H) (fd : Int) : Bool :=
  match act with
  | .request (.setFd other flags _ _) .done => other = fd && flags ≠ .clear
  | _ => false

theorem Untimed.removesTimeout
    {act : Act H} (h : act.Untimed) (fd : Int) :
    act.removesTimeout fd = false := by
  unfold Act.removesTimeout
  split
  · exact h.elim
  · exact h.clears fd

theorem removesTimeout_of_clears
    {act : Act H} {fd : Int} (h : act.clears fd = true) :
    act.removesTimeout fd = true := by
  unfold Act.removesTimeout
  split
  · simp only [Act.clears, Bool.and_eq_true] at h
    exact h.1
  · exact h

end Act

namespace DeadlineQueue

variable {q q' : DeadlineQueue} {id : Handle}

/-- The descriptor that an entry of the queue belongs to. -/
def owner? (q : DeadlineQueue) (id : Handle) : Option Int :=
  (q.deadline? id).map (·.fd)

theorem owner?_update
    {deadline : Option Deadline} (h : q'.deadline? = Function.update q.deadline? id deadline)
    (other : Handle) :
    q'.owner? other = if other = id then deadline.map (·.fd) else q.owner? other := by
  simp only [owner?, h, Function.update_apply]
  split <;> rfl

end DeadlineQueue

namespace Timing

variable {τ τ' : Timing H} {registered : Int → Prop} {now : Nat} {fd : Int} {act : Act H}

/-- The entries of the queue are those that the descriptors have. -/
structure Linked (τ : Timing H) : Prop where
  settled : τ.queue.Settled
  entry_iff : ∀ fd id, τ.entry fd = some id ↔ τ.queue.owner? id = some fd

/-- Without the entry of a descriptor the others are still linked. -/
theorem Linked.expire
    (h : τ.Linked) {id : Handle} {queue : DeadlineQueue} (hentry : τ.entry fd = some id)
    (hs : queue.Settled) (hqueue : queue.deadline? = Function.update τ.queue.deadline? id none) :
    (τ.expire fd queue).Linked := by
  constructor
  · exact hs
  · intro other old
    show Function.update τ.entry fd none other = some old ↔ queue.owner? old = some other
    rw [DeadlineQueue.owner?_update hqueue, Function.update_apply]
    have howner := (h.entry_iff fd id).1 hentry
    by_cases hother : other = fd
    · subst hother
      by_cases hold : old = id
      · simp [hold]
      · simp [hold, ← h.entry_iff, hentry, Ne.symm hold]
    · by_cases hold : old = id
      · simp [hother, hold, h.entry_iff, howner, Ne.symm hother]
      · simp [hother, hold, h.entry_iff]

theorem Linked.disarm
    (h : τ.Linked) (fd : Int) :
    (τ.disarm fd).Linked := by
  cases hentry : τ.entry fd with
  | none =>
      have hsame : τ.disarm fd = τ := by
        have hentry' := Function.update_eq_self fd τ.entry
        rw [hentry] at hentry'
        simp [Timing.disarm, hentry, hentry', DeadlineQueue.without]
      rwa [hsame]
  | some id =>
      obtain ⟨hs, hqueue, -⟩ := DeadlineQueue.disarm_spec h.settled id
      have hexpire : τ.disarm fd = τ.expire fd (τ.queue.disarm id) := by
        simp [Timing.disarm, Timing.expire, hentry, DeadlineQueue.without]
      rw [hexpire]
      exact h.expire hentry hs hqueue

theorem Linked.clear
    (h : τ.Linked) (fd : Int) :
    (τ.clear fd).Linked :=
  ⟨(h.disarm fd).settled, (h.disarm fd).entry_iff⟩

theorem Linked.arm
    (h : τ.Linked) (fd : Int) (instant : Nat) :
    (τ.arm fd instant).Linked := by
  obtain ⟨hs, hqueue, hfresh⟩ := DeadlineQueue.arm_spec h.settled (τ.entry fd) fd instant
  -- Arming is disarming followed by the addition of an entry that nothing owned.
  have hdisarm := (h.disarm fd).entry_iff
  have hunowned : (τ.disarm fd).queue.owner? (τ.queue.arm (τ.entry fd) fd instant).1 = none := by
    rw [DeadlineQueue.owner?, Timing.disarm, hfresh, Option.map_none]
  constructor
  · exact hs
  · intro other old
    show Function.update τ.entry fd (some (τ.queue.arm (τ.entry fd) fd instant).1) other =
      some old ↔ (τ.queue.arm (τ.entry fd) fd instant).2.owner? old = some other
    rw [DeadlineQueue.owner?_update hqueue, Function.update_apply]
    show _ ↔ (if _ then _ else (τ.disarm fd).queue.owner? old) = _
    by_cases hother : other = fd
    · subst hother
      have hnone : (τ.disarm other).entry other = none := Function.update_self ..
      by_cases hold : old = (τ.queue.arm (τ.entry other) other instant).1
      · simp [hold]
      · simp [hold, Ne.symm hold, ← hdisarm, hnone]
    · have hkept : (τ.disarm fd).entry other = τ.entry other := Function.update_of_ne hother ..
      by_cases hold : old = (τ.queue.arm (τ.entry fd) fd instant).1
      · simp [hold, hother, Ne.symm hother, ← hkept, hdisarm, hunowned]
      · simp [hold, hother, ← hkept, hdisarm]

theorem Postponed.linked
    {fds : List Int} (hpostponed : τ.Postponed registered now fds τ')
    (h : τ.Linked) :
    τ'.Linked := by
  induction hpostponed with
  | nil =>
      exact h
  | passed _ ih =>
      exact ih h
  | @armed fd _ _ _ _ _ _ ih =>
      exact ih (h.arm fd now)

/-- A deadline that is taken out was that of its descriptor. -/
theorem Linked.entry_of_takeDue?
    (h : τ.Linked) {queue : DeadlineQueue}
    (hdue : τ.queue.takeDue? now = some (fd, queue)) :
    ∃ id, τ.entry fd = some id ∧ queue.Settled ∧
      queue.deadline? = Function.update τ.queue.deadline? id none := by
  obtain ⟨hs, id, instant, hdeadline, hqueue⟩ := DeadlineQueue.takeDue?_spec h.settled hdue
  refine ⟨id, ?_, hs, hqueue⟩
  rw [h.entry_iff, DeadlineQueue.owner?, hdeadline, Option.map_some]

/-- Every move keeps the queue and the descriptors linked. -/
theorem Change.linked
    (hchange : τ.Change registered now act τ') (h : τ.Linked) :
    τ'.Linked := by
  cases hchange with
  | still _ | kept _ =>
      exact h
  | cleared _ | dropped _ _ _ =>
      exact h.clear _
  | removed _ | began _ =>
      exact h.disarm _
  | armed _ =>
      exact h.arm _ _
  | handled =>
      exact ⟨h.settled, h.entry_iff⟩
  | expired _ hdue _ =>
      obtain ⟨id, hentry, hs, hqueue⟩ := h.entry_of_takeDue? hdue
      have hexpired := h.expire hentry hs hqueue
      exact ⟨hexpired.settled, hexpired.entry_iff⟩
  | postponed _ hpostponed =>
      have hlinked := hpostponed.linked h
      exact ⟨hlinked.settled, hlinked.entry_iff⟩

/-- A removal leaves no entry, and the deferred timeouts as they are. -/
theorem Change.of_removesTimeout
    (hchange : τ.Change registered now act τ') (hremoves : act.removesTimeout fd = true) :
    τ'.entry fd = none ∧ τ'.deferred = τ.deferred := by
  have huntimed : ¬act.Untimed := by
    intro hact
    rw [hact.removesTimeout fd] at hremoves
    cases hremoves
  cases hchange with
  | still hact | began hact | expired hact _ _ | postponed hact _ | dropped hact _ _ =>
      exact absurd hact huntimed
  | @cleared _ other hclears =>
      have hother : fd = other := by
        unfold Act.removesTimeout at hremoves
        split at hremoves
        · simp only [Act.clears, Bool.and_eq_true, decide_eq_true_eq] at hclears hremoves
          exact hremoves.symm.trans hclears.1
        · exact Act.clears_unique hremoves hclears
      subst hother
      exact ⟨Function.update_self .., rfl⟩
  | removed _ =>
      rw [← of_decide_eq_true hremoves]
      exact ⟨Function.update_self .., rfl⟩
  | kept hflags | armed hflags =>
      simp [Act.removesTimeout, Act.clears, hflags] at hremoves
  | handled =>
      cases hremoves

theorem Postponed.entry_eq_none
    {fds : List Int} (hpostponed : τ.Postponed registered now fds τ')
    (hnone : τ.entry fd = none) (hfree : fd ∉ fds ∨ ¬registered fd) :
    τ'.entry fd = none := by
  induction hpostponed with
  | nil =>
      exact hnone
  | passed _ ih =>
      exact ih hnone (hfree.imp_left (mt (List.mem_cons_of_mem _)))
  | @armed other _ _ _ hregistered _ _ ih =>
      have hne : fd ≠ other := by
        rintro rfl
        simp [hregistered] at hfree
      exact ih ((Function.update_of_ne hne ..).trans hnone)
        (hfree.imp_left (mt (List.mem_cons_of_mem _)))

/-- A descriptor without an entry gets none unless its timeout is armed, or was
deferred while the descriptor is registered. -/
theorem Change.entry_eq_none
    (hchange : τ.Change registered now act τ') (hnone : τ.entry fd = none)
    (harms : act.armsTimeout fd = false) (hfree : fd ∉ τ.deferred ∨ ¬registered fd) :
    τ'.entry fd = none := by
  have hwithout : ∀ other, Function.update τ.entry other none fd = none := by
    simp [Function.update_apply, hnone]
  cases hchange with
  | still _ | kept _ | handled =>
      exact hnone
  | cleared _ | removed _ | began _ | expired _ _ _ | dropped _ _ _ =>
      exact hwithout _
  | @armed other flags _ _ hflags =>
      have hne : fd ≠ other := by
        rintro rfl
        simp [Act.armsTimeout, hflags] at harms
      exact (Function.update_of_ne hne ..).trans hnone
  | postponed _ hpostponed =>
      exact hpostponed.entry_eq_none hnone hfree

/-- Only the timeout of a descriptor with an entry is deferred. -/
theorem Change.not_mem_deferred
    (hchange : τ.Change registered now act τ') (h : τ.Linked) (hnone : τ.entry fd = none)
    (hfree : fd ∉ τ.deferred) :
    fd ∉ τ'.deferred := by
  cases hchange with
  | still _ | kept _ | handled | cleared _ | removed _ | began _ | dropped _ _ _ | armed _ =>
      exact hfree
  | @expired _ other _ _ _ hdue hdeferred =>
      obtain ⟨id, hentry, -⟩ := h.entry_of_takeDue? hdue
      have hne : fd ≠ other := by
        rintro rfl
        cases hentry.symm.trans hnone
      rcases hdeferred with rfl | rfl
      · exact hfree
      · simp [hfree, hne]
  | postponed _ _ =>
      simp

end Timing

/-- A descriptor that is not registered stays so unless a move registers it. -/
theorem Registry.lookup_after_eq_none
    {A : Registry H} {act : Act H} {fd : Int} (hnone : A.lookup fd = none)
    (hregisters : act.registers fd = false) :
    (A.after act).lookup fd = none := by
  rw [lookup_after, hnone]
  unfold Act.rebound
  split
  next other flags _ _ =>
      simpa [Act.registers] using hregisters
  next =>
      simp
  next =>
      simp
  next =>
      rfl

theorem Registry.lookup_after_of_clears
    (A : Registry H) {act : Act H} {fd : Int} (hclears : act.clears fd = true) :
    (A.after act).lookup fd = none := by
  rw [lookup_after]
  unfold Act.clears at hclears
  split at hclears
  next =>
      simp only [decide_eq_true_eq] at hclears
      simp [Act.rebound, hclears]
  next =>
      simp only [Bool.and_eq_true, decide_eq_true_eq] at hclears
      simp [Act.rebound, hclears]
  next =>
      cases hclears

namespace Machine

variable {m m' : Machine H} {fd : Int} {act : Act H} {log : List (Act H)}
  {steps : List (Transition H)}

theorem linked_of_empty
    (htable : m.loop.table = {}) (hqueue : m.loop.timeouts = {}) :
    m.timing.Linked := by
  have hentry : ∀ fd, m.timing.entry fd = none := by
    intro fd
    show (m.loop.table.find? fd).bind _ = none
    rw [htable, find?_empty, Option.bind_none]
  have hsettled : m.timing.queue.Settled := by
    show m.loop.timeouts.Settled
    rw [hqueue]
    exact DeadlineQueue.settled_empty
  constructor
  · exact hsettled
  · intro fd id
    show _ ↔ m.loop.timeouts.owner? id = some fd
    simp [hentry, hqueue, DeadlineQueue.owner?, DeadlineQueue.deadline?_empty]

theorem linked_registers
    {flags : Flags} {reaction : Reaction H} {d d' : Descriptor (Reaction H) H} {kernel : Kernel}
    (h : m.Sound) (hlinked : m.timing.Linked)
    (hreg : m.Registers fd flags .unlimited reaction m' d d' kernel) :
    m'.timing.Linked := by
  obtain ⟨entry, queue, hrearm, htiming⟩ := timing_registers h hreg
  cases hrearm
  rw [htiming]
  exact hlinked.disarm fd

theorem Built.linked
    (h : Built m) :
    m.timing.Linked := by
  rcases h.blank_or_registers with hblank | ⟨m₀, fd, d, d', kernel, hblank, hreg⟩
  · exact linked_of_empty hblank.table hblank.timeouts
  · exact linked_registers hblank.sound (linked_of_empty hblank.table hblank.timeouts) hreg

theorem Run.linked
    (hrun : Run m log m') (h : m.Sound) (hlinked : m.timing.Linked) :
    m'.timing.Linked :=
  (hrun.induction (P := fun m => m.Sound ∧ m.timing.Linked)
    (fun ⟨hsound, hlinked⟩ hmove => ⟨hsound.move hmove, (change_move hsound hmove).linked hlinked⟩)
    ⟨h, hlinked⟩).2

theorem Represents.not_registered
    {A : Registry H} (hr : m.Represents A) (hnone : A.lookup fd = none) :
    ¬m.Registered fd := by
  rw [Registered, ← hr fd, hnone]
  simp

/-- A descriptor without a timeout gets none in a run that does not arm it, as long as it
is not deferred, or not registered while it may be. -/
theorem Course.entry_eq_none
    {A : Registry H} (hcourse : Course m steps m') (h : m.Sound) (hlinked : m.timing.Linked)
    (hr : m.Represents A) (hnone : m.timing.entry fd = none)
    (harms : ∀ s ∈ steps, s.act.armsTimeout fd = false)
    (hfree : fd ∉ m.control.deferred ∨ A.lookup fd = none ∧
      ∀ s ∈ steps, s.act.registers fd = true → fd ∉ s.before.control.deferred) :
    m'.timing.entry fd = none := by
  induction steps generalizing m A with
  | nil =>
      rwa [hcourse.eq_of_nil]
  | cons s steps ih =>
      obtain ⟨rfl, hmove, hrest⟩ := hcourse.first
      simp only [List.forall_mem_cons] at harms hfree
      have hchange := change_move h hmove
      have hr₁ := (represents_move h hr hmove).1
      refine ih hrest (h.move hmove) (hchange.linked hlinked) hr₁ ?_ harms.2 ?_
      · exact hchange.entry_eq_none hnone harms.1
          (hfree.imp_right fun ⟨hlookup, _⟩ => hr.not_registered hlookup)
      · have hstays : fd ∉ s.before.control.deferred → fd ∉ s.after.control.deferred :=
          hchange.not_mem_deferred hlinked hnone
        rcases hfree with hdeferred | ⟨hlookup, hregisters, hlater⟩
        · exact .inl (hstays hdeferred)
        · cases hact : s.act.registers fd with
          | true =>
              exact .inl (hstays (hregisters hact))
          | false =>
              exact .inr ⟨Registry.lookup_after_eq_none hlookup hact, hlater⟩

/-- Whatever is done to a loop that was just built, a descriptor whose timeout was
removed has no entry in the queue and its timeout does not expire, unless it is
armed again.  If its expired timeout was deferred, this takes a clear, and the
descriptor must not be registered again before the pass is over. -/
theorem removal_is_final
    {before : List (Act H)} {m₁ m₂ : Machine H} (hbuilt : Built m) (hrun : Run m before m₁)
    (hmove : Move m₁ act m₂) (hremoves : act.removesTimeout fd = true)
    (hcourse : Course m₂ steps m') (harms : ∀ s ∈ steps, s.act.armsTimeout fd = false)
    (hfree : fd ∉ m₁.control.deferred ∨ act.clears fd = true ∧
      ∀ s ∈ steps, s.act.registers fd = true → fd ∉ s.before.control.deferred) :
    (∀ item ∈ m'.loop.timeouts.heap.items, item.key.fd ≠ fd) ∧
      ∀ handler m'', ¬TimesOut m' fd handler m'' := by
  have hsound := hrun.sound hbuilt.sound
  have hlinked := hrun.linked hbuilt.sound hbuilt.linked
  obtain ⟨hr, -⟩ := represents_run hrun hbuilt.sound hbuilt.represents
  have hchange := change_move hsound hmove
  obtain ⟨hnone, hsame⟩ := hchange.of_removesTimeout hremoves
  have hdeferred : m₂.control.deferred = m₁.control.deferred := hsame
  have hlinked' := hcourse.run.linked (hsound.move hmove) (hchange.linked hlinked)
  have hentry : m'.timing.entry fd = none := by
    refine hcourse.entry_eq_none (hsound.move hmove) (hchange.linked hlinked)
      (represents_move hsound hr hmove).1 hnone harms ?_
    rcases hfree with hfree | ⟨hclears, hregisters⟩
    · rw [hdeferred]
      exact .inl hfree
    · exact .inr ⟨Registry.lookup_after_of_clears _ hclears, hregisters⟩
  constructor
  · rintro item hitem rfl
    have howner : m'.timing.queue.owner? item.handle = some item.key.fd := by
      have hget := hlinked'.settled.toSound.get?_eq_some_iff.2 ⟨item, hitem, rfl, rfl⟩
      exact congrArg (Option.map (·.fd)) hget
    cases hentry.symm.trans ((hlinked'.entry_iff _ _).2 howner)
  · intro handler m'' hout
    obtain ⟨-, now, queue, hdue⟩ := hout.due (hcourse.run.sound (hsound.move hmove))
    obtain ⟨id, hsome, -⟩ := hlinked'.entry_of_takeDue? hdue
    cases hentry.symm.trans hsome

/-- The turn of a descriptor arms its timeout and that of another, to expire at once.
Its own is deferred, and the handler for the other one starts. -/
def deferringLog : List (Act Nat) :=
  [Act.request (.setFd 5 (.recv ∪ .oneshot) .unlimited 1) .done,
    .request (.setFd 6 .recv .unlimited 2) .done, .request (.setTimeoutHandler 5 3) .done,
    .request (.setTimeoutHandler 6 4) .done, .request .dispatch .done] ++
  List.replicate 7 Act.advance ++ [Act.wait [⟨5, ⟨true, false, false⟩⟩]] ++
  List.replicate 4 Act.advance ++
  [Act.fire 5 .recv (.call 1), .request (.setFd 5 ∅ (.after 0) 0) .done,
    .request (.setFd 6 ∅ (.after 0) 0) .done, .resume] ++
  List.replicate 4 Act.advance

/-- What leads to `deferringLog`. -/
def deferringCues : List (Cue Nat) :=
  [Cue.request (.setFd 5 (.recv ∪ .oneshot) .unlimited 1), .request (.setFd 6 .recv .unlimited 2),
    .request (.setTimeoutHandler 5 3), .request (.setTimeoutHandler 6 4), .request .dispatch] ++
  List.replicate 13 Cue.step ++
  [Cue.request (.setFd 5 ∅ (.after 0) 0), .request (.setFd 6 ∅ (.after 0) 0), .resume] ++
  List.replicate 4 Cue.step

/-- The other descriptor gets a turn in the next iteration, in which no timeout is left, and
its handler registers the first one again. -/
def quietLog : List (Act Nat) :=
  [Act.resume] ++ List.replicate 4 Act.advance ++ [Act.wait [⟨6, ⟨true, false, false⟩⟩]] ++
  List.replicate 4 Act.advance ++
  [Act.fire 6 .recv (.call 2), .request (.setFd 5 .recv .unmodified 1) .done, .resume, .advance,
    .advance]

theorem removal_is_final_deferringLog :
    ∃ (m m₁ m₂ m' : Machine Nat) (steps : List (Transition Nat)), Built m ∧
      Run m deferringLog m₁ ∧ Move m₁ (.request (.clearFd 5) .done) m₂ ∧ Course m₂ steps m' ∧
      steps.map (·.act) = quietLog ∧
      (∀ item ∈ m'.loop.timeouts.heap.items, item.key.fd ≠ 5) ∧
      ∀ handler m'', ¬TimesOut m' 5 handler m'' := by
  have hbuilt := built_scripted Nat
    [{ events := [(5, { input := true })] }, { events := [(6, { input := true })] }]
  obtain ⟨steps, m', hcourse, -, hlog, hfree⟩ :=
    exists_timely_course_of_trail
      (m := scripted Nat
        [{ events := [(5, { input := true })] }, { events := [(6, { input := true })] }])
      (deferringLog ++ .request (.clearFd 5) .done :: quietLog)
      (fun steps _ => ∀ s ∈ steps, s.act.registers 5 = true → 5 ∉ s.before.control.deferred)
      (deferringCues ++ .request (.clearFd 5) :: .resume :: List.replicate 10 .step ++
        .request (.setFd 5 .recv .unmodified 1) :: .resume :: List.replicate 2 .step)
      (by decide +kernel)
  obtain ⟨early, rest, rfl, hearly, hrest⟩ := List.map_eq_append_iff.1 hlog
  obtain ⟨s, late, rfl, hact, hlate⟩ := List.map_eq_cons_iff.1 hrest
  obtain ⟨hfirst, hmove, hcourse'⟩ := hcourse.cut
  rw [hact] at hmove
  have hrun : Run _ deferringLog s.before := hearly ▸ hfirst.run
  have harms : ∀ t ∈ late, t.act.armsTimeout 5 = false := fun t ht =>
    (by decide : ∀ act ∈ quietLog, act.armsTimeout 5 = false) t.act
      (hlate ▸ List.mem_map_of_mem ht)
  have hremoves : (Act.request (.clearFd 5) .done : Act Nat).removesTimeout 5 = true := rfl
  have hfinal := removal_is_final hbuilt hrun hmove hremoves hcourse' harms
    (.inr ⟨rfl, fun t ht => hfree t (List.mem_append_right _ (List.mem_cons_of_mem _ ht))⟩)
  exact ⟨_, s.before, s.after, m', late, hbuilt, hrun, hmove, hcourse', hlate, hfinal⟩

/-- The descriptor whose expired timeout is handled, and its handler. -/
def expired? (m : Machine H) : Option (Int × H) :=
  match m.control with
  | .running (.timeout handler fd) _ => some (fd, handler)
  | _ => none

theorem timesOut_of_expired?
    {handler : H} (hmove : Move m .advance m') (hexpired : m'.expired? = some (fd, handler)) :
    TimesOut m fd handler m' := by
  have hclosed : m.control.isOpen = false := by
    generalize hact : Act.advance = act at hmove
    cases hmove with
    | request _ _ | resume _ | world _ =>
        cases hact
    | step hc _ =>
        rw [hc]
        rfl
  refine ⟨hclosed, ⟨_, hmove⟩, ?_⟩
  unfold expired? at hexpired
  split at hexpired
  next next hc =>
      cases hexpired
      exact ⟨next, hc⟩
  next =>
      cases hexpired

/-- The next iteration begins to take out the timeouts that are due. -/
def nextPassLog : List (Act Nat) :=
  [Act.resume] ++ List.replicate 4 Act.advance ++ [Act.wait []] ++ List.replicate 4 Act.advance

/-- A deferred timeout that is removed is armed again, by nothing but the end of the
pass, and then it expires. -/
theorem removed_timeout_expires :
    ∃ m m₁ m₂ m' m'' : Machine Nat, Built m ∧ Run m deferringLog m₁ ∧
      Move m₁ (.request (.setFd 5 ∅ .unlimited 0) .done) m₂ ∧ Run m₂ nextPassLog m' ∧
      (∀ act ∈ nextPassLog, act.armsTimeout 5 = false) ∧ TimesOut m' 5 3 m'' := by
  have hbuilt := built_scripted Nat [{ events := [(5, { input := true })] }]
  obtain ⟨m', m'', hrun, hadvance, hexpired⟩ :=
    exists_move_of_trail (m := scripted Nat [{ events := [(5, { input := true })] }])
      (deferringLog ++ .request (.setFd 5 ∅ .unlimited 0) .done :: nextPassLog) .advance
      (fun _ m'' => m''.expired? = some (5, 3))
      (deferringCues ++ .request (.setFd 5 ∅ .unlimited 0) :: .resume :: List.replicate 10 .step)
      (by decide +kernel)
  obtain ⟨m₁, hrun, hrest⟩ := hrun.split
  cases hrest with
  | @cons _ m₂ _ _ _ hmove hrun' =>
      exact ⟨_, m₁, m₂, m', m'', hbuilt, hrun, hmove, hrun', by decide,
        timesOut_of_expired? hadvance hexpired⟩

end Machine
end CallbackLoop
