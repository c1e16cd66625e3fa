import CallbackLoop.Proofs.Loop.Aging
import CallbackLoop.Proofs.Loop.Turns

/-!
# What becomes of timeouts

An entry of the queue of deadlines stays as it is until a request removes or arms the
timeout of its descriptor, the turn of the descriptor begins, or a pass over expired
timeouts takes it out.  What the pass takes out is handled, if the descriptor has a handler
and had no turn in the iteration.

`Course.fated` says which of these it was.
-/

namespace CallbackLoop

variable {H : Type}

/-- The pass over expired timeouts that goes on in a phase: the instant up to which it
takes them, and the descriptors that it defers. -/
def Phase.pass? : Phase H → Option (Nat × List Int)
  | timeouts now fds => some (now, fds)
  | timedOut _ _ now fds => some (now, fds)
  | _ => none

/-- Whether the pass over expired timeouts of an iteration is over. -/
def Phase.isLate : Phase H → Bool
  | timers .late _ => true
  | settled => true
  | wait => true
  | _ => false

/-- The descriptor whose expired timeout is handled after a move, and its handler. -/
def Transition.expired? (s : Transition H) : Option (Int × H) :=
  match s.before.control, s.after.control with
  | .dispatching _, .running (.timeout handler fd) _ => some (fd, handler)
  | _, _ => none

namespace Timing

variable {τ τ' : Timing H} {registered : Int → Prop} {now : Nat} {fd : Int} {act : Act H}
  {id : Handle} {deadline : Deadline}

/-- Without the entry of a descriptor the others are what they were. -/
theorem Linked.deadline?_without
    (h : τ.Linked) (fd : Int) (hid : τ.queue.deadline? id = some deadline) :
    (τ.queue.without (τ.entry fd)).deadline? id = some deadline ∨ deadline.fd = fd := by
  rw [(DeadlineQueue.without_spec h.settled (τ.entry fd)).2.2 id]
  split
  next hentry =>
      rw [h.entry_iff, DeadlineQueue.owner?, hid, Option.map_some] at hentry
      exact .inr (Option.some.inj hentry)
  next =>
      exact .inl hid

theorem Linked.deadline?_arm_of_ne
    (h : τ.Linked) (instant : Nat) (hid : τ.queue.deadline? id = some deadline)
    (hne : deadline.fd ≠ fd) :
    (τ.arm fd instant).queue.deadline? id = some deadline := by
  obtain ⟨-, hqueue, hfresh⟩ := DeadlineQueue.arm_spec h.settled (τ.entry fd) fd instant
  have hwithout := (h.deadline?_without fd hid).resolve_right hne
  rw [show (τ.arm fd instant).queue = (τ.queue.arm (τ.entry fd) fd instant).2 from rfl, hqueue,
    Function.update_of_ne, hwithout]
  rintro rfl
  cases hfresh.symm.trans hwithout

/-- Arming what was deferred leaves the entries that there are. -/
theorem Postponed.deadline?_eq
    {fds : List Int} (hpostponed : τ.Postponed registered now fds τ') (h : τ.Linked)
    (hid : τ.queue.deadline? id = some deadline) :
    τ'.queue.deadline? id = some deadline := by
  induction hpostponed with
  | nil =>
      exact hid
  | passed _ ih =>
      exact ih h hid
  | @armed fd _ τ _ _ hnone _ ih =>
      refine ih (h.arm fd now) (h.deadline?_arm_of_ne now hid ?_)
      rintro rfl
      have hentry : τ.entry deadline.fd = some id := by
        rw [h.entry_iff, DeadlineQueue.owner?, hid, Option.map_some]
      cases hnone.symm.trans hentry

/-- What a request about timeouts does to an entry. -/
theorem Change.deadline?_request
    (hchange : τ.Change registered now act τ') (h : τ.Linked) (hact : ¬act.Untimed)
    (hid : τ.queue.deadline? id = some deadline) :
    τ'.queue.deadline? id = some deadline ∨ act.removesTimeout deadline.fd = true ∨
      act.armsTimeout deadline.fd = true := by
  cases hchange with
  | still huntimed | began huntimed | expired huntimed _ _ | postponed huntimed _
  | dropped huntimed _ _ =>
      exact absurd huntimed hact
  | kept _ | handled =>
      exact .inl hid
  | @cleared _ fd hclears =>
      refine (h.deadline?_without fd hid).imp_right fun heq => .inl ?_
      rw [heq]
      exact Act.removesTimeout_of_clears hclears
  | @removed fd flags handler hflags =>
      refine (h.deadline?_without fd hid).imp_right fun heq => .inl ?_
      rw [heq]
      exact decide_eq_true rfl
  | @armed fd flags delay handler hflags =>
      by_cases heq : deadline.fd = fd
      · refine .inr (.inr ?_)
        simp [Act.armsTimeout, heq, hflags]
      · exact .inl (h.deadline?_arm_of_ne _ hid heq)

/-- The handler of a descriptor that is registered stays until the descriptor is cleared. -/
theorem Change.handler_ne_none
    (hchange : τ.Change registered now act τ') (hregistered : registered fd)
    (hclears : act.clears fd = false) (hhandler : τ.handler fd ≠ none) :
    τ'.handler fd ≠ none := by
  have hkept : ∀ other, fd ≠ other → (τ.clear other).handler fd ≠ none := by
    intro other hne
    rwa [show (τ.clear other).handler = Function.update τ.handler other none from rfl,
      Function.update_of_ne hne]
  cases hchange with
  | still _ | removed _ | kept _ | armed _ | began _ | expired _ _ _ =>
      exact hhandler
  | @cleared _ other hother =>
      refine hkept other ?_
      rintro rfl
      rw [hclears] at hother
      cases hother
  | @handled other handler =>
      rw [show (τ.handle other handler).handler =
        Function.update τ.handler other (some handler) from rfl, Function.update_apply]
      split
      · exact nofun
      · exact hhandler
  | postponed _ hpostponed =>
      dsimp only
      rwa [hpostponed.handler_eq]
  | @dropped _ other _ hgone _ =>
      refine hkept other ?_
      rintro rfl
      exact hgone hregistered

end Timing

namespace Machine

variable {m m' : Machine H} {act : Act H} {steps : List (Transition H)} {fd : Int}
  {id : Handle} {deadline : Deadline}

/-- A descriptor had a turn in an iteration. -/
def TurnIn (steps : List (Transition H)) (fd : Int) (iteration : Nat) : Prop :=
  ∃ s ∈ steps, s.BeginsTurn fd ∧ s.before.loop.iteration = iteration

/-- Every handler for timeouts that was installed for a registered descriptor was cleared
together with it. -/
def Unhandled (steps : List (Transition H)) (fd : Int) : Prop :=
  ∀ early s late handler, steps = early ++ s :: late →
    s.act = .request (.setTimeoutHandler fd handler) .done →
    s.before.loop.interest? fd ≠ none → ∃ c ∈ late, c.act.clears fd = true

/-- What a move makes of the timeout of a descriptor: its handler starts, a request removes
it or arms it anew, there is no handler for it, or the descriptor had its turn in this
iteration. -/
inductive Fate (steps : List (Transition H)) (s : Transition H) (fd : Int) : Prop
  | expired {handler : H} :
      s.expired? = some (fd, handler) →
      Fate steps s fd
  | removed :
      s.act.removesTimeout fd = true →
      Fate steps s fd
  | armed :
      s.act.armsTimeout fd = true →
      Fate steps s fd
  | unhandled :
      s.before.timing.handler fd = none →
      Unhandled steps fd →
      Fate steps s fd
  | deferred :
      TurnIn steps fd s.before.loop.iteration →
      Fate steps s fd

/-- What a move makes of each entry of the queue. -/
def Fated (steps : List (Transition H)) (s : Transition H) : Prop :=
  ∀ id deadline, s.before.loop.timeouts.deadline? id = some deadline →
    s.after.loop.timeouts.deadline? id = some deadline ∨ Fate steps s deadline.fd

theorem TurnIn.snoc
    {iteration : Nat} (h : TurnIn steps fd iteration) (s : Transition H) :
    TurnIn (steps ++ [s]) fd iteration := by
  obtain ⟨t, ht, hbegins⟩ := h
  exact ⟨t, List.mem_append_left _ ht, hbegins⟩

/-- A request that is not about timeouts leaves the queue alone. -/
theorem timeouts_of_untimed
    {r : Request H} {reply : Reply} (hperform : m.perform r = .ok (reply, m'))
    (hact : (Act.request r reply).Untimed) :
    m'.loop.timeouts = m.loop.timeouts := by
  cases perform_ok hperform with
  | cleared _ | unset _ | registered _ _ _ _ | handled _ _ =>
      exact hact.elim
  | refused _ =>
      rfl
  | aside haside =>
      exact (frame_of_fd? haside.fd? hperform).1

theorem registered_iff
    (m : Machine H) (fd : Int) :
    m.Registered fd ↔ m.loop.interest? fd ≠ none := by
  rw [Registered, interest?_eq, ne_eq, Option.map_eq_none_iff, Option.isSome_iff_ne_none]

/-- A descriptor is registered if it is stored and was not cleared. -/
theorem registered_iff_past
    (m : Machine H) (fd : Int) :
    m.Registered fd ↔ ∃ n, m.past fd = some (false, n) := by
  unfold Registered DescriptorTable.bindings? past DescriptorTable.part?
  cases m.loop.table.find? fd with
  | none =>
      simp
  | some d =>
      cases hclearing : d.isClearing <;> simp [Descriptor.bindings?, Descriptor.past, hclearing]

/-- Installing a handler changes nothing else about timeouts. -/
theorem timing_setTimeoutHandler
    {handler : H} {reply : Reply} (h : m.Sound)
    (hmove : Move m (.request (.setTimeoutHandler fd handler) reply) m') :
    reply = .done ∧ m'.timing = m.timing.handle fd handler := by
  obtain ⟨-, hperform⟩ := request_of_move hmove
  obtain ⟨m₁, -, heq⟩ := Except.bind_eq_ok_iff.1 hperform
  cases heq
  refine ⟨rfl, ?_⟩
  have hchange := change_move h hmove
  generalize m'.timing = τ at hchange ⊢
  cases hchange with
  | handled =>
      rfl
  | still hact | began hact | expired hact _ _ | postponed hact _ | dropped hact _ _ =>
      exact hact.elim
  | cleared hclears =>
      cases hclears

/-- A descriptor stays registered until it is cleared. -/
theorem registered_move
    (h : m.Sound) (hmove : Move m act m') (hregistered : m.Registered fd)
    (hclears : act.clears fd = false) :
    m'.Registered fd := by
  rw [registered_iff_past] at hregistered ⊢
  obtain ⟨n, hpast⟩ := hregistered
  obtain ⟨k, -, hpast'⟩ := (pastChange_move h hmove).remembers hclears (Nat.zero_le _)
    ⟨n, Nat.zero_le _, hpast⟩
  exact ⟨k, hpast'⟩

/-- Until then it keeps a handler. -/
theorem Course.handler_ne_none
    (hcourse : Course m steps m') (h : m.Sound) (hregistered : m.Registered fd)
    (hhandler : m.timing.handler fd ≠ none) (hclears : ∀ c ∈ steps, c.act.clears fd = false) :
    m'.Registered fd ∧ m'.timing.handler fd ≠ none := by
  induction hcourse with
  | nil =>
      exact ⟨hregistered, hhandler⟩
  | @snoc m₁ m₂ act steps hfirst hmove ih =>
      rw [List.forall_mem_append, List.forall_mem_singleton] at hclears
      obtain ⟨hregistered₁, hhandler₁⟩ := ih hclears.1
      have hsound := hfirst.run.sound h
      exact ⟨registered_move hsound hmove hregistered₁ hclears.2,
        (change_move hsound hmove).handler_ne_none hregistered₁ hclears.2 hhandler₁⟩

theorem Course.unhandled
    (hcourse : Course m steps m') (h : m.Sound) (hnone : m'.timing.handler fd = none) :
    Unhandled steps fd := by
  rintro early s late handler rfl hact hinterest
  obtain ⟨hfirst, hmove, hrest⟩ := hcourse.cut
  have hsound := hfirst.run.sound h
  by_contra hcleared
  have hclears : ∀ c ∈ late, c.act.clears fd = false := fun c hc =>
    Bool.not_eq_true _ ▸ fun htrue => hcleared ⟨c, hc, htrue⟩
  have hregistered : s.after.Registered fd := by
    refine registered_move hsound hmove ((registered_iff s.before fd).2 hinterest) ?_
    rw [hact]
    rfl
  have hinstalled : s.after.timing.handler fd ≠ none := by
    rw [hact] at hmove
    rw [(timing_setTimeoutHandler hsound hmove).2]
    show Function.update s.before.timing.handler fd (some handler) fd ≠ none
    rw [Function.update_self]
    exact nofun
  exact (hrest.handler_ne_none (hsound.move hmove) hregistered hinstalled hclears).2 hnone

/-- What the pass over expired timeouts does to an entry: it leaves it, or takes it out. -/
theorem deadline?_timeouts
    {now : Nat} {fds : List Int} (h : m.Sound) (hlinked : m.timing.Linked)
    (hc : m.control = .dispatching (.timeouts now fds))
    (hadvance : m.advance (.timeouts now fds) = .ok m')
    (hid : m.loop.timeouts.deadline? id = some deadline) :
    m'.loop.timeouts.deadline? id = some deadline ∨
      (∃ handler, Transition.expired? ⟨m, act, m'⟩ = some (deadline.fd, handler)) ∨
      m.timing.handler deadline.fd = none ∨
      ∃ clearing, m.past deadline.fd = some (clearing, m.loop.iteration) := by
  have htable := h.table_of_dispatching hc
  have hpostponed : (fds.foldl (postpone now) m).loop.timeouts.deadline? id = some deadline :=
    (postponed_foldl now fds htable).deadline?_eq hlinked hid
  simp only [advance] at hadvance
  split at hadvance
  next =>
      cases hadvance
      exact .inl hpostponed
  next =>
      split at hadvance
      next =>
          cases hadvance
          exact .inl hpostponed
      next fd queue hdue =>
          obtain ⟨old, howner, -, hqueue⟩ := hlinked.entry_of_takeDue? hdue
          obtain ⟨slot, d, hslot, hd, hexpiry⟩ := expire_ok hadvance
          obtain ⟨e, he, rfl⟩ := htable.slotOf?_eq_some_iff.1 hslot
          cases hd.symm.trans he
          have hleft : m'.loop.timeouts = queue := by
            cases hexpiry <;> rfl
          by_cases hsame : id = old
          · subst hsame
            have hfd : deadline.fd = d.fd := by
              rw [hlinked.entry_iff] at howner
              exact Option.some.inj ((congrArg (Option.map Deadline.fd) hid).symm.trans howner)
            rw [hfd]
            refine .inr ?_
            cases hexpiry with
            | deferred hlast =>
                refine .inr (.inr ⟨d.isClearing, ?_⟩)
                rw [past, htable.part?_of_get? hd, Descriptor.past]
                exact congrArg (fun n => some (d.isClearing, n)) hlast
            | dropped _ hnone =>
                exact .inr (.inl ((htable.part?_of_get? hd _).trans hnone))
            | @fired handler _ _ =>
                refine .inl ⟨handler, ?_⟩
                rw [Transition.expired?, hc]
                rfl
          · refine .inl ?_
            rw [hleft, hqueue, Function.update_of_ne hsame]
            exact hid

/-- Other phases after the turns of an iteration leave the queue alone. -/
theorem timeouts_advance
    {phase : Phase H} (h : m.Sound) (hc : m.control = .dispatching phase)
    (hphase : phase.isLate = true ∨ ∃ slot clears now fds, phase = .timedOut slot clears now fds)
    (hadvance : m.advance phase = .ok m') :
    m'.loop.timeouts = m.loop.timeouts := by
  cases phase with
  | timers | settled =>
      exact (advance_of_passesTimeouts rfl hadvance).2.1
  | wait =>
      obtain ⟨m₁, hawait, heq⟩ := Except.bind_eq_ok_iff.1 hadvance
      cases heq
      exact congrArg Timing.queue (timing_awaitEvents (h.table_of_dispatching hc) hawait)
  | timedOut slot clears now fds =>
      obtain ⟨m₁, hsettle, heq⟩ := Except.bind_eq_ok_iff.1 hadvance
      cases heq
      obtain ⟨d, -, ⟨-, rfl⟩ | ⟨-, b, k, -, rfl⟩⟩ := settle_ok hsettle <;> rfl
  | _ =>
      rcases hphase with hlate | ⟨_, _, _, _, heq⟩
      · cases hlate
      · cases heq

/-- What becomes of the entries of the queue in a move after the turns of an iteration. -/
theorem Course.fated
    {m₀ : Machine H} {phase : Phase H} (hcourse : Course m₀ steps m) (hbuilt : Built m₀)
    (hmove : Move m act m') (hphase : m.control.phase? = some phase)
    (hafter : phase.pass? ≠ none ∨ phase.isLate = true) :
    Fated steps ⟨m, act, m'⟩ := by
  intro id deadline hid
  have hsound := hcourse.run.sound hbuilt.sound
  have hlinked := hcourse.run.linked hbuilt.sound hbuilt.linked
  have hmove' := hmove
  cases hmove with
  | @request _ r reply hopen hperform =>
      by_cases hact : (Act.request r reply).Untimed
      · exact .inl (timeouts_of_untimed hperform hact ▸ hid)
      · rcases (change_move hsound hmove').deadline?_request hlinked hact hid with
          hkept | hremoves | harms
        · exact .inl hkept
        · exact .inr (.removed hremoves)
        · exact .inr (.armed harms)
  | resume hc =>
      rw [resume_eq hc]
      exact .inl hid
  | world host =>
      exact .inl hid
  | @step _ phase' hc hstep =>
      simp only [step, hc] at hstep
      rw [hc] at hphase
      cases hphase
      cases phase with
      | timeouts now fds =>
          rcases deadline?_timeouts hsound hlinked hc hstep hid with
            hkept | ⟨handler, hexpired⟩ | hnone | ⟨clearing, hpast⟩
          · exact .inl hkept
          · exact .inr (.expired hexpired)
          · exact .inr (.unhandled hnone (hcourse.unhandled hbuilt.sound hnone))
          · have hpos : 0 < m.loop.iteration :=
              hcourse.iteration_pos hbuilt (congrArg Control.phase? hc) (by simp)
            have hturn := (hcourse.turn_of_past hbuilt hpast).resolve_left (Nat.ne_of_gt hpos)
            exact .inr (.deferred hturn)
      | timedOut slot clears now fds =>
          refine .inl ?_
          rwa [timeouts_advance hsound hc (.inr ⟨_, _, _, _, rfl⟩) hstep]
      | _ =>
          have hlate := hafter.resolve_left fun hpass => hpass rfl
          refine .inl ?_
          rwa [timeouts_advance hsound hc (.inl hlate) hstep]

end Machine
end CallbackLoop
