import CallbackLoop.Proofs.Loop.Blame
import CallbackLoop.Proofs.Loop.Course
import CallbackLoop.Proofs.Loop.Phases

/-!
# Slots and the handlers that run on them

While the dispatcher runs the handlers of a descriptor it keeps nothing but the slot of
that descriptor, and the handlers may clear and register whatever they like.  They
cannot pull the slot from under it: a descriptor that is current stays in its slot under
its number, marked if it was cleared, until the dispatcher has settled it.

`slots_outlive_handlers` is the result for whole runs.
-/

namespace CallbackLoop

variable {H : Type}

/-- The descriptor whose handler is running. -/
def Control.served? : Control H → Option Int
  | .running (.ready _ fd _) _ => some fd
  | .running (.timeout _ fd) _ => some fd
  | .running (.signal _ _) next => next.turn?.map (·.fd)
  | _ => none

/-- While nothing is cleared, the descriptors in storage are those on the waiting
list. -/
theorem DescriptorTable.Sound.size_eq_watched
    {R : Type} {t : DescriptorTable R H} (h : t.Sound none) :
    t.size = t.watched := by
  refine h.arena.size_eq_length h.waiting fun i => ⟨fun hin => h.exists_of_mem_waiting hin, ?_⟩
  rintro ⟨d, hd⟩
  have hfit := h.fits i d hd
  exact hfit.waiting_iff.2 (hfit.not_clearing nofun)

namespace Machine

variable {m m' m'' : Machine H} {act : Act H} {steps : List (Transition H)} {slot : Nat}
  {d : Descriptor (Reaction H) H}

/-- The number in the slot that the dispatcher keeps. -/
def currentFd? (m : Machine H) : Option Int :=
  (m.control.slot?.bind m.loop.table.get?).map (·.fd)

/-- The running handler is one of the current descriptor. -/
def Attends (m : Machine H) : Prop :=
  ∀ invocation next, m.control = .running invocation next → m.control.served? = m.currentFd?

theorem currentFd?_of_get?
    (hslot : m.control.slot? = some slot) (hd : m.loop.table.get? slot = some d) :
    m.currentFd? = some d.fd := by
  rw [currentFd?, hslot, Option.bind_some, hd, Option.map_some]

/-- During a turn the current descriptor is the one that the turn began with. -/
theorem Sound.exists_of_turn?
    (h : m.Sound) {turn : Turn} (hturn : m.control.turn? = some turn) :
    ∃ d, m.loop.table.get? turn.slot = some d ∧ d.fd = turn.fd := by
  have htable := h.table
  rw [slot?_of_turn? hturn] at htable
  obtain ⟨d, hd⟩ := htable.exists_current
  exact ⟨d, hd, h.turn_fd turn d hturn hd⟩

theorem Sound.currentFd?_of_turn?
    (h : m.Sound) {turn : Turn} (hturn : m.control.turn? = some turn) :
    m.currentFd? = some turn.fd := by
  obtain ⟨d, hd, hfd⟩ := h.exists_of_turn? hturn
  rw [currentFd?_of_get? (slot?_of_turn? hturn) hd, hfd]

/-- What every request keeps of the table. -/
theorem follows_perform
    {r : Request H} {reply : Reply} (h : m.Sound) (hperform : Performed m r reply m') :
    DescriptorTable.Follows m.control.slot? m.loop.table m'.loop.table := by
  cases hperform with
  | cleared hclear | unset hclear =>
      obtain ⟨k, b, t, q, rfl, ht⟩ := follows_clearFd h hclear
      exact ht
  | refused _ =>
      exact .refl h.table
  | registered _ _ _ hreg =>
      obtain ⟨entry, hbound⟩ := hreg.bound
      obtain ⟨b, k, q, -, -, rfl⟩ := hreg.result
      rw [hbound]
      exact h.table.follows_register hreg.found _ _ entry _
  | handled _ hd =>
      exact h.table.follows_set hd rfl fun hfit => { hfit with }
  | aside haside =>
      rw [haside.table]
      exact .refl h.table

/-- A request of a handler leaves the current number as it is. -/
theorem currentFd?_perform
    {r : Request H} {reply : Reply} (h : m.Sound) (hperform : Performed m r reply m')
    (hcontrol : m'.control = m.control) :
    m'.currentFd? = m.currentFd? := by
  have hfollows := follows_perform h hperform
  cases hslot : m.control.slot? with
  | none =>
      simp only [currentFd?, hcontrol, hslot, Option.bind_none]
  | some slot =>
      have hslot' : m'.control.slot? = some slot := by rw [hcontrol, hslot]
      have htable := hfollows.sound
      rw [hslot] at htable
      obtain ⟨d', hd'⟩ := htable.exists_current
      obtain ⟨d, hd, hfd⟩ := hfollows.fd slot d' hslot hd'
      rw [currentFd?_of_get? hslot' hd', currentFd?_of_get? hslot hd, hfd]

/-- The handler of an expired timeout runs on the descriptor whose timeout it was. -/
theorem currentFd?_expire
    {phase next : Phase H} {handler : H} {fd : Int} (h : m.Sound)
    (hc : m.control = .dispatching phase) (hadvance : m.advance phase = .ok m')
    (hrunning : m'.control = .running (.timeout handler fd) next) :
    m'.currentFd? = some fd := by
  have htable := h.table_of_dispatching hc
  obtain ⟨now, fds, queue, e, hexpires⟩ := expires_of_running h hc hadvance hrunning
  cases hc.symm.trans hexpires.control
  simp only [advance, hexpires.due] at hadvance
  split at hadvance
  next =>
      cases hadvance
      cases hrunning
  next =>
      obtain ⟨slot, d, hslot, hd, hexpiry⟩ := expire_ok hadvance
      obtain ⟨d₁, hd₁, hfd⟩ := htable.slotOf?_eq_some_iff.1 hslot
      cases hd.symm.trans hd₁
      cases hexpiry with
      | deferred _ | dropped _ _ =>
          cases hrunning
      | fired _ _ =>
          have hslot' : (Control.running (Invocation.timeout handler fd)
            (Phase.timedOut slot d.clears now fds)).slot? = some slot := rfl
          have hset := DescriptorTable.get?_set_self hd { d with timeout := none, busy := true }
          rw [← hfd]
          exact currentFd?_of_get? (d := { d with timeout := none, busy := true }) hslot' hset

/-- The dispatcher starts handlers of the current descriptor only. -/
theorem attends_advance
    {phase : Phase H} (h : m.Sound) (hc : m.control = .dispatching phase)
    (hadvance : m.advance phase = .ok m') :
    m'.Attends := by
  have hsound := h.advance hc (advance_ok hadvance)
  intro invocation next hrunning
  have hleads := leads_advance hadvance
  rw [hrunning] at hleads
  have hturn : ∀ turn, next.turn? = some turn → m'.currentFd? = some turn.fd := by
    intro turn hturn
    refine hsound.currentFd?_of_turn? ?_
    rw [hrunning]
    exact hturn
  rw [hrunning]
  cases hleads with
  | calls _ | fires _ =>
      rw [currentFd?, hrunning]
      rfl
  | handles _ =>
      exact (hturn _ rfl).symm
  | signals _ =>
      exact (hturn _ rfl).symm
  | expires _ _ _ =>
      exact (currentFd?_expire h hc hadvance hrunning).symm

theorem Attends.move
    (hattends : m.Attends) (h : m.Sound) (hmove : Move m act m') :
    m'.Attends := by
  cases hmove with
  | request _ hperform =>
      intro invocation next hrunning
      obtain ⟨-, -, hcontrol | ⟨-, hcontrol⟩, -⟩ := frame_perform hperform
      · rw [currentFd?_perform h (perform_ok hperform) hcontrol, hcontrol]
        rw [hcontrol] at hrunning
        exact hattends invocation next hrunning
      · rw [hcontrol] at hrunning
        cases hrunning
  | resume hc =>
      intro invocation next hrunning
      rw [resume_eq hc] at hrunning
      cases hrunning
  | step hc hstep =>
      simp only [step, hc] at hstep
      exact attends_advance h hc hstep
  | world host =>
      exact hattends

/-- As long as the dispatcher keeps a slot, the slot keeps its descriptor. -/
theorem Sound.get?_of_move
    (h : m.Sound) (hmove : Move m act m') (hslot : m.control.slot? = some slot)
    (hslot' : m'.control.slot? = some slot) (hd : m.loop.table.get? slot = some d) :
    ∃ d', m'.loop.table.get? slot = some d' ∧ d'.fd = d.fd := by
  have hsound := h.move hmove
  have hturns : ∀ turn turn', m.control.turn? = some turn → m'.control.turn? = some turn' →
      turn'.slot = turn.slot → turn'.fd = turn.fd →
      ∃ d', m'.loop.table.get? slot = some d' ∧ d'.fd = d.fd := by
    intro turn turn' hturn hturn' hslots hfds
    obtain ⟨d', hd', hfd'⟩ := hsound.exists_of_turn? hturn'
    obtain ⟨e, he, hfd⟩ := h.exists_of_turn? hturn
    have hsame := slot?_of_turn? hturn
    rw [hslot, Option.some.injEq] at hsame
    rw [hslots, ← hsame] at hd'
    rw [← hsame] at he
    cases hd.symm.trans he
    exact ⟨d', hd', by rw [hfd', hfds, hfd]⟩
  cases hmove with
  | request _ hperform =>
      have hfollows := follows_perform h (perform_ok hperform)
      have htable := hfollows.sound
      rw [hslot] at htable
      obtain ⟨d', hd'⟩ := htable.exists_current
      obtain ⟨e, he, hfd⟩ := hfollows.fd slot d' hslot hd'
      cases hd.symm.trans he
      exact ⟨d', hd', hfd⟩
  | resume hc =>
      rw [resume_eq hc]
      exact ⟨d, hd, rfl⟩
  | @step _ phase hc hstep =>
      simp only [step, hc] at hstep
      have hleads := leads_advance hstep
      generalize hcontrol : m'.control = c at hleads
      rw [hc] at hslot
      rw [hcontrol] at hslot'
      cases hleads with
      | skipsDirection _ | handles _ | drains _ | endsDelivery | delivers | endsSignal
      | signals _ | skipsSignal _ =>
          exact hturns _ _ (congrArg Control.turn? hc) (congrArg Control.turn? hcontrol) rfl rfl
      | returns _ _ | endsTurn | settles =>
          cases hslot'
      | _ =>
          cases hslot
  | world host =>
      exact ⟨d, hd, rfl⟩

theorem Course.sound
    (h : Course m steps m') (hsound : m.Sound) :
    m'.Sound :=
  h.run.sound hsound

theorem Run.attends
    {log : List (Act H)} (hrun : Run m log m') (h : m.Sound) (hattends : m.Attends) :
    m'.Attends :=
  (hrun.induction (P := fun m => m.Sound ∧ m.Attends)
    (fun ⟨hsound, hattends⟩ hmove => ⟨hsound.move hmove, hattends.move hsound hmove⟩)
    ⟨h, hattends⟩).2

theorem Built.attends
    (h : Built m) :
    m.Attends := by
  intro invocation next hrunning
  rw [h.control] at hrunning
  cases hrunning

theorem Course.get?_of_slot?
    (hcourse : Course m steps m') (h : m.Sound) (hslot : m.control.slot? = some slot)
    (hkept : ∀ s ∈ steps, s.after.control.slot? = some slot)
    (hd : m.loop.table.get? slot = some d) :
    m'.control.slot? = some slot ∧ ∃ d', m'.loop.table.get? slot = some d' ∧ d'.fd = d.fd := by
  induction hcourse with
  | nil =>
      exact ⟨hslot, d, hd, rfl⟩
  | @snoc m₁ m₂ act steps hfirst hmove ih =>
      obtain ⟨hslot₁, d₁, hd₁, hfd₁⟩ := ih fun s hs => hkept s (List.mem_append_left _ hs)
      have hslot₂ := hkept ⟨m₁, act, m₂⟩ (List.mem_append_right _ (List.mem_singleton.2 rfl))
      obtain ⟨d₂, hd₂, hfd₂⟩ := (hfirst.sound h).get?_of_move hmove hslot₁ hslot₂ hd₁
      exact ⟨hslot₂, d₂, hd₂, hfd₂.trans hfd₁⟩

/-- What the dispatcher relies on when it keeps a slot while other code is in control. -/
structure Anchored (m : Machine H) : Prop where
  /-- No two descriptors are busy. -/
  unique : ∀ i j d e, m.loop.table.get? i = some d → m.loop.table.get? j = some e →
    d.busy = true → e.busy = true → i = j
  /-- The busy one is in the slot that the dispatcher keeps. -/
  busy_iff : ∀ i d, m.loop.table.get? i = some d →
    (d.busy = true ↔ m.control.slot? = some i)
  /-- While other code is in control, the busy one is that whose handler is running. -/
  served_iff : m.control.isOpen = true → ∀ i d, m.loop.table.get? i = some d →
    (d.busy = true ↔ m.control.served? = some d.fd)
  /-- The slot that is kept is occupied. -/
  occupied : ∀ slot, m.control.slot? = some slot → ∃ d, m.loop.table.get? slot = some d
  /-- In a turn it holds the descriptor that the turn began with. -/
  turn : ∀ turn, m.control.turn? = some turn →
    ∃ d, m.loop.table.get? turn.slot = some d ∧ d.fd = turn.fd
  /-- A cleared descriptor is busy, and on neither list. -/
  clearing : ∀ i d, m.loop.table.get? i = some d → d.isClearing = true →
    d.busy = true ∧ i ∉ m.loop.table.waiting ∧ i ∉ m.loop.table.active
  /-- Both lists name occupied slots. -/
  listed : ∀ i, i ∈ m.loop.table.waiting ∨ i ∈ m.loop.table.active →
    ∃ d, m.loop.table.get? i = some d
  /-- When a wait begins and when dispatch is over, nothing is left of what was cleared. -/
  settled : m.control = .dispatching .wait ∨ m.control = .idle →
    (∀ i d, m.loop.table.get? i = some d → d.busy = false ∧ d.isClearing = false) ∧
      m.loop.table.size = m.loop.fdCount

theorem Sound.served?_eq_some_iff
    (h : m.Sound) (hattends : m.Attends) (hopen : m.control.isOpen = true)
    (hd : m.loop.table.get? slot = some d) :
    m.control.served? = some d.fd ↔ m.control.slot? = some slot := by
  cases hc : m.control with
  | idle =>
      exact ⟨nofun, nofun⟩
  | dispatching phase =>
      rw [hc] at hopen
      cases hopen
  | running invocation next =>
      rw [← hc, hattends invocation next hc]
      constructor
      · intro hcurrent
        obtain ⟨e, hbind, hfd⟩ := Option.map_eq_some_iff.1 hcurrent
        obtain ⟨i, hi, he⟩ := Option.bind_eq_some_iff.1 hbind
        rw [hi, h.table.inj i slot e d he hd hfd]
      · intro hslot
        exact currentFd?_of_get? hslot hd

theorem Sound.anchored
    (h : m.Sound) (hattends : m.Attends) :
    m.Anchored := by
  have hbusy : ∀ i d, m.loop.table.get? i = some d →
      (d.busy = true ↔ m.control.slot? = some i) := fun i d hd => (h.table.fits i d hd).busy
  refine ⟨?_, hbusy, ?_, ?_, fun turn => h.exists_of_turn?, ?_, ?_, ?_⟩
  · intro i j d e hi hj hd he
    have hsame := ((hbusy i d hi).1 hd).symm.trans ((hbusy j e hj).1 he)
    exact Option.some.inj hsame
  · intro hopen i d hd
    rw [hbusy i d hd, h.served?_eq_some_iff hattends hopen hd]
  · intro slot hslot
    have htable := h.table
    rw [hslot] at htable
    exact htable.exists_current
  · intro i d hd hclearing
    have hfit := h.table.fits i d hd
    have hcurrent := hfit.current_of_clearing hclearing
    refine ⟨hfit.busy.2 hcurrent, fun hwaiting => ?_, fun hactive => ?_⟩
    · rw [hfit.waiting_iff.1 hwaiting] at hclearing
      cases hclearing
    · exact hfit.not_current hactive hcurrent
  · rintro i (hwaiting | hactive)
    · exact h.table.exists_of_mem_waiting hwaiting
    · exact h.table.exists_of_mem_active hactive
  · intro hover
    have hslot : m.control.slot? = none := by
      rcases hover with hc | hc <;> rw [hc] <;> rfl
    have htable := h.table
    rw [hslot] at htable
    refine ⟨fun i d hd => ⟨htable.busy_eq_false hd, ?_⟩, htable.size_eq_watched⟩
    exact (htable.fits i d hd).not_clearing nofun

/-- Whatever handlers do, the slot that the dispatcher keeps while they run holds the same
descriptor until it is settled, and no request or move of the dispatcher comes upon a
vacant slot. -/
theorem slots_outlive_handlers
    {log : List (Act H)} (hbuilt : Built m) (hrun : Run m log m') :
    m'.Anchored ∧
      (∀ slot d steps m'', m'.control.slot? = some slot → m'.loop.table.get? slot = some d →
        Course m' steps m'' → (∀ s ∈ steps, s.after.control.slot? = some slot) →
        ∃ d', m''.loop.table.get? slot = some d' ∧ d'.fd = d.fd) ∧
      ∀ host, m'.step ≠ .error ⟨.vacantSlot, host⟩ ∧
        ∀ r, m'.perform r ≠ .error ⟨.vacantSlot, host⟩ := by
  have hsound := hrun.sound hbuilt.sound
  have hattends : m.Attends := by
    intro invocation next hrunning
    rw [hbuilt.control] at hrunning
    cases hrunning
  refine ⟨hsound.anchored (hrun.attends hbuilt.sound hattends), ?_, fun host => ⟨?_, ?_⟩⟩
  · intro slot d steps m'' hslot hd hcourse hkept
    exact (hcourse.get?_of_slot? hsound hslot hkept hd).2
  · intro hstep
    cases hsound.laidTo_step (hrun.linked hbuilt.sound hbuilt.linked) _ hstep
  · intro r hperform
    exact hsound.laidTo_perform r _ hperform rfl

/-- A handler clears another descriptor, whose slot is given to a new one, then its own,
and registers one more. -/
def recycledLog : List (Act Nat) :=
  [Act.request (.setFd 5 .recv .unlimited 1) .done, .request (.setFd 6 .recv .unlimited 2) .done,
    .request .dispatch .done] ++
  List.replicate 7 Act.advance ++ [Act.wait [⟨5, ⟨true, false, false⟩⟩]] ++
  List.replicate 4 Act.advance ++
  [Act.fire 5 .recv (.call 1), .request (.clearFd 6) .done,
    .request (.setFd 7 .recv .unlimited 3) .done, .request (.clearFd 5) .done,
    .request (.setFd 8 .recv .unlimited 4) .done]

theorem slots_outlive_handlers_recycledLog :
    ∃ m m' m'' : Machine Nat, Built m ∧ Run m recycledLog m' ∧ m'.Anchored ∧
      m'.control.slot? = some 0 ∧ (m'.loop.table.get? 1).map (·.fd) = some 7 ∧
      Move m' .resume m'' ∧ (∃ d, m''.loop.table.get? 0 = some d ∧ d.fd = 5) ∧
      ∀ host, m'.step ≠ .error ⟨.vacantSlot, host⟩ ∧
        ∀ r, m'.perform r ≠ .error ⟨.vacantSlot, host⟩ := by
  have hbuilt := built_scripted Nat [{ events := [(5, { input := true })] }]
  obtain ⟨m', m'', hrun, hmove, hslot, hslot', hreused, hfd⟩ :=
    exists_move_of_trail (m := scripted Nat [{ events := [(5, { input := true })] }])
      recycledLog .resume
      (fun m' m'' => m'.control.slot? = some 0 ∧ m''.control.slot? = some 0 ∧
        (m'.loop.table.get? 1).map (·.fd) = some 7 ∧ (m'.loop.table.get? 0).map (·.fd) = some 5)
      (List.flatten [
        [.request (.setFd 5 .recv .unlimited 1), .request (.setFd 6 .recv .unlimited 2),
          .request .dispatch], List.replicate 13 .step,
        [.request (.clearFd 6), .request (.setFd 7 .recv .unlimited 3), .request (.clearFd 5),
          .request (.setFd 8 .recv .unlimited 4), .resume]])
      (by decide +kernel)
  obtain ⟨hanchored, hkept, hnever⟩ := slots_outlive_handlers hbuilt hrun
  obtain ⟨d, hd, hdfd⟩ := Option.map_eq_some_iff.1 hfd
  obtain ⟨d', hd', hfd'⟩ := hkept 0 d _ m'' hslot hd (.snoc .nil hmove)
    (List.forall_mem_singleton.2 hslot')
  exact ⟨_, m', m'', hbuilt, hrun, hanchored, hslot, hreused, hmove,
    ⟨d', hd', hfd'.trans hdfd⟩, hnever⟩

end Machine
end CallbackLoop
