import CallbackLoop.Proofs.Loop.Course
import CallbackLoop.Proofs.Loop.Freshness
import CallbackLoop.Proofs.Loop.Timing

/-!
# Activity and inactivity timeouts

The turn of a descriptor ends its wait for activity: it begins by removing the
timeout.  A descriptor gets a turn only because the last wait reported a
direction that was registered, and in the turn a reaction starts unless every
such direction was withdrawn or served in the meantime.

`turn_follows_report` is the result for whole runs.  In the exceptional case the
timeout is lost without any reaction, even if it was armed after the report:
`stale_report_removes_timeout`.
-/

namespace CallbackLoop

variable {H R : Type}

/-- The last wait reported a direction of a descriptor that had the given binding.
`after` is what happened since. -/
def LastReport
    (A : Registry H) (log after : List (Act H)) (fd : Int) (a : Direction)
    (binding : Binding (Reaction H)) : Prop :=
  ∃ before events, log = before ++ .wait events :: after ∧
    (∀ events', .wait events' ∉ after) ∧
    (∃ event ∈ events, event.fd = fd ∧ event.ready.contains a = true) ∧
    (before.foldl Registry.after A).Binds fd a binding

theorem LastReport.append
    {A : Registry H} {log after : List (Act H)} {act : Act H} {fd : Int} {a : Direction}
    {binding : Binding (Reaction H)} (h : LastReport A log after fd a binding)
    (hwait : ∀ events, act ≠ .wait events) :
    LastReport A (log ++ [act]) (after ++ [act]) fd a binding := by
  obtain ⟨before, events, rfl, hafter, hreports, hbinds⟩ := h
  refine ⟨before, events, by simp, ?_, hreports, hbinds⟩
  intro events' hin
  rcases List.mem_append.1 hin with hin | hin
  · exact hafter events' hin
  · exact hwait events' (List.mem_singleton.1 hin).symm

/-- What happened since the report comes after the first move of all. -/
theorem LastReport.mem_tail
    {A : Registry H} {first act : Act H} {log after : List (Act H)} {fd : Int} {a : Direction}
    {binding : Binding (Reaction H)} (h : LastReport A (first :: log) after fd a binding)
    (hin : act ∈ after) :
    act ∈ log := by
  obtain ⟨before, events, heq, -⟩ := h
  cases before with
  | nil =>
      cases heq
      exact hin
  | cons first before =>
      cases heq
      exact List.mem_append_right _ (List.mem_cons_of_mem _ hin)

namespace DescriptorTable

variable {t t' : DescriptorTable R H} {current current' : Option Nat} {slot : Nat}
  {d d' : Descriptor R H} {fd : Int}

/-- A descriptor is on the active list. -/
def Active (t : DescriptorTable R H) (fd : Int) : Prop :=
  ∃ slot d, slot ∈ t.active ∧ t.get? slot = some d ∧ d.fd = fd

/-- What an operation on one slot finds on the active list was there before, but
for that slot. -/
theorem Active.of_onlyAt
    (h : t'.Active fd) (honly : OnlyAt slot t t')
    (hself : ∀ d', slot ∈ t'.active → t'.get? slot = some d' → d'.fd = fd → t.Active fd) :
    t.Active fd := by
  obtain ⟨i, d, hi, hd, hfd⟩ := h
  by_cases heq : i = slot
  · subst heq
    exact hself d hi hd hfd
  · exact ⟨i, d, (honly.mem_active heq).1 hi, (honly.get? i heq).symm.trans hd, hfd⟩

theorem Active.of_set
    (h : (t.set slot d').Active fd) (hd : t.get? slot = some d) (hfd : d'.fd = d.fd) :
    t.Active fd := by
  refine h.of_onlyAt (onlyAt_set t slot d') fun e hin he hefd => ?_
  cases (get?_set_self hd d').symm.trans he
  exact ⟨slot, d, hin, hd, hfd.symm.trans hefd⟩

theorem Active.of_remove
    (h : (t.remove slot).Active fd) :
    t.Active fd := by
  refine h.of_onlyAt (onlyAt_remove t slot) fun e _ he _ => ?_
  rw [get?_remove_self] at he
  cases he

theorem Active.of_clear
    (h : (t.clear slot d).Active fd) (htidy : t.Tidy) :
    t.Active fd := by
  unfold clear at h
  split at h
  · have honly := ((onlyAt_set t slot { d.cleared with stage := .clearing, ready := ∅ }).trans
      (onlyAt_unwatch _ slot)).trans (onlyAt_deactivate _ slot)
    refine h.of_onlyAt honly fun e hin _ _ => ?_
    exact absurd hin htidy.active.not_mem_erase
  · exact h.of_remove

theorem Active.of_register
    {other : Int} (h : (t.register other d').Active fd) (hsound : t.Sound current)
    (hfd : d'.fd = other) :
    t.Active fd := by
  obtain ⟨honly, -, hget, -, hactive⟩ := hsound.register_spec other d'
  refine h.of_onlyAt honly fun e hin he hefd => ?_
  cases hget.symm.trans he
  rw [hactive] at hin
  obtain ⟨d, -, hdfd, -, -, -, hold | ⟨-, hnone, -⟩⟩ := hsound.ensure_spec other
  · exact ⟨_, d, hin, hold, hdfd.trans (hfd.symm.trans hefd)⟩
  · exact absurd hin (hsound.vacant _ hnone).2.1

theorem Active.of_retimed
    (h : t'.Active fd) (hr : Retimed t t') :
    t.Active fd := by
  obtain ⟨i, d', hi, hd', hfd⟩ := h
  obtain ⟨entry, handler, heq⟩ := hr.get? i
  rw [hd'] at heq
  obtain ⟨d, hd, rfl⟩ := Option.map_eq_some_iff.1 heq.symm
  exact ⟨i, d, hr.active ▸ hi, hd, hfd⟩

/-- Settling puts no other descriptor on the active list. -/
theorem Active.of_settle
    {clears : Nat} {pending : Directions} (h : (t.settle slot d clears pending).Active fd)
    (hd : t.get? slot = some d) (hne : d.fd ≠ fd) :
    t.Active fd := by
  refine h.of_onlyAt (onlyAt_settle t slot d clears pending) fun e _ he hefd => ?_
  cases (get?_settle_self hd clears pending).symm.trans he
  exact absurd hefd hne

/-- With nothing pending it puts none there. -/
theorem Active.of_settle_empty
    {clears : Nat} (h : (t.settle slot d clears ∅).Active fd) (hd : t.get? slot = some d) :
    t.Active fd := by
  rw [settle, d.requeues_empty clears, if_neg Bool.false_ne_true] at h
  exact h.of_set hd rfl

theorem Active.of_notify
    {ready : Directions} (h : (t.notify slot d ready).Active fd) (hd : t.get? slot = some d)
    (hne : d.fd ≠ fd) :
    t.Active fd := by
  refine h.of_onlyAt (onlyAt_notify t slot d ready) fun e _ he hefd => ?_
  cases (get?_notify_self hd ready).symm.trans he
  exact absurd hefd hne

end DescriptorTable

namespace Machine

variable {m m' m'' : Machine H} {fd : Int} {a : Direction} {act : Act H}
  {log after : List (Act H)} {turn : Turn}

/-- A descriptor is on the active list, or its turn is under way. -/
def Enlisted (m : Machine H) (fd : Int) : Prop :=
  m.loop.table.Active fd ∨ ∃ turn, m.control.turn? = some turn ∧ turn.fd = fd

theorem Enlisted.of_perform
    (hin : m'.Enlisted fd) (h : m.Sound) {r : Request H} {reply : Reply}
    (hperform : Performed m r reply m') :
    m.Enlisted fd := by
  have hturn := turn?_perform h hperform
  unfold Enlisted at hin
  rw [hturn] at hin
  refine hin.imp ?_ id
  have hclear : ∀ {other : Int}, m.clearFd other = .ok m' →
      m'.loop.table.Active fd → m.loop.table.Active fd := by
    intro other hclear hactive
    rcases clearFd_ok hclear with ⟨-, rfl⟩ | ⟨slot, d, b, k, -, -, -, rfl⟩
    · exact hactive
    · exact hactive.of_clear h.table.toTidy
  intro hactive
  cases hperform with
  | cleared hcleared | unset hcleared =>
      exact hclear hcleared hactive
  | refused =>
      exact hactive
  | registered _ _ _ hreg =>
      obtain ⟨e, htable, hfd, -⟩ := hreg.stores h
      rw [htable] at hactive
      exact hactive.of_register h.table hfd
  | handled _ hd =>
      exact hactive.of_set hd rfl
  | aside haside =>
      rwa [haside.table] at hactive

theorem Enlisted.of_turnMove
    (hin : m'.Enlisted fd) (h : m.Sound) {d : Descriptor (Reaction H) H}
    (hc : m.control = .dispatching (.turn turn)) (hd : m.loop.table.get? turn.slot = some d)
    (hmove : TurnMove m turn d m') :
    m.Enlisted fd := by
  obtain ⟨hturn, -, hfd, -, -⟩ := h.of_turn hc hd
  rcases act_of_turn hc hmove with ⟨-, hended | hskipped⟩ | ⟨a, -, -, -, -, -, -, hset, hturn'⟩
  · obtain ⟨m₁, -, hsettle, rfl⟩ := hended
    rcases hin with hactive | ⟨turn₀, hturn₀, -⟩
    · by_cases heq : turn.fd = fd
      · exact .inr ⟨turn, hturn, heq⟩
      · refine .inl ?_
        obtain ⟨e, he, ⟨-, rfl⟩ | ⟨-, b, k, -, rfl⟩⟩ := settle_ok hsettle
        · exact DescriptorTable.Active.of_remove hactive
        · cases hd.symm.trans he
          exact DescriptorTable.Active.of_settle hactive hd (hfd ▸ heq)
    · cases hturn₀
  · obtain ⟨a, -, -, -, rfl⟩ := hskipped
    refine hin.imp id ?_
    rintro ⟨turn₀, hturn₀, hfd₀⟩
    cases hturn₀
    exact ⟨turn, hturn, hfd₀⟩
  · rcases hin with hactive | ⟨turn₀, hturn₀, hfd₀⟩
    · rw [hset] at hactive
      exact .inl (hactive.of_set hd (d.fd_spent a))
    · cases hturn'.symm.trans hturn₀
      exact .inr ⟨turn, hturn, hfd₀⟩

/-- Outside of waits a descriptor is enlisted only if it was before. -/
theorem Enlisted.of_advance
    (hin : m'.Enlisted fd) (h : m.Sound) {phase : Phase H} (hc : m.control = .dispatching phase)
    (hadvance : Advance m phase m') (hwait : phase ≠ .wait) :
    m.Enlisted fd := by
  have htable := h.table_of_dispatching hc
  -- In phases without a turn only the active list counts.
  have hout : ∀ {m' : Machine H}, m'.control.turn? = none →
      (m'.loop.table.Active fd → m.loop.table.Active fd) → m'.Enlisted fd → m.Enlisted fd := by
    rintro m' hnone hactive (hin | ⟨turn, hturn, -⟩)
    · exact .inl (hactive hin)
    · rw [hnone] at hturn
      cases hturn
  cases hadvance with
  | quiet hquiet =>
      unfold Enlisted at hin ⊢
      rw [hquiet.table, hquiet.turn] at hin
      rw [hc]
      exact hin
  | @begins slot active d _ hactive hd =>
      have hfirst : m.loop.table.Active d.fd :=
        ⟨slot, d, by rw [hactive]; exact List.mem_cons_self, hd, rfl⟩
      rcases hin with hin | ⟨turn, hturn, rfl⟩
      · have hget : DescriptorTable.get? { m.loop.table with active } slot = some d := hd
        obtain ⟨i, e, hi, he, hfd⟩ := hin.of_set hget rfl
        exact .inl ⟨i, e, by rw [hactive]; exact List.mem_cons_of_mem _ hi, he, hfd⟩
      · cases hturn
        exact .inl hfirst
  | turn hd hmove =>
      exact hin.of_turnMove h hc hd hmove
  | @postponed now deferred =>
      obtain ⟨t, q, hfold, -, hretimed⟩ := follows_postpone now deferred htable
      rw [hfold] at hin
      exact hout rfl (fun hactive => hactive.of_retimed hretimed) hin
  | @expires now deferred other q slot d _ _ _ _ hd hexpiry =>
      obtain ⟨busy, hset⟩ := hexpiry.table_eq
      refine hout (by cases hexpiry <;> rfl) (fun hactive => ?_) hin
      rw [hset] at hactive
      exact hactive.of_set hd rfl
  | @settles slot clears now deferred m₁ hsettle =>
      refine hout rfl (fun hactive => ?_) hin
      obtain ⟨d, hd, ⟨-, rfl⟩ | ⟨-, b, k, -, rfl⟩⟩ := settle_ok hsettle
      · exact DescriptorTable.Active.of_remove hactive
      · exact DescriptorTable.Active.of_settle_empty hactive hd
  | waits =>
      exact absurd rfl hwait

theorem Enlisted.of_move
    (hin : m'.Enlisted fd) (h : m.Sound) (hmove : Move m act m')
    (hwait : ∀ events, act ≠ .wait events) :
    m.Enlisted fd := by
  cases hmove with
  | request _ hperform =>
      exact hin.of_perform h (perform_ok hperform)
  | resume hc =>
      rw [resume_eq hc] at hin
      unfold Enlisted
      rw [hc]
      exact hin
  | @step _ phase hc hstep =>
      simp only [step, hc] at hstep
      refine hin.of_advance h hc (advance_ok hstep) ?_
      rintro rfl
      exact hwait m.reports (act_eq_wait hc)
  | world host =>
      exact hin

/-- An event puts a descriptor on the active list only if it reports a direction
that is bound. -/
theorem active_of_enqueue
    {event : Event} (h : m.loop.table.Sound none) (henqueue : m.enqueue event = .ok m')
    (hactive : m'.loop.table.Active fd) :
    m.loop.table.Active fd ∨ event.fd = fd ∧ ∃ a b binding, event.ready.contains a = true ∧
      m.loop.table.bindings? fd = some b ∧ b a = some binding := by
  rcases enqueue_ok henqueue with ⟨rfl, -⟩ | ⟨slot, d, b, k, hslot, hd, hclearing, hsome, -, rfl⟩
  · exact .inl hactive
  · by_cases hne : d.fd = fd
    · subst hne
      obtain ⟨e, he, hfd⟩ := h.slotOf?_eq_some_iff.1 hslot
      cases hd.symm.trans he
      obtain ⟨a, ha⟩ : ∃ a, (event.ready ∩ d.wanted.directions).contains a = true := by
        by_contra hnone
        refine hsome (Directions.ext fun a => ?_)
        rw [Directions.contains_empty, ← Bool.not_eq_true]
        exact fun ha => hnone ⟨a, ha⟩
      rw [Directions.contains_inter, Bool.and_eq_true] at ha
      have hregistered := Descriptor.registered_of_wanted ha.2
      rw [Descriptor.contains_registered] at hregistered
      obtain ⟨binding, hbinding⟩ := Option.isSome_iff_exists.1 hregistered
      refine .inr ⟨hfd.symm, a, d.binding?, binding, ha.1, ?_, hbinding⟩
      rw [h.bindings?_of_get? hd, Descriptor.bindings?, if_neg (by simp [hclearing])]
    · exact .inl (DescriptorTable.Active.of_notify hactive hd hne)

theorem active_of_foldlM
    {events : List Event} (h : m.loop.table.Sound none)
    (hfold : events.foldlM enqueue m = .ok m') (hactive : m'.loop.table.Active fd) :
    m.loop.table.Active fd ∨ ∃ event ∈ events, event.fd = fd ∧
      ∃ a b binding, event.ready.contains a = true ∧
        m.loop.table.bindings? fd = some b ∧ b a = some binding := by
  induction events generalizing m with
  | nil =>
      cases hfold
      exact .inl hactive
  | cons event events ih =>
      rw [List.foldlM_cons, Except.bind_eq_ok_iff] at hfold
      obtain ⟨m₁, henqueue, hfold⟩ := hfold
      obtain ⟨k, b, t, hm₁, ht⟩ := enqueue_sound h henqueue
      have hsound : m₁.loop.table.Sound none := by
        rw [hm₁]
        exact ht
      have hbindings := bindings?_enqueue h henqueue
      rcases ih hsound hfold with hactive | ⟨e, hin, hreports⟩
      · rcases active_of_enqueue h henqueue hactive with hold | hreports
        · exact .inl hold
        · exact .inr ⟨event, List.mem_cons_self, hreports⟩
      · rw [hbindings] at hreports
        exact .inr ⟨e, List.mem_cons_of_mem event hin, hreports⟩

/-- A wait enlists only descriptors of which it reports a direction that is bound. -/
theorem Enlisted.of_wait
    {events : List Event} (hin : m'.Enlisted fd) (h : m.Sound)
    (hmove : Move m (.wait events) m') :
    ∃ event ∈ events, event.fd = fd ∧ ∃ a b binding, event.ready.contains a = true ∧
      m.loop.table.bindings? fd = some b ∧ b a = some binding := by
  obtain ⟨hc, host, m₁, hfold, rfl⟩ := awaitEvents_of_wait hmove
  have htable : m.loop.table.Sound none := h.table_of_dispatching hc
  rcases hin with hactive | ⟨turn, hturn, -⟩
  · refine (active_of_foldlM (m := { m with host }) htable hfold hactive).resolve_left ?_
    rintro ⟨slot, d, hslot, -⟩
    have hnil : m.loop.table.active = [] := h.drained .wait (by rw [hc]; rfl)
    rw [show Loop.table _ = m.loop.table from rfl, hnil] at hslot
    cases hslot
  · cases hturn

/-- At first no descriptor is enlisted. -/
theorem Built.not_enlisted
    (h : Built m) (fd : Int) :
    ¬m.Enlisted fd := by
  have hnone : ∀ {t : DescriptorTable (Reaction H) H}, t.active = [] → ¬t.Active fd := by
    rintro t hnil ⟨slot, d, hslot, -⟩
    rw [hnil] at hslot
    cases hslot
  rintro (hactive | ⟨turn, hturn, -⟩)
  · rcases h.blank_or_registers with hblank | ⟨m₀, other, d, d', kernel, hblank, hreg⟩
    · exact hnone (by rw [hblank.table]) hactive
    · obtain ⟨e, htable, hfd, -⟩ := hreg.stores hblank.sound
      rw [htable] at hactive
      exact hnone (by rw [hblank.table]) (hactive.of_register hblank.sound.table hfd)
  · rw [h.control] at hturn
    cases hturn

/-- An enlisted descriptor was reported by the last wait, in a direction that was
bound at that time. -/
theorem Run.lastReport
    (hrun : Run m log m') (h : m.Sound) {A : Registry H} (hr : m.Represents A)
    (hfirst : ¬m.Enlisted fd) (hin : m'.Enlisted fd) :
    ∃ after a binding, LastReport A log after fd a binding := by
  induction log using List.reverseRecOn generalizing m' with
  | nil =>
      cases hrun
      exact absurd hin hfirst
  | append_singleton log act ih =>
      obtain ⟨m₁, hrun₁, hmove⟩ := hrun.split_last
      have hsound := hrun₁.sound h
      by_cases hwait : ∃ events, act = .wait events
      · obtain ⟨events, rfl⟩ := hwait
        obtain ⟨event, hevent, hfd, a, b, binding, ha, hb, hbinding⟩ := hin.of_wait hsound hmove
        obtain ⟨hr', -⟩ := represents_run hrun₁ h hr
        exact ⟨[], a, binding, log, events, rfl, by simp, ⟨event, hevent, hfd, ha⟩, b,
          (hr' fd).trans hb, hbinding⟩
      · have hne : ∀ events, act ≠ .wait events := fun events heq => hwait ⟨events, heq⟩
        obtain ⟨after, a, binding, hreport⟩ := ih hrun₁ (hin.of_move hsound hmove hne)
        exact ⟨after ++ [act], a, binding, hreport.append hne⟩

/-- In the turn that goes on a reaction starts: the dispatcher comes to one, and
until then it does not leave the turn. -/
structure Serves (m : Machine H) (turn : Turn) : Prop where
  reaches : ∃ n m' a reaction,
    Run m (List.replicate n .advance ++ [.fire turn.fd a reaction]) m'
  stays : ∀ log m', Run m log m' →
    (∃ a reaction, .fire turn.fd a reaction ∈ log) ∨
      ∃ pending, m'.control = .dispatching (.turn { turn with pending })

/-- A turn goes on in which a pending direction is bound. -/
structure Serving (m : Machine H) (turn : Turn) : Prop where
  control : m.control = .dispatching (.turn turn)
  unbroken : m.loop.broken = false
  bound : ∃ d a binding, m.loop.table.get? turn.slot = some d ∧ d.clears = turn.clears ∧
    turn.pending.contains a = true ∧ d.binding? a = some binding

/-- Such a turn passes over unbound directions until a reaction starts. -/
theorem Serving.turnMove
    (hserving : m.Serving turn) {d : Descriptor (Reaction H) H}
    (hd : m.loop.table.get? turn.slot = some d) (hmove : TurnMove m turn d m') :
    (∃ a reaction, m.act m' = .fire turn.fd a reaction) ∨
      ∃ a, turn.pending.first? = some a ∧ m.act m' = .advance ∧
        m'.Serving { turn with pending := turn.pending.erase a } := by
  obtain ⟨e, a, binding, he, hclears, ha, hbinding⟩ := hserving.bound
  cases hd.symm.trans he
  rcases act_of_turn hserving.control hmove with ⟨hact, hended | hskipped⟩ |
    ⟨a', binding', hact, -⟩
  · obtain ⟨m₁, hnone | hbroken | hcleared, -⟩ := hended
    · rw [Directions.first?_eq_none_iff] at hnone
      rw [hnone, Directions.contains_empty] at ha
      cases ha
    · rw [hserving.unbroken] at hbroken
      cases hbroken
    · exact absurd hclears hcleared
  · obtain ⟨a', hfirst, -, hnone, rfl⟩ := hskipped
    have hne : a' ≠ a := by
      rintro rfl
      rw [hbinding] at hnone
      cases hnone
    refine .inr ⟨a', hfirst, hact, rfl, hserving.unbroken, d, a, binding, hd, hclears, ?_,
      hbinding⟩
    simp [Directions.erase, ha, hne]
  · exact .inl ⟨a', _, hact⟩

theorem Serving.move
    (hserving : m.Serving turn) (hmove : Move m act m') :
    (∃ a reaction, act = .fire turn.fd a reaction) ∨
      ∃ pending, m'.Serving { turn with pending } := by
  have hc := hserving.control
  cases hmove with
  | request hopen _ =>
      rw [hc] at hopen
      cases hopen
  | resume hrunning =>
      rw [hc] at hrunning
      cases hrunning
  | world host =>
      exact .inr ⟨turn.pending, hc, hserving.unbroken, hserving.bound⟩
  | step hphase hstep =>
      simp only [step, hc] at hstep
      obtain ⟨d, hd, hmove⟩ := advanceTurn_ok hstep
      rcases hserving.turnMove hd hmove with hfire | ⟨a, -, -, hserving'⟩
      · exact .inl hfire
      · exact .inr ⟨_, hserving'⟩

theorem Serving.run
    (hserving : m.Serving turn) (hrun : Run m log m') :
    (∃ a reaction, .fire turn.fd a reaction ∈ log) ∨
      ∃ pending, m'.Serving { turn with pending } := by
  induction hrun generalizing turn with
  | nil =>
      exact .inr ⟨turn.pending, hserving⟩
  | @cons _ _ _ act log hmove _ ih =>
      rcases hserving.move hmove with ⟨a, reaction, rfl⟩ | ⟨pending, hserving'⟩
      · exact .inl ⟨a, reaction, List.mem_cons_self⟩
      · exact (ih hserving').imp
          (fun ⟨a, reaction, hin⟩ => ⟨a, reaction, List.mem_cons_of_mem act hin⟩) id

theorem exists_advanceTurn
    {d : Descriptor (Reaction H) H} (hd : m.loop.table.get? turn.slot = some d)
    (hfirst : turn.pending.first? = some a) (hbroken : m.loop.broken = false)
    (hclears : d.clears = turn.clears) :
    ∃ m', m.advanceTurn turn = .ok m' := by
  unfold advanceTurn
  simp only [Except.bind_eq_ok_iff, hfirst, hbroken]
  cases hbinding : d.binding? a with
  | none =>
      exact ⟨_, d, descriptor_eq_ok_iff.2 hd, by simp [hclears, hbinding]; rfl⟩
  | some binding =>
      cases hreaction : binding.reaction with
      | call handler | deliver =>
          exact ⟨_, d, descriptor_eq_ok_iff.2 hd, by
            simp [hclears, hbinding, hreaction]; rfl⟩

/-- The dispatcher comes to a reaction, by induction on the pending directions. -/
theorem Serving.reaches
    (hserving : m.Serving turn) :
    ∃ n m' a reaction, Run m (List.replicate n .advance ++ [.fire turn.fd a reaction]) m' := by
  induction hlist : turn.pending.toList generalizing m turn with
  | nil =>
      obtain ⟨-, a, -, -, -, ha, -⟩ := hserving.bound
      rw [← Directions.mem_toList, hlist] at ha
      cases ha
  | cons a directions ih =>
      have hfirst : turn.pending.first? = some a := by
        rw [Directions.first?, hlist]
        rfl
      obtain ⟨d, -, -, hd, hclears, -⟩ := hserving.bound
      obtain ⟨m₁, hadvance⟩ := exists_advanceTurn hd hfirst hserving.unbroken hclears
      have hmove : Move m (m.act m₁) m₁ :=
        .step hserving.control (by simp only [step, hserving.control]; exact hadvance)
      obtain ⟨e, he, hturn⟩ := advanceTurn_ok hadvance
      rcases hserving.turnMove he hturn with ⟨a', reaction, hact⟩ |
        ⟨a', hfirst', hact, hserving'⟩
      · rw [hact] at hmove
        exact ⟨0, m₁, a', reaction, .cons hmove .nil⟩
      · cases hfirst.symm.trans hfirst'
        rw [Directions.toList_eq_cons hfirst, List.cons.injEq] at hlist
        obtain ⟨n, m', a', reaction, hrun⟩ := ih hserving' hlist.2
        rw [hact] at hmove
        exact ⟨n + 1, m', a', reaction, .cons hmove hrun⟩

theorem Serving.serves
    (hserving : m.Serving turn) :
    m.Serves turn where
  reaches := hserving.reaches
  stays _ _ hrun := (hserving.run hrun).imp id fun ⟨pending, h⟩ => ⟨pending, h.control⟩

/-- The move that begins a turn. -/
theorem begins_of_move
    (h : m.Sound) (hc : m.control = .dispatching .ready) (hmove : Move m act m')
    (hbegins : m'.control = .dispatching (.turn turn)) :
    ∃ d, m.Enlisted turn.fd ∧ m.loop.table.find? turn.fd = some d ∧
      m'.timing = m.timing.disarm turn.fd ∧
      ∀ a binding, d.ready.contains a = true → d.binding? a = some binding → m'.Serving turn := by
  cases hmove with
  | request hopen _ =>
      rw [hc] at hopen
      cases hopen
  | resume hrunning =>
      rw [hc] at hrunning
      cases hrunning
  | world host =>
      cases hc.symm.trans hbegins
  | step hphase hstep =>
      simp only [step, hc] at hstep
      have htable : m.loop.table.Sound none := h.table_of_dispatching hc
      have hadvance := advance_ok hstep
      have hsound := (h.advance hc hadvance).table
      cases hadvance with
      | quiet hquiet =>
          have hturn := hquiet.turn
          rw [hbegins] at hturn
          cases hturn
      | @begins slot active d hbroken hactive hd =>
          cases hbegins
          have hget : DescriptorTable.get? { m.loop.table with active } slot = some d := hd
          have hfirst : slot ∈ m.loop.table.active := by
            rw [hactive]
            exact List.mem_cons_self
          refine ⟨d, .inl ⟨slot, d, hfirst, hd, rfl⟩, htable.find?_eq_some_iff.2 ⟨slot, hd, rfl⟩,
            timing_begins htable (by rw [hc]; rfl) hactive hd rfl hsound rfl rfl, ?_⟩
          intro a binding ha hbinding
          exact ⟨rfl, hbroken, _, a, binding, DescriptorTable.get?_set_self hget _, rfl, ha,
            by cases a <;> exact hbinding⟩

/-- A direction that the last wait reported was withdrawn or served since, or it is
queued and bound as it was. -/
theorem withdrawn_or_served_or_bound
    {A : Registry H} {binding : Binding (Reaction H)} (hrun : Run m log m') (h : m.Sound)
    (hr : m.Represents A) (hreport : LastReport A log after fd a binding) :
    Withdrawn after fd a ∨ FiresOnce after fd a binding.reaction ∨
      m'.Owes fd a ∧ (log.foldl Registry.after A).Binds fd a binding := by
  obtain ⟨before, events, rfl, hwait, ⟨event, hin, rfl, ha⟩, hbinds⟩ := hreport
  obtain ⟨m₁, hbefore, hrest⟩ := hrun.split
  cases hrest with
  | @cons _ m₂ _ _ _ hmove hafter =>
      have hsound := hbefore.sound h
      obtain ⟨hr₁, -⟩ := represents_run hbefore h hr
      obtain ⟨hr₂, -⟩ := represents_move hsound hr₁ hmove
      obtain ⟨b, hlookup, hbinding⟩ := hbinds
      have howes := owes_of_wait hsound hmove hin ha ((hr₁ event.fd).symm.trans hlookup) hbinding
      have hbinds' : (Registry.after (before.foldl Registry.after A) (.wait events)).Binds
          event.fd a binding := ⟨b, hlookup, hbinding⟩
      rcases howes.run hafter (hsound.move hmove) hr₂ hbinds' hwait with hdone | hdone |
        ⟨hfire, howes'⟩
      · exact .inl hdone
      · exact .inr (.inl hdone)
      · by_cases hkept : ∀ act ∈ after, act.withdraws event.fd a = false
        · refine .inr (.inr ⟨howes', ?_⟩)
          rw [List.foldl_append, List.foldl_cons]
          exact hbinds'.foldl hkept hfire
        · push Not at hkept
          obtain ⟨act, hact, hwithdraws⟩ := hkept
          obtain ⟨early, late, rfl⟩ := List.append_of_mem hact
          refine .inl ⟨early, act, late, rfl, by simpa using hwithdraws, fun reaction hin => ?_⟩
          exact hfire reaction (List.mem_append_left _ hin)

/-- The turn of a descriptor begins by removing its timeout.  It follows a report:
the last wait reported a direction of the descriptor that was bound.  In the turn
a reaction starts, unless every such direction was withdrawn or served since. -/
theorem turn_follows_report
    (hbuilt : Built m) (hrun : Run m log m') (hc : m'.control = .dispatching .ready)
    (hmove : Move m' act m'') (hbegins : m''.control = .dispatching (.turn turn)) :
    m''.timing = m'.timing.disarm turn.fd ∧
      ∃ after,
        (∃ a binding, LastReport (builtRegistry m.loop) log after turn.fd a binding) ∧
        (m''.Serves turn ∨
          ∀ a binding, LastReport (builtRegistry m.loop) log after turn.fd a binding →
            Withdrawn after turn.fd a ∨ FiresOnce after turn.fd a binding.reaction) := by
  have hsound := hrun.sound hbuilt.sound
  obtain ⟨hr, -⟩ := represents_run hrun hbuilt.sound hbuilt.represents
  obtain ⟨d, hlast, hfind, htiming, hserving⟩ := begins_of_move hsound hc hmove hbegins
  obtain ⟨after, a, binding, hreport⟩ :=
    hrun.lastReport hbuilt.sound hbuilt.represents (hbuilt.not_enlisted turn.fd) hlast
  refine ⟨htiming, after, ⟨a, binding, hreport⟩, ?_⟩
  by_cases hbound : ∃ a binding, d.ready.contains a = true ∧ d.binding? a = some binding
  · obtain ⟨a, binding, ha, hbinding⟩ := hbound
    exact .inl (hserving a binding ha hbinding).serves
  · refine .inr fun a binding hreport => ?_
    rcases withdrawn_or_served_or_bound hrun hbuilt.sound hbuilt.represents hreport with hdone |
      hdone | ⟨howes, hbinds⟩
    · exact .inl hdone
    · exact .inr hdone
    · -- Queued and bound, the direction would be pending in this turn.
      obtain ⟨e, he, -, hbinding⟩ := hr.find? hbinds
      cases hfind.symm.trans he
      obtain ⟨clears, queued, hreadiness, rfl | ⟨turn₀, hturn₀, -⟩⟩ := howes
      · rw [DescriptorTable.readiness?, hfind, Option.map_some, Option.some.injEq,
          Prod.mk.injEq] at hreadiness
        exact absurd ⟨a, binding, hreadiness.2, hbinding⟩ hbound
      · rw [hc] at hturn₀
        cases hturn₀

/-- A descriptor with a timeout is reported and has its turn next. -/
def answeredLog : List (Act Nat) :=
  [Act.request (.setFd 5 .recv (.after 50) 1) .done, .request .dispatch .done] ++
  List.replicate 7 Act.advance ++ [Act.wait [⟨5, ⟨true, false, false⟩⟩]] ++
  List.replicate 3 Act.advance

theorem turn_follows_report_answeredLog :
    ∃ (m m' m'' : Machine Nat) (turn : Turn), Built m ∧ Run m answeredLog m' ∧
      m'.control = .dispatching .ready ∧ m'.timing.entry 5 ≠ none ∧ Move m' .advance m'' ∧
      m''.control = .dispatching (.turn turn) ∧ turn.fd = 5 ∧ m''.timing.entry 5 = none ∧
      m''.Serves turn := by
  have hbuilt := built_scripted Nat [{ events := [(5, { input := true })] }]
  obtain ⟨m', m'', hrun, hmove, hready, hturn, hentry⟩ := exists_move_of_trail
    (m := scripted Nat [{ events := [(5, { input := true })] }]) answeredLog .advance
    (fun m' m'' => m'.control = .dispatching .ready ∧
      m''.control = .dispatching (.turn ⟨0, 5, 0, ⟨true, false, false⟩⟩) ∧
      m'.timing.entry 5 ≠ none)
    ([.request (.setFd 5 .recv (.after 50) 1), .request .dispatch] ++ List.replicate 12 .step)
    (by decide +kernel)
  obtain ⟨htiming, after, ⟨a, binding, hreport⟩, hserves⟩ :=
    turn_follows_report hbuilt hrun hready hmove hturn
  have hnone : m''.timing.entry 5 = none := by
    rw [htiming]
    exact Function.update_self (5 : Int) none m'.timing.entry
  refine ⟨_, m', m'', _, hbuilt, hrun, hready, hentry, hmove, hturn, rfl, hnone, ?_⟩
  · -- Since the report the descriptor was neither withdrawn nor served.
    refine hserves.resolve_right fun hdone => ?_
    have hquiet : ∀ act ∈ answeredLog.tail, act.withdraws 5 a = false ∧
        ∀ reaction, act ≠ .fire 5 a reaction := by
      have hacts : ∀ act ∈ answeredLog.tail, act = .request .dispatch .done ∨ act = .advance ∨
          ∃ events, act = .wait events := by
        simp [answeredLog]
      intro act hin
      rcases hacts act hin with rfl | rfl | ⟨events, rfl⟩ <;> simp [Act.withdraws]
    rcases hdone a binding hreport with ⟨early, act, late, rfl, hwithdraws, -⟩ |
      ⟨early, late, rfl, -⟩
    · have hin : act ∈ answeredLog.tail := hreport.mem_tail (by simp)
      rw [(hquiet act hin).1] at hwithdraws
      cases hwithdraws
    · have hin : Act.fire 5 a binding.reaction ∈ answeredLog.tail := hreport.mem_tail (by simp)
      exact (hquiet _ hin).2 _ rfl

/-- Two descriptors are reported.  The handler of the first binds the second anew
and arms a timeout for it. -/
def rearmedLog : List (Act Nat) :=
  [Act.request (.setFd 4 .recv .unlimited 1) .done, .request (.setFd 5 .recv .unlimited 2) .done,
    .request .dispatch .done] ++
  List.replicate 7 Act.advance ++
  [Act.wait [⟨4, ⟨true, false, false⟩⟩, ⟨5, ⟨true, false, false⟩⟩]] ++
  List.replicate 4 Act.advance ++
  [Act.fire 4 .recv (.call 1), .request (.setFd 5 .recv (.after 50) 3) .done, .resume, .advance]

/-- The turn of the second descriptor begins by removing the new timeout, and ends
without any reaction: the report was meant for the binding that is gone. -/
theorem stale_report_removes_timeout :
    ∃ (m m' m₁ m₂ : Machine Nat) (turn : Turn), Built m ∧ Run m rearmedLog m' ∧
      m'.control = .dispatching .ready ∧ m'.timing.entry 5 ≠ none ∧ Move m' .advance m₁ ∧
      m₁.control = .dispatching (.turn turn) ∧ turn.fd = 5 ∧ m₁.timing.entry 5 = none ∧
      Move m₁ .advance m₂ ∧ m₂.control = .dispatching .ready ∧ ¬m₁.Serves turn := by
  obtain ⟨m', m₁, hrun, hmove, hready, hturn, hentry, hend⟩ := exists_move_of_trail
    (m := scripted Nat [{ events := [(4, { input := true }), (5, { input := true })] }])
    rearmedLog .advance
    (fun m' m₁ => m'.control = .dispatching .ready ∧
      m₁.control = .dispatching (.turn ⟨1, 5, 0, ∅⟩) ∧ m'.timing.entry 5 ≠ none ∧
      (m₁.heed .step).map (fun r => (r.1, r.2.control)) =
        some (.advance, .dispatching .ready))
    (List.flatten [
      [.request (.setFd 4 .recv .unlimited 1), .request (.setFd 5 .recv .unlimited 2),
        .request .dispatch],
      List.replicate 13 .step, [.request (.setFd 5 .recv (.after 50) 3), .resume],
      List.replicate 2 .step])
    (by decide +kernel)
  obtain ⟨⟨act, m₂⟩, hheed, heq⟩ := Option.map_eq_some_iff.1 hend
  obtain ⟨rfl, hready'⟩ := Prod.mk.inj heq
  have hmove' := move_of_heed hheed
  have hbuilt := built_scripted Nat
    [{ events := [(4, { input := true }), (5, { input := true })] }]
  obtain ⟨d, -, -, htiming, -⟩ := begins_of_move (hrun.sound hbuilt.sound) hready hmove hturn
  have hnone : m₁.timing.entry 5 = none := by
    rw [htiming]
    exact Function.update_self (5 : Int) none m'.timing.entry
  refine ⟨_, m', m₁, m₂, _, hbuilt, hrun, hready, hentry, hmove, hturn, rfl, hnone, hmove',
    hready', ?_⟩
  intro hserves
  rcases hserves.stays _ _ (.cons hmove' .nil) with ⟨a, reaction, hfire⟩ | ⟨pending, hstays⟩
  · simp at hfire
  · cases hready'.symm.trans hstays

end Machine
end CallbackLoop
