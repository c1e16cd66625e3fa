import CallbackLoop.Proofs.Loop.Activity
import CallbackLoop.Proofs.Loop.Blame
import Mathlib.Data.List.Dedup

/-!
# The queue of ready descriptors

The active list as a queue of descriptors.  A wait puts descriptors at its end, and so does
a break that cuts a turn short; a turn takes the first one off, and a clear takes one out
wherever it stands.  Nothing else changes the queue.  In particular no request puts a
descriptor there, and the descriptors that are left keep their order.
-/

namespace CallbackLoop

variable {H R : Type}

/-- What is left of a list without repetitions, and what comes after it. -/
theorem sublist_dedup_append
    {left arrived fresh : List Int} (h : left.Sublist arrived.dedup)
    (hnodup : (left ++ fresh).Nodup) :
    (left ++ fresh).Sublist (arrived ++ fresh).dedup := by
  induction arrived generalizing left with
  | nil =>
      obtain rfl := List.sublist_nil.1 h
      have hfresh : fresh.dedup = fresh := List.Nodup.dedup hnodup
      rw [List.nil_append, hfresh]
  | cons fd arrived ih =>
      rw [List.cons_append]
      by_cases hin : fd ∈ arrived
      · rw [List.dedup_cons_of_mem hin] at h
        rw [List.dedup_cons_of_mem (List.mem_append_left _ hin)]
        exact ih h hnodup
      · rw [List.dedup_cons_of_notMem hin] at h
        cases h with
        | cons _ h =>
            rw [List.dedup_cons]
            split
            · exact ih h hnodup
            · exact (ih h hnodup).cons _
        | @cons_cons left _ _ h =>
            obtain ⟨hout, hnodup⟩ := List.nodup_cons.1 hnodup
            have hfresh : fd ∉ arrived ++ fresh := fun hmem =>
              (List.mem_append.1 hmem).elim hin fun hmem => hout (List.mem_append_right _ hmem)
            rw [List.dedup_cons_of_notMem hfresh]
            exact (ih h hnodup).cons_cons _

namespace DescriptorTable

variable {t t' : DescriptorTable R H} {current : Option Nat} {slot : Nat}
  {d d' : Descriptor R H} {fd : Int}

/-- The descriptors on the active list, in its order. -/
def queue (t : DescriptorTable R H) : List Int :=
  t.active.filterMap fun slot => (t.get? slot).map (·.fd)

theorem mem_queue_iff :
    fd ∈ t.queue ↔ t.Active fd := by
  simp only [queue, List.mem_filterMap, Option.map_eq_some_iff, Active]
  exact exists_congr fun slot => by simp

theorem Sound.nodup_queue
    (h : t.Sound current) :
    t.queue.Nodup := by
  refine h.active.filterMap fun i j fd hi hj => ?_
  obtain ⟨d, hd, rfl⟩ := Option.map_eq_some_iff.1 hi
  obtain ⟨e, he, hfd⟩ := Option.map_eq_some_iff.1 hj
  exact h.inj i j d e hd he hfd.symm

/-- The current descriptor does not stand in the queue. -/
theorem Sound.not_mem_queue_of_current
    (h : t.Sound (some slot)) (hd : t.get? slot = some d) :
    d.fd ∉ t.queue := by
  rw [mem_queue_iff]
  rintro ⟨i, e, hin, he, hfd⟩
  obtain rfl : i = slot := h.inj i slot e d he hd hfd
  exact (h.fits i d hd).not_current hin rfl

theorem queue_congr
    (hactive : t'.active = t.active)
    (hfd : ∀ i ∈ t.active, (t'.get? i).map (·.fd) = (t.get? i).map (·.fd)) :
    t'.queue = t.queue := by
  rw [queue, queue, hactive]
  exact List.filterMap_congr hfd

theorem queue_set
    (hd : t.get? slot = some d) (hfd : d'.fd = d.fd) :
    (t.set slot d').queue = t.queue := by
  refine queue_congr rfl fun i _ => ?_
  by_cases hi : i = slot
  · rw [hi, get?_set_self hd, hd, Option.map_some, Option.map_some, hfd]
  · rw [(onlyAt_set t slot d').get? i hi]

theorem Retimed.queue_eq
    (h : Retimed t t') :
    t'.queue = t.queue := by
  refine queue_congr h.active fun i _ => ?_
  obtain ⟨entry, handler, heq⟩ := h.get? i
  rw [heq, Option.map_map]
  rfl

theorem Sound.queue_register
    (h : t.Sound current) (hfd : d.fd = fd) :
    (t.register fd d).queue = t.queue := by
  obtain ⟨honly, -, hget, -, hactive⟩ := h.register_spec fd d
  refine queue_congr hactive fun i hi => ?_
  by_cases heq : i = (t.ensure fd).1
  · subst heq
    obtain ⟨e, -, hefd, -, -, -, hold | ⟨-, hnone, -⟩⟩ := h.ensure_spec fd
    · rw [hget, hold, Option.map_some, Option.map_some, hfd, hefd]
    · exact absurd hi (h.vacant _ hnone).2.1
  · rw [honly.get? i heq]

/-- Taking a descriptor off the active list takes it out of the queue, wherever it
stands. -/
theorem Sound.queue_erase
    (h : t.Sound current) (hd : t.get? slot = some d) (honly : OnlyAt slot t t')
    (hactive : t'.active = t.active.erase slot) :
    t'.queue = t.queue.filter (· != d.fd) := by
  rw [queue, queue, hactive, h.active.erase_eq_filter, List.filterMap_filter,
    List.filter_filterMap]
  refine List.filterMap_congr fun i hi => ?_
  obtain ⟨e, he⟩ := h.exists_of_mem_active hi
  by_cases heq : i = slot
  · subst heq
    cases hd.symm.trans he
    simp [hd, Option.filter]
  · have hfd : e.fd ≠ d.fd := fun hfd => heq (h.inj i slot e d he hd hfd)
    simp [heq, honly.get? i heq, he, Option.filter, hfd]

theorem Sound.queue_clear
    (h : t.Sound current) (hd : t.get? slot = some d) :
    (t.clear slot d).queue = t.queue.filter (· != d.fd) := by
  refine h.queue_erase hd (onlyAt_clear t slot d) ?_
  unfold clear
  split <;> rfl

theorem Sound.queue_remove_current
    (h : t.Sound (some slot)) (hd : t.get? slot = some d) :
    (t.remove slot).queue = t.queue := by
  rw [h.queue_erase hd (onlyAt_remove t slot) rfl]
  refine List.filter_eq_self.2 fun fd hfd => bne_iff_ne.2 ?_
  rintro rfl
  exact h.not_mem_queue_of_current hd hfd

theorem queue_activate_set
    (hd : t.get? slot = some d) (hfd : d'.fd = d.fd) :
    ((t.activate slot).set slot d').queue = t.queue ∨
      ((t.activate slot).set slot d').queue = t.queue ++ [d.fd] := by
  have hd' : (t.activate slot).get? slot = some d := hd
  have hqueue : (t.activate slot).queue =
      (enlist t.active slot).filterMap fun slot => (t.get? slot).map (·.fd) := rfl
  rw [queue_set hd' hfd, hqueue, enlist]
  split
  · exact .inl rfl
  · refine .inr ?_
    rw [List.filterMap_append, queue]
    simp [hd]

/-- Settling puts a descriptor back at the end of the queue if it has directions left. -/
theorem queue_settle
    {clears : Nat} {pending : Directions} (hd : t.get? slot = some d) :
    (t.settle slot d clears pending).queue = t.queue ∨
      d.requeues clears pending = true ∧
        (t.settle slot d clears pending).queue = t.queue ++ [d.fd] := by
  unfold settle
  split
  next hrequeues =>
      refine Or.imp id (fun hqueue => ⟨hrequeues, hqueue⟩) (queue_activate_set hd ?_)
      rfl
  next =>
      exact .inl (queue_set hd rfl)

theorem queue_notify
    {ready : Directions} (hd : t.get? slot = some d) :
    (t.notify slot d ready).queue = t.queue ∨
      (t.notify slot d ready).queue = t.queue ++ [d.fd] :=
  queue_activate_set hd rfl

theorem queue_takeActive
    {active : List Nat} (hactive : t.active = slot :: active) (hd : t.get? slot = some d) :
    t.queue = d.fd :: queue { t with active } := by
  rw [queue, hactive, List.filterMap_cons, hd]
  rfl

end DescriptorTable

/-- The descriptors that wait for their turn, in order. -/
def Machine.queue (m : Machine H) : List Int :=
  m.loop.table.queue

/-- The descriptors that a move puts in the queue, in their order. -/
def Transition.entered (s : Transition H) : List Int :=
  s.after.queue.filter fun fd => fd ∉ s.before.queue

namespace Machine

variable {m m' : Machine H} {act : Act H} {steps : List (Transition H)} {fd : Int}

theorem queue_eq
    (htable : m'.loop.table = m.loop.table) :
    m'.queue = m.queue := by
  rw [queue, htable, queue]

theorem queue_clearFd
    (h : m.Sound) (hclear : m.clearFd fd = .ok m') :
    m'.queue = m.queue.filter (· != fd) := by
  rcases clearFd_ok hclear with ⟨hslot, rfl⟩ | ⟨slot, d, b, k, hslot, hd, -, rfl⟩
  · -- a descriptor that is not stored stands nowhere
    refine (List.filter_eq_self.2 fun other hother => bne_iff_ne.2 ?_).symm
    rintro rfl
    obtain ⟨slot, d, -, hd, hfd⟩ := DescriptorTable.mem_queue_iff.1 hother
    cases hslot.symm.trans (h.table.slotOf?_eq_some_iff.2 ⟨d, hd, hfd⟩)
  · obtain ⟨e, he, rfl⟩ := h.table.slotOf?_eq_some_iff.1 hslot
    cases hd.symm.trans he
    exact h.table.queue_clear hd

theorem filter_not_clears
    (hclears : ∀ fd, act.clears fd = false) (m : Machine H) :
    m.queue.filter (fun fd => !act.clears fd) = m.queue :=
  List.filter_eq_self.2 fun fd _ => by rw [hclears fd, Bool.not_false]

/-- A request takes out of the queue what it clears, and puts nothing there. -/
theorem queue_perform
    (h : m.Sound) {r : Request H} {reply : Reply} (hperform : m.perform r = .ok (reply, m')) :
    m'.queue = m.queue.filter fun fd => !(Act.request r reply).clears fd := by
  cases perform_ok hperform with
  | @cleared other _ hclear | @unset other _ _ _ hclear =>
      rw [queue_clearFd h hclear]
      refine List.filter_congr fun fd _ => ?_
      rw [Act.clears, bne, beq_eq_decide]
      simp [eq_comm]
  | refused _ =>
      exact (filter_not_clears (fun _ => rfl) m).symm
  | registered hflags _ _ hreg =>
      obtain ⟨d', htable, hfd, -⟩ := hreg.stores h
      rw [filter_not_clears, queue, htable, h.table.queue_register hfd, queue]
      intro fd
      have hne : ∀ flags : Flags, flags.contains .clear = false → flags ≠ .clear := by
        rintro _ hcontains rfl
        revert hcontains
        decide
      simp [Act.clears, hne _ hflags]
  | handled _ hd =>
      rw [filter_not_clears fun _ => rfl]
      exact DescriptorTable.queue_set hd rfl
  | aside haside =>
      rw [filter_not_clears (haside.untimed reply).clears, queue_eq haside.table]

/-- What a move does to the queue. -/
inductive QueueChange (m : Machine H) : Act H → Machine H → Prop
  | kept {act : Act H} {m' : Machine H} :
      m'.queue = m.queue.filter (fun fd => !act.clears fd) →
      QueueChange m act m'
  | began {act : Act H} {turn : Turn} {m' : Machine H} :
      m.control = .dispatching .ready →
      m'.control = .dispatching (.turn turn) →
      m.queue = turn.fd :: m'.queue →
      QueueChange m act m'
  /-- A break cuts a turn short. -/
  | requeued {act : Act H} {turn : Turn} {m' : Machine H} :
      m.control = .dispatching (.turn turn) →
      m.loop.broken = true →
      m'.control = .dispatching .ready →
      m'.queue = m.queue ++ [turn.fd] →
      QueueChange m act m'
  | reported {events : List Event} {fresh : List Int} {m' : Machine H} :
      fresh.Sublist (events.map (·.fd)) →
      m'.queue = m.queue ++ fresh →
      QueueChange m (.wait events) m'

theorem QueueChange.of_act
    (hqueue : m'.queue = m.queue) :
    QueueChange m (m.act m') m' := by
  refine .kept ?_
  rw [filter_not_clears (untimed_act m m').clears, hqueue]

theorem queue_settle
    {slot clears : Nat} {pending : Directions} (h : m.loop.table.Sound (some slot))
    (hd : m.loop.table.get? slot = some d) (hsettle : m.settle slot clears pending = .ok m') :
    m'.queue = m.queue ∨ d.requeues clears pending = true ∧ m'.queue = m.queue ++ [d.fd] := by
  obtain ⟨e, he, ⟨-, rfl⟩ | ⟨-, b, k, -, rfl⟩⟩ := settle_ok hsettle <;> cases hd.symm.trans he
  · exact .inl (h.queue_remove_current hd)
  · exact DescriptorTable.queue_settle hd

/-- Only a break leaves directions to be queued again. -/
theorem broken_of_requeues
    {turn : Turn} {d : Descriptor (Reaction H) H}
    (hwhy : turn.pending.first? = none ∨ m.loop.broken = true ∨ d.clears ≠ turn.clears)
    (hrequeues : d.requeues turn.clears turn.pending = true) :
    m.loop.broken = true := by
  rcases hwhy with hnone | hbroken | hclears
  · rw [Directions.first?_eq_none_iff.1 hnone, d.requeues_empty] at hrequeues
    cases hrequeues
  · exact hbroken
  · simp [Descriptor.requeues, hclears] at hrequeues

/-- A turn leaves the queue as it is, but for what a break leaves of the turn. -/
theorem queue_turn
    {turn : Turn} {d : Descriptor (Reaction H) H} (h : m.Sound)
    (hc : m.control = .dispatching (.turn turn)) (hd : m.loop.table.get? turn.slot = some d)
    (hmove : TurnMove m turn d m') :
    m'.queue = m.queue ∨ m.loop.broken = true ∧ m'.control = .dispatching .ready ∧
      m'.queue = m.queue ++ [turn.fd] := by
  obtain ⟨-, htable, hfd, -⟩ := h.of_turn hc hd
  rcases act_of_turn hc hmove with ⟨-, hended | hskipped⟩ | ⟨a, -, -, -, -, -, -, hset, -⟩
  · obtain ⟨m₁, hwhy, hsettle, rfl⟩ := hended
    refine (queue_settle htable hd hsettle).imp id ?_
    rintro ⟨hrequeues, hqueue⟩
    exact ⟨broken_of_requeues hwhy hrequeues, rfl, hfd ▸ hqueue⟩
  · obtain ⟨a, -, -, -, rfl⟩ := hskipped
    exact .inl rfl
  · rw [queue, hset]
    exact .inl (DescriptorTable.queue_set hd (d.fd_spent a))

/-- The first in the queue leaves it when its turn begins. -/
theorem queue_begins
    {slot : Nat} {active : List Nat} {d d' : Descriptor (Reaction H) H}
    (hactive : m.loop.table.active = slot :: active) (hd : m.loop.table.get? slot = some d)
    (hset : m'.loop.table = DescriptorTable.set { m.loop.table with active } slot d')
    (hfd : d'.fd = d.fd) :
    m.queue = d.fd :: m'.queue := by
  have hd' : DescriptorTable.get? { m.loop.table with active } slot = some d := hd
  rw [queue, queue, hset, DescriptorTable.queue_set hd' hfd]
  exact DescriptorTable.queue_takeActive hactive hd

theorem queue_foldlM_enqueue
    {events : List Event} (h : m.loop.table.Sound none)
    (hfold : events.foldlM enqueue m = .ok m') :
    ∃ fresh, fresh.Sublist (events.map (·.fd)) ∧ m'.queue = m.queue ++ fresh := by
  induction events generalizing m with
  | nil =>
      cases hfold
      exact ⟨[], .slnil, (List.append_nil _).symm⟩
  | cons event events ih =>
      rw [List.foldlM_cons, Except.bind_eq_ok_iff] at hfold
      obtain ⟨m₁, henqueue, hfold⟩ := hfold
      obtain ⟨k, b, t, hm₁, ht⟩ := enqueue_sound h henqueue
      obtain ⟨fresh, hfresh, hqueue⟩ := ih (by rw [hm₁]; exact ht) hfold
      rw [hqueue, List.map_cons]
      have hone : m₁.queue = m.queue ∨ m₁.queue = m.queue ++ [event.fd] := by
        rcases enqueue_ok henqueue with ⟨rfl, -⟩ | ⟨slot, d, b', k', hslot, hd, -, -, -, rfl⟩
        · exact .inl rfl
        · obtain ⟨e, he, hfd⟩ := h.slotOf?_eq_some_iff.1 hslot
          cases hd.symm.trans he
          rw [← hfd]
          exact DescriptorTable.queue_notify hd
      rcases hone with hone | hone <;> rw [hone]
      · exact ⟨fresh, hfresh.cons _, rfl⟩
      · exact ⟨event.fd :: fresh, hfresh.cons_cons _, List.append_assoc _ _ _⟩

theorem queueChange_advance
    {phase : Phase H} (h : m.Sound) (hc : m.control = .dispatching phase)
    (hmove : Move m (m.act m') m') (hadvance : Advance m phase m') :
    QueueChange m (m.act m') m' := by
  have htable := h.table_of_dispatching hc
  cases hadvance with
  | quiet hquiet =>
      exact .of_act (queue_eq hquiet.table)
  | begins _ hactive hd =>
      exact .began hc rfl (queue_begins hactive hd rfl rfl)
  | turn hd hturn =>
      rcases queue_turn h hc hd hturn with hsame | ⟨hbroken, hc', hqueue⟩
      · exact .of_act hsame
      · exact .requeued hc hbroken hc' hqueue
  | @postponed now fds =>
      obtain ⟨t, q, hfold, -, hretimed⟩ := follows_postpone now fds htable
      refine .of_act ?_
      rw [hfold]
      exact hretimed.queue_eq
  | expires _ _ _ hd hexpiry =>
      obtain ⟨busy, hset⟩ := hexpiry.table_eq
      refine .of_act ?_
      rw [queue, hset]
      exact DescriptorTable.queue_set hd rfl
  | @settles slot clears _ _ m₁ hsettle =>
      obtain ⟨d, hd, -⟩ := settle_ok hsettle
      refine .of_act ?_
      rcases queue_settle htable hd hsettle with hsame | ⟨hrequeues, -⟩
      · exact hsame
      · rw [d.requeues_empty] at hrequeues
        cases hrequeues
  | waits _ =>
      rw [act_eq_wait hc] at hmove ⊢
      obtain ⟨-, host, m₁, hfold, hm₁⟩ := awaitEvents_of_wait hmove
      obtain ⟨fresh, hfresh, hqueue⟩ := queue_foldlM_enqueue (m := { m with host }) htable hfold
      refine .reported hfresh ?_
      rw [hm₁]
      exact hqueue

/-- What every move does to the queue. -/
theorem queueChange_move
    (h : m.Sound) (hmove : Move m act m') :
    QueueChange m act m' := by
  have hmove' := hmove
  cases hmove with
  | request _ hperform =>
      exact .kept (queue_perform h hperform)
  | resume hc =>
      refine .kept ((queue_eq ?_).trans (filter_not_clears (fun _ => rfl) m).symm)
      rw [resume_eq hc]
      rfl
  | world host =>
      exact .kept ((queue_eq rfl).trans (filter_not_clears (fun _ => rfl) m).symm)
  | step hc hstep =>
      simp only [step, hc] at hstep
      exact queueChange_advance h hc hmove' (advance_ok hstep)

/-- The descriptors that entered the queue, one after the other. -/
def arrivals (steps : List (Transition H)) : List Int :=
  steps.flatMap (·.entered)

theorem arrivals_snoc
    (steps : List (Transition H)) (s : Transition H) :
    arrivals (steps ++ [s]) = arrivals steps ++ s.entered := by
  rw [arrivals, List.flatMap_append, List.flatMap_singleton, arrivals]

theorem entered_of_sublist
    (hleft : m'.queue.Sublist m.queue) :
    Transition.entered ⟨m, act, m'⟩ = [] :=
  List.filter_eq_nil_iff.2 fun _ hfd => by simpa using hleft.subset hfd

theorem entered_of_append
    {fresh : List Int} (hnodup : m'.queue.Nodup) (hqueue : m'.queue = m.queue ++ fresh) :
    Transition.entered ⟨m, act, m'⟩ = fresh := by
  rw [hqueue] at hnodup
  have hdisjoint := List.disjoint_of_nodup_append hnodup
  rw [Transition.entered, hqueue, List.filter_append, List.filter_eq_nil_iff.2,
    List.filter_eq_self.2, List.nil_append]
  · intro fd hfd
    simpa using hdisjoint.symm hfd
  · intro fd hfd
    simpa using hfd

/-- A move leaves the queue in its order and adds to its end. -/
theorem QueueChange.exists_left
    (h : QueueChange m act m') (hnodup : m'.queue.Nodup) :
    ∃ left, left.Sublist m.queue ∧ m'.queue = left ++ Transition.entered ⟨m, act, m'⟩ := by
  have hshrinks : m'.queue.Sublist m.queue →
      ∃ left, left.Sublist m.queue ∧ m'.queue = left ++ Transition.entered ⟨m, act, m'⟩ := by
    intro hleft
    exact ⟨_, hleft, by rw [entered_of_sublist hleft, List.append_nil]⟩
  cases h with
  | kept hqueue =>
      exact hshrinks (hqueue ▸ List.filter_sublist)
  | began _ _ hqueue =>
      exact hshrinks (hqueue ▸ List.sublist_cons_self _ _)
  | requeued _ _ _ hqueue | reported _ hqueue =>
      exact ⟨m.queue, .refl _, by rw [entered_of_append hnodup hqueue, hqueue]⟩

/-- The queue is in the order in which its descriptors arrived. -/
structure Lined (steps : List (Transition H)) (m : Machine H) : Prop where
  /-- Of a descriptor that arrived several times the last time counts. -/
  arrival : m.queue.Sublist (arrivals steps).dedup
  /-- In a wait they arrive in the order in which they are reported. -/
  reports : ∀ s ∈ steps, ∀ events, s.act = .wait events →
    s.entered.Sublist (events.map (·.fd))
  /-- In a request none arrives, and those leave that it clears. -/
  requests : ∀ s ∈ steps, ∀ r reply, s.act = .request r reply →
    s.after.queue = s.before.queue.filter fun fd => !s.act.clears fd

theorem Built.queue_eq_nil
    (h : Built m) :
    m.queue = [] := by
  rcases h.blank_or_registers with hblank | ⟨m₀, fd, d, d', kernel, hblank, hreg⟩
  · rw [queue, hblank.table]
    rfl
  · obtain ⟨e, htable, hfd, -⟩ := hreg.stores hblank.sound
    rw [queue, htable, hblank.sound.table.queue_register hfd, hblank.table]
    rfl

theorem entered_of_wait
    {events : List Event} (h : m.Sound) (hnodup : m'.queue.Nodup)
    (hmove : Move m (.wait events) m') :
    (Transition.entered ⟨m, .wait events, m'⟩).Sublist (events.map (·.fd)) := by
  have hchange := queueChange_move h hmove
  obtain ⟨hc, -⟩ := awaitEvents_of_wait hmove
  cases hchange with
  | kept hqueue =>
      have hleft : m'.queue.Sublist m.queue := hqueue ▸ List.filter_sublist
      rw [entered_of_sublist hleft]
      exact List.nil_sublist _
  | began hready _ _ =>
      cases hc.symm.trans hready
  | requeued hturn _ _ _ =>
      cases hc.symm.trans hturn
  | reported hfresh hqueue =>
      rwa [entered_of_append hnodup hqueue]

theorem Course.lined
    (hcourse : Course m steps m') (hbuilt : Built m) :
    Lined steps m' := by
  induction hcourse with
  | nil =>
      refine ⟨?_, List.forall_mem_nil _, List.forall_mem_nil _⟩
      rw [hbuilt.queue_eq_nil]
      exact List.nil_sublist _
  | @snoc m₁ m₂ act steps hfirst hmove ih =>
      have hsound := hfirst.run.sound hbuilt.sound
      have hnodup : m₂.queue.Nodup := (hsound.move hmove).table.nodup_queue
      refine ⟨?_, ?_, ?_⟩
      · obtain ⟨left, hleft, hqueue⟩ := (queueChange_move hsound hmove).exists_left hnodup
        rw [arrivals_snoc, hqueue]
        exact sublist_dedup_append (hleft.trans ih.arrival) (hqueue ▸ hnodup)
      · intro s hs events hact
        rcases List.mem_append.1 hs with hs | hs
        · exact ih.reports s hs events hact
        · cases List.mem_singleton.1 hs
          cases hact
          exact entered_of_wait hsound hnodup hmove
      · intro s hs r reply hact
        rcases List.mem_append.1 hs with hs | hs
        · exact ih.requests s hs r reply hact
        · cases List.mem_singleton.1 hs
          cases hact
          exact queue_perform hsound (request_of_move hmove).2

end Machine
end CallbackLoop
