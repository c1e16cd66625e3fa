import CallbackLoop.Proofs.Loop.Conservation
import CallbackLoop.Proofs.Loop.Removal

/-!
# Iterations and turns

Iterations are numbered, and a descriptor remembers the number of the iteration in which
it last had a turn.  As long as the descriptor is not cleared, what it remembers is not
before any of its turns; and what it remembers is a turn that it had.
-/

namespace CallbackLoop

variable {H R : Type}

namespace Descriptor

variable (d : Descriptor R H)

@[simp] theorem lastTurn_revived :
    d.revived.lastTurn = d.lastTurn := by
  unfold revived
  split <;> rfl

@[simp] theorem lastTurn_bound (flags : Flags) (reaction : R) :
    (d.bound flags reaction).lastTurn = d.lastTurn := by
  unfold bound
  split
  · rfl
  · split <;> rfl

/-- What a descriptor remembers of turns: whether it was cleared, and when it had the
last one. -/
def past (d : Descriptor R H) : Bool × Nat :=
  (d.isClearing, d.lastTurn)

end Descriptor

/-- A move in which the turn of a descriptor begins. -/
structure Transition.BeginsTurn (s : Transition H) (fd : Int) : Prop where
  ready : s.before.control = .dispatching .ready
  turn : ∃ turn, s.after.control = .dispatching (.turn turn) ∧ turn.fd = fd

namespace Machine

variable {m m' : Machine H} {act : Act H} {steps : List (Transition H)} {fd : Int}

theorem iteration_move
    (h : m.Sound) (hmove : Move m act m') :
    m'.loop.iteration = m.loop.iteration ∨
      m.control = .dispatching .start ∧ m'.loop.iteration = m.loop.iteration + 1 := by
  cases hmove with
  | request _ hperform =>
      exact .inl (frame_perform hperform).1
  | resume hc =>
      rw [resume_eq hc]
      exact .inl rfl
  | world host =>
      exact .inl rfl
  | step hc hstep =>
      simp only [step, hc] at hstep
      cases timerMove_advance h hc hstep with
      | starts _ hiteration _ =>
          exact .inr ⟨hc, hiteration⟩
      | apart _ hiteration _ _ | begins _ _ hiteration _ =>
          exact .inl hiteration
      | fires _ | ends _ | waits _ =>
          exact .inl rfl

theorem iteration_le
    (h : m.Sound) (hmove : Move m act m') :
    m.loop.iteration ≤ m'.loop.iteration := by
  rcases iteration_move h hmove with hsame | ⟨-, hnext⟩ <;> omega

/-- The dispatcher has begun an iteration unless it is about to. -/
theorem iteration_pos_move
    (h : m.Sound) (hmove : Move m act m')
    (hpos : ∀ phase, m.control.phase? = some phase → phase ≠ .start → 0 < m.loop.iteration) :
    ∀ phase, m'.control.phase? = some phase → phase ≠ .start → 0 < m'.loop.iteration := by
  intro phase' hphase' hstart
  have hle := iteration_le h hmove
  cases hmove with
  | request _ hperform =>
      obtain ⟨-, -, hsame | ⟨-, hstarts⟩, -⟩ := frame_perform hperform
      · rw [hsame] at hphase'
        exact Nat.lt_of_lt_of_le (hpos phase' hphase' hstart) hle
      · rw [hstarts] at hphase'
        cases hphase'
        exact absurd rfl hstart
  | resume hc =>
      rw [resume_eq hc] at hphase'
      cases hphase'
      exact Nat.lt_of_lt_of_le (hpos phase' (by rw [hc]; rfl) hstart) hle
  | world host =>
      exact hpos phase' hphase' hstart
  | @step _ phase hc hstep =>
      simp only [step, hc] at hstep
      by_cases hphase : phase = .start
      · subst hphase
        cases timerMove_advance h hc hstep with
        | starts _ hiteration _ =>
            omega
        | apart _ _ _ hidle =>
            rw [hidle rfl] at hphase'
            cases hphase'
        | begins hopens _ _ _ =>
            cases hopens
      · exact Nat.lt_of_lt_of_le (hpos phase (by rw [hc]; rfl) hphase) hle

/-- What each stored descriptor remembers of turns. -/
def past (m : Machine H) : Int → Option (Bool × Nat) :=
  m.loop.table.part? fun d => some d.past

/-- What a move does to what descriptors remember of turns. -/
inductive PastChange (m : Machine H) : Act H → Machine H → Prop
  | same {act : Act H} {m' : Machine H} :
      m'.past = m.past →
      PastChange m act m'
  | cleared {act : Act H} {fd : Int} {m' : Machine H} :
      act.clears fd = true →
      (∀ other, other ≠ fd → m'.past other = m.past other) →
      (∀ clearing n, m'.past fd = some (clearing, n) → ∃ before, m.past fd = some (before, n)) →
      PastChange m act m'
  | registered {act : Act H} {fd : Int} {n : Nat} {m' : Machine H} :
      (∃ clearing, m.past fd = some (clearing, n)) ∨ m.past fd = none ∧ n = 0 →
      m'.past = Function.update m.past fd (some (false, n)) →
      PastChange m act m'
  | began {act : Act H} {turn : Turn} {m' : Machine H} :
      m.control = .dispatching .ready →
      m'.control = .dispatching (.turn turn) →
      m'.past = Function.update m.past turn.fd (some (false, m.loop.iteration)) →
      PastChange m act m'
  /-- A descriptor that was cleared by its own handler leaves storage. -/
  | dropped {act : Act H} {fd : Int} {n : Nat} {m' : Machine H} :
      m.past fd = some (true, n) →
      m'.past = Function.update m.past fd none →
      PastChange m act m'

theorem past_eq
    (htable : m'.loop.table = m.loop.table) :
    m'.past = m.past := by
  rw [past, htable, past]

/-- Replacing a descriptor by one that remembers the same makes no difference. -/
theorem past_of_eq
    {current current' : Option Nat} {slot : Nat} {d d' : Descriptor (Reaction H) H}
    (h : m.loop.table.Sound current) (h' : m'.loop.table.Sound current')
    (honly : DescriptorTable.OnlyAt slot m.loop.table m'.loop.table)
    (hd : m.loop.table.get? slot = some d) (hd' : m'.loop.table.get? slot = some d')
    (hfd : d'.fd = d.fd) (hpast : d'.past = d.past) :
    m'.past = m.past :=
  h.part?_of_eq h' honly hd hd' hfd (congrArg some hpast)

theorem pastChange_clearFd
    (h : m.Sound) (hclear : m.clearFd fd = .ok m') (hclears : act.clears fd = true) :
    PastChange m act m' := by
  rcases clearFd_ok hclear with ⟨-, rfl⟩ | ⟨slot, d, b, k, hslot, hd, -, rfl⟩
  · exact .same rfl
  · obtain ⟨e, he, rfl⟩ := h.table.slotOf?_eq_some_iff.1 hslot
    cases hd.symm.trans he
    refine .cleared hclears ?_ ?_
    · intro other hne
      show DescriptorTable.part? (m.loop.table.clear slot d) _ other = _
      rw [DescriptorTable.part?, h.table.find?_clear hd, if_neg hne]
      rfl
    · intro clearing n hn
      refine ⟨d.isClearing, ?_⟩
      change DescriptorTable.part? (m.loop.table.clear slot d) _ d.fd = _ at hn
      rw [DescriptorTable.part?, h.table.find?_clear hd, if_pos rfl] at hn
      rw [past, h.table.part?_of_get? hd]
      split at hn <;> cases hn
      rfl

/-- A registration leaves what a stored descriptor remembers. -/
theorem past_registers
    (h : m.Sound) {flags : Flags} {timeout : FdTimeout} {reaction : Reaction H}
    {d d' : Descriptor (Reaction H) H} {kernel : Kernel}
    (hreg : m.Registers fd flags timeout reaction m' d d' kernel) :
    ∃ n, ((∃ clearing, m.past fd = some (clearing, n)) ∨ m.past fd = none ∧ n = 0) ∧
      m'.past = Function.update m.past fd (some (false, n)) := by
  have hsound := (h.registers hreg).table
  obtain ⟨e, he, hfd, -, -, -, hold⟩ := h.table.ensure_spec fd
  cases hreg.found.symm.trans he
  obtain ⟨entry, rfl⟩ := hreg.bound
  obtain ⟨b, k, q, -, -, rfl⟩ := hreg.result
  have hfd' : (d.revived.bound flags reaction).fd = fd := by simp [hfd]
  have hpast : (d.revived.bound flags reaction).past = (false, d.lastTurn) := by
    rw [Descriptor.past, Descriptor.lastTurn_bound, Descriptor.lastTurn_revived]
    refine congrArg (·, d.lastTurn) ?_
    rw [Descriptor.isClearing, Descriptor.stage_bound]
    exact d.isClearing_revived
  refine ⟨d.lastTurn, ?_, (h.table.part?_register hsound hfd' _).trans
    (congrArg (fun x => Function.update m.past fd (some x)) hpast)⟩
  rcases hold with hold | ⟨hnone, -, rfl⟩
  · rw [← hfd]
    exact .inl ⟨d.isClearing, h.table.part?_of_get? hold _⟩
  · refine .inr ⟨?_, rfl⟩
    rw [past, DescriptorTable.part?, hnone, Option.bind_none]

theorem pastChange_perform
    (h : m.Sound) {r : Request H} {reply : Reply} (hperform : m.perform r = .ok (reply, m')) :
    PastChange m (.request r reply) m' := by
  have hsound := (h.perform (perform_ok hperform)).table
  cases perform_ok hperform with
  | cleared hclear =>
      exact pastChange_clearFd h hclear (decide_eq_true rfl)
  | unset hclear =>
      exact pastChange_clearFd h hclear (by simp [Act.clears])
  | refused _ =>
      exact .same rfl
  | registered _ _ _ hreg =>
      obtain ⟨n, hbefore, hafter⟩ := past_registers h hreg
      exact .registered hbefore hafter
  | handled _ hd =>
      exact .same (past_of_eq h.table hsound (DescriptorTable.onlyAt_set _ _ _) hd
        (DescriptorTable.get?_set_self hd _) rfl rfl)
  | aside haside =>
      exact .same (past_eq haside.table)

theorem pastChange_settle
    {slot clears : Nat} {pending : Directions} (h : m.loop.table.Sound (some slot))
    (hsettle : m.settle slot clears pending = .ok m') {m'' : Machine H}
    (htable : m''.loop.table = m'.loop.table) :
    PastChange m act m'' := by
  obtain ⟨d, hd, ⟨hclearing, rfl⟩ | ⟨hclearing, b, k, -, rfl⟩⟩ := settle_ok hsettle
  · have hbefore : m.past d.fd = some (true, d.lastTurn) := by
      rw [past, h.part?_of_get? hd, Descriptor.past, hclearing]
    refine .dropped hbefore ?_
    rw [past, htable]
    exact h.part?_remove (h.remove_current hd) hd _
  · refine .same ?_
    have hsound := h.settle hd hclearing clears pending
    rw [past, htable]
    exact h.part?_of_eq hsound (DescriptorTable.onlyAt_settle _ slot d clears pending) hd
      (DescriptorTable.get?_settle_self hd clears pending) rfl rfl

theorem past_awaitEvents
    (h : m.loop.table.Sound none) (hawait : m.awaitEvents = .ok m') :
    m'.past = m.past := by
  unfold awaitEvents at hawait
  split at hawait
  next =>
      cases hawait
  next events host _ =>
      refine (Except.foldlM_induction
        (fun m₁ : Machine H => m₁.loop.table.Sound none ∧ m₁.past = m.past) ?_ events ?_
          hawait).2
      · rintro m₁ event m₂ ⟨hsound, hsame⟩ henqueue
        rcases enqueue_ok henqueue with ⟨rfl, -⟩ | ⟨slot, d, b, k, -, hd, hclearing, -, -, rfl⟩
        · exact ⟨hsound, hsame⟩
        · have hnotify := hsound.notify hd hclearing event.ready
          exact ⟨hnotify, (hsound.part?_of_eq hnotify
            (DescriptorTable.onlyAt_notify _ slot d event.ready) hd
            (DescriptorTable.get?_notify_self hd event.ready) rfl rfl).trans hsame⟩
      · exact ⟨h, rfl⟩

/-- The turn of a descriptor begins. -/
theorem past_begins
    {slot : Nat} {active : List Nat} {d : Descriptor (Reaction H) H}
    (h : m.loop.table.Sound none) (hactive : m.loop.table.active = slot :: active)
    (hd : m.loop.table.get? slot = some d)
    (hset : m'.loop.table = DescriptorTable.set { m.loop.table with active } slot
      { d with ready := ∅, busy := true, lastTurn := m.loop.iteration, timeout := none })
    (hsound : m'.loop.table.Sound m'.control.slot?) :
    m'.past = Function.update m.past d.fd (some (false, m.loop.iteration)) := by
  have hclearing := (h.fits slot d hd).not_clearing fun hc => nomatch hc
  have hd' : DescriptorTable.get? { m.loop.table with active } slot = some d := hd
  have honly := (DescriptorTable.onlyAt_takeActive hactive).trans
    (DescriptorTable.onlyAt_set _ slot
      { d with ready := ∅, busy := true, lastTurn := m.loop.iteration, timeout := none })
  have hget := DescriptorTable.get?_set_self hd'
    { d with ready := ∅, busy := true, lastTurn := m.loop.iteration, timeout := none }
  rw [← hset] at honly hget
  exact (h.part?_replace hsound honly hd hget rfl _).trans
    (congrArg (fun c => Function.update m.past d.fd (some (c, m.loop.iteration))) hclearing)

theorem pastChange_advance
    (h : m.Sound) {phase : Phase H} (hc : m.control = .dispatching phase)
    (hadvance : m.advance phase = .ok m') :
    PastChange m act m' := by
  have htable := h.table_of_dispatching hc
  have hadvanced := advance_ok hadvance
  have hsound := (h.advance hc hadvanced).table
  cases hadvanced with
  | quiet hquiet =>
      exact .same (past_eq hquiet.table)
  | begins _ hactive hd =>
      exact .began hc rfl (past_begins htable hactive hd rfl hsound)
  | @turn turn d _ hd hmove =>
      cases hmove with
      | ended _ hsettle =>
          exact pastChange_settle htable hsettle rfl
      | unbound _ _ _ =>
          exact .same rfl
      | @called a _ _ _ _ _ _ _ | @delivered a _ _ _ _ _ _ _ _ _ =>
          obtain ⟨recv, send, error, heq⟩ := d.spent_eq a
          refine .same (past_of_eq htable (follows_spent htable hd a).sound
            (DescriptorTable.onlyAt_set _ _ _) hd (DescriptorTable.get?_set_self hd _)
            (by rw [heq]) (by rw [heq]; rfl))
  | @postponed now fds =>
      obtain ⟨t, q, hfold, ht, hretimed⟩ := follows_postpone now fds htable
      refine .same (funext fun fd => ?_)
      obtain ⟨entry, handler, hfind⟩ := hretimed.find? htable ht.sound fd
      rw [hfold]
      show (t.find? fd).bind _ = (m.loop.table.find? fd).bind _
      rw [hfind, Option.bind_map]
      rfl
  | @expires now fds fd q slot d _ _ _ _ hd hexpiry =>
      obtain ⟨busy, hset⟩ := hexpiry.table_eq
      have hset' : m'.loop.table = m.loop.table.set slot { d with timeout := none, busy } := hset
      have honly := DescriptorTable.onlyAt_set m.loop.table slot { d with timeout := none, busy }
      have hget := DescriptorTable.get?_set_self hd { d with timeout := none, busy }
      rw [← hset'] at honly hget
      exact .same (past_of_eq htable hsound honly hd hget rfl rfl)
  | settles hsettle =>
      exact pastChange_settle htable hsettle rfl
  | waits hawait =>
      have hsame := past_awaitEvents htable hawait
      exact .same hsame

theorem pastChange_move
    (h : m.Sound) (hmove : Move m act m') :
    PastChange m act m' := by
  cases hmove with
  | request _ hperform =>
      exact pastChange_perform h hperform
  | resume hc =>
      rw [resume_eq hc]
      exact .same rfl
  | world host =>
      exact .same rfl
  | step hc hstep =>
      simp only [step, hc] at hstep
      exact pastChange_advance h hc hstep

theorem Course.iteration_le
    (hcourse : Course m steps m') (h : m.Sound) :
    m.loop.iteration ≤ m'.loop.iteration := by
  induction hcourse with
  | nil =>
      exact Nat.le_refl _
  | snoc hfirst hmove ih =>
      exact Nat.le_trans ih (Machine.iteration_le (hfirst.run.sound h) hmove)

theorem Course.iteration_pos
    (hcourse : Course m steps m') (hbuilt : Built m) {phase : Phase H}
    (hphase : m'.control.phase? = some phase) (hstart : phase ≠ .start) :
    0 < m'.loop.iteration := by
  induction hcourse generalizing phase with
  | nil =>
      rw [hbuilt.control] at hphase
      cases hphase
  | snoc hfirst hmove ih =>
      exact iteration_pos_move (hfirst.run.sound hbuilt.sound) hmove (fun _ h h' => ih h h')
        phase hphase hstart

/-- Without a clear a descriptor does not forget a turn. -/
theorem PastChange.remembers
    (hchange : PastChange m act m') (hclears : act.clears fd = false) {n : Nat}
    (hn : n ≤ m.loop.iteration) (hpast : ∃ k, n ≤ k ∧ m.past fd = some (false, k)) :
    ∃ k, n ≤ k ∧ m'.past fd = some (false, k) := by
  obtain ⟨k, hk, hpast⟩ := hpast
  cases hchange with
  | same hsame =>
      exact ⟨k, hk, hsame ▸ hpast⟩
  | @cleared other _ hother hsame _ =>
      have hne : fd ≠ other := by
        rintro rfl
        rw [hclears] at hother
        cases hother
      exact ⟨k, hk, (hsame fd hne).trans hpast⟩
  | @registered other _ _ hbefore hafter =>
      rw [hafter, Function.update_apply]
      split
      next heq =>
          subst heq
          rcases hbefore with ⟨clearing, hbefore⟩ | ⟨hnone, -⟩
          · cases hpast.symm.trans hbefore
            exact ⟨k, hk, rfl⟩
          · cases hpast.symm.trans hnone
      next =>
          exact ⟨k, hk, hpast⟩
  | began _ _ hafter =>
      rw [hafter, Function.update_apply]
      split
      · exact ⟨m.loop.iteration, hn, rfl⟩
      · exact ⟨k, hk, hpast⟩
  | @dropped other _ _ hbefore hafter =>
      have hne : fd ≠ other := by
        rintro rfl
        cases hpast.symm.trans hbefore
      exact ⟨k, hk, (congrFun hafter fd).trans ((Function.update_of_ne hne ..).trans hpast)⟩

theorem Built.past_eq_zero
    (h : Built m) {clearing : Bool} {n : Nat} (hpast : m.past fd = some (clearing, n)) :
    n = 0 := by
  have hblank : ∀ {m₀ : Machine H} (fd : Int), m₀.Blank → m₀.past fd = none := by
    intro m₀ fd hblank
    rw [past, hblank.table, DescriptorTable.part?, find?_empty, Option.bind_none]
  rcases h.blank_or_registers with hm | ⟨m₀, other, d, d', kernel, hm, hreg⟩
  · rw [hblank fd hm] at hpast
    cases hpast
  · obtain ⟨k, hbefore, hafter⟩ := past_registers hm.sound hreg
    rw [hafter, Function.update_apply] at hpast
    split at hpast
    · cases hpast
      rcases hbefore with ⟨clearing, hbefore⟩ | ⟨-, hzero⟩
      · rw [hblank other hm] at hbefore
        cases hbefore
      · exact hzero
    · rw [hblank fd hm] at hpast
      cases hpast

/-- What a descriptor remembers is a turn that it had, or nothing. -/
theorem Course.turn_of_past
    (hcourse : Course m steps m') (hbuilt : Built m) {clearing : Bool} {n : Nat}
    (hpast : m'.past fd = some (clearing, n)) :
    n = 0 ∨ ∃ s ∈ steps, s.BeginsTurn fd ∧ s.before.loop.iteration = n := by
  induction hcourse generalizing clearing n with
  | nil =>
      exact .inl (hbuilt.past_eq_zero hpast)
  | @snoc m₁ m₂ act steps hfirst hmove ih =>
      have hold : ∀ {clearing : Bool} {n : Nat}, m₁.past fd = some (clearing, n) → n = 0 ∨
          ∃ s ∈ steps ++ [⟨m₁, act, m₂⟩], s.BeginsTurn fd ∧ s.before.loop.iteration = n :=
        fun hpast => (ih hpast).imp_right
          fun ⟨s, hs, hbegins⟩ => ⟨s, List.mem_append_left _ hs, hbegins⟩
      cases pastChange_move (hfirst.run.sound hbuilt.sound) hmove with
      | same hsame =>
          exact hold (hsame ▸ hpast)
      | @cleared other _ _ hsame hother =>
          by_cases heq : fd = other
          · subst heq
            obtain ⟨before, hbefore⟩ := hother clearing n hpast
            exact hold hbefore
          · exact hold ((hsame fd heq).symm.trans hpast)
      | registered hbefore hafter =>
          rw [hafter, Function.update_apply] at hpast
          split at hpast
          next heq =>
              subst heq
              cases hpast
              rcases hbefore with ⟨before, hbefore⟩ | ⟨-, hzero⟩
              · exact hold hbefore
              · exact .inl hzero
          next =>
              exact hold hpast
      | began hready hturn hafter =>
          rw [hafter, Function.update_apply] at hpast
          split at hpast
          next heq =>
              cases hpast
              exact .inr ⟨_, List.mem_append_right _ (List.mem_singleton.2 rfl),
                ⟨hready, _, hturn, heq.symm⟩, rfl⟩
          next =>
              exact hold hpast
      | dropped _ hafter =>
          rw [hafter, Function.update_apply] at hpast
          split at hpast
          · cases hpast
          · exact hold hpast

end Machine
end CallbackLoop
