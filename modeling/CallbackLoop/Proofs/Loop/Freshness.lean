import CallbackLoop.Proofs.Loop.Readiness

/-!
# Reactions are to fresh reports

A registration is meant for what is reported after it.  A move that is not a
wait makes no direction owed, so a direction that is not owed at some point of a
run is run later only because a wait in between reported it.

A registration drops what is queued for the directions that it names.  It does
not reach the directions that are pending in the turn of its own descriptor:
`registration_awaits_report` is the result for all others, and
`pending_report_reaches_registration` shows the exception.
-/

namespace CallbackLoop

variable {H R : Type}

/-- The last wait reported a direction, and no reaction to it started since. -/
def Reported (log : List (Act H)) (fd : Int) (a : Direction) : Prop :=
  ∃ before events after, log = before ++ .wait events :: after ∧
    (∃ event ∈ events, event.fd = fd ∧ event.ready.contains a = true) ∧
    ∀ act ∈ after, (∀ events', act ≠ .wait events') ∧ ∀ reaction, act ≠ .fire fd a reaction

theorem reported_append_wait
    (log : List (Act H)) {events : List Event} {event : Event} {a : Direction}
    (hin : event ∈ events) (ha : event.ready.contains a = true) :
    Reported (log ++ [.wait events]) event.fd a :=
  ⟨log, events, [], rfl, ⟨event, hin, rfl, ha⟩, by simp⟩

theorem Reported.append
    {log : List (Act H)} {act : Act H} {fd : Int} {a : Direction} (h : Reported log fd a)
    (hwait : ∀ events, act ≠ .wait events) (hfire : ∀ reaction, act ≠ .fire fd a reaction) :
    Reported (log ++ [act]) fd a := by
  obtain ⟨before, events, after, rfl, hreports, hafter⟩ := h
  refine ⟨before, events, after ++ [act], by simp, hreports, ?_⟩
  intro act' hin
  rcases List.mem_append.1 hin with hin | hin
  · exact hafter act' hin
  · rw [List.mem_singleton.1 hin]
    exact ⟨hwait, hfire⟩

/-- What is reported was reported by some wait. -/
theorem Reported.exists_wait
    {log : List (Act H)} {fd : Int} {a : Direction} (h : Reported log fd a) :
    ∃ events, .wait events ∈ log ∧
      ∃ event ∈ events, event.fd = fd ∧ event.ready.contains a = true := by
  obtain ⟨before, events, after, rfl, hreports, -⟩ := h
  exact ⟨events, by simp, hreports⟩

/-- A registration binds the directions that it names. -/
theorem Registry.binds_after_setFd
    (A : Registry H) (fd : Int) {flags : Flags} {a : Direction}
    (hnames : flags.directions.contains a = true) (timeout : FdTimeout) (handler : H) :
    (A.after (.request (.setFd fd flags timeout handler) .done)).Binds fd a
      ⟨.call handler, flags.contains .oneshot⟩ := by
  have hflags : flags ≠ .clear := by
    rintro rfl
    cases a <;> cases hnames
  rw [Registry.after, if_neg hflags]
  refine ⟨_, Finmap.lookup_insert _, ?_⟩
  rw [Bindings.rebind, if_pos hnames]

/-- A binding lasts through a run in which it is not withdrawn and no reaction to
its direction starts. -/
theorem Registry.Binds.foldl
    {A : Registry H} {fd : Int} {a : Direction} {binding : Binding (Reaction H)}
    {log : List (Act H)} (h : A.Binds fd a binding)
    (hwithdraws : ∀ act ∈ log, act.withdraws fd a = false)
    (hfire : ∀ reaction, .fire fd a reaction ∉ log) :
    (log.foldl Registry.after A).Binds fd a binding := by
  induction log generalizing A with
  | nil =>
      exact h
  | cons act log ih =>
      refine ih (h.after (hwithdraws act List.mem_cons_self) ?_) ?_ ?_
      · rintro reaction rfl
        exact hfire reaction List.mem_cons_self
      · exact fun act' hin => hwithdraws act' (List.mem_cons_of_mem act hin)
      · exact fun reaction hin => hfire reaction (List.mem_cons_of_mem act hin)

/-- What settling queues was queued or pending. -/
theorem Descriptor.of_contains_settled
    {d : Descriptor R H} {clears : Nat} {pending : Directions} {a : Direction}
    (h : (d.settled clears pending).ready.contains a = true) :
    d.ready.contains a = true ∨ d.clears = clears ∧ pending.contains a = true := by
  unfold Descriptor.settled at h
  split at h
  next hsame =>
      rw [Directions.contains_union, Directions.contains_inter, Bool.or_eq_true,
        Bool.and_eq_true] at h
      simp only [Bool.and_eq_true, decide_eq_true_eq] at hsame
      exact h.imp id fun hin => ⟨hsame.1, hin.1⟩
  next =>
      exact .inl h

namespace DescriptorTable

variable {t t' : DescriptorTable R H} {fd : Int} {a : Direction}

/-- How often a stored descriptor was cleared. -/
def clearsOf (t : DescriptorTable R H) (fd : Int) : Nat :=
  ((t.find? fd).map (·.clears)).getD 0

theorem clearsOf_of_find?
    {d : Descriptor R H} (h : t.find? fd = some d) :
    t.clearsOf fd = d.clears := by
  simp [clearsOf, h]

theorem clearsOf_of_readiness?
    {clears : Nat} {queued : Bool} (h : t.readiness? fd a = some (clears, queued)) :
    t.clearsOf fd = clears := by
  obtain ⟨d, hfind, heq⟩ := Option.map_eq_some_iff.1 h
  cases heq
  exact clearsOf_of_find? hfind

theorem clearsOf_of_readiness?_eq
    (h : t'.readiness? fd a = t.readiness? fd a) :
    t'.clearsOf fd = t.clearsOf fd := by
  have hfst : ∀ t : DescriptorTable R H,
      t.clearsOf fd = ((t.readiness? fd a).map Prod.fst).getD 0 := by
    intro t
    simp [clearsOf, readiness?, Function.comp_def]
  rw [hfst, hfst, h]

end DescriptorTable

namespace Machine

variable {m m' m'' : Machine H} {fd : Int} {a : Direction} {act : Act H} {log : List (Act H)}

/-- The turn under way is that of a stored descriptor, which is busy. -/
theorem Sound.find?_of_turn
    (h : m.Sound) {turn : Turn} (hturn : m.control.turn? = some turn) :
    ∃ d, m.loop.table.get? turn.slot = some d ∧ m.loop.table.find? turn.fd = some d ∧
      d.busy = true := by
  have hslot := slot?_of_turn? hturn
  cases hd : m.loop.table.get? turn.slot with
  | none =>
      exact absurd hslot (h.table.vacant _ hd).1
  | some d =>
      have hfd := h.turn_fd turn d hturn hd
      exact ⟨d, rfl, h.table.find?_eq_some_iff.2 ⟨_, hd, hfd⟩, (h.table.fits _ d hd).busy.2 hslot⟩

/-- A request made in a turn leaves the turn as it is. -/
theorem turn?_perform
    (h : m.Sound) {r : Request H} {reply : Reply} (hperform : Performed m r reply m') :
    m'.control.turn? = m.control.turn? := by
  rcases still_perform h hperform 0 .recv with hstill | ⟨hlapses, -⟩
  · exact hstill.turn?
  · exact hlapses.turn?

/-- Clearing the descriptor of a turn is counted; it stays stored. -/
theorem clearsOf_clearFd
    (h : m.Sound) {turn : Turn} (hturn : m.control.turn? = some turn)
    (hclear : m.clearFd fd = .ok m') :
    m'.loop.table.clearsOf turn.fd =
      if turn.fd = fd then m.loop.table.clearsOf turn.fd + 1
      else m.loop.table.clearsOf turn.fd := by
  obtain ⟨e, -, hfind, hbusy⟩ := h.find?_of_turn hturn
  rcases clearFd_ok hclear with ⟨hslot, rfl⟩ | ⟨slot, d, b, k, hslot, hd, -, rfl⟩
  · have hne : turn.fd ≠ fd := by
      rintro rfl
      rw [DescriptorTable.find?, hslot] at hfind
      cases hfind
    rw [if_neg hne]
  · obtain ⟨f, hf, hfd⟩ := h.table.slotOf?_eq_some_iff.1 hslot
    cases hd.symm.trans hf
    have hcleared := h.table.find?_clear hd turn.fd
    rw [hfd] at hcleared
    show (m.loop.table.clear slot d).clearsOf turn.fd = _
    split
    next heq =>
        have hstored := h.table.find?_eq_some_iff.2 ⟨slot, hd, hfd.trans heq.symm⟩
        cases hstored.symm.trans hfind
        rw [if_pos heq, if_pos hbusy] at hcleared
        rw [DescriptorTable.clearsOf_of_find? hcleared, DescriptorTable.clearsOf_of_find? hfind]
        rfl
    next hne =>
        rw [if_neg hne] at hcleared
        rw [DescriptorTable.clearsOf, hcleared]
        rfl

/-- A registration counts no clear. -/
theorem clearsOf_registers
    (h : m.Sound) {flags : Flags} {timeout : FdTimeout} {reaction : Reaction H}
    {d d' : Descriptor (Reaction H) H} {kernel : Kernel}
    (hreg : m.Registers fd flags timeout reaction m' d d' kernel) {other : Int}
    {e : Descriptor (Reaction H) H} (hfind : m.loop.table.find? other = some e) :
    m'.loop.table.clearsOf other = m.loop.table.clearsOf other := by
  have hsound := (h.registers hreg).table
  obtain ⟨d₁, htable, hfd, -, hclears, -, -⟩ := hreg.stores h
  rw [htable] at hsound ⊢
  have hregister := h.table.find?_register hsound hfd other
  split at hregister
  next heq =>
      subst heq
      obtain ⟨d₂, hd₂, hfd₂, -, -, -, hold⟩ := h.table.ensure_spec other
      cases hreg.found.symm.trans hd₂
      rcases hold with hold | ⟨hnone, -⟩
      · have hstored := h.table.find?_eq_some_iff.2 ⟨_, hold, hfd₂⟩
        rw [DescriptorTable.clearsOf_of_find? hregister,
          DescriptorTable.clearsOf_of_find? hstored, hclears]
      · rw [hnone] at hfind
        cases hfind
  next =>
      rw [DescriptorTable.clearsOf, hregister]
      rfl

/-- In a turn its descriptor is cleared more and more often. -/
theorem clearsOf_perform
    (h : m.Sound) {r : Request H} {reply : Reply} (hperform : Performed m r reply m')
    {turn : Turn} (hturn : m.control.turn? = some turn) :
    m.loop.table.clearsOf turn.fd ≤ m'.loop.table.clearsOf turn.fd := by
  have hclear : ∀ {other : Int}, m.clearFd other = .ok m' →
      m.loop.table.clearsOf turn.fd ≤ m'.loop.table.clearsOf turn.fd := by
    intro other hclear
    rw [clearsOf_clearFd h hturn hclear]
    split <;> omega
  have hsound := (h.perform hperform).table
  cases hperform with
  | cleared hcleared =>
      exact hclear hcleared
  | unset hcleared =>
      exact hclear hcleared
  | refused _ =>
      exact Nat.le_refl _
  | registered _ _ _ hreg =>
      obtain ⟨d, -, hfind, -⟩ := h.find?_of_turn hturn
      exact (clearsOf_registers h hreg hfind).ge
  | handled _ hd =>
      have hretimed := DescriptorTable.Retimed.set hd
      exact (DescriptorTable.clearsOf_of_readiness?_eq (a := .recv)
        ((hretimed _ _).readiness? h.table hsound _ _)).ge
  | aside haside =>
      rw [haside.table]

/-- The descriptor of the turn under way has been cleared at least as often as
when the turn began. -/
def TurnDated (m : Machine H) : Prop :=
  ∀ turn, m.control.turn? = some turn → turn.clears ≤ m.loop.table.clearsOf turn.fd

theorem TurnDated.of_turn?_eq
    (hdated : m.TurnDated) (hturn : m'.control.turn? = m.control.turn?)
    (htable : ∀ turn, m.control.turn? = some turn →
      m.loop.table.clearsOf turn.fd ≤ m'.loop.table.clearsOf turn.fd) :
    m'.TurnDated := by
  intro turn hturn'
  rw [hturn] at hturn'
  exact (hdated turn hturn').trans (htable turn hturn')

theorem TurnDated.advance
    (hdated : m.TurnDated) (h : m.Sound) {phase : Phase H}
    (hc : m.control = .dispatching phase) (hadvance : Advance m phase m') :
    m'.TurnDated := by
  have hsound := (h.advance hc hadvance).table
  have htable := h.table_of_dispatching hc
  cases hadvance with
  | quiet hquiet =>
      refine hdated.of_turn?_eq ?_ fun turn _ => by rw [hquiet.table]
      rw [hquiet.turn, hc]
      rfl
  | @begins slot active d _ hactive hd =>
      intro turn hturn
      cases hturn
      have honly := DescriptorTable.onlyAt_takeActive hactive
      have hget : DescriptorTable.get? { m.loop.table with active } slot = some d := hd
      have hset := DescriptorTable.get?_set_self hget
        { d with ready := ∅, busy := true, lastTurn := m.loop.iteration, timeout := none }
      have hfind := hsound.find?_eq_some_iff.2 ⟨slot, hset, rfl⟩
      exact (DescriptorTable.clearsOf_of_find? hfind).ge
  | @turn turn d _ hd hmove =>
      intro turn' hturn'
      obtain ⟨hturn, -, -, -, -⟩ := h.of_turn hc hd
      rcases act_of_turn hc hmove with ⟨-, hended | hskipped⟩ |
        ⟨a, binding, -, -, -, -, -, hset, hpopped⟩
      · obtain ⟨m₁, -, -, rfl⟩ := hended
        cases hturn'
      · obtain ⟨a, -, -, -, rfl⟩ := hskipped
        cases hturn'
        exact hdated turn hturn
      · cases hpopped.symm.trans hturn'
        have hsame := readiness?_spent htable hd hset turn.fd .recv
        exact (hdated turn hturn).trans (DescriptorTable.clearsOf_of_readiness?_eq hsame).ge
  | postponed =>
      intro turn hturn
      cases hturn
  | expires _ _ _ _ hexpiry =>
      intro turn hturn
      cases hexpiry <;> cases hturn
  | settles _ =>
      intro turn hturn
      cases hturn
  | waits _ =>
      intro turn hturn
      cases hturn

theorem TurnDated.move
    (hdated : m.TurnDated) (h : m.Sound) (hmove : Move m act m') :
    m'.TurnDated := by
  cases hmove with
  | request _ hperform =>
      exact hdated.of_turn?_eq (turn?_perform h (perform_ok hperform)) fun turn hturn =>
        clearsOf_perform h (perform_ok hperform) hturn
  | resume hc =>
      rw [resume_eq hc]
      exact hdated.of_turn?_eq (by rw [hc]; rfl) fun _ _ => Nat.le_refl _
  | step hc hstep =>
      simp only [step, hc] at hstep
      exact hdated.advance h hc (advance_ok hstep)
  | world host =>
      exact hdated

theorem Built.turnDated
    (h : Built m) :
    m.TurnDated := by
  intro turn hturn
  cases h
  cases hturn

theorem Run.turnDated
    (hrun : Run m log m') (h : m.Sound) (hdated : m.TurnDated) :
    m'.TurnDated := by
  induction hrun with
  | nil =>
      exact hdated
  | cons hmove _ ih =>
      exact ih (h.move hmove) (hdated.move h hmove)

/-- A direction is pending in a turn of its descriptor that no clear has ended. -/
def Pending (m : Machine H) (fd : Int) (a : Direction) : Prop :=
  ∃ turn, m.control.turn? = some turn ∧ turn.fd = fd ∧
    turn.clears = m.loop.table.clearsOf fd ∧ turn.pending.contains a = true

theorem Paid.not_owes
    (h : m.Paid fd a) :
    ¬m.Owes fd a := by
  rintro ⟨clears, queued, hreadiness, rfl | ⟨turn, hturn, hfd, -, hpending⟩⟩
  · exact h.not_queued ⟨clears, hreadiness⟩
  · rw [h.not_pending turn hturn hfd] at hpending
    cases hpending

/-- What is owed although nothing is queued is pending. -/
theorem Owes.pending
    (howes : m.Owes fd a) (hqueued : ¬m.loop.table.Queued fd a) :
    m.Pending fd a := by
  obtain ⟨clears, queued, hreadiness, rfl | ⟨turn, hturn, hfd, hclears, hpending⟩⟩ := howes
  · exact absurd ⟨clears, hreadiness⟩ hqueued
  · exact ⟨turn, hturn, hfd,
      hclears.trans (DescriptorTable.clearsOf_of_readiness? hreadiness).symm, hpending⟩

theorem Pending.owes
    (h : m.Sound) (hpending : m.Pending fd a) :
    m.Owes fd a := by
  obtain ⟨turn, hturn, rfl, hclears, hcontains⟩ := hpending
  obtain ⟨d, -, hfind, -⟩ := h.find?_of_turn hturn
  have hreadiness : m.loop.table.readiness? turn.fd a = some (d.clears, d.ready.contains a) := by
    rw [DescriptorTable.readiness?, hfind]
    rfl
  rw [DescriptorTable.clearsOf_of_find? hfind] at hclears
  exact ⟨_, _, hreadiness, .inr ⟨turn, hturn, rfl, hclears, hcontains⟩⟩

theorem Owes.of_still
    (howes : m'.Owes fd a) (hstill : Still m m' fd a) :
    m.Owes fd a := by
  unfold Owes at howes
  rwa [hstill.readiness?, hstill.turn?] at howes

/-- What is pending after a request was pending before it: the turn is the same,
and a clear would have ended it. -/
theorem Owes.of_perform
    (howes : m'.Owes fd a) (h : m.Sound) (hdated : m.TurnDated) {r : Request H} {reply : Reply}
    (hperform : Performed m r reply m') :
    m.Owes fd a := by
  rcases still_perform h hperform fd a with hstill | ⟨hlapses, -⟩
  · exact howes.of_still hstill
  · obtain ⟨turn, hturn, rfl, hclears, hpending⟩ := howes.pending hlapses.not_queued
    rw [hlapses.turn?] at hturn
    have hle := clearsOf_perform h hperform hturn
    have hdate := hdated turn hturn
    exact Pending.owes h ⟨turn, hturn, rfl, by omega, hpending⟩

theorem Owes.of_pops
    {turn : Turn} {a' : Direction} (howes : m'.Owes fd a)
    (hsame : m'.loop.table.readiness? fd a = m.loop.table.readiness? fd a)
    (hturn : m.control.turn? = some turn)
    (hturn' : m'.control.turn? = some { turn with pending := turn.pending.erase a' }) :
    m.Owes fd a := by
  obtain ⟨clears, queued, hreadiness, hwhere⟩ := howes
  refine ⟨clears, queued, hsame.symm.trans hreadiness, hwhere.imp id ?_⟩
  rintro ⟨turn₀, hturn₀, hfd, hclears, hpending⟩
  cases hturn'.symm.trans hturn₀
  refine ⟨turn, hturn, hfd, hclears, ?_⟩
  simp only [Directions.erase, Directions.contains_sdiff, Bool.and_eq_true] at hpending
  exact hpending.1

theorem Owes.of_turnMove
    (howes : m'.Owes fd a) (h : m.Sound) {turn : Turn} {d : Descriptor (Reaction H) H}
    (hc : m.control = .dispatching (.turn turn)) (hd : m.loop.table.get? turn.slot = some d)
    (hmove : TurnMove m turn d m') :
    m.Owes fd a := by
  obtain ⟨hturn, htable, hfd, hready, hempty⟩ := h.of_turn hc hd
  rcases act_of_turn hc hmove with ⟨-, hended | hskipped⟩ |
    ⟨a', binding, -, -, -, -, -, hset, hturn'⟩
  · -- The turn is over, so the direction was put back into the queue.
    obtain ⟨m₁, -, hsettle, rfl⟩ := hended
    obtain ⟨clears, queued, hreadiness, rfl | ⟨turn₀, hturn₀, -⟩⟩ := howes
    · have hsettled := (readiness?_settle htable hd hsettle fd a).symm.trans hreadiness
      split at hsettled
      next heq =>
          split at hsettled
          next =>
              cases hsettled
          next =>
              rw [Option.some.injEq, Prod.mk.injEq] at hsettled
              rcases Descriptor.of_contains_settled hsettled.2 with hin | ⟨hclears, hpending⟩
              · rw [hready, Directions.contains_empty] at hin
                cases hin
              · have hfd' := heq.trans hfd
                exact ⟨d.clears, false, hfd' ▸ hempty a,
                  .inr ⟨turn, hturn, hfd'.symm, hclears.symm, hpending⟩⟩
      next =>
          exact ⟨clears, true, hsettled, .inl rfl⟩
    · cases hturn₀
  · obtain ⟨a', -, -, -, rfl⟩ := hskipped
    exact howes.of_pops rfl hturn rfl
  · exact howes.of_pops (readiness?_spent htable hd hset fd a) hturn hturn'

/-- Outside of the choice of the next direction a turn only waits. -/
theorem Advance.still_of_turn?
    {phase : Phase H} (hadvance : Advance m phase m') (hc : m.control = .dispatching phase)
    {turn : Turn} (hturn : phase.turn? = some turn) (hne : ∀ turn, phase ≠ .turn turn) (fd : Int)
    (a : Direction) :
    Still m m' fd a := by
  cases hadvance with
  | quiet hquiet =>
      refine ⟨by rw [hquiet.table], ?_⟩
      rw [hquiet.turn, hc]
      rfl
  | turn =>
      exact absurd rfl (hne _)
  | begins | postponed | expires | settles | waits =>
      cases hturn

theorem Owes.of_advance
    (howes : m'.Owes fd a) (h : m.Sound) {phase : Phase H} (hc : m.control = .dispatching phase)
    (hadvance : Advance m phase m') (hwait : phase ≠ .wait) :
    m.Owes fd a := by
  by_cases hturn : ∃ turn, phase = .turn turn
  · obtain ⟨turn, rfl⟩ := hturn
    cases hadvance with
    | quiet hquiet =>
        exact absurd rfl (hquiet.not_turn turn)
    | turn hd hmove =>
        exact howes.of_turnMove h hc hd hmove
  · have hne : ∀ turn, phase ≠ .turn turn := fun turn heq => hturn ⟨turn, heq⟩
    cases hout : phase.turn? with
    | some turn =>
        exact howes.of_still (hadvance.still_of_turn? hc hout hne fd a)
    | none =>
        have hout' : m.control.turn? = none := by
          rw [hc]
          exact hout
        rcases still_advance h hc hadvance hne hwait fd a with hstill | ⟨hlapses, -⟩ |
          ⟨turn, -, hin, hbegins⟩
        · exact howes.of_still hstill
        · obtain ⟨turn, hturn, -⟩ := howes.pending hlapses.not_queued
          rw [hlapses.turn?, hout'] at hturn
          cases hturn
        · -- A turn began: what is pending in it was queued.
          obtain ⟨clears, queued, hreadiness, hwhere⟩ := howes
          split at hbegins
          next heq =>
              obtain ⟨hbefore, hafter⟩ := hbegins
              cases hreadiness.symm.trans hafter
              obtain ⟨turn₀, hturn₀, -, -, hpending⟩ := hwhere.resolve_left Bool.false_ne_true
              cases hin.symm.trans hturn₀
              exact ⟨_, _, hbefore, .inl hpending⟩
          next hother =>
              refine ⟨clears, queued, hbegins.symm.trans hreadiness, .inl ?_⟩
              refine hwhere.resolve_right ?_
              rintro ⟨turn₀, hturn₀, hfd, -⟩
              cases hin.symm.trans hturn₀
              exact hother hfd.symm

theorem Owes.of_move
    (howes : m'.Owes fd a) (h : m.Sound) (hdated : m.TurnDated) (hmove : Move m act m')
    (hwait : ∀ events, act ≠ .wait events) :
    m.Owes fd a := by
  cases hmove with
  | request _ hperform =>
      exact howes.of_perform h hdated (perform_ok hperform)
  | resume hc =>
      exact howes.of_still (still_resume hc fd a)
  | @step _ phase hc hstep =>
      simp only [step, hc] at hstep
      refine howes.of_advance h hc (advance_ok hstep) ?_
      rintro rfl
      exact hwait m.reports (act_eq_wait hc)
  | world host =>
      exact howes.of_still ⟨rfl, rfl⟩

/-- What one event queues was queued before or is what the event reports. -/
theorem queued_of_enqueue
    {event : Event} (h : m.loop.table.Sound none) (henqueue : m.enqueue event = .ok m')
    (hqueued : m'.loop.table.Queued fd a) :
    m.loop.table.Queued fd a ∨ event.fd = fd ∧ event.ready.contains a = true := by
  rcases enqueue_ok henqueue with ⟨rfl, -⟩ | ⟨slot, d, b, k, hslot, hd, hclearing, -, -, rfl⟩
  · exact .inl hqueued
  · obtain ⟨e, he, hfd⟩ := h.slotOf?_eq_some_iff.1 hslot
    cases hd.symm.trans he
    have hsame := h.readiness?_replace (h.notify hd hclearing event.ready)
      (DescriptorTable.onlyAt_notify _ slot d event.ready) hd
      (DescriptorTable.get?_notify_self hd event.ready) rfl fd a
    obtain ⟨clears, hreadiness⟩ := hqueued
    replace hreadiness := hsame.symm.trans hreadiness
    split at hreadiness
    next heq =>
        rw [Option.some.injEq, Prod.mk.injEq] at hreadiness
        have hin : (d.notified event.ready).ready.contains a = true := hreadiness.2
        simp only [Descriptor.notified, Directions.contains_union, Directions.contains_inter,
          Bool.or_eq_true, Bool.and_eq_true] at hin
        rcases hin with hold | ⟨hnew, -⟩
        · exact .inl ⟨d.clears, by rw [heq, h.readiness?_of_get? hd, hold]⟩
        · exact .inr ⟨(heq.trans hfd).symm, hnew⟩
    next =>
        exact .inl ⟨clears, hreadiness⟩

theorem queued_of_foldlM
    {events : List Event} (h : m.loop.table.Sound none)
    (hfold : events.foldlM enqueue m = .ok m') (hqueued : m'.loop.table.Queued fd a) :
    m.loop.table.Queued fd a ∨ ∃ event ∈ events, event.fd = fd ∧ event.ready.contains a = true := by
  induction events generalizing m with
  | nil =>
      cases hfold
      exact .inl hqueued
  | cons event events ih =>
      rw [List.foldlM_cons, Except.bind_eq_ok_iff] at hfold
      obtain ⟨m₁, henqueue, hfold⟩ := hfold
      obtain ⟨k, b, t, hm₁, ht⟩ := enqueue_sound h henqueue
      have hsound : m₁.loop.table.Sound none := by
        rw [hm₁]
        exact ht
      rcases ih hsound hfold with hqueued | ⟨e, hin, hreports⟩
      · rcases queued_of_enqueue h henqueue hqueued with hold | hreports
        · exact .inl hold
        · exact .inr ⟨event, List.mem_cons_self, hreports⟩
      · exact .inr ⟨e, List.mem_cons_of_mem event hin, hreports⟩

/-- What is owed after a wait was reported by it. -/
theorem Owes.of_wait
    {events : List Event} (howes : m'.Owes fd a) (h : m.Sound) (hmove : Move m (.wait events) m') :
    ∃ event ∈ events, event.fd = fd ∧ event.ready.contains a = true := by
  obtain ⟨hc, host, m₁, hfold, rfl⟩ := awaitEvents_of_wait hmove
  have htable : m.loop.table.Sound none := h.table_of_dispatching hc
  obtain ⟨clears, queued, hreadiness, rfl | ⟨turn, hturn, -⟩⟩ := howes
  · refine (queued_of_foldlM (m := { m with host }) htable hfold ⟨clears, hreadiness⟩).resolve_left ?_
    rintro ⟨clears', hqueued⟩
    exact not_owes_of_wait h hc ⟨clears', true, hqueued, .inl rfl⟩
  · cases hturn

/-- The turn in which a reaction starts. -/
theorem turn_of_fire
    {reaction : Reaction H} (hmove : Move m (.fire fd a reaction) m') :
    ∃ turn d, m.control = .dispatching (.turn turn) ∧ turn.fd = fd ∧
      turn.pending.first? = some a ∧ m.loop.table.get? turn.slot = some d ∧
      d.clears = turn.clears ∧ m'.loop.table = m.loop.table.set turn.slot (d.spent a) ∧
      m'.control.turn? = some { turn with pending := turn.pending.erase a } := by
  generalize hact : Act.fire fd a reaction = act at hmove
  cases hmove with
  | request | resume | world =>
      cases hact
  | @step _ phase hc hstep =>
      simp only [step, hc] at hstep
      by_cases hwait : phase = .wait
      · rw [hwait] at hc
        rw [act_eq_wait hc] at hact
        cases hact
      · cases advance_ok hstep with
        | @turn turn d _ hd hmove =>
            rcases act_of_turn hc hmove with ⟨hnone, -⟩ |
              ⟨a', binding, hfire, hfirst, -, hclears, -, hset, hturn⟩
            · exact absurd hact.symm (act_ne_fire hnone)
            · cases hact.trans hfire
              exact ⟨turn, d, hc, rfl, hfirst, hd, hclears, hset, hturn⟩
        | quiet hquiet =>
            exact absurd hact.symm (act_ne_fire (act_eq_advance hc hquiet.not_turn hwait))
        | begins | postponed | expires | settles | waits =>
            exact absurd hact.symm (act_ne_fire (act_eq_advance hc (by simp) hwait))

/-- A reaction starts to what is owed. -/
theorem owes_of_fire
    {reaction : Reaction H} (h : m.Sound) (hmove : Move m (.fire fd a reaction) m') :
    m.Owes fd a := by
  obtain ⟨turn, d, hc, rfl, hfirst, hd, hclears, -, -⟩ := turn_of_fire hmove
  obtain ⟨hturn, -, -, -, hempty⟩ := h.of_turn hc hd
  exact ⟨_, _, hempty a, .inr ⟨turn, hturn, rfl, hclears.symm, Directions.contains_of_first? hfirst⟩⟩

/-- After its reaction has started a direction is not owed any more. -/
theorem not_owes_after_fire
    {reaction : Reaction H} (h : m.Sound) (hmove : Move m (.fire fd a reaction) m') :
    ¬m'.Owes fd a := by
  obtain ⟨turn, d, hc, rfl, hfirst, hd, hclears, hset, hturn'⟩ := turn_of_fire hmove
  obtain ⟨-, htable, -, -, hempty⟩ := h.of_turn hc hd
  refine Paid.not_owes ⟨?_, ?_⟩
  · rintro ⟨clears, hqueued⟩
    rw [readiness?_spent htable hd hset, hempty] at hqueued
    cases hqueued
  · intro turn₀ hturn₀ _
    cases hturn'.symm.trans hturn₀
    simp [Directions.erase]

/-- What is owed in the end, but was not owed at first, was reported in between. -/
theorem Run.reported
    (hrun : Run m log m') (h : m.Sound) (hdated : m.TurnDated) (hfirst : ¬m.Owes fd a)
    (hlast : m'.Owes fd a) :
    Reported log fd a := by
  induction log using List.reverseRecOn generalizing m' with
  | nil =>
      cases hrun
      exact absurd hlast hfirst
  | append_singleton log act ih =>
      obtain ⟨m₁, hrun, hone⟩ := hrun.split
      cases hone with
      | cons hmove hnil =>
          cases hnil
          have hsound := hrun.sound h
          by_cases hwait : ∃ events, act = .wait events
          · obtain ⟨events, rfl⟩ := hwait
            obtain ⟨event, hin, rfl, ha⟩ := hlast.of_wait hsound hmove
            exact reported_append_wait log hin ha
          · have hne : ∀ events, act ≠ .wait events := fun events heq => hwait ⟨events, heq⟩
            refine (ih hrun (hlast.of_move hsound (hrun.turnDated h hdated) hmove hne)).append hne ?_
            rintro reaction rfl
            exact not_owes_after_fire hsound hmove hlast

/-- A reaction that starts later to a direction that is not owed now was
reported in between. -/
theorem Run.reported_of_fire
    {reaction : Reaction H} (hrun : Run m log m') (h : m.Sound) (hdated : m.TurnDated)
    (hfirst : ¬m.Owes fd a) (hfire : Move m' (.fire fd a reaction) m'') :
    Reported log fd a :=
  hrun.reported h hdated hfirst (owes_of_fire (hrun.sound h) hfire)

theorem performed_of_request
    {r : Request H} {reply : Reply} (hmove : Move m (.request r reply) m') :
    Performed m r reply m' :=
  perform_ok (request_of_move hmove).2

/-- A registration of a direction leaves the direction owed only if it is
pending. -/
theorem not_owes_of_registers
    (h : m.Sound) {flags : Flags} {timeout : FdTimeout} {reaction : Reaction H}
    {d d' : Descriptor (Reaction H) H} {kernel : Kernel}
    (hreg : m.Registers fd flags timeout reaction m' d d' kernel)
    (hnames : flags.directions.contains a = true) (hpending : ¬m.Pending fd a) :
    ¬m'.Owes fd a := by
  intro howes
  have hsound := (h.registers hreg).table
  obtain ⟨e, htable, hfd, -, -, hready, -⟩ := hreg.stores h
  have hturn : m'.control.turn? = m.control.turn? := by
    obtain ⟨b, k, q, -, -, rfl⟩ := hreg.result
    rfl
  have hqueued : ¬m'.loop.table.Queued fd a := by
    rintro ⟨clears, hqueued⟩
    rw [htable] at hsound hqueued
    rw [h.table.readiness?_register hsound hfd, if_pos rfl, hready] at hqueued
    simp [hnames] at hqueued
  obtain ⟨turn, hturn', rfl, hclears, hcontains⟩ := howes.pending hqueued
  rw [hturn] at hturn'
  obtain ⟨f, -, hfind, -⟩ := h.find?_of_turn hturn'
  rw [clearsOf_registers h hreg hfind] at hclears
  exact hpending ⟨turn, hturn', rfl, hclears, hcontains⟩

theorem not_owes_of_setFd
    (h : m.Sound) {flags : Flags} {timeout : FdTimeout} {handler : H}
    (hset : Move m (.request (.setFd fd flags timeout handler) .done) m')
    (hnames : flags.directions.contains a = true) (hpending : ¬m.Pending fd a) :
    ¬m'.Owes fd a := by
  cases performed_of_request hset with
  | unset =>
      cases a <;> cases hnames
  | registered _ _ _ hreg =>
      exact not_owes_of_registers h hreg hnames hpending
  | aside haside =>
      cases haside.fd?

/-- A registration that names a direction is meant for later reports, unless the
direction is pending in a turn of its descriptor: a reaction to the direction
starts only after a wait that followed the registration reported it, and until
then the binding stays in place with its oneshot bit. -/
theorem registration_awaits_report
    {before after : List (Act H)} {m₁ m₂ : Machine H} {flags : Flags} {timeout : FdTimeout}
    {handler : H} (hbuilt : Built m) (hrun : Run m before m₁)
    (hset : Move m₁ (.request (.setFd fd flags timeout handler) .done) m₂)
    (hrun' : Run m₂ after m') (hnames : flags.directions.contains a = true)
    (hpending : ¬m₁.Pending fd a) :
    (∀ reaction m'', Move m' (.fire fd a reaction) m'' → Reported after fd a) ∧
      ((∀ act ∈ after, act.withdraws fd a = false) →
        (∀ events event, .wait events ∈ after → event ∈ events → event.fd = fd →
          event.ready.contains a = false) →
        ∃ b, m'.loop.table.bindings? fd = some b ∧
          b a = some ⟨.call handler, flags.contains .oneshot⟩) := by
  have hsound := hrun.sound hbuilt.sound
  have hdated := hrun.turnDated hbuilt.sound hbuilt.turnDated
  obtain ⟨hr, -⟩ := represents_run hrun hbuilt.sound hbuilt.represents
  have howes := not_owes_of_setFd hsound hset hnames hpending
  have hreported : ∀ log m₃ reaction m₄, Run m₂ log m₃ → Move m₃ (.fire fd a reaction) m₄ →
      Reported log fd a := fun log m₃ reaction m₄ hlog hfire =>
    hlog.reported_of_fire (hsound.move hset) (hdated.move hsound hset) howes hfire
  refine ⟨fun reaction m'' hfire => hreported after m' reaction m'' hrun' hfire, ?_⟩
  intro hwithdraws hsilent
  have hfire : ∀ reaction, .fire fd a reaction ∉ after := by
    intro reaction hin
    obtain ⟨early, late, rfl⟩ := List.append_of_mem hin
    obtain ⟨m₃, hearly, hlate⟩ := hrun'.split
    cases hlate with
    | cons hmove _ =>
        obtain ⟨events, hwait, event, hevent, hfd, ha⟩ :=
          (hreported early m₃ reaction _ hearly hmove).exists_wait
        have hnot := hsilent events event (List.mem_append_left _ hwait) hevent hfd
        rw [ha] at hnot
        cases hnot
  obtain ⟨hr', -⟩ := represents_move hsound hr hset
  obtain ⟨hr'', -⟩ := represents_run hrun' (hsound.move hset) hr'
  have hbinds := Registry.binds_after_setFd
    (before.foldl Registry.after (builtRegistry m.loop)) fd hnames timeout handler
  obtain ⟨b, hlookup, hb⟩ := hbinds.foldl hwithdraws hfire
  exact ⟨b, (hr'' fd).symm.trans hlookup, hb⟩

/-- Two descriptors are reported, and the handler of the first is called. -/
def rivalsLog : List (Act Nat) :=
  [Act.request (.setFd 4 .recv .unlimited 1) .done, .request (.setFd 5 .recv .unlimited 2) .done,
    .request .dispatch .done] ++
  List.replicate 7 Act.advance ++
  [Act.wait [⟨4, ⟨true, false, false⟩⟩, ⟨5, ⟨true, false, false⟩⟩]] ++
  List.replicate 4 Act.advance ++ [Act.fire 4 .recv (.call 1)]

/-- The second descriptor gets its turn, in which nothing is left to run, and then
it is reported again. -/
def rereportLog : List (Act Nat) :=
  [Act.resume] ++ List.replicate 7 Act.advance ++ [Act.wait [⟨5, ⟨true, false, false⟩⟩]] ++
  List.replicate 4 Act.advance

theorem registration_awaits_report_rivalsLog :
    ∃ m m₁ m₂ m' m'' : Machine Nat, Built m ∧ Run m rivalsLog m₁ ∧
      Move m₁ (.request (.setFd 5 (.recv ∪ .oneshot) .unlimited 3) .done) m₂ ∧
      Run m₂ rereportLog m' ∧ ¬m₁.Pending 5 .recv ∧ Move m' (.fire 5 .recv (.call 3)) m'' ∧
      Reported rereportLog 5 .recv := by
  have hbuilt := built_scripted Nat
    [{ events := [(4, { input := true }), (5, { input := true })] },
      { events := [(5, { input := true })] }]
  have hruns : ∃ m', Run (scripted Nat
      [{ events := [(4, { input := true }), (5, { input := true })] },
        { events := [(5, { input := true })] }])
      (rivalsLog ++ (.request (.setFd 5 (.recv ∪ .oneshot) .unlimited 3) .done ::
        (rereportLog ++ [.fire 5 .recv (.call 3)]))) m' :=
    exists_run_of_trail
      (List.flatten [
        [.request (.setFd 4 .recv .unlimited 1), .request (.setFd 5 .recv .unlimited 2),
          .request .dispatch],
        List.replicate 13 .step,
        [.request (.setFd 5 (.recv ∪ .oneshot) .unlimited 3), .resume],
        List.replicate 13 .step])
      (by decide +kernel)
  obtain ⟨m'', hfollowed⟩ := hruns
  obtain ⟨m₁, hrun, hrest⟩ := hfollowed.split
  cases hrest with
  | @cons _ m₂ _ _ _ hset hrest =>
      obtain ⟨m', hrun', hlast⟩ := hrest.split
      cases hlast with
      | @cons _ m₃ _ _ _ hfire _ =>
          -- The turn under way is that of the other descriptor.
          have hpending : ¬m₁.Pending 5 .recv := by
            rintro ⟨turn, hturn, hfd, -⟩
            obtain ⟨m₀, -, hone⟩ := Run.split hrun
            cases hone with
            | cons hcall hnil =>
                cases hnil
                obtain ⟨turn', -, -, hfd', -, -, -, -, hturn'⟩ := turn_of_fire hcall
                cases hturn'.symm.trans hturn
                exact absurd (hfd'.symm.trans hfd) (by decide)
          have hawaits := registration_awaits_report (a := .recv) hbuilt hrun hset hrun' rfl hpending
          exact ⟨_, m₁, m₂, m', m₃, hbuilt, hrun, hset, hrun', hpending, hfire,
            hawaits.1 _ _ hfire⟩

/-- Both directions of a descriptor are reported, and the first of its handlers is
called. -/
def rebindingLog : List (Act Nat) :=
  [Act.request (.setFd 5 .recv .unlimited 1) .done,
    .request (.setFd 5 (.send ∪ .append) .unlimited 2) .done, .request .dispatch .done] ++
  List.replicate 7 Act.advance ++ [Act.wait [⟨5, ⟨true, true, false⟩⟩]] ++
  List.replicate 4 Act.advance ++ [Act.fire 5 .recv (.call 1)]

/-- What is pending in a turn reaches a registration that the turn's own handler
makes, and uses it up: no wait came in between. -/
theorem pending_report_reaches_registration :
    ∃ m m₁ m₂ m' m'' : Machine Nat, Built m ∧ Run m rebindingLog m₁ ∧
      m₁.loop.interest? 5 = some ⟨true, true, false⟩ ∧
      Move m₁ (.request (.setFd 5 (.send ∪ .append ∪ .oneshot) .unlimited 3) .done) m₂ ∧
      Run m₂ [.resume] m' ∧ Move m' (.fire 5 .send (.call 3)) m'' ∧
      ¬Reported ([.resume] : List (Act Nat)) 5 .send ∧
      m''.loop.interest? 5 = some ⟨true, false, false⟩ := by
  have hbuilt := built_scripted Nat [{ events := [(5, { input := true, output := true })] }]
  have hruns : ∃ m', Run (scripted Nat
      [{ events := [(5, { input := true, output := true })] }])
      (rebindingLog ++ [.request (.setFd 5 (.send ∪ .append ∪ .oneshot) .unlimited 3) .done,
        .resume, .fire 5 .send (.call 3)]) m' :=
    exists_run_of_trail
      (List.flatten [
        [.request (.setFd 5 .recv .unlimited 1), .request (.setFd 5 (.send ∪ .append) .unlimited 2),
          .request .dispatch],
        List.replicate 13 .step,
        [.request (.setFd 5 (.send ∪ .append ∪ .oneshot) .unlimited 3), .resume, .step]])
      (by decide +kernel)
  obtain ⟨m'', hfollowed⟩ := hruns
  obtain ⟨m₁, hrun, hrest⟩ := hfollowed.split
  obtain ⟨hr, -⟩ := represents_run hrun hbuilt.sound hbuilt.represents
  obtain ⟨hr', -⟩ := represents_run hfollowed hbuilt.sound hbuilt.represents
  have hinterest : m₁.loop.interest? 5 = some ⟨true, true, false⟩ := by
    rw [interest?_eq, ← hr]
    rfl
  have hinterest' : m''.loop.interest? 5 = some ⟨true, false, false⟩ := by
    rw [interest?_eq, ← hr']
    rfl
  have hreported : ¬Reported ([.resume] : List (Act Nat)) 5 .send := by
    intro hreported
    obtain ⟨events, hwait, -⟩ := hreported.exists_wait
    simp at hwait
  cases hrest with
  | @cons _ m₂ _ _ _ hset hrest =>
      cases hrest with
      | @cons _ m' _ _ _ hresume hlast =>
          cases hlast with
          | cons hfire hnil =>
              cases hnil
              exact ⟨_, m₁, m₂, m', m'', hbuilt, hrun, hinterest, hset, .cons hresume .nil, hfire,
                hreported, hinterest'⟩

end Machine
end CallbackLoop
