import CallbackLoop.Proofs.Loop.Registrations

/-!
# Every report is served once

What a wait reports is on its way to a handler in one of two places: it is
queued with its descriptor, or it is among the pending directions of the turn
that is under way.  A move that is not a wait takes a direction out of there
only by starting its reaction, unless the descriptor is cleared or the direction
is bound anew or unbound.  A break in the middle of a turn puts what is pending
back into the queue.

`run_serves_each_report_once` is the result for whole runs, from one wait to the
next.
-/

namespace CallbackLoop

variable {H R : Type}

/-- Whether a move clears a descriptor, or binds or unbinds one of its
directions. -/
def Act.withdraws (act : Act H) (fd : Int) (a : Direction) : Bool :=
  match act with
  | .request (.clearFd other) _ => other = fd
  | .request (.setFd other flags _ _) .done =>
      other = fd &&
        (flags = .clear || flags.directions.contains a ||
          !(flags.directions.isEmpty || flags.contains .append))
  | _ => false

/-- A direction is withdrawn before any reaction to it starts. -/
def Withdrawn (log : List (Act H)) (fd : Int) (a : Direction) : Prop :=
  ∃ before act after, log = before ++ act :: after ∧ act.withdraws fd a = true ∧
    ∀ reaction, .fire fd a reaction ∉ before

/-- A reaction to a direction starts once, and no other does. -/
def FiresOnce
    (log : List (Act H)) (fd : Int) (a : Direction) (reaction : Reaction H) : Prop :=
  ∃ before after, log = before ++ .fire fd a reaction :: after ∧
    ∀ other, .fire fd a other ∉ before ∧ .fire fd a other ∉ after

theorem FiresOnce.cons
    {log : List (Act H)} {act : Act H} {fd : Int} {a : Direction} {reaction : Reaction H}
    (h : FiresOnce log fd a reaction) (hfire : ∀ other, act ≠ .fire fd a other) :
    FiresOnce (act :: log) fd a reaction := by
  obtain ⟨before, after, rfl, hout⟩ := h
  exact ⟨act :: before, after, rfl, fun other =>
    ⟨List.not_mem_cons_of_ne_of_not_mem (hfire other).symm (hout other).1, (hout other).2⟩⟩

/-- Whether a direction of a descriptor is registered with a binding. -/
def Registry.Binds
    (A : Registry H) (fd : Int) (a : Direction) (binding : Binding (Reaction H)) : Prop :=
  ∃ b, A.lookup fd = some b ∧ b a = some binding

/-- What is bound to a direction, or that nothing is, lasts until its reaction starts or it
is withdrawn. -/
theorem Act.rebound_bind_of_kept
    {act : Act H} {fd : Int} {a : Direction} (hwithdraws : act.withdraws fd a = false)
    (hfire : ∀ reaction, act ≠ .fire fd a reaction) (b? : Option (Bindings (Reaction H))) :
    (act.rebound fd b?).bind (· a) = b?.bind (· a) := by
  unfold Act.rebound
  split
  next other flags _ handler =>
      by_cases hne : other = fd
      · subst hne
        simp only [Act.withdraws, decide_true, Bool.true_and, Bool.or_eq_false_iff,
          decide_eq_false_iff_not] at hwithdraws
        obtain ⟨⟨hflags, hnames⟩, hdrops⟩ := hwithdraws
        rw [Bool.not_eq_false'] at hdrops
        rw [if_neg (not_not_intro rfl), if_neg hflags, Option.bind_some, Bindings.rebind, hnames,
          if_neg Bool.false_ne_true, if_pos hdrops]
        cases b? <;> rfl
      · rw [if_pos hne]
  next other _ =>
      have hne : other ≠ fd := by
        rintro rfl
        simp [Act.withdraws] at hwithdraws
      rw [if_pos hne]
  next other a' reaction =>
      by_cases hne : other = fd
      · subst hne
        have ha : a ≠ a' := by
          rintro rfl
          exact hfire reaction rfl
        rw [if_neg (not_not_intro rfl)]
        cases b? with
        | none =>
            rfl
        | some b =>
            show b.spend a' a = b a
            unfold Bindings.spend
            split
            · exact Function.update_of_ne ha _ _
            · rfl
      · rw [if_pos hne]
  next =>
      rfl

/-- A binding lasts until its reaction starts or it is withdrawn. -/
theorem Registry.Binds.after
    {A : Registry H} {fd : Int} {a : Direction} {binding : Binding (Reaction H)}
    (h : A.Binds fd a binding) {act : Act H} (hwithdraws : act.withdraws fd a = false)
    (hfire : ∀ reaction, act ≠ .fire fd a reaction) :
    (A.after act).Binds fd a binding := by
  rw [Binds, ← Option.bind_eq_some_iff] at h ⊢
  rw [lookup_after, Act.rebound_bind_of_kept hwithdraws hfire, h]

/-- The direction that runs first is one of the directions. -/
theorem Directions.contains_of_first?
    {s : Directions} {a : Direction} (h : s.first? = some a) :
    s.contains a = true := by
  rw [← mem_toList, toList_eq_cons h]
  exact List.mem_cons_self

namespace Descriptor

variable {d : Descriptor R H}

/-- What is bound is wanted unless it was reported before. -/
theorem wanted_or_ready
    {a : Direction} {binding : Binding R} (h : d.binding? a = some binding) :
    d.wanted.directions.contains a = true ∨ d.ready.contains a = true := by
  have hregistered : d.registered.contains a = true := by
    rw [contains_registered, h]
    rfl
  by_cases hready : d.ready.contains a = true
  · exact .inr hready
  · rw [Bool.not_eq_true] at hready
    refine .inl ?_
    unfold wanted
    rw [Directions.contains_sdiff, Directions.contains_inter, hregistered, hready]
    simp

/-- What is bound is queued after it was reported. -/
theorem contains_notified
    {ready : Directions} {a : Direction} {binding : Binding R}
    (hbinding : d.binding? a = some binding)
    (h : d.ready.contains a = true ∨ ready.contains a = true) :
    (d.notified ready).ready.contains a = true := by
  unfold notified
  rw [Directions.contains_union, Directions.contains_inter]
  rcases h with hold | hnew
  · simp [hold]
  · rcases wanted_or_ready hbinding with hwanted | hold
    · simp [hnew, hwanted]
    · simp [hold]

/-- Settling queues what is pending and bound again. -/
theorem contains_settled
    {clears : Nat} {pending : Directions} {a : Direction} (hclears : d.clears = clears)
    (hpending : pending.contains a = true) {binding : Binding R}
    (hbinding : d.binding? a = some binding) :
    (d.settled clears pending).ready.contains a = true := by
  have hsome : pending.isEmpty = false := by
    rw [← Bool.not_eq_true, Directions.isEmpty_iff]
    rintro rfl
    rw [Directions.contains_empty] at hpending
    cases hpending
  unfold settled
  simp [hclears, hsome, hpending, hbinding]

theorem contains_of_settled
    {clears : Nat} {pending : Directions} {a : Direction}
    (h : (d.settled clears pending).ready.contains a = true) :
    d.ready.contains a = true ∨ pending.contains a = true := by
  unfold settled at h
  split at h
  next =>
      rw [Directions.contains_union, Directions.contains_inter, Bool.or_eq_true,
        Bool.and_eq_true] at h
      exact h.imp id And.left
  next =>
      exact .inl h

end Descriptor

namespace DescriptorTable

variable {t t' : DescriptorTable R H} {current current' : Option Nat} {slot : Nat}
  {d d' : Descriptor R H} {fd : Int} {a : Direction}

/-- How often a descriptor was cleared, and whether a direction of it is queued. -/
def readiness? (t : DescriptorTable R H) (fd : Int) (a : Direction) : Option (Nat × Bool) :=
  (t.find? fd).map fun d => (d.clears, d.ready.contains a)

/-- A direction of a descriptor is queued. -/
def Queued (t : DescriptorTable R H) (fd : Int) (a : Direction) : Prop :=
  ∃ clears, t.readiness? fd a = some (clears, true)

theorem Sound.readiness?_of_get?
    (h : t.Sound current) (hd : t.get? slot = some d) (a : Direction) :
    t.readiness? d.fd a = some (d.clears, d.ready.contains a) := by
  rw [readiness?, h.find?_eq_some_iff.2 ⟨slot, hd, rfl⟩]
  rfl

theorem Sound.readiness?_replace
    (h : t.Sound current) (h' : t'.Sound current') (honly : OnlyAt slot t t')
    (hd : t.get? slot = some d) (hd' : t'.get? slot = some d') (hfd : d'.fd = d.fd)
    (fd : Int) (a : Direction) :
    t'.readiness? fd a =
      if fd = d.fd then some (d'.clears, d'.ready.contains a) else t.readiness? fd a := by
  rw [readiness?, h.find?_replace h' honly hd hd' hfd]
  split <;> rfl

theorem Sound.readiness?_register
    (h : t.Sound current) {other : Int} (h' : (t.register other d).Sound current')
    (hfd : d.fd = other) (fd : Int) (a : Direction) :
    (t.register other d).readiness? fd a =
      if fd = other then some (d.clears, d.ready.contains a) else t.readiness? fd a := by
  rw [readiness?, h.find?_register h' hfd]
  split <;> rfl

/-- After a clear nothing is queued for the descriptor. -/
theorem Sound.not_queued_clear
    (h : t.Sound current) (hd : t.get? slot = some d) (a : Direction) :
    ¬(t.clear slot d).Queued d.fd a := by
  rintro ⟨clears, hqueued⟩
  rw [readiness?, h.find?_clear hd, if_pos rfl] at hqueued
  split at hqueued
  next =>
      rw [Option.map_some, Directions.contains_empty] at hqueued
      cases hqueued
  next =>
      cases hqueued

/-- A descriptor with the same readiness makes no difference. -/
theorem Sound.readiness?_of_eq
    (h : t.Sound current) (h' : t'.Sound current') (honly : OnlyAt slot t t')
    (hd : t.get? slot = some d) (hd' : t'.get? slot = some d') (hfd : d'.fd = d.fd)
    (hclears : d'.clears = d.clears) (hready : d'.ready = d.ready) (fd : Int) (a : Direction) :
    t'.readiness? fd a = t.readiness? fd a := by
  rw [h.readiness?_replace h' honly hd hd' hfd]
  split
  next heq =>
      rw [heq, h.readiness?_of_get? hd, hclears, hready]
  next =>
      rfl

theorem Retimed.readiness?
    (hr : Retimed t t') (h : t.Sound current) (h' : t'.Sound current') (fd : Int)
    (a : Direction) :
    t'.readiness? fd a = t.readiness? fd a := by
  obtain ⟨entry, handler, heq⟩ := hr.find? h h' fd
  unfold DescriptorTable.readiness?
  rw [heq, Option.map_map]
  rfl

end DescriptorTable

namespace Machine

variable {m m' : Machine H} {A : Registry H} {fd : Int} {a : Direction}
  {binding : Binding (Reaction H)}

/-- A direction of a descriptor is queued, or pending in a turn that no clear has
ended. -/
def Owes (m : Machine H) (fd : Int) (a : Direction) : Prop :=
  ∃ clears queued, m.loop.table.readiness? fd a = some (clears, queued) ∧
    (queued = true ∨ ∃ turn, m.control.turn? = some turn ∧ turn.fd = fd ∧
      turn.clears = clears ∧ turn.pending.contains a = true)

/-- A direction of a descriptor is neither queued nor pending. -/
structure Paid (m : Machine H) (fd : Int) (a : Direction) : Prop where
  not_queued : ¬m.loop.table.Queued fd a
  not_pending : ∀ turn, m.control.turn? = some turn → turn.fd = fd →
    turn.pending.contains a = false

/-- A move in which a direction stays where it is. -/
structure Still (m m' : Machine H) (fd : Int) (a : Direction) : Prop where
  readiness? : m'.loop.table.readiness? fd a = m.loop.table.readiness? fd a
  turn? : m'.control.turn? = m.control.turn?

/-- A move that drops what is queued for a direction. -/
structure Lapses (m m' : Machine H) (fd : Int) (a : Direction) : Prop where
  not_queued : ¬m'.loop.table.Queued fd a
  turn? : m'.control.turn? = m.control.turn?

theorem Owes.still
    (h : m.Owes fd a) (hstill : Still m m' fd a) :
    m'.Owes fd a := by
  unfold Owes
  rw [hstill.readiness?, hstill.turn?]
  exact h

theorem Paid.still
    (h : m.Paid fd a) (hstill : Still m m' fd a) :
    m'.Paid fd a := by
  refine ⟨?_, ?_⟩
  · unfold DescriptorTable.Queued
    rw [hstill.readiness?]
    exact h.not_queued
  · rw [hstill.turn?]
    exact h.not_pending

theorem Paid.lapses
    (h : m.Paid fd a) (hlapses : Lapses m m' fd a) :
    m'.Paid fd a :=
  ⟨hlapses.not_queued, hlapses.turn? ▸ h.not_pending⟩

/-- What the registry binds is stored and not cleared. -/
theorem Represents.find?
    (hr : m.Represents A) (hbinds : A.Binds fd a binding) :
    ∃ d, m.loop.table.find? fd = some d ∧ d.isClearing = false ∧
      d.binding? a = some binding := by
  obtain ⟨b, hlookup, hb⟩ := hbinds
  rw [hr] at hlookup
  obtain ⟨d, hfind, hclearing, rfl⟩ := DescriptorTable.bindings?_eq_some_iff.1 hlookup
  exact ⟨d, hfind, hclearing, hb⟩

/-- At the start of a wait nothing is queued. -/
theorem Sound.ready_of_wait
    (h : m.Sound) (hc : m.control = .dispatching .wait) {slot : Nat}
    {d : Descriptor (Reaction H) H} (hd : m.loop.table.get? slot = some d) :
    d.ready = ∅ := by
  have hactive : m.loop.table.active = [] := h.drained .wait (by rw [hc]; rfl)
  by_contra hne
  have hin := (h.table.fits slot d hd).active_of_ready hne
  rw [hactive] at hin
  cases hin

theorem not_owes_of_wait
    (h : m.Sound) (hc : m.control = .dispatching .wait) :
    ¬m.Owes fd a := by
  rintro ⟨clears, queued, hreadiness, rfl | ⟨turn, hturn, -⟩⟩
  · obtain ⟨d, hfind, hd⟩ := Option.map_eq_some_iff.1 hreadiness
    obtain ⟨slot, hget, -⟩ := h.table.find?_eq_some_iff.1 hfind
    rw [h.ready_of_wait hc hget, Directions.contains_empty] at hd
    cases hd
  · rw [hc] at hturn
    cases hturn

/-- A clear drops what is queued for its descriptor. -/
theorem still_clearFd
    (h : m.Sound) {other : Int} (hclear : m.clearFd other = .ok m') (fd : Int)
    (a : Direction) :
    Still m m' fd a ∨ (other = fd ∧ Lapses m m' fd a) := by
  rcases clearFd_ok hclear with ⟨hslot, rfl⟩ | ⟨slot, d, b, k, hslot, hd, -, rfl⟩
  · by_cases hne : other = fd
    · refine .inr ⟨hne, ⟨?_, rfl⟩⟩
      rintro ⟨clears, hqueued⟩
      rw [← hne, DescriptorTable.readiness?, DescriptorTable.find?, hslot] at hqueued
      cases hqueued
    · exact .inl ⟨rfl, rfl⟩
  · obtain ⟨e, he, hfd⟩ := h.table.slotOf?_eq_some_iff.1 hslot
    cases hd.symm.trans he
    by_cases hne : other = fd
    · refine .inr ⟨hne, ⟨?_, rfl⟩⟩
      rw [← hne, ← hfd]
      exact h.table.not_queued_clear hd a
    · refine .inl ⟨?_, rfl⟩
      show (m.loop.table.clear slot d).readiness? fd a = _
      rw [DescriptorTable.readiness?, h.table.find?_clear hd, hfd, if_neg (Ne.symm hne)]
      rfl

/-- A registration of a direction drops what is queued for it.  Another
direction of a registered descriptor stays queued. -/
theorem still_registers
    (h : m.Sound) {other : Int} {flags : Flags} {timeout : FdTimeout} {reaction : Reaction H}
    {d d' : Descriptor (Reaction H) H} {kernel : Kernel}
    (hreg : m.Registers other flags timeout reaction m' d d' kernel) (fd : Int)
    (a : Direction) :
    Still m m' fd a ∨
      (other = fd ∧ Lapses m m' fd a ∧
        (flags.directions.contains a = true ∨ m.loop.table.bindings? fd = none)) := by
  have hsound := (h.registers hreg).table
  obtain ⟨e, htable, hfd, -, hclears, hready, -⟩ := hreg.stores h
  have hturn : m'.control.turn? = m.control.turn? := by
    obtain ⟨b, k, q, -, -, rfl⟩ := hreg.result
    rfl
  rw [htable] at hsound
  have hreadiness := h.table.readiness?_register hsound hfd fd a
  rw [← htable] at hreadiness
  by_cases hne : fd = other
  · subst hne
    rw [if_pos rfl, hclears, hready, Directions.contains_sdiff] at hreadiness
    -- Nothing is queued for `a`, or only other data of its descriptor changes.
    have hlapse : d.revived.ready.contains a = false ∨ flags.directions.contains a = true →
        Lapses m m' fd a := by
      intro hwhy
      refine ⟨?_, hturn⟩
      rintro ⟨clears, hqueued⟩
      rw [hreadiness] at hqueued
      rcases hwhy with hwhy | hwhy <;> simp [hwhy] at hqueued
    by_cases hnames : flags.directions.contains a = true
    · exact .inr ⟨rfl, hlapse (.inr hnames), .inl hnames⟩
    · obtain ⟨e, he, hfd, -, -, -, hold⟩ := h.table.ensure_spec fd
      cases hreg.found.symm.trans he
      rcases hold with hold | ⟨hnone, -, rfl⟩
      · by_cases hclearing : d.isClearing = true
        · refine .inr ⟨rfl, hlapse (.inl ?_), .inr ?_⟩
          · rw [Descriptor.revived, if_pos hclearing]
            exact Directions.contains_empty a
          · rw [← hfd, h.table.bindings?_of_get? hold]
            exact if_pos hclearing
        · refine .inl ⟨?_, hturn⟩
          have hrevived : d.revived = d := if_neg hclearing
          rw [hreadiness, hrevived, ← hfd, h.table.readiness?_of_get? hold]
          simp [hnames]
      · refine .inr ⟨rfl, hlapse (.inl ?_), .inr ?_⟩
        · exact Directions.contains_empty a
        · rw [DescriptorTable.bindings?, hnone]
          rfl
  · rw [if_neg hne] at hreadiness
    exact .inl ⟨hreadiness, hturn⟩

/-- A request drops what is queued for a direction only if it withdraws the
direction or nothing was registered. -/
theorem still_perform
    (h : m.Sound) {r : Request H} {reply : Reply} (hperform : Performed m r reply m')
    (fd : Int) (a : Direction) :
    Still m m' fd a ∨
      (Lapses m m' fd a ∧ (Act.withdraws (.request r reply) fd a = true ∨
        m.loop.table.bindings? fd = none)) := by
  have hsound := (h.perform hperform).table
  cases hperform with
  | cleared hclear =>
      rcases still_clearFd h hclear fd a with hstill | ⟨rfl, hlapses⟩
      · exact .inl hstill
      · exact .inr ⟨hlapses, .inl (decide_eq_true rfl)⟩
  | unset hclear =>
      rcases still_clearFd h hclear fd a with hstill | ⟨rfl, hlapses⟩
      · exact .inl hstill
      · refine .inr ⟨hlapses, .inl ?_⟩
        simp [Act.withdraws]
  | refused _ =>
      exact .inl ⟨rfl, rfl⟩
  | registered _ _ _ hreg =>
      rcases still_registers h hreg fd a with hstill | ⟨rfl, hlapses, hnames | hnone⟩
      · exact .inl hstill
      · refine .inr ⟨hlapses, .inl ?_⟩
        simp [Act.withdraws, hnames]
      · exact .inr ⟨hlapses, .inr hnone⟩
  | handled _ hd =>
      exact .inl ⟨(DescriptorTable.Retimed.set hd _ _).readiness? h.table hsound fd a, rfl⟩
  | aside haside =>
      refine .inl ⟨by rw [haside.table], ?_⟩
      rcases haside.control with ⟨hcontrol, -⟩ | ⟨hidle, -, hcontrol⟩
      · rw [hcontrol]
      · rw [hcontrol, Control.turn?, Control.turn?, h.phase?_eq_none hidle]
        rfl

/-- Settling queues what is pending again, unless the descriptor was cleared. -/
theorem readiness?_settle
    {slot clears : Nat} {pending : Directions} (h : m.loop.table.Sound (some slot))
    {d : Descriptor (Reaction H) H} (hd : m.loop.table.get? slot = some d)
    (hsettle : m.settle slot clears pending = .ok m') (fd : Int) (a : Direction) :
    m'.loop.table.readiness? fd a =
      if fd = d.fd then
        if d.isClearing then none
        else some (d.clears, (d.settled clears pending).ready.contains a)
      else m.loop.table.readiness? fd a := by
  obtain ⟨e, he, ⟨hclearing, rfl⟩ | ⟨hclearing, b, k, -, rfl⟩⟩ := settle_ok hsettle
  · cases hd.symm.trans he
    show (m.loop.table.remove slot).readiness? fd a = _
    rw [DescriptorTable.readiness?, h.find?_remove (h.remove_current hd) hd, if_pos hclearing]
    split <;> rfl
  · cases hd.symm.trans he
    rw [hclearing]
    exact h.readiness?_replace (h.settle hd hclearing clears pending)
      (DescriptorTable.onlyAt_settle _ slot d clears pending) hd
      (DescriptorTable.get?_settle_self hd clears pending) rfl fd a

/-- With nothing pending, settling only drops a descriptor that was cleared. -/
theorem still_settle
    {slot clears : Nat} (h : m.loop.table.Sound (some slot))
    (hsettle : m.settle slot clears ∅ = .ok m') (fd : Int) (a : Direction) :
    m'.loop.table.readiness? fd a = m.loop.table.readiness? fd a ∨
      (¬m'.loop.table.Queued fd a ∧ m.loop.table.bindings? fd = none) := by
  obtain ⟨d, hd, -⟩ := settle_ok hsettle
  have hsettled := readiness?_settle h hd hsettle fd a
  have hready : (d.settled clears ∅).ready = d.ready := by
    unfold Descriptor.settled
    rw [show (∅ : Directions).isEmpty = true from rfl]
    simp
  rw [hready] at hsettled
  by_cases heq : fd = d.fd
  · rw [if_pos heq] at hsettled
    by_cases hclearing : d.isClearing = true
    · rw [if_pos hclearing] at hsettled
      refine .inr ⟨?_, ?_⟩
      · rintro ⟨clears, hqueued⟩
        cases hsettled.symm.trans hqueued
      · rw [heq, h.bindings?_of_get? hd]
        exact if_pos hclearing
    · rw [if_neg hclearing] at hsettled
      exact .inl (hsettled.trans (heq ▸ h.readiness?_of_get? hd a).symm)
  · rw [if_neg heq] at hsettled
    exact .inl hsettled

/-- A direction taken from a turn leaves what is owed for the others. -/
theorem Owes.pops
    {turn : Turn} {a' : Direction} (h : m.Owes fd a)
    (hsame : m'.loop.table.readiness? fd a = m.loop.table.readiness? fd a)
    (hturn : m.control.turn? = some turn)
    (hturn' : m'.control.turn? = some { turn with pending := turn.pending.erase a' })
    (hne : turn.fd = fd → a' ≠ a) :
    m'.Owes fd a := by
  obtain ⟨clears, queued, hreadiness, hwhere⟩ := h
  refine ⟨clears, queued, hsame.trans hreadiness, hwhere.imp id ?_⟩
  rintro ⟨turn₀, hturn₀, hfd, hclears, hpending⟩
  cases hturn.symm.trans hturn₀
  refine ⟨_, hturn', hfd, hclears, ?_⟩
  show (turn.pending.erase a').contains a = true
  simp [Directions.erase, hpending, hne hfd]

theorem Paid.pops
    {turn : Turn} {a' : Direction} (h : m.Paid fd a)
    (hsame : m'.loop.table.readiness? fd a = m.loop.table.readiness? fd a)
    (hturn : m.control.turn? = some turn)
    (hturn' : m'.control.turn? = some { turn with pending := turn.pending.erase a' }) :
    m'.Paid fd a := by
  refine ⟨?_, ?_⟩
  · rintro ⟨clears, hqueued⟩
    exact h.not_queued ⟨clears, hsame ▸ hqueued⟩
  · intro turn₀ hturn₀ hfd
    cases hturn'.symm.trans hturn₀
    have hpending := h.not_pending turn hturn hfd
    show (turn.pending.erase a').contains a = false
    simp [Directions.erase, hpending]

section Turn

variable {turn : Turn} {d : Descriptor (Reaction H) H}

/-- In its turn nothing is queued for a descriptor. -/
theorem Sound.of_turn
    (h : m.Sound) (hc : m.control = .dispatching (.turn turn))
    (hd : m.loop.table.get? turn.slot = some d) :
    m.control.turn? = some turn ∧ m.loop.table.Sound (some turn.slot) ∧ d.fd = turn.fd ∧
      d.ready = ∅ ∧ ∀ a, m.loop.table.readiness? turn.fd a = some (d.clears, false) := by
  have hturn : m.control.turn? = some turn := by
    rw [hc]
    rfl
  have htable : m.loop.table.Sound (some turn.slot) := h.table_of_dispatching hc
  have hfd : d.fd = turn.fd := h.turn_fd turn d hturn hd
  have hready : d.ready = ∅ := (htable.fits _ d hd).ready_of_current rfl
  refine ⟨hturn, htable, hfd, hready, fun a => ?_⟩
  rw [← hfd, htable.readiness?_of_get? hd, hready, Directions.contains_empty]

/-- The start of a reaction leaves every direction queued that is. -/
theorem readiness?_spent
    (h : m.loop.table.Sound (some turn.slot)) (hd : m.loop.table.get? turn.slot = some d)
    {a' : Direction} (htable : m'.loop.table = m.loop.table.set turn.slot (d.spent a'))
    (fd : Int) (a : Direction) :
    m'.loop.table.readiness? fd a = m.loop.table.readiness? fd a := by
  rw [htable]
  exact h.readiness?_of_eq (follows_spent h hd a').sound (DescriptorTable.onlyAt_set _ _ _) hd
    (DescriptorTable.get?_set_self hd _) (d.fd_spent a') (d.clears_spent a') (d.ready_spent a') fd a

/-- What is owed when a turn ends is queued. -/
theorem Owes.ended
    (howes : m.Owes fd a) (h : m.Sound) (hc : m.control = .dispatching (.turn turn))
    (hd : m.loop.table.get? turn.slot = some d)
    (hbound : turn.fd = fd → d.isClearing = false ∧ d.binding? a = some binding)
    (hsettle : m.settle turn.slot turn.clears turn.pending = .ok m') :
    m'.loop.table.Queued fd a := by
  obtain ⟨hturn, htable, hfd, -, hempty⟩ := h.of_turn hc hd
  have hsettled := readiness?_settle htable hd hsettle fd a
  obtain ⟨clears, queued, hreadiness, hwhere⟩ := howes
  by_cases heq : turn.fd = fd
  · obtain ⟨hclearing, hbinding⟩ := hbound heq
    rw [← heq, hempty] at hreadiness
    cases hreadiness
    obtain ⟨turn₀, hturn₀, -, hclears, hpending⟩ := hwhere.resolve_left Bool.false_ne_true
    cases hturn.symm.trans hturn₀
    rw [if_pos (heq.symm.trans hfd.symm), hclearing,
      Descriptor.contains_settled hclears.symm hpending hbinding] at hsettled
    exact ⟨_, hsettled⟩
  · rw [hfd, if_neg (Ne.symm heq)] at hsettled
    rcases hwhere with rfl | ⟨turn₀, hturn₀, hfd₀, -⟩
    · exact ⟨_, hsettled.trans hreadiness⟩
    · cases hturn.symm.trans hturn₀
      exact absurd hfd₀ heq

/-- A turn serves a direction, or still owes it, or puts it back. -/
theorem Owes.turnMove
    (howes : m.Owes fd a) (h : m.Sound) (hr : m.Represents A) (hbinds : A.Binds fd a binding)
    (hc : m.control = .dispatching (.turn turn)) (hd : m.loop.table.get? turn.slot = some d)
    (hmove : TurnMove m turn d m') :
    ((∃ reaction, m.act m' = .fire fd a reaction) ∧ m'.Paid fd a) ∨
      ((∀ reaction, m.act m' ≠ .fire fd a reaction) ∧ m'.Owes fd a) := by
  obtain ⟨hturn, htable, hfd, -, hempty⟩ := h.of_turn hc hd
  -- The binding that is owed is the one stored in the slot of the turn.
  have hbound : turn.fd = fd → d.isClearing = false ∧ d.binding? a = some binding := by
    intro heq
    obtain ⟨e, hfind, hclearing, hbinding⟩ := hr.find? hbinds
    have hstored := htable.find?_eq_some_iff.2 ⟨_, hd, hfd.trans heq⟩
    cases hstored.symm.trans hfind
    exact ⟨hclearing, hbinding⟩
  rcases act_of_turn hc hmove with ⟨hact, hended | hskipped⟩ |
    ⟨a', binding', hact, hfirst, -, -, hbinding', htable', hturn'⟩
  · obtain ⟨m₁, -, hsettle, rfl⟩ := hended
    obtain ⟨clears, hqueued⟩ := howes.ended h hc hd hbound hsettle
    exact .inr ⟨fun _ => act_ne_fire hact, clears, true, hqueued, .inl rfl⟩
  · obtain ⟨a', -, -, hnone, rfl⟩ := hskipped
    refine .inr ⟨fun _ => act_ne_fire hact, howes.pops rfl hturn rfl ?_⟩
    rintro heq rfl
    rw [(hbound heq).2] at hnone
    cases hnone
  · have hsame := readiness?_spent htable hd htable' fd a
    by_cases heq : turn.fd = fd ∧ a' = a
    · obtain ⟨rfl, rfl⟩ := heq
      refine .inl ⟨⟨_, hact⟩, ?_, ?_⟩
      · rintro ⟨clears, hqueued⟩
        rw [hsame, hempty] at hqueued
        cases hqueued
      · intro turn₀ hturn₀ _
        cases hturn'.symm.trans hturn₀
        show (turn.pending.erase a').contains a' = false
        simp [Directions.erase]
    · refine .inr ⟨?_, howes.pops hsame hturn hturn' fun hfd' ha => heq ⟨hfd', ha⟩⟩
      intro reaction hfire
      rw [hact] at hfire
      cases hfire
      exact heq ⟨rfl, rfl⟩

/-- What is paid when a turn ends is not queued again. -/
theorem Paid.ended
    (hpaid : m.Paid fd a) (h : m.Sound) (hc : m.control = .dispatching (.turn turn))
    (hd : m.loop.table.get? turn.slot = some d)
    (hsettle : m.settle turn.slot turn.clears turn.pending = .ok m') :
    ¬m'.loop.table.Queued fd a := by
  obtain ⟨hturn, htable, hfd, hready, -⟩ := h.of_turn hc hd
  rintro ⟨clears, hqueued⟩
  rw [readiness?_settle htable hd hsettle fd a] at hqueued
  split at hqueued
  next heq =>
      split at hqueued
      next =>
          cases hqueued
      next =>
          have hpending := hpaid.not_pending turn hturn (heq.trans hfd).symm
          rw [Option.some.injEq, Prod.mk.injEq] at hqueued
          rcases Descriptor.contains_of_settled hqueued.2 with hin | hin
          · rw [hready, Directions.contains_empty] at hin
            cases hin
          · rw [hpending] at hin
            cases hin
  next =>
      exact hpaid.not_queued ⟨clears, hqueued⟩

theorem Paid.turnMove
    (hpaid : m.Paid fd a) (h : m.Sound) (hc : m.control = .dispatching (.turn turn))
    (hd : m.loop.table.get? turn.slot = some d) (hmove : TurnMove m turn d m') :
    m'.Paid fd a ∧ ∀ reaction, m.act m' ≠ .fire fd a reaction := by
  obtain ⟨hturn, htable, -, -, -⟩ := h.of_turn hc hd
  rcases act_of_turn hc hmove with ⟨hact, hended | hskipped⟩ |
    ⟨a', binding', hact, hfirst, -, -, hbinding', htable', hturn'⟩
  · obtain ⟨m₁, -, hsettle, rfl⟩ := hended
    have hqueued := hpaid.ended h hc hd hsettle
    exact ⟨⟨hqueued, fun _ hturn₀ => nomatch hturn₀⟩, fun _ => act_ne_fire hact⟩
  · obtain ⟨a', -, -, -, rfl⟩ := hskipped
    exact ⟨hpaid.pops rfl hturn rfl, fun _ => act_ne_fire hact⟩
  · refine ⟨hpaid.pops (readiness?_spent htable hd htable' fd a) hturn hturn', ?_⟩
    intro reaction hfire
    rw [hact] at hfire
    cases hfire
    have hpending := hpaid.not_pending turn hturn rfl
    rw [Directions.contains_of_first? hfirst] at hpending
    cases hpending

end Turn

/-- What a move of the dispatcher outside of turns and waits does to a direction:
nothing, or it drops a descriptor that was cleared, or the direction goes from
the queue to the turn that begins. -/
theorem still_advance
    (h : m.Sound) {phase : Phase H} (hc : m.control = .dispatching phase)
    (hadvance : Advance m phase m') (hturn : ∀ turn, phase ≠ .turn turn) (hwait : phase ≠ .wait)
    (fd : Int) (a : Direction) :
    Still m m' fd a ∨ (Lapses m m' fd a ∧ m.loop.table.bindings? fd = none) ∨
      ∃ turn, m.control.turn? = none ∧ m'.control.turn? = some turn ∧
        if fd = turn.fd then
          m.loop.table.readiness? fd a = some (turn.clears, turn.pending.contains a) ∧
            m'.loop.table.readiness? fd a = some (turn.clears, false)
        else m'.loop.table.readiness? fd a = m.loop.table.readiness? fd a := by
  have hsound := (h.advance hc hadvance).table
  have htable := h.table_of_dispatching hc
  cases hadvance with
  | quiet hquiet =>
      refine .inl ⟨by rw [hquiet.table], ?_⟩
      rw [hquiet.turn, hc]
      rfl
  | @begins slot active d _ hactive hd =>
      refine .inr (.inr ⟨_, by rw [hc]; rfl, rfl, ?_⟩)
      have honly := DescriptorTable.onlyAt_takeActive hactive
      have hget : DescriptorTable.get? { m.loop.table with active } slot = some d := hd
      have hreadiness := htable.readiness?_replace hsound
        (honly.trans (DescriptorTable.onlyAt_set _ slot _)) hd
        (DescriptorTable.get?_set_self hget _) rfl fd a
      split
      next heq =>
          rw [if_pos heq, Directions.contains_empty] at hreadiness
          exact ⟨heq ▸ htable.readiness?_of_get? hd a, hreadiness⟩
      next hne =>
          rwa [if_neg hne] at hreadiness
  | @turn turn _ _ _ _ =>
      exact absurd rfl (hturn turn)
  | @postponed now deferred =>
      obtain ⟨t, q, hfold, ht, hretimed⟩ := follows_postpone now deferred htable
      rw [hfold]
      exact .inl ⟨hretimed.readiness? htable ht.sound fd a, by rw [hc]; rfl⟩
  | @expires now deferred other q slot d _ _ _ _ hd hexpiry =>
      obtain ⟨busy, htable'⟩ := hexpiry.table_eq
      have hcontrol : m'.control.turn? = none := by
        cases hexpiry <;> rfl
      refine .inl ⟨?_, hcontrol.trans (by rw [hc]; rfl)⟩
      rw [htable'] at hsound ⊢
      exact htable.readiness?_of_eq hsound (DescriptorTable.onlyAt_set _ slot _) hd
        (DescriptorTable.get?_set_self hd _) rfl rfl rfl fd a
  | @settles slot clears now deferred m₁ hsettle =>
      have hcontrol : (m₁.goTo (.timeouts now deferred)).control.turn? = m.control.turn? := by
        rw [hc]
        rfl
      rcases still_settle htable hsettle fd a with hsame | ⟨hqueued, hnone⟩
      · exact .inl ⟨hsame, hcontrol⟩
      · exact .inr (.inl ⟨⟨hqueued, hcontrol⟩, hnone⟩)
  | waits _ =>
      exact absurd rfl hwait

theorem Owes.advance
    (howes : m.Owes fd a) (h : m.Sound) (hr : m.Represents A) (hbinds : A.Binds fd a binding)
    {phase : Phase H} (hc : m.control = .dispatching phase) (hadvance : Advance m phase m')
    (hwait : phase ≠ .wait) :
    ((∃ reaction, m.act m' = .fire fd a reaction) ∧ m'.Paid fd a) ∨
      ((∀ reaction, m.act m' ≠ .fire fd a reaction) ∧ m'.Owes fd a) := by
  by_cases hturn : ∃ turn, phase = .turn turn
  · obtain ⟨turn, rfl⟩ := hturn
    cases hadvance with
    | quiet hquiet =>
        exact absurd rfl (hquiet.not_turn turn)
    | turn hd hmove =>
        exact howes.turnMove h hr hbinds hc hd hmove
  · have hturn' : ∀ turn, phase ≠ .turn turn := fun turn heq => hturn ⟨turn, heq⟩
    have hact : m.act m' = .advance := act_eq_advance hc hturn' hwait
    refine .inr ⟨fun _ => act_ne_fire hact, ?_⟩
    rcases still_advance h hc hadvance hturn' hwait fd a with hstill | ⟨-, hnone⟩ |
      ⟨turn, hout, hin, hbegins⟩
    · exact howes.still hstill
    · obtain ⟨b, hlookup, -⟩ := hbinds
      rw [hr, hnone] at hlookup
      cases hlookup
    · obtain ⟨clears, queued, hreadiness, hwhere⟩ := howes
      obtain rfl : queued = true := by
        refine hwhere.resolve_right ?_
        rintro ⟨turn₀, hturn₀, -⟩
        cases hout.symm.trans hturn₀
      split at hbegins
      next heq =>
          have hpending := hreadiness.symm.trans hbegins.1
          rw [Option.some.injEq, Prod.mk.injEq] at hpending
          exact ⟨_, _, hbegins.2, .inr ⟨turn, hin, heq.symm, rfl, hpending.2.symm⟩⟩
      next =>
          exact ⟨clears, _, hbegins.trans hreadiness, .inl rfl⟩

theorem Paid.advance
    (hpaid : m.Paid fd a) (h : m.Sound) {phase : Phase H}
    (hc : m.control = .dispatching phase) (hadvance : Advance m phase m')
    (hwait : phase ≠ .wait) :
    m'.Paid fd a ∧ ∀ reaction, m.act m' ≠ .fire fd a reaction := by
  by_cases hturn : ∃ turn, phase = .turn turn
  · obtain ⟨turn, rfl⟩ := hturn
    cases hadvance with
    | quiet hquiet =>
        exact absurd rfl (hquiet.not_turn turn)
    | turn hd hmove =>
        exact hpaid.turnMove h hc hd hmove
  · have hturn' : ∀ turn, phase ≠ .turn turn := fun turn heq => hturn ⟨turn, heq⟩
    have hact : m.act m' = .advance := act_eq_advance hc hturn' hwait
    refine ⟨?_, fun _ => act_ne_fire hact⟩
    rcases still_advance h hc hadvance hturn' hwait fd a with hstill | ⟨hlapses, -⟩ |
      ⟨turn, -, hin, hbegins⟩
    · exact hpaid.still hstill
    · exact hpaid.lapses hlapses
    · split at hbegins
      next heq =>
          refine ⟨?_, ?_⟩
          · rintro ⟨clears, hqueued⟩
            cases hbegins.2.symm.trans hqueued
          · intro turn₀ hturn₀ _
            cases hin.symm.trans hturn₀
            rw [← Bool.not_eq_true]
            intro hpending
            exact hpaid.not_queued ⟨_, hpending ▸ hbegins.1⟩
      next hne =>
          refine ⟨?_, ?_⟩
          · rintro ⟨clears, hqueued⟩
            exact hpaid.not_queued ⟨clears, hbegins.symm.trans hqueued⟩
          · intro turn₀ hturn₀ hfd
            cases hin.symm.trans hturn₀
            exact absurd hfd.symm hne

/-- In a wait the backend waits, and then every event that it reports is queued. -/
theorem wait_of_move
    {events : List Event} (hmove : Move m (.wait events) m') :
    m.control = .dispatching .wait ∧ ∃ host m₁,
      m.loop.backend.wait m.host (m.loop.waitBound m.host.kernel.clock) = (.ok events, host) ∧
        events.foldlM enqueue { m with host } = .ok m₁ ∧ m' = m₁.goTo .start := by
  generalize hact : Act.wait events = act at hmove
  cases hmove with
  | request _ _ =>
      cases hact
  | resume _ =>
      cases hact
  | world _ =>
      cases hact
  | @step _ phase hc hstep =>
      have hphase : phase = .wait := by
        unfold act at hact
        by_contra hne
        rw [hc] at hact
        split at hact
        next heq =>
            cases heq
            exact hne rfl
        next =>
            split at hact <;> cases hact
      subst hphase
      refine ⟨hc, ?_⟩
      rw [act_eq_wait hc] at hact
      cases hact
      simp only [step, hc] at hstep
      obtain ⟨m₁, hawait, heq⟩ := Except.bind_eq_ok_iff.1 hstep
      cases heq
      unfold awaitEvents at hawait
      unfold reports
      split at hawait
      next =>
          cases hawait
      next events host heq =>
          rw [heq]
          exact ⟨host, m₁, rfl, hawait, rfl⟩

theorem awaitEvents_of_wait
    {events : List Event} (hmove : Move m (.wait events) m') :
    m.control = .dispatching .wait ∧ ∃ host m₁,
      events.foldlM enqueue { m with host } = .ok m₁ ∧ m' = m₁.goTo .start := by
  obtain ⟨hc, host, m₁, -, hfold, heq⟩ := wait_of_move hmove
  exact ⟨hc, host, m₁, hfold, heq⟩

/-- A bound direction is queued after an event reports it, and stays queued. -/
theorem queued_enqueue
    {event : Event} (h : m.loop.table.Sound none) {b : Bindings (Reaction H)}
    (hb : m.loop.table.bindings? fd = some b) (hbinding : b a = some binding)
    (henqueue : m.enqueue event = .ok m')
    (hwhy : m.loop.table.Queued fd a ∨ event.fd = fd ∧ event.ready.contains a = true) :
    m'.loop.table.Queued fd a := by
  obtain ⟨d, hfind, hclearing, rfl⟩ := DescriptorTable.bindings?_eq_some_iff.1 hb
  obtain ⟨slot, hget, hfd⟩ := h.find?_eq_some_iff.1 hfind
  have hslot := h.slotOf?_eq_some_iff.2 ⟨d, hget, hfd⟩
  have hreadiness := h.readiness?_of_get? hget a
  rw [hfd] at hreadiness
  have hready : d.ready.contains a = true ∨
      event.fd = fd ∧ event.ready.contains a = true := by
    refine hwhy.imp ?_ id
    rintro ⟨clears, hqueued⟩
    rw [hreadiness, Option.some.injEq, Prod.mk.injEq] at hqueued
    exact hqueued.2
  rcases enqueue_ok henqueue with ⟨rfl, hnothing⟩ | ⟨slot', d', b, k, hslot', hget', hclearing',
    -, -, rfl⟩
  · -- An event that nobody asked for reports at most what is queued.
    have hold : d.ready.contains a = true := by
      rcases hready with hold | ⟨heq, hin⟩
      · exact hold
      · refine (Descriptor.wanted_or_ready hbinding).resolve_left fun hwanted => ?_
        rcases hnothing slot d (heq ▸ hslot) hget with hc | hempty
        · rw [hclearing] at hc
          cases hc
        · have hboth : (event.ready ∩ d.wanted.directions).contains a = true := by
            rw [Directions.contains_inter, hin, hwanted]
            rfl
          rw [hempty, Directions.contains_empty] at hboth
          cases hboth
    exact ⟨_, hold ▸ hreadiness⟩
  · obtain ⟨e, he, hefd⟩ := h.slotOf?_eq_some_iff.1 hslot'
    cases hget'.symm.trans he
    have hsame := h.readiness?_replace (h.notify hget' hclearing' event.ready)
      (DescriptorTable.onlyAt_notify _ slot' d' event.ready) hget'
      (DescriptorTable.get?_notify_self hget' event.ready) rfl fd a
    show (m.loop.table.notify slot' d' event.ready).Queued fd a
    by_cases heq : fd = d'.fd
    · have hslots := h.inj slot' slot d' d hget' hget (heq.symm.trans hfd.symm)
      subst hslots
      cases hget.symm.trans hget'
      have hin := Descriptor.contains_notified hbinding (hready.imp id And.right)
      rw [if_pos heq] at hsame
      exact ⟨d.clears, hsame.trans (congrArg (fun queued => some (d.clears, queued)) hin)⟩
    · have hold := hready.resolve_right fun hin => heq (hin.1.symm.trans hefd.symm)
      rw [if_neg heq, hreadiness, hold] at hsame
      exact ⟨_, hsame⟩

/-- Every bound direction that some event reports is queued in the end. -/
theorem queued_foldlM
    {events : List Event} (h : m.loop.table.Sound none) {b : Bindings (Reaction H)}
    (hb : m.loop.table.bindings? fd = some b) (hbinding : b a = some binding)
    (hfold : events.foldlM enqueue m = .ok m')
    (hwhy : m.loop.table.Queued fd a ∨
      ∃ event ∈ events, event.fd = fd ∧ event.ready.contains a = true) :
    m'.loop.table.Queued fd a := by
  induction events generalizing m with
  | nil =>
      cases hfold
      refine hwhy.resolve_right ?_
      rintro ⟨event, hin, -⟩
      cases hin
  | cons event events ih =>
      rw [List.foldlM_cons, Except.bind_eq_ok_iff] at hfold
      obtain ⟨m₁, henqueue, hfold⟩ := hfold
      obtain ⟨k, b', t, hm₁, ht⟩ := enqueue_sound h henqueue
      have hsound : m₁.loop.table.Sound none := by
        rw [hm₁]
        exact ht
      refine ih hsound ((congrFun (bindings?_enqueue h henqueue) fd).trans hb) hfold ?_
      have hqueued := queued_enqueue h hb hbinding henqueue
      rcases hwhy with hwhy | ⟨e, hin, hreports⟩
      · exact .inl (hqueued (.inl hwhy))
      · rcases List.mem_cons.1 hin with rfl | hin
        · exact .inl (hqueued (.inr hreports))
        · exact .inr ⟨e, hin, hreports⟩

/-- After a wait every bound direction that it reports is owed. -/
theorem owes_of_wait
    {events : List Event} {event : Event} (h : m.Sound) (hmove : Move m (.wait events) m')
    (hin : event ∈ events) (hready : event.ready.contains a = true)
    {b : Bindings (Reaction H)} (hb : m.loop.table.bindings? event.fd = some b)
    (hbinding : b a = some binding) :
    m'.Owes event.fd a := by
  obtain ⟨hc, host, m₁, hfold, rfl⟩ := awaitEvents_of_wait hmove
  have htable : m.loop.table.Sound none := h.table_of_dispatching hc
  have hqueued := queued_foldlM (m := { m with host }) htable hb hbinding hfold
    (.inr ⟨event, hin, rfl, hready⟩)
  obtain ⟨clears, hreadiness⟩ := hqueued
  exact ⟨clears, true, hreadiness, .inl rfl⟩

theorem still_resume
    {invocation : Invocation H} {next : Phase H} (hc : m.control = .running invocation next)
    (fd : Int) (a : Direction) :
    Still m m.resume fd a := by
  rw [resume_eq hc]
  exact ⟨rfl, by rw [hc]; rfl⟩

/-- What is owed is served by a move, or owed after it. -/
theorem Owes.move
    {act : Act H} (howes : m.Owes fd a) (h : m.Sound) (hr : m.Represents A)
    (hbinds : A.Binds fd a binding) (hmove : Move m act m') (hwait : ∀ events, act ≠ .wait events)
    (hwithdraws : act.withdraws fd a = false) :
    ((∃ reaction, act = .fire fd a reaction) ∧ m'.Paid fd a) ∨
      ((∀ reaction, act ≠ .fire fd a reaction) ∧ m'.Owes fd a) := by
  cases hmove with
  | request _ hperform =>
      refine .inr ⟨by simp, ?_⟩
      rcases still_perform h (perform_ok hperform) fd a with hstill | ⟨-, htrue | hnone⟩
      · exact howes.still hstill
      · rw [hwithdraws] at htrue
        cases htrue
      · obtain ⟨b, hlookup, -⟩ := hbinds
        rw [hr, hnone] at hlookup
        cases hlookup
  | resume hc =>
      exact .inr ⟨by simp, howes.still (still_resume hc fd a)⟩
  | @step _ phase hc hstep =>
      simp only [step, hc] at hstep
      refine howes.advance h hr hbinds hc (advance_ok hstep) ?_
      rintro rfl
      exact hwait m.reports (act_eq_wait hc)
  | world host =>
      exact .inr ⟨by simp, howes.still ⟨rfl, rfl⟩⟩

/-- Nothing but a wait makes a direction owed. -/
theorem Paid.move
    {act : Act H} (hpaid : m.Paid fd a) (h : m.Sound) (hmove : Move m act m')
    (hwait : ∀ events, act ≠ .wait events) :
    m'.Paid fd a ∧ ∀ reaction, act ≠ .fire fd a reaction := by
  cases hmove with
  | request _ hperform =>
      refine ⟨?_, by simp⟩
      rcases still_perform h (perform_ok hperform) fd a with hstill | ⟨hlapses, -⟩
      · exact hpaid.still hstill
      · exact hpaid.lapses hlapses
  | resume hc =>
      exact ⟨hpaid.still (still_resume hc fd a), by simp⟩
  | @step _ phase hc hstep =>
      simp only [step, hc] at hstep
      refine hpaid.advance h hc (advance_ok hstep) ?_
      rintro rfl
      exact hwait m.reports (act_eq_wait hc)
  | world host =>
      exact ⟨hpaid.still ⟨rfl, rfl⟩, by simp⟩

theorem Paid.run
    {log : List (Act H)} (hrun : Run m log m') (hpaid : m.Paid fd a) (h : m.Sound)
    (hwait : ∀ events, .wait events ∉ log) (reaction : Reaction H) :
    .fire fd a reaction ∉ log := by
  induction hrun with
  | nil =>
      exact List.not_mem_nil
  | @cons m m₁ m' act log hmove _ ih =>
      obtain ⟨hpaid', hfire⟩ := hpaid.move h hmove fun events heq =>
        hwait events (heq ▸ List.mem_cons_self)
      rw [List.mem_cons, not_or]
      refine ⟨(hfire reaction).symm, ih hpaid' (h.move hmove) fun events hin => ?_⟩
      exact hwait events (List.mem_cons_of_mem act hin)

/-- Until the next wait what is owed is withdrawn, or served once, or still
owed. -/
theorem Owes.run
    {log : List (Act H)} (hrun : Run m log m') (howes : m.Owes fd a) (h : m.Sound)
    (hr : m.Represents A) (hbinds : A.Binds fd a binding)
    (hwait : ∀ events, .wait events ∉ log) :
    Withdrawn log fd a ∨ FiresOnce log fd a binding.reaction ∨
      ((∀ reaction, .fire fd a reaction ∉ log) ∧ m'.Owes fd a) := by
  induction hrun generalizing A with
  | nil =>
      exact .inr (.inr ⟨fun _ => List.not_mem_nil, howes⟩)
  | @cons m m₁ m' act log hmove hrest ih =>
      have hact : ∀ events, act ≠ .wait events := fun events heq =>
        hwait events (heq ▸ List.mem_cons_self)
      have hlog : ∀ events, .wait events ∉ log := fun events hin =>
        hwait events (List.mem_cons_of_mem act hin)
      cases hwithdraws : act.withdraws fd a with
      | true =>
          exact .inl ⟨[], act, log, rfl, hwithdraws, fun _ => List.not_mem_nil⟩
      | false =>
          obtain ⟨hr', hreacts⟩ := represents_move h hr hmove
          rcases howes.move h hr hbinds hmove hact hwithdraws with
            ⟨⟨reaction, rfl⟩, hpaid⟩ | ⟨hfire, howes'⟩
          · -- The reaction that starts is the one that is bound.
            obtain ⟨b, hlookup, hb⟩ := hbinds
            obtain ⟨b', binding', hlookup', hb', rfl⟩ := hreacts fd a reaction rfl
            cases hlookup.symm.trans hlookup'
            cases hb.symm.trans hb'
            refine .inr (.inl ⟨[], log, rfl, fun other => ⟨List.not_mem_nil, ?_⟩⟩)
            exact hpaid.run hrest (h.move hmove) hlog other
          · have hcons : ∀ {before : List (Act H)} (reaction : Reaction H),
                .fire fd a reaction ∉ before → .fire fd a reaction ∉ act :: before :=
              fun reaction => List.not_mem_cons_of_ne_of_not_mem (hfire reaction).symm
            rcases ih howes' (h.move hmove) hr' (hbinds.after hwithdraws hfire) hlog with
              ⟨before, act', after, rfl, hwithdraws', hout⟩ | honce | ⟨hout, howes''⟩
            · exact .inl ⟨act :: before, act', after, rfl, hwithdraws', fun reaction =>
                hcons reaction (hout reaction)⟩
            · exact .inr (.inl (honce.cons hfire))
            · exact .inr (.inr ⟨fun reaction => hcons reaction (hout reaction), howes''⟩)

/-- At the start of every wait of a loop the active list is empty and nothing is
queued, and whatever is queued belongs to a descriptor that is on the active list
once.  Every direction that a wait reports and someone asked for is run by the
bound reaction once before the next wait, unless it is withdrawn before. -/
theorem run_serves_each_report_once
    {log : List (Act H)} (hbuilt : Built m) (hrun : Run m log m') :
    (m'.control = .dispatching .wait → m'.loop.table.active = [] ∧
      ∀ slot d, m'.loop.table.get? slot = some d → d.ready = ∅) ∧
    (∀ slot d, m'.loop.table.get? slot = some d → d.ready ≠ ∅ →
      d.busy = false ∧ m'.loop.table.active.count slot = 1) ∧
    ∀ m₁ events event a s, Move m' (.wait events) m₁ → event ∈ events →
      event.ready.contains a = true → m'.loop.interest? event.fd = some s →
      s.contains a = true →
      ∃ b binding, m'.loop.table.bindings? event.fd = some b ∧ b a = some binding ∧
        ∀ log' m₂, Run m₁ log' m₂ → (∀ events', .wait events' ∉ log') →
          Withdrawn log' event.fd a ∨ FiresOnce log' event.fd a binding.reaction ∨
            ((∀ reaction, .fire event.fd a reaction ∉ log') ∧
              m₂.control ≠ .dispatching .wait) := by
  have hsound := hrun.sound hbuilt.sound
  refine ⟨?_, ?_, ?_⟩
  · intro hc
    exact ⟨hsound.drained .wait (by rw [hc]; rfl), fun _ _ hd => hsound.ready_of_wait hc hd⟩
  · intro slot d hd hready
    have hfit := hsound.table.fits slot d hd
    have hactive := hfit.active_of_ready hready
    refine ⟨?_, List.count_eq_one_of_mem hsound.table.active hactive⟩
    rw [← Bool.not_eq_true, hfit.busy]
    exact hfit.not_current hactive
  · intro m₁ events event a s hmove hin hready hinterest hs
    obtain ⟨hr, -⟩ := represents_run hrun hbuilt.sound hbuilt.represents
    rw [interest?_eq, Option.map_eq_some_iff] at hinterest
    obtain ⟨b, hb, rfl⟩ := hinterest
    have hsome : (b a).isSome = true := by
      cases a <;> exact hs
    obtain ⟨binding, hbinding⟩ := Option.isSome_iff_exists.1 hsome
    refine ⟨b, binding, hb, hbinding, ?_⟩
    intro log' m₂ hrun' hwait
    have howes := owes_of_wait hsound hmove hin hready hb hbinding
    obtain ⟨hr', -⟩ := represents_move hsound hr hmove
    have hbinds : (Registry.after _ (.wait events)).Binds event.fd a binding :=
      ⟨b, (hr event.fd).trans hb, hbinding⟩
    rcases howes.run hrun' (hsound.move hmove) hr' hbinds hwait with hdone | hdone |
      ⟨hout, howes'⟩
    · exact .inl hdone
    · exact .inr (.inl hdone)
    · refine .inr (.inr ⟨hout, fun hc => ?_⟩)
      exact not_owes_of_wait (hrun'.sound (hsound.move hmove)) hc howes'

/-- Two handlers are bound to a descriptor, one for each of two directions. -/
def pairLog : List (Act Nat) :=
  [Act.request (.setFd 5 (.recv ∪ .oneshot) .unlimited 1) .done,
    .request (.setFd 5 (.send ∪ .append) .unlimited 2) .done, .request .dispatch .done] ++
  List.replicate 7 Act.advance

/-- Both directions are reported.  The first handler leaves dispatch, and the
second runs when dispatch is entered again. -/
def breakLog : List (Act Nat) :=
  List.replicate 4 Act.advance ++
  [Act.fire 5 .recv (.call 1), .request .setBreak .done, .resume] ++
  List.replicate 5 Act.advance ++ [Act.request .dispatch .done] ++
  List.replicate 4 Act.advance ++ [Act.fire 5 .send (.call 2), .resume] ++
  List.replicate 5 Act.advance

theorem run_serves_each_report_once_breakLog :
    ∃ m m' m₁ m₂ : Machine Nat, Built m ∧ Run m pairLog m' ∧
      Move m' (.wait [⟨5, ⟨true, true, false⟩⟩]) m₁ ∧ Run m₁ breakLog m₂ ∧
      m'.loop.table.active = [] ∧ m₂.control = .dispatching .wait ∧
      FiresOnce breakLog 5 .recv (.call 1) ∧ FiresOnce breakLog 5 .send (.call 2) := by
  have hbuilt := built_scripted Nat [{ events := [(5, { input := true, output := true })] },
    { events := [(5, { output := true })] }]
  have hruns : ∃ m', Run (scripted Nat
      [{ events := [(5, { input := true, output := true })] },
        { events := [(5, { output := true })] }])
      (pairLog ++ (.wait [⟨5, ⟨true, true, false⟩⟩] ::
        (breakLog ++ [.wait [⟨5, ⟨false, true, false⟩⟩]]))) m' :=
    exists_run_of_trail
      (List.flatten [
        [.request (.setFd 5 (.recv ∪ .oneshot) .unlimited 1),
          .request (.setFd 5 (.send ∪ .append) .unlimited 2), .request .dispatch],
        List.replicate 13 .step, [.request .setBreak, .resume], List.replicate 5 .step,
        [.request .dispatch], List.replicate 5 .step, [.resume], List.replicate 6 .step])
      (by decide +kernel)
  obtain ⟨_, hfollowed⟩ := hruns
  obtain ⟨m', hrun, hrest⟩ := hfollowed.split
  cases hrest with
  | @cons _ m₁ _ _ _ hmove hrest =>
      obtain ⟨m₂, hrun', hlast⟩ := hrest.split
      cases hlast with
      | cons hwait _ =>
          have hc := (awaitEvents_of_wait hwait).1
          have hserves := run_serves_each_report_once hbuilt hrun
          obtain ⟨hr, -⟩ := represents_run hrun hbuilt.sound hbuilt.represents
          have hlookup : m'.loop.table.bindings? 5 =
              some (Bindings.rebind (Bindings.rebind (fun _ => none) (.recv ∪ .oneshot)
                (.call 1)) (.send ∪ .append) (.call 2)) := by
            rw [← hr]
            rfl
          have hinterest : m'.loop.interest? 5 = some ⟨true, true, false⟩ := by
            rw [interest?_eq, hlookup]
            decide
          have honce : ∀ a binding, Directions.contains ⟨true, true, false⟩ a = true →
              Bindings.rebind (Bindings.rebind (fun _ => none) (.recv ∪ .oneshot)
                (.call 1)) (.send ∪ .append) (.call 2) a = some binding →
              (∀ act ∈ breakLog, act.withdraws 5 a = false) →
              FiresOnce breakLog 5 a binding.reaction := by
            intro a binding ha hbinding hkept
            obtain ⟨b, binding', hb, hbinding', hall⟩ :=
              hserves.2.2 m₁ _ ⟨5, ⟨true, true, false⟩⟩ a _ hmove List.mem_cons_self ha
                hinterest ha
            cases hlookup.symm.trans hb
            cases hbinding.symm.trans hbinding'
            rcases hall breakLog m₂ hrun' (by simp [breakLog]) with hwithdrawn | hdone | ⟨-, hne⟩
            · obtain ⟨before, act, after, heq, hact, -⟩ := hwithdrawn
              rw [hkept act (heq ▸ by simp)] at hact
              cases hact
            · exact hdone
            · exact absurd hc hne
          refine ⟨_, m', m₁, m₂, hbuilt, hrun, hmove, hrun',
            (hserves.1 (awaitEvents_of_wait hmove).1).1, hc, ?_, ?_⟩
          · exact honce .recv ⟨.call 1, true⟩ rfl rfl (by decide)
          · exact honce .send ⟨.call 2, false⟩ rfl rfl (by decide)

end Machine
end CallbackLoop
