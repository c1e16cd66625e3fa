import CallbackLoop.Proofs.Loop.Removal

/-!
# Whom a panic is laid to

A panic is laid to the caller that misused an operation, to the host that did not do
what it was told, or to the library itself, which then lost track of its own data.

No run ends by a panic of the last kind: a request never does, and a move of the
dispatcher ends the program only when the host lets it down.  It takes both parts of
the invariant.  The slots that the dispatcher keeps are occupied because the table is
sound, and an expired timeout finds its descriptor because the queue is linked to the
descriptors.
-/

namespace CallbackLoop

variable {H : Type}

/-- Whom a panic is laid to. -/
inductive Blame where
  | caller
  | host
  | library
deriving DecidableEq

/-- Whom a panic is laid to. -/
def Panic.blame : Panic → Blame
  | negativeFd _ => .caller
  | clearCombined _ => .caller
  | contradictoryModes => .caller
  | notOneDirection _ => .caller
  | handlerForUnregistered _ => .caller
  | deadlineOverflow => .caller
  | zeroTick => .caller
  | zeroCapacity => .caller
  | rejected _ _ _ => .host
  | waitFailed _ => .host
  | dispositionStuck _ _ => .host
  | timeoutForUnregistered _ => .library
  | hubPlaceOutOfRange _ _ => .library
  | vacantSlot => .library
  | slotOutOfRange => .library
  | slotNotSet => .library

/-- If the program ends here, that is laid to someone of whom `P` holds. -/
def LaidTo {α : Type} (P : Blame → Prop) (x : Except Crash α) : Prop :=
  ∀ crash, x = .error crash → P crash.panic.blame

section LaidTo

variable {α β : Type} {P : Blame → Prop}

theorem laidTo_ok
    (a : α) :
    LaidTo P (.ok a) :=
  fun _ h => nomatch h

theorem laidTo_error
    {panic : Panic} (h : P panic.blame) (host : Host) :
    LaidTo P (.error ⟨panic, host⟩ : Except Crash α) := by
  intro crash hcrash
  cases hcrash
  exact h

theorem laidTo_bind
    {x : Except Crash α} {f : α → Except Crash β} (hx : LaidTo P x)
    (hf : ∀ a, x = .ok a → LaidTo P (f a)) :
    LaidTo P (x >>= f) := by
  cases x with
  | error crash =>
      intro crash' hcrash
      cases hcrash
      exact hx crash rfl
  | ok a =>
      exact hf a rfl

theorem exists_ok_of_laidTo
    {x : Except Crash α} (h : LaidTo (fun _ => False) x) :
    ∃ a, x = .ok a := by
  cases x with
  | error crash =>
      exact (h crash rfl).elim
  | ok a =>
      exact ⟨a, rfl⟩

end LaidTo

namespace DescriptorTable

variable {R : Type} {t : DescriptorTable R H} {current : Option Nat} {slot : Nat}

/-- Every slot on the waiting list is occupied. -/
theorem Sound.exists_of_mem_waiting
    (h : t.Sound current) (hin : slot ∈ t.waiting) :
    ∃ d, t.get? slot = some d :=
  Option.ne_none_iff_exists'.1 fun hnone => (h.vacant slot hnone).2.2 hin

/-- Every slot on the active list is occupied. -/
theorem Sound.exists_of_mem_active
    (h : t.Sound current) (hin : slot ∈ t.active) :
    ∃ d, t.get? slot = some d :=
  Option.ne_none_iff_exists'.1 fun hnone => (h.vacant slot hnone).2.1 hin

/-- The slot of the current descriptor is occupied. -/
theorem Sound.exists_current
    (h : t.Sound (some slot)) :
    ∃ d, t.get? slot = some d :=
  Option.ne_none_iff_exists'.1 fun hnone => (h.vacant slot hnone).1 rfl

end DescriptorTable

namespace Machine

variable {m m' : Machine H} {slot : Nat} {d : Descriptor (Reaction H) H} {P : Blame → Prop}
  {current : Option Nat}

theorem laidTo_descriptor
    (hd : m.loop.table.get? slot = some d) :
    LaidTo P (m.descriptor slot) := by
  rw [descriptor_eq_ok_iff.2 hd]
  exact laidTo_ok d

theorem laidTo_free
    (hd : m.loop.table.get? slot = some d) :
    LaidTo P (m.free slot) := by
  rw [free_eq_ok_iff.2 ⟨d, hd, rfl⟩]
  exact laidTo_ok _

theorem laidTo_adopt
    (hhost : P .host) (m : Machine H) (change : HostChange) (fd : Int)
    (result : Except Errno Unit × Backend × Kernel) :
    LaidTo P (m.adopt change fd result) := by
  unfold adopt
  split
  · exact laidTo_ok _
  · exact laidTo_error hhost _

theorem laidTo_align
    (hhost : P .host) (hd : m.loop.table.get? slot = some d) (force : Bool) :
    LaidTo P (m.align slot force) := by
  rw [align_eq]
  refine laidTo_bind (laidTo_descriptor hd) fun e _ => ?_
  exact laidTo_bind (laidTo_adopt hhost m _ _ _) fun _ _ => laidTo_ok _

theorem laidTo_clearFd
    (hhost : P .host) (h : m.loop.table.Sound current) (fd : Int) :
    LaidTo P (m.clearFd fd) := by
  unfold clearFd
  split
  next =>
      exact laidTo_ok m
  next slot hslot =>
      obtain ⟨d, hd, -⟩ := h.slotOf?_eq_some_iff.1 hslot
      refine laidTo_bind (laidTo_descriptor hd) fun e he => ?_
      cases (descriptor_eq_ok_iff.2 hd).symm.trans he
      have hrest : ∀ m₁ : Machine H, m₁.loop.table = m.loop.table →
          LaidTo P ((m₁.disarm d.timeout).clearSlot slot d) := by
        intro m₁ htable
        rw [disarm_eq]
        unfold clearSlot
        split
        · exact laidTo_ok _
        · refine laidTo_free (d := d.cleared) (DescriptorTable.get?_set_self (d := d) ?_ _)
          show m₁.loop.table.get? slot = some d
          rw [htable, hd]
      dsimp only
      split
      · refine laidTo_bind (laidTo_adopt hhost m _ _ _) fun m₁ hm₁ => ?_
        obtain ⟨b, k, -, rfl⟩ := adopt_eq_ok_iff.1 hm₁
        exact hrest _ rfl
      · exact hrest m rfl

theorem laidTo_applyMode
    (hhost : P .host) (m : Machine H) (fd : Int) (flags : Flags) :
    LaidTo P (m.applyMode fd flags) := by
  unfold applyMode
  split
  · split
    · exact laidTo_ok _
    · exact laidTo_error hhost _
  · exact laidTo_ok _

theorem laidTo_enroll
    (h : m.loop.table.Sound current) (fd : Int) :
    LaidTo P (m.enroll fd) := by
  obtain ⟨d, hd, -⟩ := h.ensure_spec fd
  unfold enroll
  refine laidTo_bind (laidTo_descriptor (d := d) hd) fun _ _ => ?_
  split <;> exact laidTo_ok _

theorem laidTo_bindFlags
    (hd : m.loop.table.get? slot = some d) (flags : Flags) (reaction : Reaction H) :
    LaidTo P (m.bind slot flags reaction) := by
  unfold bind
  refine laidTo_bind (laidTo_descriptor hd) fun _ _ => ?_
  dsimp only
  split <;> exact laidTo_ok _

theorem laidTo_applyTimeout
    (hcaller : P .caller) (hd : m.loop.table.get? slot = some d) (fd : Int)
    (timeout : FdTimeout) :
    LaidTo P (m.applyTimeout slot fd timeout) := by
  unfold applyTimeout
  refine laidTo_bind (laidTo_descriptor hd) fun _ _ => ?_
  split
  · exact laidTo_ok _
  · exact laidTo_ok _
  · split
    · exact laidTo_error hcaller _
    · exact laidTo_ok _

theorem exists_get?_of_enroll
    {fd : Int} (h : m.enroll fd = .ok (slot, m')) :
    ∃ d, m'.loop.table.get? slot = some d := by
  obtain ⟨-, d, hd, rfl⟩ := enroll_ok h
  have hwatched : ((m.loop.table.ensure fd).2.watch slot).get? slot = some d := hd
  exact ⟨d.revived, DescriptorTable.get?_set_self hwatched _⟩

theorem exists_get?_of_bind
    {flags : Flags} {reaction : Reaction H} (h : m.bind slot flags reaction = .ok m') :
    ∃ d, m'.loop.table.get? slot = some d := by
  obtain ⟨d, hd, rfl⟩ := bind_ok h
  exact ⟨_, DescriptorTable.get?_set_self hd _⟩

theorem exists_get?_of_applyTimeout
    {fd : Int} {timeout : FdTimeout} (h : m.applyTimeout slot fd timeout = .ok m') :
    ∃ d, m'.loop.table.get? slot = some d := by
  obtain ⟨d, entry, q, hd, -, rfl⟩ := applyTimeout_ok h
  exact ⟨_, DescriptorTable.get?_set_self hd _⟩

/-- A registration keeps its slot occupied from one operation to the next. -/
theorem laidTo_setFd
    (hhost : P .host) (hcaller : P .caller) (h : m.loop.table.Sound current) (fd : Int)
    (flags : Flags) (timeout : FdTimeout) (reaction : Reaction H) :
    LaidTo P (m.setFd fd flags timeout reaction) := by
  unfold setFd
  split
  · exact laidTo_error hcaller _
  · split
    · split
      · exact laidTo_bind (laidTo_clearFd hhost h fd) fun _ _ => laidTo_ok _
      · exact laidTo_error hcaller _
    · split
      · exact laidTo_error hcaller _
      · split
        · exact laidTo_ok _
        · refine laidTo_bind (laidTo_applyMode hhost m fd flags) fun m₁ hm₁ => ?_
          obtain ⟨k, -, rfl⟩ := applyMode_ok hm₁
          have h₁ : (m.patch k m.loop.backend m.loop.table m.loop.timeouts).loop.table.Sound
              current := h
          refine laidTo_bind (laidTo_enroll h₁ fd) fun ⟨slot, m₂⟩ hm₂ => ?_
          obtain ⟨d, hd⟩ := exists_get?_of_enroll hm₂
          refine laidTo_bind (laidTo_bindFlags hd flags reaction) fun m₃ hm₃ => ?_
          obtain ⟨d₃, hd₃⟩ := exists_get?_of_bind hm₃
          refine laidTo_bind (laidTo_applyTimeout hcaller hd₃ fd timeout) fun m₄ hm₄ => ?_
          obtain ⟨d₄, hd₄⟩ := exists_get?_of_applyTimeout hm₄
          exact laidTo_bind (laidTo_align hhost hd₄ false) fun _ _ => laidTo_ok _

theorem laidTo_release
    (hhost : P .host) (h : Host) (id : Nat) (signo : Int) :
    LaidTo P (h.release id signo) := by
  unfold Host.release
  dsimp only
  split
  · exact laidTo_ok _
  · split
    · exact laidTo_ok _
    · split
      · exact laidTo_ok _
      · exact laidTo_error hhost _

/-- A request never ends the program because the library lost track of its data. -/
theorem Sound.laidTo_perform
    (h : m.Sound) (r : Request H) :
    LaidTo (· ≠ .library) (m.perform r) := by
  have hhost : Blame.host ≠ .library := by decide
  have hcaller : Blame.caller ≠ .library := by decide
  cases r with
  | setFd fd flags timeout handler =>
      exact laidTo_bind (laidTo_setFd hhost hcaller h.table _ _ _ _) fun _ _ => laidTo_ok _
  | clearFd fd =>
      exact laidTo_bind (laidTo_clearFd hhost h.table fd) fun _ _ => laidTo_ok _
  | setTimeoutHandler fd handler =>
      refine laidTo_bind ?_ fun _ _ => laidTo_ok _
      unfold setTimeoutHandler
      split
      next =>
          exact laidTo_error hcaller _
      next slot hslot =>
          obtain ⟨d, hd, -⟩ := h.table.slotOf?_eq_some_iff.1 hslot
          exact laidTo_bind (laidTo_descriptor hd) fun _ _ => laidTo_ok _
  | setTimer delay handler =>
      refine laidTo_bind ?_ fun _ _ => laidTo_ok _
      unfold setTimer
      split
      · exact laidTo_error hcaller _
      · exact laidTo_ok _
  | setSignal signo handler =>
      simp only [Machine.perform]
      split <;> exact laidTo_ok _
  | unsetSignal signo key =>
      refine laidTo_bind ?_ fun _ _ => laidTo_ok _
      unfold unsetSignal
      split
      · exact laidTo_ok _
      · split
        · exact laidTo_ok _
        · exact laidTo_bind (laidTo_release hhost _ _ _) fun _ _ => laidTo_ok _
  | dispatch =>
      simp only [Machine.perform]
      split <;> exact laidTo_ok _
  | interest | cancelTimer | setBreak | setCallback | clearCallback =>
      exact laidTo_ok _

theorem laidTo_settle
    (hhost : P .host) (hd : m.loop.table.get? slot = some d) (clears : Nat)
    (pending : Directions) :
    LaidTo P (m.settle slot clears pending) := by
  rw [settle_eq]
  refine laidTo_bind (laidTo_descriptor hd) fun e he => ?_
  cases (descriptor_eq_ok_iff.2 hd).symm.trans he
  split
  · exact laidTo_free (DescriptorTable.get?_set_self hd _)
  · refine laidTo_align hhost (DescriptorTable.get?_set_self (d := d) ?_ _) false
    split <;> exact hd

theorem laidTo_advanceTurn
    (hhost : P .host) {turn : Turn} (hd : m.loop.table.get? turn.slot = some d) :
    LaidTo P (m.advanceTurn turn) := by
  have hend : LaidTo P (m.endTurn turn) :=
    laidTo_bind (laidTo_settle hhost hd _ _) fun _ _ => laidTo_ok _
  unfold advanceTurn
  refine laidTo_bind (laidTo_descriptor hd) fun _ _ => ?_
  split
  · exact hend
  · split
    · exact hend
    · dsimp only
      split
      · exact laidTo_ok _
      · split <;> exact laidTo_ok _

theorem laidTo_expire
    {fd : Int} (hslot : m.loop.table.slotOf? fd = some slot)
    (hd : m.loop.table.get? slot = some d) (now : Nat) (deferred : List Int) :
    LaidTo P (m.expire fd now deferred) := by
  unfold expire
  rw [hslot]
  refine laidTo_bind (laidTo_descriptor hd) fun _ _ => ?_
  dsimp only
  split
  · exact laidTo_ok _
  · split <;> exact laidTo_ok _

theorem laidTo_enqueue
    (hhost : P .host) (h : m.loop.table.Sound current) (event : Event) :
    LaidTo P (m.enqueue event) := by
  unfold enqueue
  split
  next =>
      exact laidTo_ok _
  next slot hslot =>
      obtain ⟨d, hd, -⟩ := h.slotOf?_eq_some_iff.1 hslot
      refine laidTo_bind (laidTo_descriptor hd) fun e he => ?_
      cases (descriptor_eq_ok_iff.2 hd).symm.trans he
      split
      · exact laidTo_ok _
      · dsimp only
        split
        · exact laidTo_ok _
        · split
          · exact laidTo_align hhost (DescriptorTable.get?_set_self hd _) true
          · exact laidTo_ok _

theorem laidTo_foldlM_enqueue
    (hhost : P .host) (h : m.loop.table.Sound none) (events : List Event) :
    LaidTo P (events.foldlM enqueue m) := by
  induction events generalizing m with
  | nil =>
      exact laidTo_ok m
  | cons event events ih =>
      rw [List.foldlM_cons]
      refine laidTo_bind (laidTo_enqueue hhost h event) fun m₁ hm₁ => ?_
      obtain ⟨k, b, t, rfl, ht⟩ := enqueue_sound h hm₁
      exact ih ht

theorem laidTo_awaitEvents
    (hhost : P .host) (h : m.loop.table.Sound none) :
    LaidTo P m.awaitEvents := by
  unfold awaitEvents
  split
  · exact laidTo_error hhost _
  next events host _ =>
      have h₁ : ({ m with host } : Machine H).loop.table.Sound none := h
      exact laidTo_foldlM_enqueue hhost h₁ events

/-- The dispatcher ends the program only when the host lets it down. -/
theorem Sound.laidTo_step
    (h : m.Sound) (hlinked : m.timing.Linked) :
    LaidTo (· = .host) m.step := by
  unfold step
  split
  next phase hc =>
      have htable := h.table_of_dispatching hc
      cases phase with
      | start =>
          simp only [Machine.advance]
          split
          · exact laidTo_ok _
          · split <;> exact laidTo_ok _
      | called | settled =>
          exact laidTo_ok _
      | timers pass now =>
          simp only [Machine.advance]
          split
          · exact laidTo_ok _
          · split <;> exact laidTo_ok _
      | ready =>
          simp only [Machine.advance]
          split
          · exact laidTo_ok _
          · unfold DescriptorTable.takeActive?
            cases hactive : m.loop.table.active with
            | nil =>
                exact laidTo_ok _
            | cons slot active =>
                have hin : slot ∈ m.loop.table.active := hactive ▸ List.mem_cons_self
                obtain ⟨d, hd⟩ := h.table.exists_of_mem_active hin
                exact laidTo_bind (laidTo_descriptor (m := m.withTable _) hd) fun _ _ =>
                  laidTo_ok _
      | turn turn =>
          obtain ⟨d, hd⟩ := DescriptorTable.Sound.exists_current htable
          exact laidTo_advanceTurn (P := (· = .host)) rfl hd
      | deliver signos turn =>
          cases signos <;> exact laidTo_ok _
      | signal signo left signos turn =>
          cases left <;> exact laidTo_ok _
      | timeouts now deferred =>
          simp only [Machine.advance]
          split
          · exact laidTo_ok _
          · split
            next =>
                exact laidTo_ok _
            next fd q hdue =>
                obtain ⟨id, hentry, -⟩ := hlinked.entry_of_takeDue? hdue
                obtain ⟨d, hfind, -⟩ := Option.bind_eq_some_iff.1 hentry
                obtain ⟨slot, hd, hfd⟩ := h.table.find?_eq_some_iff.1 hfind
                have hslot' := h.table.slotOf?_eq_some_iff.2 ⟨d, hd, hfd⟩
                exact laidTo_expire (m := { m with loop := { m.loop with timeouts := q } })
                  hslot' hd now deferred
      | timedOut slot clears now deferred =>
          obtain ⟨d, hd⟩ := DescriptorTable.Sound.exists_current htable
          exact laidTo_bind (laidTo_settle (P := (· = .host)) rfl hd _ _) fun _ _ => laidTo_ok _
      | wait =>
          exact laidTo_bind (laidTo_awaitEvents (P := (· = .host)) rfl htable)
            fun _ _ => laidTo_ok _
  next =>
      exact laidTo_ok _

end Machine
end CallbackLoop
