import CallbackLoop.Proofs.Loop.Moves
import CallbackLoop.Proofs.Loop.Operations

/-!
# The invariant of a machine

The current descriptor is the one whose handlers the dispatcher is running, and
it is where the dispatcher expects it.  Once an iteration has dealt with ready
descriptors the active list is empty, unless a break cut it short; it is empty
whenever a wait begins.

A built machine is sound, and every move keeps it so.
-/

namespace CallbackLoop

variable {H : Type}

/-- What holds of the active list in a phase. -/
def Phase.Drained (phase : Phase H) (broken : Bool) (active : List Nat) : Prop :=
  match phase with
  | timeouts _ _ => broken = true ∨ active = []
  | timedOut _ _ _ _ => broken = true ∨ active = []
  | timers .late _ => broken = true ∨ active = []
  | settled => broken = true ∨ active = []
  | wait => active = []
  | _ => True

theorem Phase.Drained.mono
    {phase : Phase H} {broken broken' : Bool} {active active' : List Nat}
    (h : phase.Drained broken active) (hbroken : broken = true → broken' = true)
    (hactive : active = [] → active' = []) :
    phase.Drained broken' active' := by
  cases phase with
  | timers pass now =>
      cases pass with
      | early =>
          trivial
      | late =>
          exact h.imp hbroken hactive
  | timeouts now deferred =>
      exact h.imp hbroken hactive
  | timedOut slot clears now deferred =>
      exact h.imp hbroken hactive
  | settled =>
      exact h.imp hbroken hactive
  | wait =>
      exact hactive h
  | _ =>
      trivial

namespace Descriptor

variable {R : Type} {d : Descriptor R H} {current active waiting : Prop}

@[simp] theorem fd_revived (d : Descriptor R H) :
    d.revived.fd = d.fd := by
  unfold revived
  split <;> rfl

@[simp] theorem busy_revived (d : Descriptor R H) :
    d.revived.busy = d.busy := by
  unfold revived
  split <;> rfl

@[simp] theorem isClearing_revived (d : Descriptor R H) :
    d.revived.isClearing = false := by
  unfold revived
  split
  next =>
      rfl
  next hclearing =>
      exact Bool.not_eq_true _ ▸ hclearing

@[simp] theorem fd_bound (d : Descriptor R H) (flags : Flags) (reaction : R) :
    (d.bound flags reaction).fd = d.fd := by
  unfold bound
  split
  · rfl
  · split <;> rfl

@[simp] theorem busy_bound (d : Descriptor R H) (flags : Flags) (reaction : R) :
    (d.bound flags reaction).busy = d.busy := by
  unfold bound
  split
  · rfl
  · split <;> rfl

@[simp] theorem stage_bound (d : Descriptor R H) (flags : Flags) (reaction : R) :
    (d.bound flags reaction).stage = d.stage := by
  unfold bound
  split
  · rfl
  · split <;> rfl

@[simp] theorem held_revived (d : Descriptor R H) :
    d.revived.held = d.held := by
  unfold revived
  split <;> rfl

@[simp] theorem held_bound (d : Descriptor R H) (flags : Flags) (reaction : R) :
    (d.bound flags reaction).held = d.held := by
  unfold bound
  split
  · rfl
  · split <;> rfl

@[simp] theorem clears_revived (d : Descriptor R H) :
    d.revived.clears = d.clears := by
  unfold revived
  split <;> rfl

@[simp] theorem clears_bound (d : Descriptor R H) (flags : Flags) (reaction : R) :
    (d.bound flags reaction).clears = d.clears := by
  unfold bound
  split
  · rfl
  · split <;> rfl

theorem ready_bound
    (d : Descriptor R H) (flags : Flags) (reaction : R) :
    (d.bound flags reaction).ready = d.ready \ flags.directions := by
  unfold bound
  split
  next hempty =>
      ext a
      simp [Directions.isEmpty_iff.1 hempty]
  next =>
      rfl

theorem ready_of_ready_bound
    {flags : Flags} {reaction : R} {a : Direction}
    (h : (d.revived.bound flags reaction).ready.contains a = true) :
    d.ready.contains a = true := by
  have hrevived : d.revived.ready.contains a = true → d.ready.contains a = true := by
    unfold revived
    split
    · intro h
      rw [Directions.contains_empty] at h
      cases h
    · exact id
  rw [ready_bound, Directions.contains_sdiff, Bool.and_eq_true] at h
  exact hrevived h.1

/-- A registration makes a descriptor fit for the waiting list. -/
theorem fits_registered
    (hbusy : d.busy = true ↔ current) (hready : d.ready ≠ ∅ → active)
    (hactive : active → ¬current) (hfreed : d.stage ≠ .freed)
    (flags : Flags) (reaction : R) (entry : Option Handle) (held : Option Interest) :
    Fits { d.revived.bound flags reaction with timeout := entry, held } current active
      True := by
  have hclearing : Descriptor.isClearing
      { d.revived.bound flags reaction with timeout := entry, held } = false := by
    show ((d.revived.bound flags reaction).stage == .clearing) = false
    rw [stage_bound]
    exact isClearing_revived d
  refine fits_of_not_clearing hclearing ?_ trivial ?_ ?_ hactive
  · show (d.revived.bound flags reaction).stage ≠ .freed
    rw [stage_bound]
    unfold revived
    split
    · exact fun h => nomatch h
    · exact hfreed
  · show (d.revived.bound flags reaction).busy = true ↔ current
    rw [busy_bound, busy_revived]
    exact hbusy
  · intro hne
    refine hready ?_
    rintro hempty
    refine hne (Directions.ext fun a => ?_)
    rw [Directions.contains_empty, ← Bool.not_eq_true]
    intro ha
    have := ready_of_ready_bound ha
    rw [hempty, Directions.contains_empty] at this
    cases this

end Descriptor

namespace DescriptorTable

variable {R : Type} {t t' : DescriptorTable R H} {current : Option Nat} {slot : Nat}
  {d : Descriptor R H}

/-- What requests keep of a table: it stays sound, the current descriptor keeps
its number, and no descriptor is put on the active list. -/
structure Follows (current : Option Nat) (t t' : DescriptorTable R H) : Prop where
  sound : t'.Sound current
  fd : ∀ i d', current = some i → t'.get? i = some d' →
    ∃ d, t.get? i = some d ∧ d'.fd = d.fd
  active : ∀ i, i ∈ t'.active → i ∈ t.active

namespace Follows

theorem refl
    (h : t.Sound current) :
    Follows current t t :=
  ⟨h, fun _ d' _ hd' => ⟨d', hd', rfl⟩, fun _ => id⟩

theorem trans
    {t'' : DescriptorTable R H} (h : Follows current t t') (h' : Follows current t' t'') :
    Follows current t t'' where
  sound := h'.sound
  fd i d'' hi hd'' := by
    obtain ⟨d', hd', hfd'⟩ := h'.fd i d'' hi hd''
    obtain ⟨d, hd, hfd⟩ := h.fd i d' hi hd'
    exact ⟨d, hd, hfd'.trans hfd⟩
  active i hi := h.active i (h'.active i hi)

theorem active_eq_nil
    (h : Follows current t t') (hnil : t.active = []) :
    t'.active = [] := by
  refine List.eq_nil_iff_forall_not_mem.2 fun i hi => ?_
  have := h.active i hi
  rw [hnil] at this
  cases this

end Follows

/-- Replacing a descriptor by one that is as fit as it keeps everything. -/
theorem Sound.follows_set
    (h : t.Sound current) (hd : t.get? slot = some d) {d' : Descriptor R H}
    (hfd : d'.fd = d.fd)
    (hfits : d.Fits (current = some slot) (slot ∈ t.active) (slot ∈ t.waiting) →
      d'.Fits (current = some slot) (slot ∈ t.active) (slot ∈ t.waiting)) :
    Follows current t (t.set slot d') where
  sound :=
    h.replace hd (get?_set_self hd d') hfd (h.toTidy.set slot d') (onlyAt_set t slot d')
      (fun _ _ => Iff.rfl) (hfits (h.fits slot d hd))
  fd i e _ he := by
    rw [get?_set] at he
    split at he
    next hi =>
        obtain ⟨rfl, -⟩ := hi
        cases he
        exact ⟨d, hd, hfd⟩
    next =>
        exact ⟨e, he, rfl⟩
  active _ := id

/-- A registration keeps a table sound. -/
theorem Sound.follows_register
    (h : t.Sound current) {fd : Int}
    (hd : (t.ensure fd).2.get? (t.ensure fd).1 = some d)
    (flags : Flags) (reaction : R) (entry : Option Handle) (held : Option Interest) :
    Follows current t (t.register fd
      { d.revived.bound flags reaction with timeout := entry, held }) := by
  generalize hd' : { d.revived.bound flags reaction with timeout := entry, held } = d'
  obtain ⟨e, hensured, hfd, -, -, -, hold⟩ := h.ensure_spec fd
  cases hd.symm.trans hensured
  obtain ⟨honly, htidy, hset, hwaiting, hactive⟩ := h.register_spec fd d'
  generalize (t.ensure fd).1 = slot at *
  generalize t.register fd d' = t' at *
  have hfd' : d'.fd = d.fd := by
    rw [← hd']
    show (d.revived.bound flags reaction).fd = d.fd
    simp
  have hfits : d'.Fits (current = some slot) (slot ∈ t.active) True := by
    rw [← hd']
    rcases hold with hold | ⟨-, hnone, rfl⟩
    · have hfit := h.fits slot d hold
      exact Descriptor.fits_registered hfit.busy hfit.active_of_ready hfit.not_current
        hfit.not_freed flags reaction entry held
    · obtain ⟨hcurrent, hactive, -⟩ := h.vacant slot hnone
      refine Descriptor.fits_registered ?_ (fun hne => absurd rfl hne)
        (fun hin => absurd hin hactive) (fun hs => by cases hs) flags reaction entry held
      constructor
      · intro hb
        cases hb
      · intro hc
        exact absurd hc hcurrent
  refine ⟨h.update htidy honly (fun _ _ => Iff.rfl) ?_ ?_ ?_, ?_, ?_⟩
  · intro e he
    cases hset.symm.trans he
    rw [hactive]
    simpa only [hwaiting] using hfits
  · intro hnone
    rw [hset] at hnone
    cases hnone
  · intro e he j f hj hf heq
    cases hset.symm.trans he
    rw [hfd', hfd] at heq
    rcases hold with hold | ⟨hfind, -, -⟩
    · exact hj (h.inj j slot f d hf hold (heq.trans hfd.symm))
    · have := h.find?_eq_some_iff.2 ⟨j, hf, heq⟩
      rw [hfind] at this
      cases this
  · intro i e hi he
    by_cases his : i = slot
    · subst his
      cases hset.symm.trans he
      rcases hold with hold | ⟨-, hnone, -⟩
      · exact ⟨d, hold, hfd'⟩
      · exact absurd hi (h.vacant i hnone).1
    · exact ⟨e, (honly.get? i his).symm.trans he, rfl⟩
  · intro i hi
    exact hactive ▸ hi

theorem onlyAt_clear
    (t : DescriptorTable R H) (slot : Nat) (d : Descriptor R H) :
    OnlyAt slot t (t.clear slot d) := by
  unfold clear
  split
  · exact ((onlyAt_set t slot _).trans (onlyAt_unwatch _ slot)).trans (onlyAt_deactivate _ slot)
  · exact onlyAt_remove t slot

theorem get?_clear_self
    (hd : t.get? slot = some d) :
    (t.clear slot d).get? slot =
      if d.busy then some { d.cleared with stage := .clearing, ready := ∅ } else none := by
  unfold clear
  split
  · exact get?_set_self hd _
  · exact get?_remove_self t slot

/-- Clearing a descriptor keeps a table sound. -/
theorem Sound.follows_clear
    (h : t.Sound current) (hd : t.get? slot = some d) :
    Follows current t (t.clear slot d) := by
  have hfit := h.fits slot d hd
  unfold clear
  split
  next hbusy =>
      have hcurrent := hfit.busy.1 hbusy
      generalize hd' : ({ d.cleared with stage := .clearing, ready := ∅ } :
        Descriptor R H) = d'
      have hset := get?_set_self hd d'
      have hfd' : d'.fd = d.fd := by rw [← hd']; rfl
      have honly : OnlyAt slot t (((t.set slot d').unwatch slot).deactivate slot) :=
        ((onlyAt_set t slot d').trans (onlyAt_unwatch _ slot)).trans (onlyAt_deactivate _ slot)
      refine ⟨h.replace hd hset hfd' (((h.toTidy.set slot d').unwatch slot).deactivate slot)
        honly (fun _ _ => Iff.rfl) ?_, ?_, ?_⟩
      · have hactive : slot ∉ t.active.erase slot := h.active.not_mem_erase
        have hwaiting : slot ∉ t.waiting.erase slot := h.waiting.not_mem_erase
        have hclearing : d'.isClearing = true := by rw [← hd']; rfl
        rw [← hd'] at hclearing ⊢
        exact
          { busy := hfit.busy
            active_of_ready := fun hne => absurd rfl hne
            waiting_of_active := fun ha => absurd ha hactive
            not_current := fun ha => absurd ha hactive
            waiting_iff := ⟨fun hw => absurd hw hwaiting,
              fun hc => absurd (hclearing.symm.trans hc) Bool.noConfusion⟩
            not_freed := fun hs => nomatch hs
            current_of_clearing := fun _ => hcurrent
            unbound_of_clearing := fun _ a => Descriptor.binding?_unbindAll d a
            idle_of_clearing := fun _ => ⟨rfl, rfl⟩ }
      · intro i e _ he
        by_cases his : i = slot
        · subst his
          cases hset.symm.trans he
          exact ⟨d, hd, hfd'⟩
        · exact ⟨e, (honly.get? i his).symm.trans he, rfl⟩
      · intro i hi
        exact List.mem_of_mem_erase hi
  next hbusy =>
      have hcurrent : current ≠ some slot := fun hc => hbusy (hfit.busy.2 hc)
      have honly := onlyAt_remove t slot
      refine ⟨h.remove hd (fun _ _ => Iff.rfl) hcurrent, ?_, ?_⟩
      · intro i e hi he
        have his : i ≠ slot := fun his => hcurrent (his ▸ hi)
        exact ⟨e, (honly.get? i his).symm.trans he, rfl⟩
      · intro i hi
        exact List.mem_of_mem_erase hi

/-- A cleared descriptor is found only while it is busy, and then it is marked. -/
theorem Sound.find?_clear
    (h : t.Sound current) (hd : t.get? slot = some d) (other : Int) :
    (t.clear slot d).find? other =
      if other = d.fd then
        if d.busy then some { d.cleared with stage := .clearing, ready := ∅ } else none
      else t.find? other := by
  have h' := (h.follows_clear hd).sound
  by_cases hbusy : d.busy = true
  · rw [if_pos hbusy]
    have hget := get?_clear_self hd
    rw [if_pos hbusy] at hget
    exact h.find?_replace h' (onlyAt_clear t slot d) hd hget rfl other
  · have heq : t.clear slot d = t.remove slot := by
      rw [clear, if_neg hbusy]
    rw [heq] at h' ⊢
    rw [if_neg hbusy]
    exact h.find?_remove h' hd other

end DescriptorTable

namespace Machine

variable {m m' : Machine H}

/-- The invariant of every run. -/
structure Sound (m : Machine H) : Prop where
  table : m.loop.table.Sound m.control.slot?
  turn_fd : ∀ turn d, m.control.turn? = some turn →
    m.loop.table.get? turn.slot = some d → d.fd = turn.fd
  dispatching : m.loop.dispatching = true ↔ m.control.phase?.isSome = true
  drained : ∀ phase, m.control.phase? = some phase →
    phase.Drained m.loop.broken m.loop.table.active

theorem Sound.table_of_dispatching
    (h : m.Sound) {phase : Phase H} (hc : m.control = .dispatching phase) :
    m.loop.table.Sound phase.slot? := by
  have htable := h.table
  rwa [hc] at htable

theorem Sound.phase?_eq_none
    (h : m.Sound) (hidle : m.loop.dispatching = false) :
    m.control.phase? = none := by
  rw [← Option.not_isSome_iff_eq_none, ← h.dispatching, hidle]
  exact Bool.false_ne_true

theorem follows_clearFd
    (h : m.Sound) {fd : Int} (hclear : m.clearFd fd = .ok m') :
    ∃ k b t q, m' = m.patch k b t q ∧
      DescriptorTable.Follows m.control.slot? m.loop.table t := by
  rcases clearFd_ok hclear with ⟨-, rfl⟩ | ⟨slot, d, b, k, -, hd, -, rfl⟩
  · exact ⟨_, _, _, _, rfl, .refl h.table⟩
  · exact ⟨_, _, _, _, rfl, h.table.follows_clear hd⟩

theorem slot?_of_turn?
    {c : Control H} {turn : Turn} (h : c.turn? = some turn) :
    c.slot? = some turn.slot := by
  obtain ⟨phase, hphase, hturn⟩ := Option.bind_eq_some_iff.1 h
  have hslot : phase.slot? = some turn.slot := by
    cases phase <;> cases hturn <;> rfl
  unfold Control.slot?
  rw [hphase]
  exact hslot

/-- A move that keeps what requests keep keeps the machine sound, if the same
descriptor stays current. -/
theorem Sound.of_follows
    (h : m.Sound)
    (htable : DescriptorTable.Follows m.control.slot? m.loop.table m'.loop.table)
    (hslot : m'.control.slot? = m.control.slot?)
    (hturn : ∀ turn', m'.control.turn? = some turn' →
      ∃ turn, m.control.turn? = some turn ∧ turn'.slot = turn.slot ∧ turn'.fd = turn.fd)
    (hdispatching : m'.loop.dispatching = true ↔ m'.control.phase?.isSome = true)
    (hdrained : ∀ phase, m'.control.phase? = some phase →
      phase.Drained m'.loop.broken m'.loop.table.active) :
    m'.Sound := by
  refine ⟨hslot ▸ htable.sound, ?_, hdispatching, hdrained⟩
  intro turn' d' hturn' hd'
  obtain ⟨turn, hturn, hslots, hfds⟩ := hturn turn' hturn'
  rw [hslots] at hd'
  obtain ⟨d, hd, hfd⟩ := htable.fd turn.slot d' (slot?_of_turn? hturn) hd'
  rw [hfd, hfds]
  exact h.turn_fd turn d hturn hd

/-- What code that is not the dispatcher does keeps the machine sound. -/
theorem Sound.of_phase?_eq
    (h : m.Sound)
    (htable : DescriptorTable.Follows m.control.slot? m.loop.table m'.loop.table)
    (hphase : m'.control.phase? = m.control.phase?)
    (hdispatching : m'.loop.dispatching = m.loop.dispatching)
    (hbroken : m.loop.broken = true → m'.loop.broken = true) :
    m'.Sound := by
  refine h.of_follows htable ?_ ?_ ?_ ?_
  · unfold Control.slot?
    rw [hphase]
  · intro turn hturn
    refine ⟨turn, ?_, rfl, rfl⟩
    unfold Control.turn? at hturn ⊢
    rwa [hphase] at hturn
  · rw [hdispatching, hphase]
    exact h.dispatching
  · intro phase hp
    rw [hphase] at hp
    exact (h.drained phase hp).mono hbroken htable.active_eq_nil

/-- A registration keeps the machine sound, whatever it binds. -/
theorem Sound.registers
    (h : m.Sound) {fd : Int} {flags : Flags} {timeout : FdTimeout} {reaction : Reaction H}
    {d d' : Descriptor (Reaction H) H} {kernel : Kernel}
    (hreg : m.Registers fd flags timeout reaction m' d d' kernel) :
    m'.Sound := by
  obtain ⟨entry, rfl⟩ := hreg.bound
  obtain ⟨b, k, q, -, -, rfl⟩ := hreg.result
  exact h.of_phase?_eq (h.table.follows_register hreg.found flags reaction entry _) rfl rfl id

theorem Sound.perform
    (h : m.Sound) {r : Request H} {reply : Reply} (hperform : Performed m r reply m') :
    m'.Sound := by
  have hclear : ∀ {fd : Int}, m.clearFd fd = .ok m' → m'.Sound := by
    intro fd hclear
    obtain ⟨k, b, t, q, rfl, ht⟩ := follows_clearFd h hclear
    exact h.of_phase?_eq ht rfl rfl id
  cases hperform with
  | cleared hcleared =>
      exact hclear hcleared
  | unset hcleared =>
      exact hclear hcleared
  | refused _ =>
      exact h
  | registered _ _ _ hreg =>
      exact h.registers hreg
  | handled _ hd =>
      exact h.of_phase?_eq (h.table.follows_set hd rfl fun hfit => { hfit with }) rfl rfl id
  | aside haside =>
      have hsame : DescriptorTable.Follows m.control.slot? m.loop.table m'.loop.table := by
        rw [haside.table]
        exact .refl h.table
      rcases haside.control with ⟨hcontrol, hdispatching⟩ | ⟨hidle, hdispatching, hcontrol⟩
      · exact h.of_phase?_eq hsame (by rw [hcontrol]) hdispatching haside.broken
      · have hslot : m.control.slot? = none := by
          simp [Control.slot?, h.phase?_eq_none hidle]
        refine h.of_follows hsame ?_ ?_ ?_ ?_
        · rw [hslot, hcontrol]
          rfl
        · intro turn hturn
          rw [hcontrol] at hturn
          cases hturn
        · rw [hdispatching, hcontrol]
          exact ⟨fun _ => rfl, fun _ => rfl⟩
        · intro phase hphase
          rw [hcontrol] at hphase
          cases hphase
          trivial

end Machine
end CallbackLoop
