import CallbackLoop.Proofs.Loop.Course
import CallbackLoop.Proofs.Loop.Mirror

/-!
# Calm runs

In a calm run the world closes no registered descriptor, neither on its own nor
in the course of a wait, and lays no faults.  The host then mirrors the
registrations throughout, every call of the backend suits what the backend has,
and the program never ends because the host rejects a change.
-/

namespace CallbackLoop

variable {H : Type}

/-- Whether the table of the backend has an entry for a descriptor. -/
def Backend.contains (b : Backend) (k : Kernel) (fd : Int) : Bool :=
  match b with
  | epoll e => (k.epollTable e.number).contains fd
  | select t => t.registered.contains fd

/-- The program does not end because the host rejects a change. -/
def Unrejected {α : Type} (x : Except Crash α) : Prop :=
  ∀ crash, x = .error crash → ∀ change fd cause, crash.panic ≠ .rejected change fd cause

section Unrejected

variable {α β : Type}

theorem unrejected_ok
    (a : α) :
    Unrejected (.ok a) :=
  fun _ h => nomatch h

theorem unrejected_error
    {panic : Panic} (host : Host) (h : ∀ change fd cause, panic ≠ .rejected change fd cause) :
    Unrejected (.error ⟨panic, host⟩ : Except Crash α) := by
  intro crash hcrash
  cases hcrash
  exact h

theorem unrejected_bind
    {x : Except Crash α} {f : α → Except Crash β} (hx : Unrejected x)
    (hf : ∀ a, x = .ok a → Unrejected (f a)) :
    Unrejected (x >>= f) := by
  cases x with
  | error crash =>
      intro crash' hcrash
      cases hcrash
      exact hx crash rfl
  | ok a =>
      exact hf a rfl

end Unrejected

namespace Machine

variable {m m' : Machine H} {slot : Nat}

theorem unrejected_descriptor
    (m : Machine H) (slot : Nat) :
    Unrejected (m.descriptor slot) := by
  unfold descriptor
  split
  · exact unrejected_ok _
  · exact unrejected_error _ (by simp)

theorem unrejected_free
    (m : Machine H) (slot : Nat) :
    Unrejected (m.free slot) := by
  unfold free
  split
  · exact unrejected_ok _
  · exact unrejected_error _ (by simp)

theorem unrejected_adopt
    {change : HostChange} {fd : Int} {result : Except Errno Unit × Backend × Kernel}
    (h : ∃ b k, result = (.ok (), b, k)) :
    Unrejected (m.adopt change fd result) := by
  obtain ⟨b, k, rfl⟩ := h
  exact unrejected_ok _

theorem unrejected_align
    {force : Bool} (h : ∀ d, m.loop.table.get? slot = some d →
      ∃ b k, m.call (d.call? force) d.fd = (.ok (), b, k)) :
    Unrejected (m.align slot force) := by
  rw [align_eq]
  refine unrejected_bind (unrejected_descriptor m slot) fun d hd => ?_
  refine unrejected_bind (unrejected_adopt (h d (descriptor_eq_ok_iff.1 hd))) fun m₁ _ => ?_
  exact unrejected_ok _

theorem unrejected_clearFd
    (h : m.Sound) (hm : m.Mirrored) (fd : Int) :
    Unrejected (m.clearFd fd) := by
  unfold clearFd
  split
  next =>
      exact unrejected_ok _
  next slot hslot =>
      refine unrejected_bind (unrejected_descriptor m slot) fun d hd => ?_
      have hget := descriptor_eq_ok_iff.1 hd
      obtain ⟨e, he, rfl⟩ := h.table.slotOf?_eq_some_iff.1 hslot
      cases hget.symm.trans he
      have hrest : ∀ m₁ : Machine H, Unrejected (m₁.clearSlot slot d) := by
        intro m₁
        unfold clearSlot
        split
        · exact unrejected_ok _
        · exact unrejected_free _ slot
      dsimp only
      split
      next hheld =>
          have hfits : BackendCall.unregister.Fits (m.loop.table.held? d.fd) := by
            rw [h.table.held?_of_get? hget]
            exact hheld
          have htakes := hm.table.takes slot d hget (.inl (Option.isSome_iff_ne_none.1 hheld))
          have hcall := Backend.exists_apply hm.table.holds hfits htakes hm.spares
          exact unrejected_bind (unrejected_adopt hcall) fun m₁ _ => hrest (m₁.disarm d.timeout)
      next =>
          exact hrest (m.disarm d.timeout)

/-- Whether a request finds its descriptor open, if it has to call the kernel for
that descriptor. -/
def Admits (m : Machine H) : Request H → Prop
  | .setFd fd flags _ _ =>
      flags.intersects (.nonblock ∪ .block) = true ∨
          (flags.directions.isEmpty = false ∧ m.loop.backend.kind = .epoll) →
        m.host.kernel.closed.contains fd = false
  | _ => True

theorem unrejected_applyMode
    (hm : m.Mirrored) {fd : Int} {flags : Flags}
    (hopen : flags.intersects (.nonblock ∪ .block) = true →
      m.host.kernel.closed.contains fd = false) :
    Unrejected (m.applyMode fd flags) := by
  unfold applyMode
  split
  next hmode =>
      obtain ⟨k, hk⟩ := Kernel.applyMode_of_open (hopen hmode) hm.spares flags
      unfold Kernel.applyMode at hk
      rw [if_pos hmode] at hk
      rw [hk]
      exact unrejected_ok _
  next =>
      exact unrejected_ok _

theorem unrejected_enroll
    (m : Machine H) (fd : Int) :
    Unrejected (m.enroll fd) := by
  unfold enroll
  refine unrejected_bind (unrejected_descriptor _ _) fun d _ => ?_
  split
  · exact unrejected_ok _
  · exact unrejected_ok _

theorem unrejected_bindFlags
    (m : Machine H) (slot : Nat) (flags : Flags) (reaction : Reaction H) :
    Unrejected (m.bind slot flags reaction) := by
  unfold bind
  refine unrejected_bind (unrejected_descriptor _ _) fun d _ => ?_
  dsimp only
  split
  · exact unrejected_ok _
  · exact unrejected_ok _

theorem unrejected_applyTimeout
    (m : Machine H) (slot : Nat) (fd : Int) (timeout : FdTimeout) :
    Unrejected (m.applyTimeout slot fd timeout) := by
  unfold applyTimeout
  refine unrejected_bind (unrejected_descriptor _ _) fun d _ => ?_
  split
  · exact unrejected_ok _
  · exact unrejected_ok _
  · split
    · exact unrejected_error _ (by simp)
    · exact unrejected_ok _

/-- Nothing but its table can keep the backend from taking a descriptor that is open and within
the limit. -/
theorem takes_of_beyondLimit?
    {fd : Int} {k : Kernel} (hfd : 0 ≤ fd) (hlimit : m.beyondLimit? fd = none)
    (hopen : m.loop.backend.kind = .epoll → k.closed.contains fd = false) :
    m.loop.backend.Takes k fd := by
  unfold beyondLimit? at hlimit
  generalize m.loop.backend = b at hopen hlimit ⊢
  cases b with
  | epoll e =>
      exact hopen rfl
  | select t =>
      simp only [Backend.fdLimit?, Option.filter_eq_none_iff, decide_eq_true_eq] at hlimit
      have hbelow : fd < (SelectSets.limit : Int) := not_le.1 (hlimit _ rfl)
      exact ⟨hfd, hbelow⟩

/-- The call that a registration makes is accepted. -/
theorem exists_call_of_registration
    (h : m.Sound) (hm : m.Mirrored) {fd : Int} {flags : Flags} {reaction : Reaction H}
    {entry : Option Handle} {d d' : Descriptor (Reaction H) H} {kernel : Kernel}
    (hfd : 0 ≤ fd) (hlimit : m.beyondLimit? fd = none)
    (hopen : flags.directions.isEmpty = false ∧ m.loop.backend.kind = .epoll →
      m.host.kernel.closed.contains fd = false)
    (hmode : m.host.kernel.applyMode fd flags = (.ok (), kernel))
    (hfound : (m.loop.table.ensure fd).2.get? (m.loop.table.ensure fd).1 = some d)
    (hbound : d' = { d.revived.bound flags reaction with timeout := entry }) :
    ∃ b k, Machine.call { m with host := { m.host with kernel } } (d'.call? false) d'.fd =
      (.ok (), b, k) := by
  have hleaves := Kernel.leaves_applyMode m.host.kernel fd flags
  rw [hmode] at hleaves
  have hpasses := hleaves.passes fun _ => False
  have hm₁ := hm.table.passes h.table hpasses
  have htakes := hm₁.takes_ensure h.table hfound
  have hheld' : d'.held = d.held := by
    rw [hbound]
    show (d.revived.bound flags reaction).held = d.held
    rw [Descriptor.held_bound, Descriptor.held_revived]
  have hfd' : d'.fd = fd := by
    rw [hbound]
    exact h.table.fd_bound hfound flags reaction
  refine exists_call_of_align hm₁.holds ?_ ?_ (hpasses.spares hm.spares)
  · rw [hfd', hheld', h.table.held?_ensure hfound]
  · intro hany
    rw [hfd']
    by_cases hnamed : flags.directions.isEmpty = true
    · refine htakes (hany.imp ?_ fun hdue => ?_)
      · rw [hheld']
        exact id
      · have hsame : (d.revived.bound flags reaction).registered = d.registered :=
          Descriptor.registered_bound hnamed
        rw [hbound] at hdue
        exact hsame ▸ Descriptor.registered_of_due hdue
    · rw [Bool.not_eq_true] at hnamed
      exact takes_of_beyondLimit? hfd hlimit fun hkind =>
        hpasses.closed fd id (hopen ⟨hnamed, hkind⟩)

theorem unrejected_setFd
    (h : m.Sound) (hm : m.Mirrored) {fd : Int} {flags : Flags} {timeout : FdTimeout}
    {handler : H} (hadmits : m.Admits (.setFd fd flags timeout handler)) :
    Unrejected (m.setFd fd flags timeout (.call handler)) := by
  unfold setFd
  split
  next =>
      exact unrejected_error _ (by simp)
  next hneg =>
      split
      next =>
          split
          next =>
              exact unrejected_bind (unrejected_clearFd h hm fd) fun _ _ => unrejected_ok _
          next =>
              exact unrejected_error _ (by simp)
      next =>
          split
          next =>
              exact unrejected_error _ (by simp)
          next =>
              split
              next =>
                  exact unrejected_ok _
              next hlimit =>
                  refine unrejected_bind (unrejected_applyMode hm fun hmode =>
                    hadmits (.inl hmode)) fun m₁ hm₁ => ?_
                  refine unrejected_bind (unrejected_enroll m₁ fd) fun ⟨slot, m₂⟩ hm₂ => ?_
                  refine unrejected_bind (unrejected_bindFlags m₂ slot flags _) fun m₃ hm₃ => ?_
                  refine unrejected_bind (unrejected_applyTimeout m₃ slot fd timeout)
                    fun m₄ hm₄ => ?_
                  refine unrejected_bind (unrejected_align fun d₄ hd₄ => ?_)
                    fun _ _ => unrejected_ok _
                  obtain ⟨d, d', kernel, q, hd, ⟨entry, hbound⟩, hmode, -, hd', -, rfl⟩ :=
                    enter_ok hm₁ hm₂ hm₃ hm₄
                  cases hd'.symm.trans hd₄
                  exact exists_call_of_registration h hm (by omega) hlimit
                    (fun hneeds => hadmits (.inr hneeds)) hmode hd hbound

theorem unrejected_perform
    (h : m.Sound) (hm : m.Mirrored) {r : Request H} (hadmits : m.Admits r) :
    Unrejected (m.perform r) := by
  cases r with
  | setFd fd flags timeout handler =>
      exact unrejected_bind (unrejected_setFd h hm hadmits) fun _ _ => unrejected_ok _
  | clearFd fd =>
      exact unrejected_bind (unrejected_clearFd h hm fd) fun _ _ => unrejected_ok _
  | setTimeoutHandler fd handler =>
      refine unrejected_bind ?_ fun _ _ => unrejected_ok _
      unfold setTimeoutHandler
      split
      · exact unrejected_error _ (by simp)
      · exact unrejected_bind (unrejected_descriptor _ _) fun _ _ => unrejected_ok _
  | setTimer delay handler =>
      refine unrejected_bind ?_ fun _ _ => unrejected_ok _
      unfold setTimer
      split
      · exact unrejected_error _ (by simp)
      · exact unrejected_ok _
  | setSignal signo handler =>
      simp only [perform]
      split
      · exact unrejected_ok _
      · exact unrejected_ok _
  | unsetSignal signo key =>
      refine unrejected_bind ?_ fun _ _ => unrejected_ok _
      unfold unsetSignal
      split
      · exact unrejected_ok _
      · split
        · exact unrejected_ok _
        · refine unrejected_bind ?_ fun _ _ => unrejected_ok _
          unfold Host.release
          dsimp only
          split
          · exact unrejected_ok _
          · split
            · exact unrejected_ok _
            · split
              · exact unrejected_ok _
              · exact unrejected_error _ (by simp)
  | dispatch =>
      simp only [perform]
      split
      · exact unrejected_ok _
      · exact unrejected_ok _
  | interest fd =>
      exact unrejected_ok _
  | cancelTimer id =>
      exact unrejected_ok _
  | setBreak =>
      exact unrejected_ok _
  | setCallback handler =>
      exact unrejected_ok _
  | clearCallback =>
      exact unrejected_ok _

theorem unrejected_settle
    {current : Option Nat} (h : m.loop.table.Sound current) (hm : m.Mirrored)
    (slot clears : Nat) (pending : Directions) :
    Unrejected (m.settle slot clears pending) := by
  rw [settle_eq]
  refine unrejected_bind (unrejected_descriptor m slot) fun d hd => ?_
  have hget := descriptor_eq_ok_iff.1 hd
  split
  · exact unrejected_free _ slot
  · refine unrejected_align fun e he => ?_
    generalize htable : (if d.requeues clears pending then m.loop.table.activate slot
      else m.loop.table) = t at he ⊢
    have hget' : t.get? slot = some d := by
      rw [← htable]
      split <;> exact hget
    cases (DescriptorTable.get?_set_self hget' (d.settled clears pending)).symm.trans he
    have hsame : m.loop.table.held? (d.settled clears pending).fd =
        (d.settled clears pending).held :=
      show m.loop.table.held? d.fd = d.held from h.held?_of_get? hget
    refine exists_call_of_align hm.table.holds hsame (fun hany => ?_) hm.spares
    exact hm.table.takes slot d hget (hany.imp id
      (Descriptor.registered_of_due (d := d.settled clears pending)))

theorem unrejected_enqueue
    {current : Option Nat} (h : m.loop.table.Sound current) (hm : m.Mirrored)
    (event : Event) :
    Unrejected (m.enqueue event) := by
  unfold enqueue
  split
  next =>
      exact unrejected_ok _
  next slot _ =>
      refine unrejected_bind (unrejected_descriptor m slot) fun d hd => ?_
      have hget := descriptor_eq_ok_iff.1 hd
      split
      · exact unrejected_ok _
      · dsimp only
        split
        · exact unrejected_ok _
        · split
          · refine unrejected_align fun e he => ?_
            have hset := DescriptorTable.get?_set_self hget (d.notified event.ready)
            cases hset.symm.trans he
            have hsame : m.loop.table.held? (d.notified event.ready).fd =
                (d.notified event.ready).held :=
              show m.loop.table.held? d.fd = d.held from h.held?_of_get? hget
            refine exists_call_of_align hm.table.holds hsame (fun hany => ?_) hm.spares
            exact hm.table.takes slot d hget (hany.imp id
              (Descriptor.registered_of_due (d := d.notified event.ready)))
          · exact unrejected_ok _

theorem unrejected_foldlM
    (events : List Event) (h : m.loop.table.Sound none) (hm : m.Mirrored) :
    Unrejected (events.foldlM enqueue m) := by
  induction events generalizing m with
  | nil =>
      exact unrejected_ok _
  | cons event events ih =>
      rw [List.foldlM_cons]
      refine unrejected_bind (unrejected_enqueue h hm event) fun m₁ hm₁ => ?_
      obtain ⟨k, b, t, rfl, ht⟩ := enqueue_sound h hm₁
      exact ih ht (mirrored_enqueue h hm hm₁)

/-- No registered descriptor is closed in the course of the wait that comes next, if
one comes next. -/
def ClosesNone (m : Machine H) : Prop :=
  m.control = .dispatching .wait →
    ∀ fd ∈ m.host.kernel.nextEntry.1.closed, m.loop.interest? fd = none

theorem unrejected_awaitEvents
    (h : m.loop.table.Sound none) (hm : m.Mirrored)
    (hclosed : ∀ fd ∈ m.host.kernel.nextEntry.1.closed, m.loop.table.bindings? fd = none) :
    Unrejected m.awaitEvents := by
  unfold awaitEvents
  split
  next =>
      exact unrejected_error _ (by simp)
  next events host hwait =>
      exact unrejected_foldlM events h (mirrored_wait h hm hclosed hwait)

theorem bindings?_eq_none_of_interest?
    {fd : Int} (h : m.loop.interest? fd = none) :
    m.loop.table.bindings? fd = none := by
  rw [interest?_eq] at h
  exact Option.map_eq_none_iff.1 h

theorem unrejected_beginTurn
    (m : Machine H) (slot : Nat) :
    Unrejected (m.beginTurn slot) := by
  unfold beginTurn
  exact unrejected_bind (unrejected_descriptor m slot) fun _ _ => unrejected_ok _

theorem unrejected_advanceTurn
    {current : Option Nat} (h : m.loop.table.Sound current) (hm : m.Mirrored) (turn : Turn) :
    Unrejected (m.advanceTurn turn) := by
  have hend : Unrejected (m.endTurn turn) := by
    unfold endTurn
    exact unrejected_bind (unrejected_settle h hm _ _ _) fun _ _ => unrejected_ok _
  unfold advanceTurn
  refine unrejected_bind (unrejected_descriptor m turn.slot) fun d _ => ?_
  split
  · exact hend
  · split
    · exact hend
    · dsimp only
      split
      · exact unrejected_ok _
      · split
        · exact unrejected_ok _
        · exact unrejected_ok _

theorem unrejected_expire
    (m : Machine H) (fd : Int) (now : Nat) (deferred : List Int) :
    Unrejected (m.expire fd now deferred) := by
  unfold expire
  split
  · exact unrejected_error _ (by simp)
  · refine unrejected_bind (unrejected_descriptor _ _) fun d _ => ?_
    dsimp only
    split
    · exact unrejected_ok _
    · split
      · exact unrejected_ok _
      · exact unrejected_ok _

theorem unrejected_advance
    {phase : Phase H} (h : m.loop.table.Sound phase.slot?) (hm : m.Mirrored)
    (hclosed : phase = .wait → ∀ fd ∈ m.host.kernel.nextEntry.1.closed,
      m.loop.table.bindings? fd = none) :
    Unrejected (m.advance phase) := by
  cases phase with
  | start =>
      simp only [advance]
      split
      · exact unrejected_ok _
      · split
        · exact unrejected_ok _
        · exact unrejected_ok _
  | called =>
      exact unrejected_ok _
  | timers pass now =>
      simp only [advance]
      split
      · exact unrejected_ok _
      · split
        · exact unrejected_ok _
        · exact unrejected_ok _
  | ready =>
      simp only [advance]
      split
      · exact unrejected_ok _
      · split
        · exact unrejected_ok _
        · exact unrejected_beginTurn _ _
  | turn turn =>
      exact unrejected_advanceTurn h hm turn
  | deliver signos turn =>
      cases signos with
      | nil =>
          exact unrejected_ok _
      | cons signo signos =>
          exact unrejected_ok _
  | signal signo left signos turn =>
      cases left with
      | nil =>
          exact unrejected_ok _
      | cons r left =>
          exact unrejected_ok _
  | timeouts now deferred =>
      simp only [advance]
      split
      · exact unrejected_ok _
      · split
        · exact unrejected_ok _
        · exact unrejected_expire _ _ _ _
  | timedOut slot clears now deferred =>
      exact unrejected_bind (unrejected_settle h hm _ _ _) fun _ _ => unrejected_ok _
  | settled =>
      exact unrejected_ok _
  | wait =>
      exact unrejected_bind (unrejected_awaitEvents h hm (hclosed rfl)) fun _ _ =>
        unrejected_ok _

theorem unrejected_step
    (h : m.Sound) (hm : m.Mirrored) (hcloses : m.ClosesNone) :
    Unrejected m.step := by
  unfold step
  split
  next phase hc =>
      have htable := h.table_of_dispatching hc
      refine unrejected_advance htable hm ?_
      rintro rfl fd hfd
      exact bindings?_eq_none_of_interest? (hcloses hc fd hfd)
  next =>
      exact unrejected_ok _

/-- The world leaves registered descriptors alone in a move: it closes none of them
and lays no faults. -/
def Calm (m : Machine H) (act : Act H) (m' : Machine H) : Prop :=
  match act with
  | .world =>
      m.loop.backend.Keeps (fun fd => m.loop.interest? fd = none) m.host.kernel m'.host.kernel
  | _ => m.ClosesNone

/-- Calm moves one after the other. -/
inductive CalmRun : Machine H → List (Act H) → Machine H → Prop
  | nil {m : Machine H} :
      CalmRun m [] m
  | cons {m m' m'' : Machine H} {act : Act H} {log : List (Act H)} :
      Move m act m' →
      Calm m act m' →
      CalmRun m' log m'' →
      CalmRun m (act :: log) m''

theorem Mirrored.move
    {act : Act H} (h : m.Sound) (hm : m.Mirrored) (hmove : Move m act m')
    (hcalm : Calm m act m') :
    m'.Mirrored := by
  cases hmove with
  | request _ hperform =>
      exact mirrored_perform h hm (perform_ok hperform)
  | @resume invocation next hc =>
      rw [resume_eq hc]
      exact ⟨hm.table, hm.spares⟩
  | step hc hstep =>
      have hcloses : m.ClosesNone := by
        unfold Calm at hcalm
        split at hcalm
        next hact =>
            intro hwait
            rw [act_eq_wait hwait] at hact
            cases hact
        next =>
            exact hcalm
      simp only [step, hc] at hstep
      refine mirrored_advance h hm hc ?_ (advance_ok hstep)
      rintro rfl fd hfd
      exact bindings?_eq_none_of_interest? (hcloses hc fd hfd)
  | world host =>
      have hkeeps : m.loop.backend.Keeps (fun fd => m.loop.interest? fd = none)
        m.host.kernel host.kernel := hcalm
      exact ⟨hm.table.keeps h.table hkeeps fun _ => bindings?_eq_none_of_interest?,
        hkeeps.spares hm.spares⟩

theorem held?_empty
    (fd : Int) :
    ({} : DescriptorTable (Reaction H) H).held? fd = none := by
  rw [DescriptorTable.held?, find?_empty]
  rfl

theorem mirrored_empty
    {b : Backend} {k : Kernel} (h : b.Holds k fun _ => none) :
    ({} : DescriptorTable (Reaction H) H).Mirrored b k := by
  have hnone : ∀ i, ({} : DescriptorTable (Reaction H) H).get? i = none :=
    Arena.get?_ofSize 64
  refine ⟨?_, ?_, ?_⟩
  · have hheld : ({} : DescriptorTable (Reaction H) H).held? = fun _ => none :=
      funext held?_empty
    rw [hheld]
    exact h
  · intro i d hd
    rw [hnone] at hd
    cases hd
  · intro i d hd
    rw [hnone] at hd
    cases hd

theorem Built.mirrored
    (h : Built m) (hspares : m.host.kernel.Spares) :
    m.Mirrored := by
  refine ⟨?_, hspares⟩
  cases h with
  | mk hbuild =>
      obtain ⟨backend, kernel, hcreate, ⟨rfl, rfl⟩ | ⟨pipe, host₁, m, hacquire, hset, rfl, rfl⟩⟩ :=
        build_ok hbuild
      · exact mirrored_empty (Backend.holds_of_create hcreate)
      · have hpasses := (SelfPipe.leaves_acquire? hacquire).passes fun _ => False
        have hempty := mirrored_empty (H := H) (Backend.holds_of_create hcreate)
        have hsound := sound_empty (H := H) none rfl
        have htable := hempty.passes hsound hpasses
        rcases setFd_ok hset with ⟨hflags, -⟩ | ⟨-, -, limit, -, hresult⟩ |
          ⟨-, -, -, -, d, d', kernel, hreg⟩
        · exact absurd hflags (by decide)
        · cases hresult
        · refine (mirrored_registers (sound_of_table_empty rfl rfl rfl) htable ?_ hreg).1
          intro hne
          have hnone := hsound.held?_ensure hreg.found
          rw [held?_empty] at hnone
          exact absurd hnone.symm hne

theorem CalmRun.mirrored
    {log : List (Act H)} (hrun : CalmRun m log m') (h : m.Sound) (hm : m.Mirrored) :
    m'.Sound ∧ m'.Mirrored := by
  induction hrun with
  | nil =>
      exact ⟨h, hm⟩
  | cons hmove hcalm _ ih =>
      exact ih (h.move hmove) (Mirrored.move h hm hmove hcalm)

theorem CalmRun.snoc
    {log : List (Act H)} {act : Act H} {m'' : Machine H} (hrun : CalmRun m log m')
    (hmove : Move m' act m'') (hcalm : Calm m' act m'') :
    CalmRun m (log ++ [act]) m'' := by
  induction hrun with
  | nil =>
      exact .cons hmove hcalm .nil
  | cons hfirst hcalm' _ ih =>
      exact .cons hfirst hcalm' (ih hmove hcalm)

/-- Moves in which the world does nothing are calm if no wait closes a descriptor. -/
theorem calm_of_closed
    {steps : List (Transition H)} (hworld : .world ∉ steps.map (·.act))
    (hclosed : ∀ s ∈ steps, s.before.host.kernel.nextEntry.1.closed = []) :
    ∀ s ∈ steps, Calm s.before s.act s.after := by
  intro s hs
  unfold Calm
  split
  next hact =>
      exact absurd (hact ▸ List.mem_map_of_mem hs) hworld
  next =>
      intro _ fd hfd
      rw [hclosed s hs] at hfd
      cases hfd

end Machine
end CallbackLoop
