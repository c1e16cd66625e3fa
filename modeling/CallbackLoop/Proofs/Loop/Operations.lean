import CallbackLoop.Loop.Dispatch
import CallbackLoop.Loop.Request
import CallbackLoop.Proofs.Loop.Table

/-!
# What the operations do

One lemma for each operation of a machine that can fail says what the machine
looks like if it succeeds.  An operation on descriptors changes the table, the
queue of timeouts, the backend and the kernel, and nothing else: it is a
`Machine.patch`.
-/

namespace CallbackLoop

variable {H : Type}

theorem Except.bind_eq_ok_iff
    {ε α β : Type} {x : Except ε α} {f : α → Except ε β} {b : β} :
    (x >>= f) = .ok b ↔ ∃ a, x = .ok a ∧ f a = .ok b := by
  cases x with
  | error e =>
      constructor
      · intro h
        cases h
      · rintro ⟨a, h, -⟩
        cases h
  | ok a =>
      constructor
      · intro h
        exact ⟨a, rfl, h⟩
      · rintro ⟨a', h, hf⟩
        cases h
        exact hf

theorem Except.bind_eq_error
    {ε α β : Type} {x : Except ε α} {f : α → Except ε β} {e : ε} (h : x >>= f = .error e) :
    x = .error e ∨ ∃ a, x = .ok a ∧ f a = .error e := by
  cases x with
  | error e' =>
      cases h
      exact .inl rfl
  | ok a =>
      exact .inr ⟨a, rfl, h⟩

/-- What every step of a fold keeps, the fold keeps. -/
theorem Except.foldlM_induction
    {ε α β : Type} {f : β → α → Except ε β} (P : β → Prop)
    (hstep : ∀ b a b', P b → f b a = .ok b' → P b') (l : List α) {b b' : β}
    (hb : P b) (h : l.foldlM f b = .ok b') :
    P b' := by
  induction l generalizing b with
  | nil =>
      cases h
      exact hb
  | cons a l ih =>
      rw [List.foldlM_cons, Except.bind_eq_ok_iff] at h
      obtain ⟨c, hc, h⟩ := h
      exact ih (hstep b a c hb hc) h

/-- A call of the backend about one descriptor. -/
inductive BackendCall where
  | register (interest : Interest)
  | modify (interest : Interest)
  | unregister

/-- Makes a call of a backend. -/
def BackendCall.apply
    (call : BackendCall) (b : Backend) (k : Kernel) (fd : Int) :
    Except Errno Unit × Backend × Kernel :=
  match call with
  | register interest => b.register k fd interest
  | modify interest => b.modify k fd interest
  | unregister => b.unregister k fd

/-- The queue without the entry of a descriptor, if it has one. -/
def DeadlineQueue.without (q : DeadlineQueue) : Option Handle → DeadlineQueue
  | none => q
  | some id => q.disarm id

/-- The entry of a descriptor after its timeout was armed, removed or kept, and
the queue; there are none if the instant lies beyond the horizon. -/
def FdTimeout.rearm (timeout : FdTimeout) (q : DeadlineQueue)
    (existing : Option Handle) (fd : Int) (now : Nat) :
    Option (Option Handle × DeadlineQueue) :=
  match timeout with
  | unmodified => some (existing, q)
  | unlimited => some (none, q.without existing)
  | after delay =>
      (Time.after? now delay).map fun instant =>
        (some (q.arm existing fd instant).1, (q.arm existing fd instant).2)

/-- Switches the mode of a descriptor if the flags ask for it. -/
def Kernel.applyMode (k : Kernel) (fd : Int) (flags : Flags) :
    Except Errno Unit × Kernel :=
  if flags.intersects (.nonblock ∪ .block) then
    k.setNonblocking fd (flags.contains .nonblock)
  else (.ok (), k)

namespace Descriptor

variable {R : Type}

/-- The interest that the host should hold, if any direction is left. -/
def due (d : Descriptor R H) : Option Interest :=
  if d.wanted.isEmpty then none else some d.wanted

/-- The call that brings the host in line with a descriptor, if one is needed. -/
def call? (d : Descriptor R H) (force : Bool) : Option BackendCall :=
  match d.held with
  | none => if d.wanted.isEmpty then none else some (.register d.wanted)
  | some held =>
      if d.wanted.isEmpty then some .unregister
      else if held ≠ d.wanted || force then some (.modify d.wanted) else none

/-- The descriptor as a registration finds it. -/
def revived (d : Descriptor R H) : Descriptor R H :=
  if d.isClearing then { d with stage := .active, ready := ∅ } else d

/-- The descriptor with the directions bound that the flags name. -/
def bound (d : Descriptor R H) (flags : Flags) (reaction : R) : Descriptor R H :=
  if flags.directions.isEmpty then d
  else
    { (if flags.contains .append then d else d.unbindAll).bindAll flags.directions
        ⟨reaction, flags.contains .oneshot⟩ with
      ready := d.ready \ flags.directions }

/-- The descriptor without its registrations. -/
def cleared (d : Descriptor R H) : Descriptor R H :=
  { d.unbindAll with
    held := none
    clears := d.clears + 1
    onTimeout := none
    timeout := none }

/-- The descriptor after its handlers ran, with the directions ready again that
were left unrun. -/
def settled (d : Descriptor R H) (clears : Nat) (pending : Directions) :
    Descriptor R H :=
  { d with
    busy := false
    ready :=
      if d.clears = clears && !pending.isEmpty then d.ready ∪ (pending ∩ d.registered)
      else d.ready }

/-- Whether a descriptor has to be queued again when it is settled. -/
def requeues (d : Descriptor R H) (clears : Nat) (pending : Directions) : Bool :=
  d.clears = clears && !pending.isEmpty && !(d.settled clears pending).ready.isEmpty

/-- The descriptor just before the handler of a direction runs: a oneshot
binding is used up. -/
def spent (d : Descriptor R H) (a : Direction) : Descriptor R H :=
  if (d.binding? a).any (·.oneshot) then d.setBinding a none else d

/-- The descriptor with the readiness queued that an event reports, as far as
anyone asked for it. -/
def notified (d : Descriptor R H) (ready : Directions) : Descriptor R H :=
  { d with ready := d.ready ∪ (ready ∩ d.wanted.directions) }

/-- Whether a report may have disarmed the host's entry. -/
def rearms (d : Descriptor R H) : Bool :=
  d.held.any (!·.oneshot.isEmpty)

/-- With nothing pending a descriptor is not queued again. -/
theorem requeues_empty
    (d : Descriptor R H) (clears : Nat) :
    d.requeues clears ∅ = false := by
  have hempty : (∅ : Directions).isEmpty = true := rfl
  simp [requeues, hempty]

/-- A reaction that starts uses up bindings at most. -/
theorem spent_eq
    (d : Descriptor R H) (a : Direction) :
    ∃ recv send error, d.spent a = { d with recv, send, error } := by
  unfold spent
  split
  · cases a <;> exact ⟨_, _, _, rfl⟩
  · exact ⟨_, _, _, rfl⟩

section Spent

variable (d : Descriptor R H) (a : Direction)

@[simp] theorem fd_spent :
    (d.spent a).fd = d.fd := by
  obtain ⟨recv, send, error, heq⟩ := d.spent_eq a
  rw [heq]

@[simp] theorem timeout_spent :
    (d.spent a).timeout = d.timeout := by
  obtain ⟨recv, send, error, heq⟩ := d.spent_eq a
  rw [heq]

@[simp] theorem onTimeout_spent :
    (d.spent a).onTimeout = d.onTimeout := by
  obtain ⟨recv, send, error, heq⟩ := d.spent_eq a
  rw [heq]

@[simp] theorem ready_spent :
    (d.spent a).ready = d.ready := by
  obtain ⟨recv, send, error, heq⟩ := d.spent_eq a
  rw [heq]

@[simp] theorem busy_spent :
    (d.spent a).busy = d.busy := by
  obtain ⟨recv, send, error, heq⟩ := d.spent_eq a
  rw [heq]

@[simp] theorem stage_spent :
    (d.spent a).stage = d.stage := by
  obtain ⟨recv, send, error, heq⟩ := d.spent_eq a
  rw [heq]

@[simp] theorem clears_spent :
    (d.spent a).clears = d.clears := by
  obtain ⟨recv, send, error, heq⟩ := d.spent_eq a
  rw [heq]

@[simp] theorem held_spent :
    (d.spent a).held = d.held := by
  obtain ⟨recv, send, error, heq⟩ := d.spent_eq a
  rw [heq]

end Spent

theorem held_eq_due_of_call?
    {d : Descriptor R H} {force : Bool} (h : d.call? force = none) :
    d.held = d.due := by
  unfold call? at h
  unfold due
  cases hheld : d.held with
  | none =>
      rw [hheld] at h
      by_cases hempty : d.wanted.isEmpty = true
      · rw [if_pos hempty]
      · rw [if_neg hempty]
        simp [hempty] at h
  | some held =>
      rw [hheld] at h
      by_cases hempty : d.wanted.isEmpty = true
      · simp [hempty] at h
      · rw [if_neg hempty]
        by_cases heq : held = d.wanted
        · rw [heq]
        · simp [hempty, heq] at h

end Descriptor

namespace DescriptorTable

variable {R : Type}

/-- The table after the descriptor `d` in a slot was cleared. -/
def clear (t : DescriptorTable R H) (slot : Nat) (d : Descriptor R H) :
    DescriptorTable R H :=
  if d.busy then
    ((t.set slot { d.cleared with stage := .clearing, ready := ∅ }).unwatch slot).deactivate
      slot
  else t.remove slot

@[simp] theorem remove_set
    (t : DescriptorTable R H) (slot : Nat) (d : Descriptor R H) :
    (t.set slot d).remove slot = t.remove slot := by
  have harena : (t.arena.set slot d).erase slot = t.arena.erase slot := by
    unfold Arena.set Arena.erase
    split <;> simp
  exact congrArg (fun arena => { (t.unwatch slot).deactivate slot with arena }) harena

end DescriptorTable

namespace DescriptorTable

variable {R : Type} {t : DescriptorTable R H} {slot : Nat} {d : Descriptor R H}

/-- The table after the descriptor `d` in a slot was settled and brought in
line. -/
def settle (t : DescriptorTable R H) (slot : Nat) (d : Descriptor R H) (clears : Nat)
    (pending : Directions) : DescriptorTable R H :=
  (if d.requeues clears pending then t.activate slot else t).set slot
    { d.settled clears pending with held := (d.settled clears pending).due }

theorem onlyAt_settle
    (t : DescriptorTable R H) (slot : Nat) (d : Descriptor R H) (clears : Nat)
    (pending : Directions) :
    OnlyAt slot t (t.settle slot d clears pending) := by
  unfold settle
  split
  · exact (onlyAt_activate t slot).trans (onlyAt_set _ slot _)
  · exact onlyAt_set t slot _

theorem get?_settle_self
    (hd : t.get? slot = some d) (clears : Nat) (pending : Directions) :
    (t.settle slot d clears pending).get? slot =
      some { d.settled clears pending with held := (d.settled clears pending).due } := by
  unfold settle
  split
  · exact get?_set_self (show (t.activate slot).get? slot = some d from hd) _
  · exact get?_set_self hd _

/-- The table after readiness of the descriptor `d` in a slot was queued. -/
def notify (t : DescriptorTable R H) (slot : Nat) (d : Descriptor R H)
    (ready : Directions) : DescriptorTable R H :=
  (t.activate slot).set slot
    { d.notified ready with held := if d.rearms then (d.notified ready).due else d.held }

theorem onlyAt_notify
    (t : DescriptorTable R H) (slot : Nat) (d : Descriptor R H) (ready : Directions) :
    OnlyAt slot t (t.notify slot d ready) :=
  (onlyAt_activate t slot).trans (onlyAt_set _ slot _)

theorem get?_notify_self
    (hd : t.get? slot = some d) (ready : Directions) :
    (t.notify slot d ready).get? slot =
      some { d.notified ready with
        held := if d.rearms then (d.notified ready).due else d.held } :=
  get?_set_self (show (t.activate slot).get? slot = some d from hd) _

end DescriptorTable

/-- The descriptor that a request concerns. -/
def Request.fd? : Request H → Option Int
  | .setFd fd _ _ _ => some fd
  | .clearFd fd => some fd
  | .setTimeoutHandler fd _ => some fd
  | _ => none

namespace Machine

variable {m m' : Machine H} {slot : Nat}

/-- The machine with another kernel, backend, table and queue of timeouts. -/
def patch (m : Machine H) (kernel : Kernel) (backend : Backend)
    (table : DescriptorTable (Reaction H) H) (timeouts : DeadlineQueue) : Machine H :=
  { m with
    host := { m.host with kernel }
    loop := { m.loop with backend, table, timeouts } }

section Patch

variable (m : Machine H) (k k' : Kernel) (b b' : Backend)
  (t t' : DescriptorTable (Reaction H) H) (q q' : DeadlineQueue)

@[simp] theorem patch_kernel :
    (m.patch k b t q).host.kernel = k := rfl

@[simp] theorem patch_backend :
    (m.patch k b t q).loop.backend = b := rfl

@[simp] theorem patch_table :
    (m.patch k b t q).loop.table = t := rfl

@[simp] theorem patch_timeouts :
    (m.patch k b t q).loop.timeouts = q := rfl

@[simp] theorem patch_control :
    (m.patch k b t q).control = m.control := rfl

@[simp] theorem patch_broken :
    (m.patch k b t q).loop.broken = m.loop.broken := rfl

@[simp] theorem patch_dispatching :
    (m.patch k b t q).loop.dispatching = m.loop.dispatching := rfl

@[simp] theorem patch_patch :
    (m.patch k b t q).patch k' b' t' q' = m.patch k' b' t' q' := rfl

end Patch

/-- What a call of the backend leads to, if one is made. -/
def call (m : Machine H) (call? : Option BackendCall) (fd : Int) :
    Except Errno Unit × Backend × Kernel :=
  match call? with
  | none => (.ok (), m.loop.backend, m.host.kernel)
  | some call => call.apply m.loop.backend m.host.kernel fd

theorem disarm_eq
    (m : Machine H) (timeout : Option Handle) :
    m.disarm timeout =
      m.patch m.host.kernel m.loop.backend m.loop.table
        (m.loop.timeouts.without timeout) := by
  cases timeout <;> rfl

theorem descriptor_eq_ok_iff
    {d : Descriptor (Reaction H) H} :
    m.descriptor slot = .ok d ↔ m.loop.table.get? slot = some d := by
  unfold descriptor
  cases m.loop.table.get? slot with
  | none =>
      constructor <;> intro h <;> cases h
  | some e =>
      constructor
      · intro h
        cases h
        rfl
      · intro h
        cases h
        rfl

theorem adopt_eq_ok_iff
    {change : HostChange} {fd : Int} {result : Except Errno Unit × Backend × Kernel} :
    m.adopt change fd result = .ok m' ↔
      ∃ b k, result = (.ok (), b, k) ∧
        m' = m.patch k b m.loop.table m.loop.timeouts := by
  obtain ⟨outcome, b, k⟩ := result
  cases outcome with
  | error cause =>
      constructor
      · intro h
        cases h
      · rintro ⟨b', k', h, -⟩
        cases h
  | ok u =>
      constructor
      · intro h
        cases h
        exact ⟨b, k, rfl, rfl⟩
      · rintro ⟨b', k', h, rfl⟩
        cases h
        rfl

theorem free_eq_ok_iff :
    m.free slot = .ok m' ↔
      ∃ d, m.loop.table.get? slot = some d ∧ m' = m.withTable (m.loop.table.remove slot) := by
  unfold free
  rw [DescriptorTable.free?_eq]
  cases m.loop.table.get? slot with
  | none =>
      constructor
      · intro h
        cases h
      · rintro ⟨d, h, -⟩
        cases h
  | some d =>
      constructor
      · intro h
        cases h
        exact ⟨d, rfl, rfl⟩
      · rintro ⟨-, -, rfl⟩
        rfl

/-- Alignment makes at most one call and then records what is due. -/
theorem align_eq
    (m : Machine H) (slot : Nat) (force : Bool) :
    m.align slot force = do
      let d ← m.descriptor slot
      let m ← m.adopt .interest d.fd (m.call (d.call? force) d.fd)
      return m.setDescriptor slot { d with held := d.due } := by
  unfold align
  cases hd : m.descriptor slot with
  | error crash =>
      rfl
  | ok d =>
      have hget := descriptor_eq_ok_iff.1 hd
      show (match d.held with | none => _ | some held => _) =
        (m.adopt .interest d.fd (m.call (d.call? force) d.fd) >>= fun m =>
          pure (m.setDescriptor slot { d with held := d.due }) : Except Crash (Machine H))
      have hsame : d.call? force = none →
          (m.adopt .interest d.fd (m.call (d.call? force) d.fd) >>= fun m =>
            pure (m.setDescriptor slot { d with held := d.due }) : Except Crash (Machine H)) =
            .ok m := by
        intro hcall
        rw [hcall, ← Descriptor.held_eq_due_of_call? hcall]
        show Except.ok (m.setDescriptor slot d) = _
        rw [setDescriptor, DescriptorTable.set_get? hget]
        rfl
      cases hheld : d.held with
      | none =>
          by_cases hempty : d.wanted.isEmpty = true
          · rw [hsame (by simp [Descriptor.call?, hheld, hempty])]
            simp [hempty, pure, Except.pure]
          · have hcall : d.call? force = some (.register d.wanted) := by
              simp [Descriptor.call?, hheld, hempty]
            have hdue : d.due = some d.wanted := if_neg hempty
            rw [hcall, hdue]
            simp only [hempty]
            rfl
      | some held =>
          by_cases hempty : d.wanted.isEmpty = true
          · have hcall : d.call? force = some .unregister := by
              simp [Descriptor.call?, hheld, hempty]
            have hdue : d.due = none := if_pos hempty
            rw [hcall, hdue]
            simp only [hempty]
            rfl
          · by_cases hforce : (held ≠ d.wanted || force) = true
            · have hcall : d.call? force = some (.modify d.wanted) := by
                simp only [Descriptor.call?, hheld, hforce]
                simp [hempty]
              have hdue : d.due = some d.wanted := if_neg hempty
              rw [hcall, hdue]
              simp only [hempty, hforce]
              rfl
            · have hcall : d.call? force = none := by
                simp only [Descriptor.call?, hheld, hforce]
                simp [hempty]
              rw [hsame hcall]
              simp only [hempty, hforce]
              rfl

theorem align_ok
    {force : Bool} (h : m.align slot force = .ok m') :
    ∃ d b k, m.loop.table.get? slot = some d ∧
      m.call (d.call? force) d.fd = (.ok (), b, k) ∧
      m' = m.patch k b (m.loop.table.set slot { d with held := d.due }) m.loop.timeouts := by
  rw [align_eq, Except.bind_eq_ok_iff] at h
  obtain ⟨d, hd, h⟩ := h
  obtain ⟨m₁, hadopt, h⟩ := Except.bind_eq_ok_iff.1 h
  obtain ⟨b, k, hcall, rfl⟩ := adopt_eq_ok_iff.1 hadopt
  cases h
  exact ⟨d, b, k, descriptor_eq_ok_iff.1 hd, hcall, rfl⟩

theorem applyMode_ok
    {fd : Int} {flags : Flags} (h : m.applyMode fd flags = .ok m') :
    ∃ k, m.host.kernel.applyMode fd flags = (.ok (), k) ∧
      m' = m.patch k m.loop.backend m.loop.table m.loop.timeouts := by
  unfold applyMode at h
  unfold Kernel.applyMode
  split at h
  next hmode =>
      rw [if_pos hmode]
      split at h
      next k hk =>
          cases h
          exact ⟨k, hk, rfl⟩
      next =>
          cases h
  next hmode =>
      cases h
      exact ⟨m.host.kernel, if_neg hmode, rfl⟩

theorem enroll_ok
    {fd : Int} (h : m.enroll fd = .ok (slot, m')) :
    slot = (m.loop.table.ensure fd).1 ∧
      ∃ d, (m.loop.table.ensure fd).2.get? slot = some d ∧
        m' = m.withTable (((m.loop.table.ensure fd).2.watch slot).set slot d.revived) := by
  rcases hensure : m.loop.table.ensure fd with ⟨i, t⟩
  simp only [enroll, hensure] at h
  obtain ⟨d, hd, h⟩ := Except.bind_eq_ok_iff.1 h
  have hget : (t.watch i).get? i = some d := descriptor_eq_ok_iff.1 hd
  split at h
  next hclearing =>
      cases h
      refine ⟨rfl, d, hget, ?_⟩
      rw [Descriptor.revived, if_pos hclearing]
      rfl
  next hclearing =>
      cases h
      refine ⟨rfl, d, hget, ?_⟩
      rw [Descriptor.revived, if_neg hclearing, DescriptorTable.set_get? hget]

theorem bind_ok
    {flags : Flags} {reaction : Reaction H} (h : m.bind slot flags reaction = .ok m') :
    ∃ d, m.loop.table.get? slot = some d ∧
      m' = m.setDescriptor slot (d.bound flags reaction) := by
  unfold bind at h
  obtain ⟨d, hd, h⟩ := Except.bind_eq_ok_iff.1 h
  have hget := descriptor_eq_ok_iff.1 hd
  refine ⟨d, hget, ?_⟩
  dsimp only at h
  unfold Descriptor.bound
  by_cases hempty : flags.directions.isEmpty = true
  · rw [if_pos hempty] at h
    cases h
    rw [if_pos hempty, setDescriptor, DescriptorTable.set_get? hget]
    rfl
  · rw [if_neg hempty] at h
    rw [if_neg hempty]
    split at h
    next happend =>
        cases h
        rw [if_pos happend]
        rfl
    next happend =>
        cases h
        rw [if_neg happend]
        rfl

theorem applyTimeout_ok
    {fd : Int} {timeout : FdTimeout} (h : m.applyTimeout slot fd timeout = .ok m') :
    ∃ d entry q, m.loop.table.get? slot = some d ∧
      timeout.rearm m.loop.timeouts d.timeout fd m.host.kernel.clock = some (entry, q) ∧
      m' = m.patch m.host.kernel m.loop.backend
        (m.loop.table.set slot { d with timeout := entry }) q := by
  unfold applyTimeout at h
  obtain ⟨d, hd, h⟩ := Except.bind_eq_ok_iff.1 h
  have hget := descriptor_eq_ok_iff.1 hd
  cases timeout with
  | unmodified =>
      cases h
      refine ⟨d, d.timeout, m.loop.timeouts, hget, rfl, ?_⟩
      rw [DescriptorTable.set_get? hget]
      rfl
  | unlimited =>
      cases h
      refine ⟨d, none, m.loop.timeouts.without d.timeout, hget, rfl, ?_⟩
      rw [disarm_eq]
      rfl
  | after delay =>
      cases hafter : Time.after? m.host.kernel.clock delay with
      | none =>
          simp only [hafter] at h
          cases h
      | some instant =>
          simp only [hafter] at h
          cases h
          exact ⟨d, _, _, hget, by simp only [FdTimeout.rearm, hafter]; rfl, rfl⟩

/-- What a registration does before it brings the host in line. -/
theorem enter_ok
    {fd : Int} {flags : Flags} {timeout : FdTimeout} {reaction : Reaction H}
    {m₁ m₂ m₃ m₄ : Machine H} (hm₁ : m.applyMode fd flags = .ok m₁)
    (hm₂ : m₁.enroll fd = .ok (slot, m₂)) (hm₃ : m₂.bind slot flags reaction = .ok m₃)
    (hm₄ : m₃.applyTimeout slot fd timeout = .ok m₄) :
    ∃ d d' kernel q, (m.loop.table.ensure fd).2.get? (m.loop.table.ensure fd).1 = some d ∧
      (∃ entry, d' = { d.revived.bound flags reaction with timeout := entry }) ∧
      m.host.kernel.applyMode fd flags = (.ok (), kernel) ∧
      timeout.rearm m.loop.timeouts (d.revived.bound flags reaction).timeout fd kernel.clock =
        some (d'.timeout, q) ∧
      m₄.loop.table.get? slot = some d' ∧ slot = (m.loop.table.ensure fd).1 ∧
      m₄ = m.patch kernel m.loop.backend (m.loop.table.register fd d') q := by
  obtain ⟨k₁, hk₁, rfl⟩ := applyMode_ok hm₁
  obtain ⟨rfl, d, hd, rfl⟩ := enroll_ok hm₂
  obtain ⟨d₂, hd₂, rfl⟩ := bind_ok hm₃
  obtain ⟨d₃, entry, q, hd₃, hq, rfl⟩ := applyTimeout_ok hm₄
  have hwatch : ((m.loop.table.ensure fd).2.watch
      (m.loop.table.ensure fd).1).get? (m.loop.table.ensure fd).1 = some d := hd
  cases (DescriptorTable.get?_set_self hwatch d.revived).symm.trans hd₂
  cases (DescriptorTable.get?_set_self hd₂ _).symm.trans hd₃
  refine ⟨d, _, k₁, q, hd, ⟨entry, rfl⟩, hk₁, hq, DescriptorTable.get?_set_self hd₃ _, rfl, ?_⟩
  simp [patch, setDescriptor, withTable, DescriptorTable.register]

/-- What a registration that was not refused leaves behind.  The directions are
bound, the timeout is armed anew, and then the host is brought in line. -/
structure Registers (m : Machine H) (fd : Int) (flags : Flags) (timeout : FdTimeout)
    (reaction : Reaction H) (m' : Machine H) (d d' : Descriptor (Reaction H) H)
    (kernel : Kernel) : Prop where
  found : (m.loop.table.ensure fd).2.get? (m.loop.table.ensure fd).1 = some d
  bound : ∃ entry, d' = { d.revived.bound flags reaction with timeout := entry }
  mode : m.host.kernel.applyMode fd flags = (.ok (), kernel)
  result : ∃ b k q,
    timeout.rearm m.loop.timeouts (d.revived.bound flags reaction).timeout fd kernel.clock =
      some (d'.timeout, q) ∧
    { m with host := { m.host with kernel } }.call (d'.call? false) d'.fd = (.ok (), b, k) ∧
    m' = m.patch k b (m.loop.table.register fd { d' with held := d'.due }) q

theorem setFd_ok
    {fd : Int} {flags : Flags} {timeout : FdTimeout} {reaction : Reaction H}
    {result : Except Refusal Unit}
    (h : m.setFd fd flags timeout reaction = .ok (result, m')) :
    (flags = .clear ∧ result = .ok () ∧ m.clearFd fd = .ok m') ∨
    (flags.contains .clear = false ∧ m' = m ∧
      ∃ limit, m.beyondLimit? fd = some limit ∧ result = .error (.fdOutOfRange fd limit)) ∨
    (flags.contains .clear = false ∧ result = .ok () ∧ 0 ≤ fd ∧ m.beyondLimit? fd = none ∧
      ∃ d d' kernel, m.Registers fd flags timeout reaction m' d d' kernel) := by
  unfold setFd at h
  split at h
  next =>
      cases h
  next hneg =>
      split at h
      next hclear =>
          split at h
          next hflags =>
              obtain ⟨m₁, hm₁, h⟩ := Except.bind_eq_ok_iff.1 h
              cases h
              exact .inl ⟨hflags, rfl, hm₁⟩
          next =>
              cases h
      next hclear =>
          have hclear' : flags.contains .clear = false := Bool.not_eq_true _ ▸ hclear
          split at h
          next =>
              cases h
          next =>
              split at h
              next limit hlimit =>
                  cases h
                  exact .inr (.inl ⟨hclear', rfl, limit, hlimit, rfl⟩)
              next hlimit =>
                  refine .inr (.inr ⟨hclear', ?_⟩)
                  obtain ⟨m₁, hm₁, h⟩ := Except.bind_eq_ok_iff.1 h
                  obtain ⟨⟨slot, m₂⟩, hm₂, h⟩ := Except.bind_eq_ok_iff.1 h
                  obtain ⟨m₃, hm₃, h⟩ := Except.bind_eq_ok_iff.1 h
                  obtain ⟨m₄, hm₄, h⟩ := Except.bind_eq_ok_iff.1 h
                  obtain ⟨m₅, hm₅, h⟩ := Except.bind_eq_ok_iff.1 h
                  cases h
                  obtain ⟨d, d', k₁, q, hd, hbound, hk₁, hq, hd', rfl, rfl⟩ :=
                    enter_ok hm₁ hm₂ hm₃ hm₄
                  obtain ⟨d₄, b, k, hd₄, hcall, rfl⟩ := align_ok hm₅
                  cases hd'.symm.trans hd₄
                  refine ⟨rfl, by omega, hlimit, d, d', k₁, hd, hbound, hk₁, b, k, q, hq,
                    hcall, ?_⟩
                  simp [patch, DescriptorTable.register]

/-- Clears the descriptor `d` in a slot: at once, or when its handler returns. -/
def clearSlot (m : Machine H) (slot : Nat) (d : Descriptor (Reaction H) H) :
    Except Crash (Machine H) :=
  if d.busy then
    .ok ((m.setDescriptor slot { d.cleared with stage := .clearing, ready := ∅ }).withTable
      (((m.loop.table.set slot
        { d.cleared with stage := .clearing, ready := ∅ }).unwatch slot).deactivate slot))
  else (m.setDescriptor slot d.cleared).free slot

theorem clearFd_ok
    {fd : Int} (h : m.clearFd fd = .ok m') :
    (m.loop.table.slotOf? fd = none ∧ m' = m) ∨
    ∃ slot d b k, m.loop.table.slotOf? fd = some slot ∧ m.loop.table.get? slot = some d ∧
      m.call (if d.held.isSome then some .unregister else none) fd = (.ok (), b, k) ∧
      m' = m.patch k b (m.loop.table.clear slot d)
        (m.loop.timeouts.without d.timeout) := by
  unfold clearFd at h
  split at h
  next hslot =>
      cases h
      exact .inl ⟨hslot, rfl⟩
  next slot hslot =>
      refine .inr ⟨slot, ?_⟩
      obtain ⟨d, hd, h⟩ := Except.bind_eq_ok_iff.1 h
      have hget := descriptor_eq_ok_iff.1 hd
      dsimp only at h
      have hcall : ∃ b k,
          m.call (if d.held.isSome then some .unregister else none) fd = (.ok (), b, k) ∧
            ((m.patch k b m.loop.table m.loop.timeouts).disarm d.timeout).clearSlot slot d =
              .ok m' := by
        split at h
        next hheld =>
            rw [if_pos hheld]
            obtain ⟨m₁, hm₁, h⟩ := Except.bind_eq_ok_iff.1 h
            obtain ⟨b, k, hcall, rfl⟩ := adopt_eq_ok_iff.1 hm₁
            exact ⟨b, k, hcall, h⟩
        next hheld =>
            rw [if_neg hheld]
            exact ⟨m.loop.backend, m.host.kernel, rfl, h⟩
      obtain ⟨b, k, hcall, h⟩ := hcall
      refine ⟨d, b, k, hslot, hget, hcall, ?_⟩
      rw [disarm_eq] at h
      unfold DescriptorTable.clear
      unfold clearSlot at h
      by_cases hbusy : d.busy = true
      · rw [if_pos hbusy] at h ⊢
        cases h
        rfl
      · rw [if_neg hbusy] at h ⊢
        obtain ⟨e, -, rfl⟩ := free_eq_ok_iff.1 h
        have hremove := DescriptorTable.remove_set m.loop.table slot d.cleared
        simp only [patch, setDescriptor, withTable, Descriptor.cleared] at hremove ⊢
        rw [hremove]

/-- A clear calls the backend exactly if it holds something for the descriptor. -/
theorem call_unregister_cases
    {held : Option Interest} {fd : Int} {b : Backend} {k : Kernel}
    (h : m.call (if held.isSome then some .unregister else none) fd = (.ok (), b, k)) :
    (held ≠ none ∧
      BackendCall.unregister.apply m.loop.backend m.host.kernel fd = (.ok (), b, k)) ∨
    (held = none ∧ b = m.loop.backend ∧ k = m.host.kernel) := by
  cases held with
  | none =>
      cases h
      exact .inr ⟨rfl, rfl, rfl⟩
  | some interest =>
      exact .inl ⟨Option.some_ne_none interest, h⟩

theorem setTimeoutHandler_ok
    {fd : Int} {handler : H} (h : m.setTimeoutHandler fd handler = .ok m') :
    ∃ slot d, m.loop.table.slotOf? fd = some slot ∧ m.loop.table.get? slot = some d ∧
      m' = m.setDescriptor slot { d with onTimeout := some handler } := by
  unfold setTimeoutHandler at h
  split at h
  next =>
      cases h
  next slot hslot =>
      obtain ⟨d, hd, h⟩ := Except.bind_eq_ok_iff.1 h
      cases h
      exact ⟨slot, d, hslot, descriptor_eq_ok_iff.1 hd, rfl⟩

/-- What a request does that concerns no descriptor.  The host changes only if a
signal is acquired or released. -/
structure Aside (m : Machine H) (r : Request H) (m' : Machine H) : Prop where
  fd? : r.fd? = none
  table : m'.loop.table = m.loop.table
  backend : m'.loop.backend = m.loop.backend
  broken : m.loop.broken = true → m'.loop.broken = true
  control :
    (m'.control = m.control ∧ m'.loop.dispatching = m.loop.dispatching) ∨
    (m.loop.dispatching = false ∧ m'.loop.dispatching = true ∧
      m'.control = .dispatching .start)
  host :
    m'.host = m.host ∨ (∃ signo, m'.host = (m.host.acquire m.loop.hub signo).2) ∨
      ∃ signo, m.host.release m.loop.hub signo = .ok m'.host

/-- What each request does. -/
inductive Performed (m : Machine H) : Request H → Reply → Machine H → Prop
  | cleared {fd : Int} {m' : Machine H} :
      m.clearFd fd = .ok m' →
      Performed m (.clearFd fd) .done m'
  | unset {fd : Int} {timeout : FdTimeout} {handler : H} {m' : Machine H} :
      m.clearFd fd = .ok m' →
      Performed m (.setFd fd .clear timeout handler) .done m'
  | refused {fd : Int} {flags : Flags} {timeout : FdTimeout} {handler : H} {limit : Nat} :
      m.beyondLimit? fd = some limit →
      Performed m (.setFd fd flags timeout handler) (.refused (.fdOutOfRange fd limit)) m
  | registered {fd : Int} {flags : Flags} {timeout : FdTimeout} {handler : H}
      {d d' : Descriptor (Reaction H) H} {kernel : Kernel} {m' : Machine H} :
      flags.contains .clear = false →
      0 ≤ fd →
      m.beyondLimit? fd = none →
      m.Registers fd flags timeout (.call handler) m' d d' kernel →
      Performed m (.setFd fd flags timeout handler) .done m'
  | handled {fd : Int} {handler : H} {slot : Nat} {d : Descriptor (Reaction H) H} :
      m.loop.table.slotOf? fd = some slot →
      m.loop.table.get? slot = some d →
      Performed m (.setTimeoutHandler fd handler) .done
        (m.setDescriptor slot { d with onTimeout := some handler })
  | aside {r : Request H} {reply : Reply} {m' : Machine H} :
      Aside m r m' →
      Performed m r reply m'

theorem perform_ok
    {r : Request H} {reply : Reply} (h : m.perform r = .ok (reply, m')) :
    Performed m r reply m' := by
  cases r with
  | setFd fd flags timeout handler =>
      obtain ⟨⟨result, m₁⟩, hset, h⟩ := Except.bind_eq_ok_iff.1 h
      cases h
      rcases setFd_ok hset with ⟨rfl, rfl, hclear⟩ | ⟨-, rfl, limit, hlimit, rfl⟩ |
        ⟨hflags, rfl, hfd, hlimit, d, d', kernel, hreg⟩
      · exact .unset hclear
      · exact .refused hlimit
      · exact .registered hflags hfd hlimit hreg
  | clearFd fd =>
      obtain ⟨m₁, hclear, h⟩ := Except.bind_eq_ok_iff.1 h
      cases h
      exact .cleared hclear
  | setTimeoutHandler fd handler =>
      obtain ⟨m₁, hset, h⟩ := Except.bind_eq_ok_iff.1 h
      cases h
      obtain ⟨slot, d, hslot, hd, rfl⟩ := setTimeoutHandler_ok hset
      exact .handled hslot hd
  | interest fd =>
      cases h
      exact .aside ⟨rfl, rfl, rfl, id, .inl ⟨rfl, rfl⟩, .inl rfl⟩
  | setTimer delay handler =>
      obtain ⟨⟨id, m₁⟩, hset, h⟩ := Except.bind_eq_ok_iff.1 h
      cases h
      unfold setTimer at hset
      split at hset
      next =>
          cases hset
      next =>
          cases hset
          exact .aside ⟨rfl, rfl, rfl, fun hb => hb, .inl ⟨rfl, rfl⟩, .inl rfl⟩
  | cancelTimer id =>
      cases h
      exact .aside ⟨rfl, rfl, rfl, fun hb => hb, .inl ⟨rfl, rfl⟩, .inl rfl⟩
  | setSignal signo handler =>
      have haside : Aside m (.setSignal signo handler) (m.setSignal signo handler).2 := by
        unfold setSignal
        split
        · split
          next heq =>
              exact ⟨rfl, rfl, rfl, id, .inl ⟨rfl, rfl⟩, .inr (.inl ⟨signo, by rw [heq]⟩)⟩
          next heq =>
              exact ⟨rfl, rfl, rfl, id, .inl ⟨rfl, rfl⟩, .inr (.inl ⟨signo, by rw [heq]⟩)⟩
        · exact ⟨rfl, rfl, rfl, id, .inl ⟨rfl, rfl⟩, .inl rfl⟩
      simp only [perform] at h
      split at h
      next heq =>
          cases h
          rw [heq] at haside
          exact .aside haside
      next heq =>
          cases h
          rw [heq] at haside
          exact .aside haside
  | unsetSignal signo key =>
      obtain ⟨⟨result, m₁⟩, hunset, h⟩ := Except.bind_eq_ok_iff.1 h
      cases h
      unfold unsetSignal at hunset
      split at hunset
      next =>
          cases hunset
          exact .aside ⟨rfl, rfl, rfl, id, .inl ⟨rfl, rfl⟩, .inl rfl⟩
      next =>
          split at hunset
          next =>
              cases hunset
              exact .aside ⟨rfl, rfl, rfl, id, .inl ⟨rfl, rfl⟩, .inl rfl⟩
          next =>
              obtain ⟨host, hrelease, hunset⟩ := Except.bind_eq_ok_iff.1 hunset
              cases hunset
              exact .aside ⟨rfl, rfl, rfl, id, .inl ⟨rfl, rfl⟩, .inr (.inr ⟨signo, hrelease⟩)⟩
  | setBreak =>
      cases h
      exact .aside ⟨rfl, rfl, rfl, fun _ => rfl, .inl ⟨rfl, rfl⟩, .inl rfl⟩
  | setCallback handler =>
      cases h
      exact .aside ⟨rfl, rfl, rfl, id, .inl ⟨rfl, rfl⟩, .inl rfl⟩
  | clearCallback =>
      cases h
      exact .aside ⟨rfl, rfl, rfl, id, .inl ⟨rfl, rfl⟩, .inl rfl⟩
  | dispatch =>
      simp only [perform, dispatch] at h
      by_cases hdispatching : m.loop.dispatching = true
      · simp only [hdispatching, if_true] at h
        cases h
        exact .aside ⟨rfl, rfl, rfl, id, .inl ⟨rfl, rfl⟩, .inl rfl⟩
      · simp only [hdispatching] at h
        cases h
        exact .aside ⟨rfl, rfl, rfl, id,
          .inr ⟨Bool.not_eq_true _ ▸ hdispatching, rfl, rfl⟩, .inl rfl⟩

theorem settle_eq
    (m : Machine H) (slot clears : Nat) (pending : Directions) :
    m.settle slot clears pending =
      m.descriptor slot >>= fun d =>
        if d.isClearing then (m.setDescriptor slot { d with busy := false }).free slot
        else
          (m.withTable ((if d.requeues clears pending then m.loop.table.activate slot
            else m.loop.table).set slot (d.settled clears pending))).align slot false := by
  unfold settle
  cases m.descriptor slot with
  | error crash =>
      rfl
  | ok d =>
      show (if d.isClearing = true then _ else _) = (if d.isClearing = true then _ else _)
      by_cases hpending : (d.clears = clears && !pending.isEmpty) = true
      · have hsettled : d.settled clears pending =
            { d with busy := false, ready := d.ready ∪ (pending ∩ d.registered) } := by
          rw [Descriptor.settled, if_pos hpending]
        have hrequeues : d.requeues clears pending =
            !(d.ready ∪ (pending ∩ d.registered)).isEmpty := by
          rw [Descriptor.requeues, hpending, hsettled]
          rfl
        rw [hrequeues, hsettled]
        refine congrArg _ ((if_pos hpending).trans ?_)
        by_cases hempty : (d.ready ∪ (pending ∩ d.registered)).isEmpty = true
        · refine (congrArg (fun m : Machine H => m.align slot false) (if_pos hempty)).trans ?_
          rw [hempty]
          rfl
        · refine (congrArg (fun m : Machine H => m.align slot false) (if_neg hempty)).trans ?_
          rw [Bool.not_eq_true] at hempty
          rw [hempty]
          rfl
      · have hsettled : d.settled clears pending = { d with busy := false } := by
          rw [Descriptor.settled, if_neg hpending]
        have hrequeues : d.requeues clears pending = false := by
          rw [Bool.not_eq_true] at hpending
          rw [Descriptor.requeues, hpending]
          rfl
        rw [hrequeues, hsettled]
        exact congrArg _ (if_neg hpending)

theorem settle_ok
    {clears : Nat} {pending : Directions} (h : m.settle slot clears pending = .ok m') :
    ∃ d, m.loop.table.get? slot = some d ∧
      ((d.isClearing = true ∧ m' = m.withTable (m.loop.table.remove slot)) ∨
        (d.isClearing = false ∧ ∃ b k,
          m.call ((d.settled clears pending).call? false) d.fd = (.ok (), b, k) ∧
          m' = m.patch k b (m.loop.table.settle slot d clears pending) m.loop.timeouts)) := by
  rw [settle_eq] at h
  obtain ⟨d, hd, h⟩ := Except.bind_eq_ok_iff.1 h
  have hget := descriptor_eq_ok_iff.1 hd
  refine ⟨d, hget, ?_⟩
  split at h
  next hclearing =>
      obtain ⟨e, -, rfl⟩ := free_eq_ok_iff.1 h
      have hremove := DescriptorTable.remove_set m.loop.table slot { d with busy := false }
      exact .inl ⟨hclearing, by simp only [setDescriptor, withTable, hremove]⟩
  next hclearing =>
      refine .inr ⟨Bool.not_eq_true _ ▸ hclearing, ?_⟩
      unfold DescriptorTable.settle
      generalize htable : (if d.requeues clears pending then m.loop.table.activate slot
        else m.loop.table) = t at h ⊢
      have hget' : t.get? slot = some d := by
        rw [← htable]
        split <;> exact hget
      obtain ⟨e, b, k, he, hcall, rfl⟩ := align_ok h
      cases (DescriptorTable.get?_set_self hget' (d.settled clears pending)).symm.trans he
      exact ⟨b, k, hcall, congrArg (fun t => m.patch k b t m.loop.timeouts)
        (DescriptorTable.set_set t slot _ _)⟩

theorem beginTurn_ok
    (h : m.beginTurn slot = .ok m') :
    ∃ d, m.loop.table.get? slot = some d ∧
      m' = (m.patch m.host.kernel m.loop.backend
        (m.loop.table.set slot
          { d with
            ready := ∅
            busy := true
            lastTurn := m.loop.iteration
            timeout := none })
        (m.loop.timeouts.without d.timeout)).goTo (.turn ⟨slot, d.fd, d.clears, d.ready⟩) := by
  unfold beginTurn at h
  obtain ⟨d, hd, h⟩ := Except.bind_eq_ok_iff.1 h
  rw [disarm_eq] at h
  cases h
  exact ⟨d, descriptor_eq_ok_iff.1 hd, rfl⟩

/-- What the dispatcher does with the first pending direction of a turn. -/
inductive TurnMove (m : Machine H) (turn : Turn) (d : Descriptor (Reaction H) H) :
    Machine H → Prop
  | ended {m₁ : Machine H} :
      turn.pending.first? = none ∨ m.loop.broken = true ∨ d.clears ≠ turn.clears →
      m.settle turn.slot turn.clears turn.pending = .ok m₁ →
      TurnMove m turn d (m₁.goTo .ready)
  | unbound {a : Direction} :
      turn.pending.first? = some a →
      d.clears = turn.clears →
      d.binding? a = none →
      TurnMove m turn d (m.goTo (.turn { turn with pending := turn.pending.erase a }))
  | called {a : Direction} {binding : Binding (Reaction H)} {handler : H} :
      turn.pending.first? = some a →
      m.loop.broken = false →
      d.clears = turn.clears →
      d.binding? a = some binding →
      binding.reaction = .call handler →
      TurnMove m turn d
        ((m.setDescriptor turn.slot (d.spent a)).invoke (.ready handler turn.fd a)
          (.turn { turn with pending := turn.pending.erase a }))
  | delivered {a : Direction} {binding : Binding (Reaction H)} {signos : List Int}
      {kernel : Kernel} :
      turn.pending.first? = some a →
      m.loop.broken = false →
      d.clears = turn.clears →
      d.binding? a = some binding →
      binding.reaction = .deliver →
      m.host.kernel.drain turn.fd = (signos, kernel) →
      TurnMove m turn d
        (((m.setDescriptor turn.slot (d.spent a)).patch kernel m.loop.backend
          (m.loop.table.set turn.slot (d.spent a)) m.loop.timeouts).goTo
            (.deliver signos { turn with pending := turn.pending.erase a }))

theorem advanceTurn_ok
    {turn : Turn} (h : m.advanceTurn turn = .ok m') :
    ∃ d, m.loop.table.get? turn.slot = some d ∧ TurnMove m turn d m' := by
  unfold advanceTurn at h
  obtain ⟨d, hd, h⟩ := Except.bind_eq_ok_iff.1 h
  have hget := descriptor_eq_ok_iff.1 hd
  refine ⟨d, hget, ?_⟩
  have hended : m.endTurn turn = .ok m' →
      turn.pending.first? = none ∨ m.loop.broken = true ∨ d.clears ≠ turn.clears →
      TurnMove m turn d m' := by
    intro hend hwhy
    obtain ⟨m₁, hm₁, hend⟩ := Except.bind_eq_ok_iff.1 hend
    cases hend
    exact .ended hwhy hm₁
  cases hfirst : turn.pending.first? with
  | none =>
      simp only [hfirst] at h
      exact hended h (.inl hfirst)
  | some a =>
      simp only [hfirst] at h
      split at h
      next hstop =>
          refine hended h (.inr ?_)
          simpa using hstop
      next hgo =>
          rw [Bool.or_eq_true, not_or, Bool.not_eq_true] at hgo
          obtain ⟨hbroken, hclears⟩ := hgo
          have hclears' : d.clears = turn.clears := by simpa using hclears
          cases hbinding : d.binding? a with
          | none =>
              simp only [hbinding] at h
              cases h
              exact .unbound hfirst hclears' hbinding
          | some binding =>
              simp only [hbinding] at h
              have hspent : (if binding.oneshot = true then
                  m.setDescriptor turn.slot (d.setBinding a none) else m) =
                  m.setDescriptor turn.slot (d.spent a) := by
                unfold Descriptor.spent
                rw [hbinding]
                show _ = m.setDescriptor turn.slot
                  (if binding.oneshot = true then d.setBinding a none else d)
                split
                · rfl
                · rw [setDescriptor, DescriptorTable.set_get? hget]
                  rfl
              rw [hspent] at h
              cases hreaction : binding.reaction with
              | call handler =>
                  simp only [hreaction] at h
                  cases h
                  exact .called hfirst hbroken hclears' hbinding hreaction
              | deliver =>
                  simp only [hreaction] at h
                  cases h
                  exact .delivered hfirst hbroken hclears' hbinding hreaction rfl

/-- What becomes of a descriptor whose timeout has expired. -/
inductive Expiry (m : Machine H) (fd : Int) (now : Nat) (deferred : List Int)
    (slot : Nat) (d : Descriptor (Reaction H) H) : Machine H → Prop
  | deferred :
      d.lastTurn = m.loop.iteration →
      Expiry m fd now deferred slot d
        ((m.setDescriptor slot { d with timeout := none }).goTo
          (.timeouts now (deferred ++ [fd])))
  | dropped :
      d.lastTurn ≠ m.loop.iteration →
      d.onTimeout = none →
      Expiry m fd now deferred slot d
        ((m.setDescriptor slot { d with timeout := none }).goTo (.timeouts now deferred))
  | fired {handler : H} :
      d.lastTurn ≠ m.loop.iteration →
      d.onTimeout = some handler →
      Expiry m fd now deferred slot d
        ((m.setDescriptor slot { d with timeout := none, busy := true }).invoke
          (.timeout handler fd) (.timedOut slot d.clears now deferred))

theorem expire_ok
    {fd : Int} {now : Nat} {deferred : List Int}
    (h : m.expire fd now deferred = .ok m') :
    ∃ slot d, m.loop.table.slotOf? fd = some slot ∧ m.loop.table.get? slot = some d ∧
      Expiry m fd now deferred slot d m' := by
  unfold expire at h
  split at h
  next =>
      cases h
  next slot hslot =>
      obtain ⟨d, hd, h⟩ := Except.bind_eq_ok_iff.1 h
      refine ⟨slot, d, hslot, descriptor_eq_ok_iff.1 hd, ?_⟩
      dsimp only at h
      split at h
      next hlast =>
          cases h
          exact .deferred hlast
      next hlast =>
          split at h
          next hnone =>
              cases h
              exact .dropped hlast hnone
          next handler hsome =>
              cases h
              exact .fired hlast hsome

/-- An expired timeout takes its entry from the descriptor, which becomes busy if
it has a handler. -/
theorem Expiry.table_eq
    {fd : Int} {now : Nat} {deferred : List Int} {d : Descriptor (Reaction H) H}
    (h : Expiry m fd now deferred slot d m') :
    ∃ busy, m'.loop.table = m.loop.table.set slot { d with timeout := none, busy } := by
  cases h with
  | deferred _ =>
      exact ⟨d.busy, rfl⟩
  | dropped _ _ =>
      exact ⟨d.busy, rfl⟩
  | fired _ _ =>
      exact ⟨true, rfl⟩

theorem postpone_cases
    (now : Nat) (m : Machine H) (fd : Int) :
    postpone now m fd = m ∨
      ∃ slot d, m.loop.table.slotOf? fd = some slot ∧ m.loop.table.get? slot = some d ∧
        d.isClearing = false ∧ d.timeout = none ∧
        postpone now m fd = m.patch m.host.kernel m.loop.backend
          (m.loop.table.set slot { d with timeout := some (m.loop.timeouts.arm none fd now).1 })
          (m.loop.timeouts.arm none fd now).2 := by
  unfold postpone
  split
  next =>
      exact .inl rfl
  next slot hslot =>
      split
      next =>
          exact .inl rfl
      next d hd =>
          split
          next =>
              exact .inl rfl
          next hfree =>
              rw [Bool.or_eq_true, not_or, Bool.not_eq_true, Bool.not_eq_true] at hfree
              exact .inr ⟨slot, d, hslot, hd, hfree.1,
                Option.isSome_eq_false_iff.1 hfree.2 |> Option.isNone_iff_eq_none.1, rfl⟩

/-- What the report of one event comes to: nothing if nobody asked for it, and
else readiness queued for one descriptor. -/
theorem enqueue_ok
    {event : Event} (h : m.enqueue event = .ok m') :
    (m' = m ∧ ∀ slot d, m.loop.table.slotOf? event.fd = some slot →
      m.loop.table.get? slot = some d →
        d.isClearing = true ∨ event.ready ∩ d.wanted.directions = ∅) ∨
    ∃ slot d b k, m.loop.table.slotOf? event.fd = some slot ∧
      m.loop.table.get? slot = some d ∧ d.isClearing = false ∧
      event.ready ∩ d.wanted.directions ≠ ∅ ∧
      m.call (if d.rearms then (d.notified event.ready).call? true else none) d.fd =
        (.ok (), b, k) ∧
      m' = m.patch k b (m.loop.table.notify slot d event.ready) m.loop.timeouts := by
  unfold enqueue at h
  split at h
  next hslot =>
      cases h
      refine .inl ⟨rfl, ?_⟩
      intro slot d hslot'
      rw [hslot] at hslot'
      cases hslot'
  next slot hslot =>
      obtain ⟨d, hd, h⟩ := Except.bind_eq_ok_iff.1 h
      have hget := descriptor_eq_ok_iff.1 hd
      have hnothing : m' = m →
          d.isClearing = true ∨ event.ready ∩ d.wanted.directions = ∅ →
          m' = m ∧ ∀ slot d, m.loop.table.slotOf? event.fd = some slot →
            m.loop.table.get? slot = some d →
              d.isClearing = true ∨ event.ready ∩ d.wanted.directions = ∅ := by
        intro hsame hwhy
        refine ⟨hsame, ?_⟩
        intro slot' d' hslot' hd'
        cases hslot.symm.trans hslot'
        cases hget.symm.trans hd'
        exact hwhy
      split at h
      next hclearing =>
          cases h
          exact .inl (hnothing rfl (.inl hclearing))
      next hclearing =>
          dsimp only at h
          split at h
          next hempty =>
              cases h
              exact .inl (hnothing rfl (.inr (Directions.isEmpty_iff.1 hempty)))
          next hempty =>
              have hne : event.ready ∩ d.wanted.directions ≠ ∅ :=
                fun he => hempty (Directions.isEmpty_iff.2 he)
              refine .inr ⟨slot, d, ?_⟩
              have hset := DescriptorTable.get?_set_self hget (d.notified event.ready)
              split at h
              next hrearm =>
                  have hrearm' : d.rearms = true := hrearm
                  obtain ⟨e, b, k, he, hcall, rfl⟩ := align_ok h
                  cases hset.symm.trans he
                  refine ⟨b, k, hslot, hget, Bool.not_eq_true _ ▸ hclearing, hne, ?_, ?_⟩
                  · rw [if_pos hrearm']
                    exact hcall
                  · rw [DescriptorTable.notify, if_pos hrearm']
                    exact congrArg (fun t => m.patch k b t m.loop.timeouts)
                      (DescriptorTable.set_set (m.loop.table.activate slot) slot _ _)
              next hrearm =>
                  have hrearm' : ¬d.rearms = true := hrearm
                  cases h
                  refine ⟨m.loop.backend, m.host.kernel, hslot, hget,
                    Bool.not_eq_true _ ▸ hclearing, hne, ?_, ?_⟩
                  · rw [if_neg hrearm']
                    rfl
                  · rw [DescriptorTable.notify, if_neg hrearm']
                    rfl

end Machine
end CallbackLoop
