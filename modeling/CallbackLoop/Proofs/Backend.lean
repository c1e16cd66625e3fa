import CallbackLoop.Proofs.Kernel
import CallbackLoop.Proofs.Loop.Operations

/-!
# Calls of a backend

A backend holds a table of interests: epoll in the kernel, select in itself.  A
call that fits the table is accepted unless the descriptor is closed, out of
range, or hit by a fault, and it changes the entry of that descriptor alone.
-/

namespace CallbackLoop

variable {H : Type}

namespace BackendCall

/-- A call fits what is held for its descriptor: nothing is registered twice, and
only what is held is modified or unregistered. -/
def Fits (call : BackendCall) (held : Option Interest) : Prop :=
  match call with
  | register _ => held = none
  | modify _ => held.isSome = true
  | unregister => held.isSome = true

/-- What is held after a call. -/
def leaves : BackendCall → Option Interest
  | register interest => some interest
  | modify interest => some interest
  | unregister => none

/-- The change of an epoll table that a call asks for. -/
def change : BackendCall → EpollChange
  | register interest => .add (.ofInterest interest)
  | modify interest => .modify (.ofInterest interest)
  | unregister => .delete

end BackendCall

/-- Alignment only makes calls that fit, and they leave what is due. -/
theorem Descriptor.fits_of_call?
    {R : Type} {d : Descriptor R H} {force : Bool} {call : BackendCall}
    (h : d.call? force = some call) :
    call.Fits d.held ∧ call.leaves = d.due := by
  unfold call? at h
  unfold due
  cases hheld : d.held with
  | none =>
      rw [hheld] at h
      by_cases hempty : d.wanted.isEmpty = true
      · simp [hempty] at h
      · simp only [hempty] at h
        cases h
        rw [if_neg hempty]
        exact ⟨rfl, rfl⟩
  | some held =>
      rw [hheld] at h
      by_cases hempty : d.wanted.isEmpty = true
      · simp only [hempty] at h
        cases h
        rw [if_pos hempty]
        exact ⟨rfl, rfl⟩
      · rw [if_neg hempty]
        simp only [hempty] at h
        split at h
        next hfalse =>
            cases hfalse
        next =>
            split at h
            next =>
                cases h
                exact ⟨rfl, rfl⟩
            next =>
                cases h

/-- What an entry asks for after a change. -/
def EpollChange.mask? : EpollChange → Option Conditions
  | add mask => some mask
  | modify mask => some mask
  | delete => none

namespace Kernel

variable {k k' : Kernel} {fd : Int}

theorem obstacle_eq
    (k : Kernel) (name : CallName) (fd : Int) (variant : Option CallVariant) :
    ∃ faults, (k.obstacle name fd variant).2 = { k with faults } := by
  unfold obstacle
  split
  · exact ⟨k.faults, rfl⟩
  · exact ⟨_, rfl⟩

/-- Nothing stands in the way of a call on an open descriptor. -/
theorem obstacle_eq_none
    (name : CallName) (variant : Option CallVariant)
    (hopen : k.closed.contains fd = false) (hspares : k.Spares)
    (hname : name.registers = true) :
    (k.obstacle name fd variant).1 = none := by
  unfold obstacle
  rw [hopen]
  refine Fault.strike_eq_none fun f hf hsame => hspares f hf ?_
  rw [hsame]
  exact hname

theorem open_of_obstacle
    (k : Kernel) (name : CallName) (fd : Int) (variant : Option CallVariant)
    (h : (k.obstacle name fd variant).1 = none) :
    k.closed.contains fd = false := by
  unfold obstacle at h
  split at h
  next =>
      cases h
  next hopen =>
      exact Bool.not_eq_true _ ▸ hopen

/-- The mode of an open descriptor can be switched. -/
theorem applyMode_of_open
    (hopen : k.closed.contains fd = false) (hspares : k.Spares) (flags : Flags) :
    ∃ k', k.applyMode fd flags = (.ok (), k') := by
  unfold applyMode
  split
  next =>
      have hnone := obstacle_eq_none .getStatusFlags none hopen hspares rfl
      have hpasses := (leaves_obstacle k .getStatusFlags fd none).passes fun _ => False
      unfold setNonblocking getStatusFlags
      generalize k.obstacle .getStatusFlags fd none = result at hnone hpasses
      obtain ⟨failure, k₁⟩ := result
      cases hnone
      dsimp only
      split
      next =>
          exact ⟨_, rfl⟩
      next =>
          have hnone := obstacle_eq_none .setStatusFlags none
            (hpasses.closed fd id hopen) (hpasses.spares hspares) rfl
          unfold setStatusFlags
          generalize k₁.obstacle .setStatusFlags fd none = result at hnone
          obtain ⟨failure, k₂⟩ := result
          cases hnone
          exact ⟨_, rfl⟩
  next =>
      exact ⟨k, rfl⟩

theorem leaves_applyMode
    (k : Kernel) (fd : Int) (flags : Flags) :
    k.Leaves (k.applyMode fd flags).2 := by
  unfold applyMode
  split
  · exact leaves_setNonblocking k fd _
  · exact .refl k

/-- A change of a table concerns one entry, which is armed by it. -/
theorem getElem?_of_changeTable
    {table table' : EpollTable} {change : EpollChange}
    (h : changeTable table fd change = .ok table') (other : Int) :
    table'[other]? =
      if other = fd then change.mask?.map (EpollEntry.mk · false) else table[other]? := by
  have hinsert : ∀ mask, (table.insert fd { mask })[other]? =
      if other = fd then some { mask } else table[other]? := by
    intro mask
    rw [Std.TreeMap.getElem?_insert]
    by_cases heq : other = fd
    · simp [heq]
    · have hne : compare fd other ≠ .eq :=
        fun hc => heq (Std.LawfulEqCmp.compare_eq_iff_eq.1 hc).symm
      simp [heq, hne]
  cases change with
  | add mask =>
      simp only [changeTable] at h
      split at h
      · cases h
      · cases h
        exact hinsert mask
  | modify mask =>
      simp only [changeTable] at h
      split at h
      · cases h
        exact hinsert mask
      · cases h
  | delete =>
      simp only [changeTable] at h
      split at h
      · cases h
        rw [Std.TreeMap.getElem?_erase]
        by_cases heq : other = fd
        · simp [heq, EpollChange.mask?]
        · have hne : compare fd other ≠ .eq :=
            fun hc => heq (Std.LawfulEqCmp.compare_eq_iff_eq.1 hc).symm
          simp [heq, hne]
      · cases h

theorem contains_epollTable
    (k : Kernel) (number : Nat) (fd : Int) :
    (k.epollTable number).contains fd = (k.mask? number fd).isSome := by
  rw [Std.TreeMap.contains_eq_isSome_getElem?, mask?, Option.isSome_map]

/-- A change that succeeds is made, and nothing else. -/
theorem epollControl_ok
    {number : Nat} {change : EpollChange}
    (h : k.epollControl number fd change = (.ok (), k')) :
    k.closed.contains fd = false ∧ k'.closed = k.closed ∧ (k.Spares → k'.Spares) ∧
      ∀ other, k'.row? number other =
        if other = fd then change.mask?.map (EpollEntry.mk · false) else k.row? number other := by
  have hopen := open_of_obstacle k .epollControl fd (some (changeVariant change))
  have hleaves := leaves_obstacle k .epollControl fd (some (changeVariant change))
  obtain ⟨faults, hfaults⟩ := obstacle_eq k .epollControl fd (some (changeVariant change))
  unfold epollControl at h
  split at h
  next =>
      cases h
  next k₁ heq =>
      rw [heq] at hopen hleaves hfaults
      split at h
      next =>
          cases h
      next table htable =>
          cases h
          cases hfaults
          refine ⟨hopen rfl, rfl, hleaves.spares, fun other => ?_⟩
          rw [row?_insert]
          exact getElem?_of_changeTable htable other

/-- A change that fails is not made. -/
theorem leaves_of_epollControl_error
    {number : Nat} {change : EpollChange} {cause : Errno}
    (h : k.epollControl number fd change = (.error cause, k')) :
    k.Leaves k' := by
  have hobstacle := leaves_obstacle k .epollControl fd (some (changeVariant change))
  have hfailed : ∀ (k₁ : Kernel) (cause₁ : Errno),
      ((k₁.note (.epollControl fd change) cause₁).fail cause₁ : Except Errno Unit × Kernel) =
        (.error cause, k') →
      k₁.Leaves k' := by
    intro k₁ cause₁ heq
    cases heq
    exact ⟨rfl, rfl, id⟩
  unfold epollControl at h
  split at h
  next heq =>
      rw [heq] at hobstacle
      exact hobstacle.trans (hfailed _ _ h)
  next heq =>
      rw [heq] at hobstacle
      split at h
      next =>
          exact hobstacle.trans (hfailed _ _ h)
      next =>
          cases h

/-- A change that fits the table of an open descriptor succeeds. -/
theorem exists_epollControl
    {number : Nat} {change : EpollChange} {table : EpollTable}
    (hopen : k.closed.contains fd = false) (hspares : k.Spares)
    (htable : changeTable (k.epollTable number) fd change = .ok table) :
    ∃ k', k.epollControl number fd change = (.ok (), k') := by
  have hnone := obstacle_eq_none .epollControl (some (changeVariant change)) hopen hspares rfl
  obtain ⟨faults, hfaults⟩ := obstacle_eq k .epollControl fd (some (changeVariant change))
  unfold epollControl
  generalize k.obstacle .epollControl fd (some (changeVariant change)) = result at hnone hfaults
  obtain ⟨failure, k₁⟩ := result
  cases hnone
  cases hfaults
  have htable' : changeTable (Kernel.epollTable { k with faults } number) fd change =
    .ok table := htable
  simp only [htable']
  exact ⟨_, rfl⟩

end Kernel

namespace Backend

variable {b b' : Backend} {k k' : Kernel} {fd : Int} {held : Int → Option Interest}
  {call : BackendCall}

/-- The table of the backend holds the given interests, and no others.  Epoll keeps
of an interest what its mask can express. -/
def Holds (b : Backend) (k : Kernel) (held : Int → Option Interest) : Prop :=
  match b with
  | epoll e => ∀ fd, k.mask? e.number fd = (held fd).map .ofInterest
  | select t => ∀ fd, t.registered[fd]? = held fd

/-- Nothing but its table can keep the backend from accepting a call. -/
def Takes (b : Backend) (k : Kernel) (fd : Int) : Prop :=
  match b with
  | epoll _ => k.closed.contains fd = false
  | select _ => 0 ≤ fd ∧ fd < (SelectSets.limit : Int)

/-- A new backend holds nothing. -/
theorem holds_of_create
    {kind : BackendKind} {capacity : Nat}
    (h : create k kind capacity = (.ok b, k')) :
    b.Holds k' fun _ => none := by
  unfold create at h
  split at h
  next =>
      unfold EpollInstance.create Kernel.epollCreate at h
      split at h
      next heq =>
          cases h
          split at heq
          next =>
              cases heq
          next heq' =>
              cases heq
              split at heq'
              next =>
                  cases heq'
              next =>
                  cases heq'
                  intro fd
                  rw [Kernel.mask?, Kernel.epollTable, Std.TreeMap.getD_insert]
                  simp
      next =>
          cases h
  next =>
      cases h
      intro fd
      exact Std.TreeMap.getElem?_emptyc
  next =>
      cases h

/-- The kernel lays no fault, and as far as the backend is concerned it closes no
descriptor but those in `gone` and drops no other entry. -/
structure Keeps (b : Backend) (gone : Int → Prop) (k k' : Kernel) : Prop where
  spares : k.Spares → k'.Spares
  closed : ∀ fd, ¬gone fd → k.closed.contains fd = false → k'.closed.contains fd = false
  mask? : ∀ e, b = epoll e → ∀ fd, (gone fd → k.mask? e.number fd = none) →
    k'.mask? e.number fd = k.mask? e.number fd

theorem keeps_of_passes
    {gone : Int → Prop} (b : Backend) (h : k.Passes gone k') :
    b.Keeps gone k k' :=
  ⟨h.spares, h.closed, fun e _ => h.mask? e.number⟩

theorem Holds.keeps
    {gone : Int → Prop} (h : b.Holds k held) (hkeeps : b.Keeps gone k k')
    (hgone : ∀ fd, gone fd → held fd = none) :
    b.Holds k' held := by
  cases b with
  | epoll e =>
      intro fd
      have hmask : k.mask? e.number fd = (held fd).map .ofInterest := h fd
      rw [hkeeps.mask? e rfl fd ?_]
      · exact hmask
      · intro hfd
        rw [hmask, hgone fd hfd]
        rfl
  | select t =>
      exact h

theorem Takes.keeps
    {gone : Int → Prop} (h : b.Takes k fd) (hkeeps : b.Keeps gone k k') (hfd : ¬gone fd) :
    b.Takes k' fd := by
  cases b with
  | epoll e =>
      exact hkeeps.closed fd hfd h
  | select t =>
      exact h

/-- What is left when a call about a descriptor was accepted. -/
structure Accepted (b : Backend) (k : Kernel) (fd : Int) (held : Int → Option Interest)
    (left : Option Interest) (b' : Backend) (k' : Kernel) : Prop where
  holds : b'.Holds k' (Function.update held fd left)
  spares : k.Spares → k'.Spares
  takes : ∀ other, b.Takes k other → b'.Takes k' other
  taken : left ≠ none → b'.Takes k' fd

theorem changeTable_of_fits
    {e : EpollInstance} (h : (epoll e).Holds k held) (hfits : call.Fits (held fd)) :
    ∃ table, Kernel.changeTable (k.epollTable e.number) fd call.change = .ok table := by
  have hcontains : (k.epollTable e.number).contains fd = (held fd).isSome := by
    have hmask : k.mask? e.number fd = (held fd).map .ofInterest := h fd
    rw [Kernel.contains_epollTable, hmask, Option.isSome_map]
  cases call with
  | register interest =>
      have hnone : held fd = none := hfits
      rw [hnone] at hcontains
      exact ⟨_, if_neg (Bool.not_eq_true _ ▸ hcontains)⟩
  | modify interest =>
      exact ⟨_, if_pos (hcontains.trans hfits)⟩
  | unregister =>
      exact ⟨_, if_pos (hcontains.trans hfits)⟩

/-- What changes one entry of an epoll table as a call says leaves the table as it
should be. -/
theorem accepted_of_epollControl
    {e : EpollInstance} (h : (epoll e).Holds k held)
    (hcontrol : k.epollControl e.number fd call.change = (.ok (), k')) :
    Accepted (epoll e) k fd held call.leaves (epoll e) k' := by
  obtain ⟨hopen, hclosed, hspares, hrow⟩ := Kernel.epollControl_ok hcontrol
  have htakes : ∀ other, k.closed.contains other = false → (epoll e).Takes k' other := by
    intro other hother
    show k'.closed.contains other = false
    rw [hclosed]
    exact hother
  refine ⟨?_, hspares, htakes, fun _ => htakes fd hopen⟩
  intro other
  rw [Kernel.mask?_eq, hrow, Function.update_apply]
  split
  · cases call <;> rfl
  · exact h other

/-- A call that fits is accepted. -/
theorem exists_apply
    (h : b.Holds k held) (hfits : call.Fits (held fd)) (htakes : b.Takes k fd)
    (hspares : k.Spares) :
    ∃ b' k', call.apply b k fd = (.ok (), b', k') := by
  cases b with
  | epoll e =>
      obtain ⟨table, htable⟩ := changeTable_of_fits h hfits
      obtain ⟨k', hcontrol⟩ := Kernel.exists_epollControl htakes hspares htable
      refine ⟨epoll e, k', ?_⟩
      cases call with
      | register interest =>
          exact congrArg (unchanged (epoll e)) hcontrol
      | modify interest =>
          exact congrArg (unchanged (epoll e)) hcontrol
      | unregister =>
          have hcontrol' : k.epollControl e.number fd .delete = (.ok (), k') := hcontrol
          simp only [BackendCall.apply, unregister, EpollInstance.unregister, hcontrol']
          rfl
  | select t =>
      cases call with
      | register interest =>
          obtain ⟨hlow, hhigh⟩ : 0 ≤ fd ∧ fd < (SelectSets.limit : Int) := htakes
          have hrange : (decide (fd < 0) || decide ((SelectSets.limit : Int) ≤ fd)) = false := by
            rw [Bool.or_eq_false_iff, decide_eq_false_iff_not, decide_eq_false_iff_not]
            omega
          simp only [BackendCall.apply, register, SelectTable.register, hrange]
          exact ⟨_, _, rfl⟩
      | modify interest =>
          have hheld : t.registered[fd]? = held fd := h fd
          have hcontains : t.registered.contains fd = true := by
            rw [Std.TreeMap.contains_eq_isSome_getElem?, hheld]
            exact hfits
          simp only [BackendCall.apply, modify, SelectTable.modify, hcontains]
          exact ⟨_, _, rfl⟩
      | unregister =>
          exact ⟨_, _, rfl⟩

theorem registered_insert
    {t : SelectTable} (h : ∀ fd, t.registered[fd]? = held fd) (interest : Interest)
    (other : Int) :
    (t.registered.insert fd interest)[other]? =
      Function.update held fd (some interest) other := by
  rw [Std.TreeMap.getElem?_insert, Function.update_apply]
  by_cases heq : other = fd
  · simp [heq]
  · have hne : compare fd other ≠ .eq :=
      fun hc => heq (Std.LawfulEqCmp.compare_eq_iff_eq.1 hc).symm
    simp [heq, hne, h]

theorem registered_unregister
    {t : SelectTable} (h : ∀ fd, t.registered[fd]? = held fd) (other : Int) :
    (t.unregister fd).registered[other]? = Function.update held fd none other := by
  rw [Function.update_apply, SelectTable.unregister]
  split
  next =>
      rw [Std.TreeMap.getElem?_erase]
      by_cases heq : other = fd
      · simp [heq]
      · have hne : compare fd other ≠ .eq :=
          fun hc => heq (Std.LawfulEqCmp.compare_eq_iff_eq.1 hc).symm
        simp [heq, hne, h]
  next hcontains =>
      split
      next heq =>
          rw [Bool.not_eq_true, Std.TreeMap.contains_eq_isSome_getElem?,
            Option.isSome_eq_false_iff, Option.isNone_iff_eq_none] at hcontains
          rw [heq, hcontains]
      next =>
          exact h other

theorem unchanged_eq
    {α : Type} {result : Except Errno α × Kernel} {outcome : Except Errno α}
    (h : b.unchanged result = (outcome, b', k')) :
    result = (outcome, k') ∧ b' = b := by
  obtain ⟨outcome', k₁⟩ := result
  cases h
  exact ⟨rfl, rfl⟩

/-- A call that fits and is accepted changes the entry of its descriptor. -/
theorem accepted_of_apply
    (h : b.Holds k held) (hfits : call.Fits (held fd))
    (hheld : held fd ≠ none → b.Takes k fd ∧ k.Spares)
    (hcall : call.apply b k fd = (.ok (), b', k')) :
    Accepted b k fd held call.leaves b' k' := by
  have hsome : (held fd).isSome = true → b.Takes k fd ∧ k.Spares := by
    intro hsome
    exact hheld (Option.isSome_iff_ne_none.1 hsome)
  cases b with
  | epoll e =>
      cases call with
      | register interest =>
          obtain ⟨hcontrol, rfl⟩ := unchanged_eq hcall
          exact accepted_of_epollControl h hcontrol
      | modify interest =>
          obtain ⟨hcontrol, rfl⟩ := unchanged_eq hcall
          exact accepted_of_epollControl h hcontrol
      | unregister =>
          -- Epoll forgives that it does not know a descriptor, but here it does.
          obtain ⟨hopen, hspares⟩ := hsome hfits
          obtain ⟨table, htable⟩ := changeTable_of_fits h hfits
          obtain ⟨k₁, hcontrol⟩ := Kernel.exists_epollControl hopen hspares htable
          have hcontrol' : k.epollControl e.number fd .delete = (.ok (), k₁) := hcontrol
          simp only [BackendCall.apply, unregister, EpollInstance.unregister, hcontrol'] at hcall
          cases hcall
          exact accepted_of_epollControl h hcontrol
  | select t =>
      cases call with
      | register interest =>
          simp only [BackendCall.apply, register, SelectTable.register] at hcall
          split at hcall
          next t' hregister =>
              cases hcall
              split at hregister
              next =>
                  cases hregister
              next hrange =>
                  cases hregister
                  rw [Bool.or_eq_true, decide_eq_true_eq, decide_eq_true_eq] at hrange
                  refine ⟨registered_insert h interest, id, fun _ => id, fun _ => ?_⟩
                  show 0 ≤ fd ∧ fd < (SelectSets.limit : Int)
                  omega
          next =>
              cases hcall
      | modify interest =>
          simp only [BackendCall.apply, modify, SelectTable.modify] at hcall
          split at hcall
          next t' hmodify =>
              cases hcall
              split at hmodify
              next =>
                  cases hmodify
                  exact ⟨registered_insert h interest, id, fun _ => id,
                    fun _ => (hsome hfits).1⟩
              next =>
                  cases hmodify
          next =>
              cases hcall
      | unregister =>
          cases hcall
          exact ⟨registered_unregister h, id, fun _ => id, fun hleft => absurd rfl hleft⟩

/-- Without a call everything is left as it is. -/
theorem accepted_self
    (h : b.Holds k held) (hheld : held fd ≠ none → b.Takes k fd) :
    Accepted b k fd held (held fd) b k where
  holds := by
    rw [Function.update_eq_self]
    exact h
  spares := id
  takes _ := id
  taken := hheld

end Backend

namespace Machine

variable {m : Machine H} {b : Backend} {k : Kernel} {held : Int → Option Interest}
  {d : Descriptor (Reaction H) H}

/-- Alignment leaves what is due, if the backend holds what the descriptor says. -/
theorem accepted_of_align
    {force : Bool} (h : m.loop.backend.Holds m.host.kernel held) (hsame : held d.fd = d.held)
    (hheld : d.held ≠ none → m.loop.backend.Takes m.host.kernel d.fd ∧ m.host.kernel.Spares)
    (hcall : m.call (d.call? force) d.fd = (.ok (), b, k)) :
    Backend.Accepted m.loop.backend m.host.kernel d.fd held d.due b k := by
  cases hneeded : d.call? force with
  | none =>
      rw [hneeded] at hcall
      cases hcall
      rw [← Descriptor.held_eq_due_of_call? hneeded, ← hsame]
      exact Backend.accepted_self h fun hne => (hheld (hsame ▸ hne)).1
  | some call =>
      rw [hneeded] at hcall
      obtain ⟨hfits, hleaves⟩ := Descriptor.fits_of_call? hneeded
      rw [← hleaves]
      refine Backend.accepted_of_apply h ?_ ?_ hcall
      · rw [hsame]
        exact hfits
      · rw [hsame]
        exact hheld

/-- Alignment is accepted. -/
theorem exists_call_of_align
    {force : Bool} (h : m.loop.backend.Holds m.host.kernel held) (hsame : held d.fd = d.held)
    (htakes : d.held ≠ none ∨ d.due ≠ none → m.loop.backend.Takes m.host.kernel d.fd)
    (hspares : m.host.kernel.Spares) :
    ∃ b k, m.call (d.call? force) d.fd = (.ok (), b, k) := by
  cases hneeded : d.call? force with
  | none =>
      exact ⟨_, _, rfl⟩
  | some call =>
      obtain ⟨hfits, hleaves⟩ := Descriptor.fits_of_call? hneeded
      refine Backend.exists_apply h (by rw [hsame]; exact hfits) (htakes ?_) hspares
      cases call with
      | register interest =>
          exact .inr (by rw [← hleaves]; exact Option.some_ne_none interest)
      | modify interest =>
          exact .inl (Option.isSome_iff_ne_none.1 hfits)
      | unregister =>
          exact .inl (Option.isSome_iff_ne_none.1 hfits)

end Machine
end CallbackLoop
