import CallbackLoop.Backend.Basic
import CallbackLoop.Signal.SelfPipe
import Mathlib.Algebra.BigOperators.Group.List.Basic
import Mathlib.Algebra.GroupWithZero.Nat

/-!
# What the kernel upholds

Loops share the dispositions of signals and the pipes with each other.  No call of a loop
but those on hubs changes a disposition, and none takes a pipe away.  Faults are never laid
by a call, they only wear off.  `Kernel.Upholds` says these three things of two kernels.
-/

namespace CallbackLoop

/-- Changing one number changes the sum by as much. -/
theorem List.sum_set_add
    {l : List Nat} {n : Nat} (hn : n < l.length) (x : Nat) :
    (l.set n x).sum + l[n] = l.sum + x := by
  have hnew := List.sum_set l n x
  have hold := List.sum_set l n l[n]
  rw [List.set_getElem_self] at hold
  rw [if_pos hn] at hnew hold
  omega

/-- A fault after calls have struck it or were let through: it may be used up. -/
structure Fault.Wears (f f' : Fault) : Prop where
  name : f'.name = f.name
  subject : f'.subject = f.subject
  variant : f'.variant = f.variant
  errno : f'.errno = f.errno
  times : f'.times ≤ f.times

namespace Fault

variable {f f' f'' : Fault} {faults : List Fault} {site : CallSite}

theorem Wears.refl
    (f : Fault) :
    f.Wears f :=
  ⟨rfl, rfl, rfl, rfl, Nat.le_refl _⟩

theorem Wears.trans
    (h : f.Wears f') (h' : f'.Wears f'') :
    f.Wears f'' where
  name := h'.name.trans h.name
  subject := h'.subject.trans h.subject
  variant := h'.variant.trans h.variant
  errno := h'.errno.trans h.errno
  times := Nat.le_trans h'.times h.times

/-- A worn fault fits no call that it did not fit before. -/
theorem Wears.fits
    (h : f.Wears f') (hfits : f'.fits site = true) :
    f.fits site = true := by
  simp only [Fault.fits, h.name, h.subject, h.variant, Bool.and_eq_true, bne_iff_ne] at hfits ⊢
  refine ⟨hfits.1, fun hzero => hfits.2 ?_⟩
  have htimes := h.times
  omega

theorem exists_wears_of_mem_strike
    (h : f' ∈ (strike site faults).2) :
    ∃ f ∈ faults, f.Wears f' := by
  induction faults with
  | nil =>
      cases h
  | cons f faults ih =>
      have hrest : f' ∈ (strike site faults).2 → ∃ g ∈ f :: faults, g.Wears f' := by
        intro hmem
        obtain ⟨g, hg, hwears⟩ := ih hmem
        exact ⟨g, List.mem_cons_of_mem f hg, hwears⟩
      unfold strike at h
      split at h
      next =>
          split at h
          next =>
              rcases List.mem_cons.1 h with rfl | hmem
              · exact ⟨f, List.mem_cons_self, rfl, rfl, rfl, rfl, Nat.sub_le _ _⟩
              · exact ⟨f', List.mem_cons_of_mem f hmem, .refl f'⟩
          next =>
              rcases List.mem_cons.1 h with rfl | hmem
              · exact ⟨f, List.mem_cons_self, rfl, rfl, rfl, rfl, Nat.le_refl _⟩
              · exact hrest hmem
      next =>
          rcases List.mem_cons.1 h with rfl | hmem
          · exact ⟨f', List.mem_cons_self, .refl f'⟩
          · exact hrest hmem

/-- A call fails only by a fault that fits it, and with its error number. -/
theorem exists_fits_of_strike
    {cause : Errno} (h : (strike site faults).1 = some cause) :
    ∃ f ∈ faults, f.fits site = true ∧ f.errno = cause := by
  induction faults with
  | nil =>
      cases h
  | cons f faults ih =>
      have hrest : (strike site faults).1 = some cause →
          ∃ g ∈ f :: faults, g.fits site = true ∧ g.errno = cause := by
        intro hhit
        obtain ⟨g, hg, hfits⟩ := ih hhit
        exact ⟨g, List.mem_cons_of_mem f hg, hfits⟩
      unfold strike at h
      split at h
      next hfits =>
          split at h
          · exact ⟨f, List.mem_cons_self, hfits, Option.some.inj h⟩
          · exact hrest h
      next =>
          exact hrest h

/-- The failures that faults still bring. -/
def remaining (faults : List Fault) : Nat :=
  (faults.map (·.times)).sum

/-- A call that fails uses up one failure. -/
theorem remaining_strike
    (site : CallSite) (faults : List Fault) :
    remaining (strike site faults).2 + (strike site faults).1.toList.length =
      remaining faults := by
  induction faults with
  | nil =>
      rfl
  | cons f faults ih =>
      simp only [remaining, List.map_cons, List.sum_cons] at ih ⊢
      unfold strike
      split
      next hfits =>
          have htimes : f.times ≠ 0 := by
            simp only [Fault.fits, Bool.and_eq_true, bne_iff_ne] at hfits
            exact hfits.2
          split
          · simp only [List.map_cons, List.sum_cons, Option.toList_some, List.length_singleton]
            omega
          · simp only [List.map_cons, List.sum_cons]
            omega
      next =>
          simp only [List.map_cons, List.sum_cons]
          omega

end Fault

/-- Signals keep their dispositions and pipes their numbers, and faults only wear off. -/
structure Kernel.Upholds (k k' : Kernel) : Prop where
  caught : k'.caught = k.caught
  pipes : k.pipes.size ≤ k'.pipes.size
  faults : ∀ f' ∈ k'.faults, ∃ f ∈ k.faults, f.Wears f'

namespace Kernel

section Relation

variable {k k' k'' : Kernel}

theorem Upholds.refl
    (k : Kernel) :
    k.Upholds k :=
  ⟨rfl, Nat.le_refl _, fun f hf => ⟨f, hf, .refl f⟩⟩

theorem Upholds.trans
    (h : k.Upholds k') (h' : k'.Upholds k'') :
    k.Upholds k'' where
  caught := h'.caught.trans h.caught
  pipes := Nat.le_trans h.pipes h'.pipes
  faults f'' hf'' := by
    obtain ⟨f', hf', hwears'⟩ := h'.faults f'' hf''
    obtain ⟨f, hf, hwears⟩ := h.faults f' hf'
    exact ⟨f, hf, hwears.trans hwears'⟩

/-- What differs in other things only is upheld as well. -/
theorem Upholds.of_eq
    (hcaught : k'.caught = k.caught) (hpipes : k'.pipes.size = k.pipes.size)
    (hfaults : k'.faults = k.faults) :
    k.Upholds k' :=
  ⟨hcaught, Nat.le_of_eq hpipes.symm, fun f hf => ⟨f, hfaults ▸ hf, .refl f⟩⟩

/-- A fault that fits a call has fitted it before. -/
theorem Upholds.exists_fits
    {site : CallSite} {f' : Fault} (h : k.Upholds k') (hf' : f' ∈ k'.faults)
    (hfits : f'.fits site = true) :
    ∃ f ∈ k.faults, f.fits site = true ∧ f.errno = f'.errno := by
  obtain ⟨f, hf, hwears⟩ := h.faults f' hf'
  exact ⟨f, hf, hwears.fits hfits, hwears.errno.symm⟩

end Relation

variable (k : Kernel)

theorem upholds_note
    (call : Call) (failure : Option Errno) :
    k.Upholds (k.note call failure) :=
  .of_eq rfl rfl rfl

theorem upholds_fail
    {α : Type} (cause : Errno) :
    k.Upholds (k.fail cause : Except Errno α × Kernel).2 :=
  .of_eq rfl rfl rfl

theorem upholds_strike
    (site : CallSite) :
    k.Upholds (k.strike site).2 :=
  ⟨rfl, Nat.le_refl _, fun _ => Fault.exists_wears_of_mem_strike⟩

/-- What changing the modes of descriptors changes.  Faults only wear off. -/
def Modes (k k' : Kernel) : Prop :=
  ∃ errno statusFlags faults record, k' = { k with errno, statusFlags, faults, record } ∧
    ∀ f' ∈ faults, ∃ f ∈ k.faults, f.Wears f'

section Modes

variable {k k' k'' : Kernel}

theorem Modes.upholds
    (h : k.Modes k') :
    k.Upholds k' := by
  obtain ⟨_, _, _, _, rfl, hworn⟩ := h
  exact ⟨rfl, Nat.le_refl _, hworn⟩

theorem Modes.refl
    (k : Kernel) :
    k.Modes k :=
  ⟨_, _, _, _, rfl, (Upholds.refl k).faults⟩

theorem Modes.trans
    (h : k.Modes k') (h' : k'.Modes k'') :
    k.Modes k'' := by
  have hworn := (h.upholds.trans h'.upholds).faults
  obtain ⟨_, _, _, _, rfl, -⟩ := h
  obtain ⟨_, _, _, _, rfl, -⟩ := h'
  exact ⟨_, _, _, _, rfl, hworn⟩

end Modes

theorem modes_fail
    {α : Type} (cause : Errno) :
    k.Modes (k.fail cause : Except Errno α × Kernel).2 :=
  ⟨_, _, _, _, rfl, (Upholds.refl k).faults⟩

theorem modes_note
    (call : Call) (failure : Option Errno) :
    k.Modes (k.note call failure) :=
  ⟨_, _, _, _, rfl, (Upholds.refl k).faults⟩

theorem modes_obstacle
    (name : CallName) (fd : Int) (variant : Option CallVariant) :
    k.Modes (k.obstacle name fd variant).2 := by
  unfold obstacle
  split
  · exact .refl k
  · exact ⟨_, _, _, _, rfl, (upholds_strike k _).faults⟩

theorem modes_getStatusFlags
    (fd : Int) :
    k.Modes (k.getStatusFlags fd).2 := by
  have hobstacle := modes_obstacle k .getStatusFlags fd none
  unfold getStatusFlags
  split
  next heq =>
      rw [heq] at hobstacle
      exact hobstacle.trans (modes_fail _ _)
  next heq =>
      rw [heq] at hobstacle
      exact hobstacle

theorem modes_setStatusFlags
    (fd : Int) (flags : Nat) :
    k.Modes (k.setStatusFlags fd flags).2 := by
  have hobstacle := modes_obstacle k .setStatusFlags fd none
  unfold setStatusFlags
  split
  next heq =>
      rw [heq] at hobstacle
      exact hobstacle.trans ((modes_note _ _ _).trans (modes_fail _ _))
  next k' heq =>
      rw [heq] at hobstacle
      exact hobstacle.trans ⟨_, _, _, _, rfl, (Upholds.refl k').faults⟩

theorem modes_setNonblocking
    (fd : Int) (nonblocking : Bool) :
    k.Modes (k.setNonblocking fd nonblocking).2 := by
  have hget := modes_getStatusFlags k fd
  unfold setNonblocking
  split
  next heq =>
      rw [heq] at hget
      exact hget
  next heq =>
      rw [heq] at hget
      dsimp only
      split
      · exact hget
      · exact hget.trans (modes_setStatusFlags _ fd _)

theorem modes_setCloseOnExec
    (fd : Int) :
    k.Modes (k.setCloseOnExec fd).2 := by
  have hget := modes_obstacle k .getDescriptorFlags fd none
  unfold setCloseOnExec
  split
  next heq =>
      rw [heq] at hget
      exact hget.trans (modes_fail _ _)
  next k' heq =>
      rw [heq] at hget
      have hset := modes_obstacle k' .setDescriptorFlags fd none
      split
      next heq =>
          rw [heq] at hset
          exact (hget.trans hset).trans ((modes_note _ _ _).trans (modes_fail _ _))
      next heq =>
          rw [heq] at hset
          exact (hget.trans hset).trans (modes_note _ _ _)

theorem modes_preparePipe
    (fds : List Int) :
    k.Modes (k.preparePipe fds).2 := by
  induction fds generalizing k with
  | nil =>
      exact .refl k
  | cons fd fds ih =>
      have hmode := modes_setNonblocking k fd true
      unfold preparePipe
      split
      next heq =>
          rw [heq] at hmode
          exact hmode
      next k' heq =>
          rw [heq] at hmode
          have hexec := modes_setCloseOnExec k' fd
          split
          next heq =>
              rw [heq] at hexec
              exact hmode.trans hexec
          next heq =>
              rw [heq] at hexec
              exact (hmode.trans hexec).trans (ih _)

theorem upholds_read
    (fd : Int) (count : Nat) :
    k.Upholds (k.read fd count).2 := by
  have hobstacle := (modes_obstacle k .read fd none).upholds
  unfold read
  split
  next heq =>
      rw [heq] at hobstacle
      exact hobstacle.trans (upholds_fail _ _)
  next heq =>
      rw [heq] at hobstacle
      split
      next =>
          exact hobstacle.trans (upholds_fail _ _)
      next =>
          split
          next =>
              split
              · exact hobstacle
              · exact hobstacle.trans (upholds_fail _ _)
          next =>
              exact hobstacle.trans (.of_eq rfl Array.size_setIfInBounds rfl)

theorem upholds_write
    (fd : Int) (bytes : List UInt8) :
    k.Upholds (k.write fd bytes).2 := by
  have hobstacle := (modes_obstacle k .write fd none).upholds
  unfold write
  split
  next heq =>
      rw [heq] at hobstacle
      exact hobstacle.trans (.of_eq rfl rfl rfl)
  next heq =>
      rw [heq] at hobstacle
      split
      next =>
          exact hobstacle.trans (.of_eq rfl rfl rfl)
      next =>
          dsimp only
          split
          · exact hobstacle.trans (.of_eq rfl Array.size_setIfInBounds rfl)
          · exact hobstacle.trans (.of_eq rfl rfl rfl)

theorem upholds_drain
    (fd : Int) :
    k.Upholds (k.drain fd).2 := by
  have hdrain : ∀ n k, Upholds k (drainFrom fd n k).2 := by
    intro n
    induction n with
    | zero =>
        exact Upholds.refl
    | succ n ih =>
        intro k
        have hread := upholds_read k fd drainChunk
        unfold drainFrom
        split
        next heq =>
            rw [heq] at hread
            exact hread
        next heq =>
            rw [heq] at hread
            exact hread.trans (ih _)
        next heq =>
            rw [heq] at hread
            split
            · exact hread.trans (ih _)
            · exact hread
  exact hdrain k.drainBound k

theorem upholds_broadcast
    (byte : UInt8) (members : List Int) :
    k.Upholds (Host.broadcast k byte members) := by
  induction members generalizing k with
  | nil =>
      exact .refl k
  | cons fd members ih =>
      exact (upholds_write k fd [byte]).trans (ih _)

/-- What a change of a disposition leaves alone. -/
theorem frame_setDisposition
    (signo : Int) (disposition : Disposition) :
    ∃ caught errno faults record,
      (k.setDisposition signo disposition).2 = { k with caught, errno, faults, record } ∧
        ∀ f' ∈ faults, ∃ f ∈ k.faults, f.Wears f' := by
  have hhit : ∀ site, ∃ faults,
      (if signo = 32 || signo = 33 then (some Errno.invalidArgument, k)
        else k.strike site).2 = { k with faults } ∧
          ∀ f' ∈ faults, ∃ f ∈ k.faults, f.Wears f' := by
    intro site
    split
    · exact ⟨k.faults, rfl, (Upholds.refl k).faults⟩
    · exact ⟨_, rfl, (upholds_strike k site).faults⟩
  unfold setDisposition
  dsimp only
  generalize hsite : CallSite.mk .sigaction (some signo) _ = site
  obtain ⟨faults, hfaults, hworn⟩ := hhit site
  generalize (if signo = 32 || signo = 33 then (some Errno.invalidArgument, k)
    else k.strike site : Option Errno × Kernel) = hit at hfaults ⊢
  obtain ⟨failure, k'⟩ := hit
  dsimp only at hfaults
  subst hfaults
  cases failure with
  | some cause =>
      exact ⟨_, _, _, _, rfl, hworn⟩
  | none =>
      cases disposition <;> exact ⟨_, _, _, _, rfl, hworn⟩

theorem pipes_setDisposition
    (signo : Int) (disposition : Disposition) :
    (k.setDisposition signo disposition).2.pipes = k.pipes := by
  obtain ⟨_, _, _, _, heq, -⟩ := k.frame_setDisposition signo disposition
  rw [heq]

theorem closed_setDisposition
    (signo : Int) (disposition : Disposition) :
    (k.setDisposition signo disposition).2.closed = k.closed := by
  obtain ⟨_, _, _, _, heq, -⟩ := k.frame_setDisposition signo disposition
  rw [heq]

theorem upholds_epollControl
    (number : Nat) (fd : Int) (change : EpollChange) :
    k.Upholds (k.epollControl number fd change).2 := by
  have hobstacle := (modes_obstacle k .epollControl fd (some (changeVariant change))).upholds
  unfold epollControl
  split
  next heq =>
      rw [heq] at hobstacle
      exact hobstacle.trans (.of_eq rfl rfl rfl)
  next heq =>
      rw [heq] at hobstacle
      split <;> exact hobstacle.trans (.of_eq rfl rfl rfl)

end Kernel

namespace Host

variable (h : Host)

theorem upholds_raise
    (signo : Int) :
    h.kernel.Upholds (h.raise signo).kernel := by
  unfold raise
  split
  · unfold catchSignal
    split
    · exact Kernel.upholds_note _ _ _
    · refine (Kernel.upholds_note h.kernel (.signal signo .handler) none).trans ?_
      exact (Kernel.upholds_broadcast _ _ _).trans (.of_eq rfl rfl rfl)
  · exact Kernel.upholds_note _ _ _

theorem hubs_raise
    (signo : Int) :
    (h.raise signo).hubs = h.hubs ∧ (h.raise signo).owners = h.owners := by
  unfold raise catchSignal
  split
  · split <;> exact ⟨rfl, rfl⟩
  · exact ⟨rfl, rfl⟩

end Host

/-- The hubs and the owners of signals stay as they are, and the kernel upholds the rest. -/
structure Host.Upholds (h h' : Host) : Prop where
  hubs : h'.hubs = h.hubs
  owners : h'.owners = h.owners
  kernel : h.kernel.Upholds h'.kernel

namespace Host

section Relation

variable {h h' h'' : Host}

theorem Upholds.refl
    (h : Host) :
    h.Upholds h :=
  ⟨rfl, rfl, .refl _⟩

theorem Upholds.trans
    (hfirst : h.Upholds h') (hsecond : h'.Upholds h'') :
    h.Upholds h'' where
  hubs := hsecond.hubs.trans hfirst.hubs
  owners := hsecond.owners.trans hfirst.owners
  kernel := hfirst.kernel.trans hsecond.kernel

theorem Upholds.of_kernel
    {kernel : Kernel} (hkernel : h.kernel.Upholds kernel) :
    h.Upholds { h with kernel } :=
  ⟨rfl, rfl, hkernel⟩

end Relation

variable (h : Host)

theorem upholds_happen
    (entry : WaitEntry) :
    h.Upholds (h.happen entry) := by
  have hclosed : ∀ (fds : List Int) (k : Kernel), k.Upholds (fds.foldl Kernel.close k) := by
    intro fds
    induction fds with
    | nil =>
        exact Kernel.Upholds.refl
    | cons fd fds ih =>
        exact fun k => (show k.Upholds (k.close fd) from .of_eq rfl rfl rfl).trans (ih _)
  have hopened : ∀ (fds : List Int) (k : Kernel), k.Upholds (fds.foldl Kernel.reopen k) := by
    intro fds
    induction fds with
    | nil =>
        exact Kernel.Upholds.refl
    | cons fd fds ih =>
        exact fun k => (show k.Upholds (k.reopen fd) from .of_eq rfl rfl rfl).trans (ih _)
  have hraised : ∀ (signos : List Int) (h : Host), h.Upholds (signos.foldl raise h) := by
    intro signos
    induction signos with
    | nil =>
        exact Upholds.refl
    | cons signo signos ih =>
        intro h
        obtain ⟨hhubs, howners⟩ := hubs_raise h signo
        exact Upholds.trans ⟨hhubs, howners, upholds_raise h signo⟩ (ih _)
  unfold happen
  exact Upholds.trans
    (.of_kernel ((hclosed entry.closed h.kernel).trans (hopened entry.opened _)))
    (hraised entry.raised _)

theorem upholds_await
    {β : Type} {timeout : Option Nat}
    {collect : Bool → List (Int × Conditions) → Kernel → Report β × Kernel}
    (hcollect : ∀ raw ready (k : Kernel), k.Upholds (collect raw ready k).2) :
    h.Upholds (h.await timeout collect).2 := by
  have hentry : h.kernel.Upholds h.kernel.nextEntry.2 := by
    unfold Kernel.nextEntry
    dsimp only
    split <;> exact .of_eq rfl rfl rfl
  unfold await
  split
  · exact .of_kernel (Kernel.upholds_fail (α := β) _ _)
  · generalize h.kernel.nextEntry = next at hentry
    obtain ⟨entry, kernel⟩ := next
    have hhappen : h.Upholds ({ h with kernel }.happen entry) :=
      (Upholds.of_kernel hentry).trans (upholds_happen _ entry)
    dsimp only at hhappen ⊢
    generalize { h with kernel }.happen entry = host at hhappen ⊢
    have hadvance : ∀ (k : Kernel) (duration : Nat), k.Upholds (k.advance duration) :=
      fun _ _ => .of_eq rfl rfl rfl
    split
    · exact hhappen.trans (.of_kernel ((hadvance _ _).trans (Kernel.upholds_fail (α := β) _ _)))
    · have hcollected := hcollect entry.raw
        (entry.events ++ host.kernel.readablePipes (entry.events.map Prod.fst)) host.kernel
      split
      · exact hhappen.trans (.of_kernel (hcollected.trans (hadvance _ _)))
      · exact hhappen.trans (.of_kernel (hcollected.trans (hadvance _ _)))
      · split
        · exact hhappen.trans (.of_kernel (hcollected.trans (hadvance _ _)))
        · exact hhappen.trans (.of_kernel (hcollected.trans (Kernel.upholds_fail (α := β) _ _)))

end Host

namespace Backend

variable (b : Backend)

theorem upholds_wait
    (h : Host) (timeout : Option Nat) :
    h.Upholds (b.wait h timeout).2 := by
  cases b with
  | epoll e =>
      have hwait : h.Upholds (h.epollWait e.number (Time.timeoutMillis timeout) e.capacity).2 := by
        unfold Host.epollWait
        refine (Host.Upholds.of_kernel (Kernel.upholds_note h.kernel _ none)).trans
          (Host.upholds_await _ ?_)
        intro raw ready k
        split
        · exact .refl k
        · dsimp only
          split <;> exact .of_eq rfl rfl rfl
      unfold wait EpollInstance.wait
      dsimp only
      split
      next heq =>
          rw [heq] at hwait
          exact hwait
      next heq =>
          rw [heq] at hwait
          exact hwait
  | select t =>
      have hwait : h.Upholds (h.select (timeout.map Time.cappedMicros) t.width t.sets).2 := by
        have hnote := Host.Upholds.of_kernel (Kernel.upholds_note h.kernel
          (.select h.kernel.clock (timeout.map Time.cappedMicros) t.width t.sets.read
            t.sets.write t.sets.except) none)
        unfold Host.select
        dsimp only
        split
        · exact hnote.trans (.of_kernel (Kernel.upholds_fail (α := SelectSets) _ _))
        · exact hnote.trans (Host.upholds_await _ fun _ _ k => .refl k)
      unfold wait SelectTable.wait
      dsimp only
      split
      next heq =>
          rw [heq] at hwait
          exact hwait
      next heq =>
          rw [heq] at hwait
          exact hwait

end Backend

end CallbackLoop
