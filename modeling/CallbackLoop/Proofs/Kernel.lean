import CallbackLoop.Backend.Basic
import CallbackLoop.Signal.SelfPipe

/-!
# What the kernel keeps

The registrations of a loop depend on a part of the kernel only: which
descriptors are open, what is in the epoll tables, and whether faults are laid
for the calls that a registration makes.  Three relations say how much of this
part stays as it is.  `Kernel.Leaves` says that all of it does, `Kernel.Loses` that
some descriptors may be closed meanwhile, and `Kernel.Passes` that entries of
epoll tables may be disarmed as well.

Every call but those on epoll tables leaves it.  During a wait some descriptors
are lost, and what the wait reports may be disarmed.
-/

namespace CallbackLoop

/-- The calls that registering a descriptor can make. -/
def CallName.registers : CallName → Bool
  | getStatusFlags => true
  | setStatusFlags => true
  | epollControl => true
  | _ => false

namespace Fault

/-- A strike only uses faults up. -/
theorem exists_mem_of_mem_strike
    {site : CallSite} {faults : List Fault} {f' : Fault}
    (h : f' ∈ (strike site faults).2) :
    ∃ f ∈ faults, f'.name = f.name ∧ (f.times = 0 → f'.times = 0) := by
  induction faults with
  | nil =>
      cases h
  | cons f faults ih =>
      have hrest : f' ∈ (strike site faults).2 →
          ∃ g ∈ f :: faults, f'.name = g.name ∧ (g.times = 0 → f'.times = 0) := by
        intro hmem
        obtain ⟨g, hg, hsame⟩ := ih hmem
        exact ⟨g, List.mem_cons_of_mem f hg, hsame⟩
      unfold strike at h
      split at h
      next =>
          split at h
          next =>
              rcases List.mem_cons.1 h with rfl | hmem
              · exact ⟨f, List.mem_cons_self, rfl, fun hzero => by simp [hzero]⟩
              · exact ⟨f', List.mem_cons_of_mem f hmem, rfl, id⟩
          next =>
              rcases List.mem_cons.1 h with rfl | hmem
              · exact ⟨f, List.mem_cons_self, rfl, id⟩
              · exact hrest hmem
      next =>
          rcases List.mem_cons.1 h with rfl | hmem
          · exact ⟨f', List.mem_cons_self, rfl, id⟩
          · exact hrest hmem

theorem strike_eq_none
    {site : CallSite} {faults : List Fault}
    (h : ∀ f ∈ faults, f.name = site.name → f.times = 0) :
    (strike site faults).1 = none := by
  induction faults with
  | nil =>
      rfl
  | cons f faults ih =>
      have hfits : f.fits site = false := by
        rw [← Bool.not_eq_true]
        intro hfits
        simp only [fits, Bool.and_eq_true, beq_iff_eq, bne_iff_ne] at hfits
        exact hfits.2 (h f List.mem_cons_self hfits.1.1.1)
      unfold strike
      rw [hfits]
      exact ih fun g hg => h g (List.mem_cons_of_mem f hg)

end Fault

/-- What a wait does to an entry of a table: nothing, or it finds the entry armed and
reports it, which disarms it if it is oneshot. -/
inductive EpollEntry.Reported (reports : List (Int × Conditions)) (fd : Int) :
    Option EpollEntry → Option EpollEntry → Prop
  | kept (row : Option EpollEntry) :
      Reported reports fd row row
  | disarmed {entry : EpollEntry} {condition : Conditions} :
      entry.mask.oneshot = true →
      entry.disarmed = false →
      (fd, entry.mask.reported condition) ∈ reports →
      Reported reports fd (some entry) (some { entry with disarmed := true })

theorem EpollEntry.Reported.cons
    {reports : List (Int × Conditions)} {fd : Int} {row row' : Option EpollEntry}
    (h : Reported reports fd row row') (report : Int × Conditions) :
    Reported (report :: reports) fd row row' := by
  cases h with
  | kept _ =>
      exact .kept row
  | disarmed honeshot harmed hmem =>
      exact .disarmed honeshot harmed (List.mem_cons_of_mem report hmem)

/-- Reporting leaves what an entry asks for. -/
theorem EpollEntry.Reported.mask
    {reports : List (Int × Conditions)} {fd : Int} {row row' : Option EpollEntry}
    (h : Reported reports fd row row') :
    row'.map (·.mask) = row.map (·.mask) := by
  cases h with
  | kept _ =>
      rfl
  | disarmed _ _ _ =>
      rfl

/-- A disarmed entry stays as it is. -/
theorem EpollEntry.Reported.eq_of_disarmed
    {reports : List (Int × Conditions)} {fd : Int} {entry : EpollEntry}
    {row : Option EpollEntry} (h : Reported reports fd (some entry) row)
    (hdisarmed : entry.disarmed = true) :
    row = some entry := by
  cases h with
  | kept _ =>
      rfl
  | disarmed _ harmed _ =>
      exact absurd hdisarmed (Bool.eq_false_iff.1 harmed)

namespace Kernel

/-- No fault is laid for the calls that registering a descriptor can make. -/
def Spares (k : Kernel) : Prop :=
  ∀ f ∈ k.faults, f.name.registers = true → f.times = 0

/-- What an entry of an epoll table asks for, disarmed or not. -/
def mask? (k : Kernel) (number : Nat) (fd : Int) : Option Conditions :=
  (k.epollTable number)[fd]?.map (·.mask)

/-- An entry of an epoll table. -/
def row? (k : Kernel) (number : Nat) (fd : Int) : Option EpollEntry :=
  (k.epollTable number)[fd]?

theorem mask?_eq
    (k : Kernel) (number : Nat) (fd : Int) :
    k.mask? number fd = (k.row? number fd).map (·.mask) :=
  rfl

/-- The kernel lays no fault, closes no descriptor but those in `gone`, and
drops no other entry of an epoll table. -/
structure Passes (gone : Int → Prop) (k k' : Kernel) : Prop where
  spares : k.Spares → k'.Spares
  closed : ∀ fd, ¬gone fd → k.closed.contains fd = false → k'.closed.contains fd = false
  mask? : ∀ number fd, (gone fd → k.mask? number fd = none) →
    k'.mask? number fd = k.mask? number fd

/-- The kernel lays no fault and closes no descriptor but those in `gone`, which
drops their entries.  All other entries stay as they are. -/
structure Loses (gone : Int → Prop) (k k' : Kernel) : Prop where
  spares : k.Spares → k'.Spares
  closed : ∀ fd, ¬gone fd → k.closed.contains fd = false → k'.closed.contains fd = false
  row? : ∀ number fd, (gone fd → k.row? number fd = none) →
    k'.row? number fd = k.row? number fd

/-- The kernel lays no fault, and neither closes a descriptor nor touches an epoll
table. -/
structure Leaves (k k' : Kernel) : Prop where
  epolls : k'.epolls = k.epolls
  closed : k'.closed = k.closed
  spares : k.Spares → k'.Spares

section Relations

variable {gone : Int → Prop} {k k' k'' : Kernel}

theorem Leaves.refl
    (k : Kernel) :
    k.Leaves k :=
  ⟨rfl, rfl, id⟩

theorem Leaves.trans
    (h : k.Leaves k') (h' : k'.Leaves k'') :
    k.Leaves k'' :=
  ⟨h'.epolls.trans h.epolls, h'.closed.trans h.closed, fun hs => h'.spares (h.spares hs)⟩

theorem Leaves.row?
    (h : k.Leaves k') (number : Nat) (fd : Int) :
    k'.row? number fd = k.row? number fd := by
  simp only [Kernel.row?, epollTable, h.epolls]

theorem Leaves.loses
    (h : k.Leaves k') (gone : Int → Prop) :
    Loses gone k k' where
  spares := h.spares
  closed fd _ hopen := by rw [h.closed]; exact hopen
  row? number fd _ := h.row? number fd

theorem Loses.refl
    (gone : Int → Prop) (k : Kernel) :
    Loses gone k k :=
  (Leaves.refl k).loses gone

theorem Loses.trans
    (h : Loses gone k k') (h' : Loses gone k' k'') :
    Loses gone k k'' where
  spares hs := h'.spares (h.spares hs)
  closed fd hfd hopen := h'.closed fd hfd (h.closed fd hfd hopen)
  row? number fd hgone := by
    have hsame := h.row? number fd hgone
    rw [h'.row? number fd fun hfd => hsame.trans (hgone hfd), hsame]

theorem Loses.passes
    (h : Loses gone k k') :
    Passes gone k k' where
  spares := h.spares
  closed := h.closed
  mask? number fd hgone :=
    congrArg (Option.map EpollEntry.mask)
      (h.row? number fd fun hfd => Option.map_eq_none_iff.1 (hgone hfd))

theorem Leaves.passes
    (h : k.Leaves k') (gone : Int → Prop) :
    Passes gone k k' :=
  (h.loses gone).passes

theorem Passes.trans
    (h : Passes gone k k') (h' : Passes gone k' k'') :
    Passes gone k k'' where
  spares hs := h'.spares (h.spares hs)
  closed fd hfd hopen := h'.closed fd hfd (h.closed fd hfd hopen)
  mask? number fd hgone := by
    have hsame := h.mask? number fd hgone
    rw [h'.mask? number fd fun hfd => hsame.trans (hgone hfd), hsame]

end Relations

section Calls

variable (k : Kernel)

theorem leaves_note
    (call : Call) (failure : Option Errno) :
    k.Leaves (k.note call failure) :=
  ⟨rfl, rfl, id⟩

theorem leaves_fail
    {α : Type} (cause : Errno) :
    k.Leaves (k.fail cause : Except Errno α × Kernel).2 :=
  ⟨rfl, rfl, id⟩

theorem leaves_strike
    (site : CallSite) :
    k.Leaves (k.strike site).2 := by
  refine ⟨rfl, rfl, fun hspares f' hmem hname => ?_⟩
  obtain ⟨f, hf, hsame, htimes⟩ := Fault.exists_mem_of_mem_strike hmem
  exact htimes (hspares f hf (hsame ▸ hname))

theorem leaves_obstacle
    (name : CallName) (fd : Int) (variant : Option CallVariant) :
    k.Leaves (k.obstacle name fd variant).2 := by
  unfold obstacle
  split
  · exact .refl k
  · exact leaves_strike k _

theorem leaves_getStatusFlags
    (fd : Int) :
    k.Leaves (k.getStatusFlags fd).2 := by
  have hobstacle := leaves_obstacle k .getStatusFlags fd none
  unfold getStatusFlags
  split
  next heq =>
      rw [heq] at hobstacle
      exact hobstacle.trans (leaves_fail _ _)
  next heq =>
      rw [heq] at hobstacle
      exact hobstacle

theorem leaves_setStatusFlags
    (fd : Int) (flags : Nat) :
    k.Leaves (k.setStatusFlags fd flags).2 := by
  have hobstacle := leaves_obstacle k .setStatusFlags fd none
  unfold setStatusFlags
  split
  next heq =>
      rw [heq] at hobstacle
      exact hobstacle.trans ((leaves_note _ _ _).trans (leaves_fail _ _))
  next heq =>
      rw [heq] at hobstacle
      exact hobstacle.trans ⟨rfl, rfl, id⟩

theorem leaves_setNonblocking
    (fd : Int) (nonblocking : Bool) :
    k.Leaves (k.setNonblocking fd nonblocking).2 := by
  have hget := leaves_getStatusFlags k fd
  unfold setNonblocking
  split
  next heq =>
      rw [heq] at hget
      exact hget
  next k' flags heq =>
      rw [heq] at hget
      dsimp only
      split
      · exact hget
      · exact hget.trans (leaves_setStatusFlags _ fd _)

theorem leaves_setCloseOnExec
    (fd : Int) :
    k.Leaves (k.setCloseOnExec fd).2 := by
  have hget := leaves_obstacle k .getDescriptorFlags fd none
  unfold setCloseOnExec
  split
  next heq =>
      rw [heq] at hget
      exact hget.trans (leaves_fail _ _)
  next k' heq =>
      rw [heq] at hget
      have hset := leaves_obstacle k' .setDescriptorFlags fd none
      split
      next heq =>
          rw [heq] at hset
          exact (hget.trans hset).trans ⟨rfl, rfl, id⟩
      next heq =>
          rw [heq] at hset
          exact (hget.trans hset).trans (leaves_note _ _ _)

theorem leaves_preparePipe
    (fds : List Int) :
    k.Leaves (k.preparePipe fds).2 := by
  induction fds generalizing k with
  | nil =>
      exact .refl k
  | cons fd fds ih =>
      have hmode := leaves_setNonblocking k fd true
      unfold preparePipe
      split
      next heq =>
          rw [heq] at hmode
          exact hmode
      next k' heq =>
          rw [heq] at hmode
          have hclose := leaves_setCloseOnExec k' fd
          split
          next heq =>
              rw [heq] at hclose
              exact hmode.trans hclose
          next heq =>
              rw [heq] at hclose
              exact (hmode.trans hclose).trans (ih _)

/-- A pipe that is opened takes nothing away. -/
theorem leaves_openPipe
    {ends : Int × Int} {k k' : Kernel} (h : k.openPipe = (.ok ends, k')) :
    k.Leaves k' := by
  have hcreate : k.Leaves k.createPipe.2 := by
    have hstrike := leaves_strike k { name := .pipe }
    unfold createPipe
    split
    next heq =>
        rw [heq] at hstrike
        exact hstrike.trans (leaves_fail _ _)
    next heq =>
        rw [heq] at hstrike
        exact hstrike.trans ⟨rfl, rfl, id⟩
  unfold openPipe at h
  split at h
  next =>
      cases h
  next reader writer k₁ heq =>
      rw [heq] at hcreate
      have hprepare := leaves_preparePipe k₁ [reader, writer]
      split at h
      next =>
          cases h
      next heq =>
          cases h
          rw [heq] at hprepare
          exact hcreate.trans hprepare

theorem leaves_read
    (fd : Int) (count : Nat) :
    k.Leaves (k.read fd count).2 := by
  have hobstacle := leaves_obstacle k .read fd none
  unfold read
  split
  next heq =>
      rw [heq] at hobstacle
      exact hobstacle.trans (leaves_fail _ _)
  next k' heq =>
      rw [heq] at hobstacle
      split
      next =>
          exact hobstacle.trans (leaves_fail _ _)
      next =>
          split
          next =>
              split
              · exact hobstacle
              · exact hobstacle.trans (leaves_fail _ _)
          next =>
              exact hobstacle.trans ⟨rfl, rfl, id⟩

theorem leaves_write
    (fd : Int) (bytes : List UInt8) :
    k.Leaves (k.write fd bytes).2 := by
  have hobstacle := leaves_obstacle k .write fd none
  have hfailed : ∀ (k : Kernel) (cause : Errno), k.Leaves
      ((k.note (.write fd bytes) (some cause)).fail cause : Except Errno Unit × Kernel).2 :=
    fun k cause => (leaves_note k _ _).trans (leaves_fail _ _)
  unfold write
  split
  next heq =>
      rw [heq] at hobstacle
      exact hobstacle.trans (hfailed _ _)
  next k' heq =>
      rw [heq] at hobstacle
      split
      next =>
          exact hobstacle.trans (hfailed _ _)
      next =>
          dsimp only
          split
          · exact hobstacle.trans ⟨rfl, rfl, id⟩
          · exact hobstacle.trans (hfailed _ _)

theorem leaves_drain
    (fd : Int) :
    k.Leaves (k.drain fd).2 := by
  have hdrain : ∀ n k, Leaves k (drainFrom fd n k).2 := by
    intro n
    induction n with
    | zero =>
        exact Leaves.refl
    | succ n ih =>
        intro k
        have hread := leaves_read k fd drainChunk
        unfold drainFrom
        split
        next heq =>
            rw [heq] at hread
            exact hread
        next heq =>
            rw [heq] at hread
            exact hread.trans (ih _)
        next heq =>
            rw [heq] at hread
            split
            · exact hread.trans (ih _)
            · exact hread
  exact hdrain k.drainBound k

theorem leaves_setDisposition
    (signo : Int) (disposition : Disposition) :
    k.Leaves (k.setDisposition signo disposition).2 := by
  have hstrike : ∀ site, k.Leaves
      (if signo = 32 || signo = 33 then (some Errno.invalidArgument, k)
        else k.strike site).2 := by
    intro site
    split
    · exact .refl k
    · exact leaves_strike k site
  unfold setDisposition
  dsimp only
  generalize hhit : (if signo = 32 || signo = 33 then (some Errno.invalidArgument, k)
    else k.strike _ : Option Errno × Kernel) = hit
  have hleaves : k.Leaves hit.2 := by
    rw [← hhit]
    exact hstrike _
  obtain ⟨failure, k'⟩ := hit
  cases failure with
  | some cause =>
      exact hleaves.trans ((leaves_note k' _ _).trans (leaves_fail _ _))
  | none =>
      cases disposition with
      | handler =>
          exact hleaves.trans ⟨rfl, rfl, id⟩
      | default =>
          exact hleaves.trans ⟨rfl, rfl, id⟩

theorem leaves_broadcast
    (byte : UInt8) (members : List Int) :
    k.Leaves (Host.broadcast k byte members) := by
  induction members generalizing k with
  | nil =>
      exact .refl k
  | cons fd members ih =>
      exact (leaves_write k fd [byte]).trans (ih _)

end Calls

section Waiting

variable {gone : Int → Prop}

theorem nextEntry_note
    (k : Kernel) (call : Call) (failure : Option Errno) :
    (k.note call failure).nextEntry.1 = k.nextEntry.1 := by
  unfold nextEntry note
  dsimp only
  split <;> rfl

theorem leaves_nextEntry
    (k : Kernel) :
    k.Leaves k.nextEntry.2 := by
  unfold nextEntry
  dsimp only
  split <;> exact ⟨rfl, rfl, id⟩

theorem epollTable_insert
    (k : Kernel) (number number' : Nat) (table : EpollTable) :
    ({ k with epolls := k.epolls.insert number table } : Kernel).epollTable number' =
      if number = number' then table else k.epollTable number' := by
  simp [epollTable, Std.TreeMap.getD_insert]

theorem row?_insert
    (k : Kernel) (number : Nat) (table : EpollTable) (fd : Int) :
    ({ k with epolls := k.epolls.insert number table } : Kernel).row? number fd =
      table[fd]? := by
  rw [row?, epollTable_insert, if_pos rfl]

theorem row?_close
    (k : Kernel) (fd : Int) (number : Nat) (other : Int) :
    (k.close fd).row? number other =
      if fd = other then none else k.row? number other := by
  simp only [row?, epollTable, close, Std.TreeMap.getD_eq_getD_getElem?,
    Std.TreeMap.getElem?_map]
  cases k.epolls[number]? with
  | none =>
      simp
  | some table =>
      simp [Std.TreeMap.getElem?_erase]

theorem loses_close
    (k : Kernel) {fd : Int} (h : gone fd) :
    Loses gone k (k.close fd) where
  spares := id
  closed other hother hopen := by
    have hne : fd ≠ other := fun heq => hother (heq ▸ h)
    simpa [close, Std.TreeSet.contains_insert, hne] using hopen
  row? number other hgone := by
    rw [row?_close]
    split
    next heq =>
        exact (hgone (heq ▸ h)).symm
    next =>
        rfl

theorem loses_reopen
    (k : Kernel) (fd : Int) :
    Loses gone k (k.reopen fd) where
  spares := id
  closed other _ hopen := by
    simp [reopen, Std.TreeSet.contains_erase, hopen]
  row? _ _ _ := rfl

/-- Reporting disarms oneshot entries and leaves everything else. -/
theorem reported_epollReport
    (closed : Std.TreeSet Int) (capacity : Nat) (ready : List (Int × Conditions))
    (table : EpollTable) (fd : Int) :
    EpollEntry.Reported (epollReport closed capacity ready table).1 fd table[fd]?
      (epollReport closed capacity ready table).2[fd]? := by
  induction ready generalizing capacity table with
  | nil =>
      cases capacity <;> exact .kept _
  | cons report ready ih =>
      obtain ⟨other, condition⟩ := report
      cases capacity with
      | zero =>
          exact .kept _
      | succ capacity =>
          unfold epollReport
          split
          next =>
              exact ih _ table
          next entry hentry =>
              dsimp only
              split
              next =>
                  exact ih _ table
              next hreports =>
                  split
                  next honeshot =>
                      by_cases heq : fd = other
                      · -- A disarmed entry is not reported again.
                        subst heq
                        have harmed : entry.disarmed = false := by
                          simp only [Bool.or_eq_true, not_or, Bool.not_eq_true] at hreports
                          exact hreports.1.2
                        have hrest := ih capacity (table.insert fd { entry with disarmed := true })
                        rw [Std.TreeMap.getElem?_insert_self] at hrest
                        rw [hentry, hrest.eq_of_disarmed rfl]
                        exact .disarmed honeshot harmed List.mem_cons_self
                      · have hother : (table.insert other { entry with disarmed := true })[fd]? =
                            table[fd]? := by
                          rw [Std.TreeMap.getElem?_insert]
                          have hne : compare other fd ≠ .eq :=
                            fun hc => heq (Std.LawfulEqCmp.compare_eq_iff_eq.1 hc).symm
                          simp [hne]
                        have hrest := ih capacity (table.insert other { entry with disarmed := true })
                        rw [hother] at hrest
                        exact hrest.cons _
                  next =>
                      exact (ih capacity table).cons _

theorem mask_epollReport
    (closed : Std.TreeSet Int) (capacity : Nat) (ready : List (Int × Conditions))
    (table : EpollTable) (fd : Int) :
    (epollReport closed capacity ready table).2[fd]?.map (·.mask) =
      table[fd]?.map (·.mask) :=
  (reported_epollReport closed capacity ready table fd).mask

theorem passes_report
    (k : Kernel) {number : Nat} {table : EpollTable}
    (h : ∀ fd, table[fd]?.map (·.mask) = k.mask? number fd) :
    Passes gone k { k with epolls := k.epolls.insert number table } where
  spares := id
  closed _ _ := id
  mask? number' fd _ := by
    unfold mask?
    rw [epollTable_insert]
    split
    next heq =>
        rw [← heq]
        exact h fd
    next =>
        rfl

end Waiting

end Kernel

namespace Host

variable {gone : Int → Prop}

theorem leaves_raise
    (h : Host) (signo : Int) :
    h.kernel.Leaves (h.raise signo).kernel := by
  unfold raise
  split
  · unfold catchSignal
    split
    · exact Kernel.leaves_note _ _ _
    · refine (Kernel.leaves_note h.kernel (.signal signo .handler) none).trans ?_
      exact (Kernel.leaves_broadcast _ _ _).trans ⟨rfl, rfl, id⟩
  · exact Kernel.leaves_note _ _ _

theorem leaves_acquire
    (h : Host) (id : Nat) (signo : Int) :
    h.kernel.Leaves (h.acquire id signo).2.kernel := by
  have hset := Kernel.leaves_setDisposition h.kernel signo .handler
  unfold acquire
  split
  · exact .refl _
  · dsimp only
    split
    · exact .refl _
    · split
      · exact .refl _
      · split
        next heq =>
            rw [heq] at hset
            exact hset
        next heq =>
            rw [heq] at hset
            exact hset

theorem leaves_release
    {h h' : Host} {id : Nat} {signo : Int} (hrelease : h.release id signo = .ok h') :
    h.kernel.Leaves h'.kernel := by
  have hset := Kernel.leaves_setDisposition h.kernel signo .default
  unfold release at hrelease
  dsimp only at hrelease
  split at hrelease
  · cases hrelease
    exact .refl _
  · split at hrelease
    · cases hrelease
      exact .refl _
    · split at hrelease
      next heq =>
          cases hrelease
          have hkernel : Kernel.setDisposition h.kernel signo .default = _ := heq
          rw [hkernel] at hset
          exact hset
      next =>
          cases hrelease

/-- What closing, reopening and all other calls keep, a wait keeps while an entry of the
script happens. -/
theorem happen_induction
    {P : Kernel → Prop} {entry : WaitEntry} (h : Host)
    (hclose : ∀ k, ∀ fd ∈ entry.closed, P k → P (k.close fd))
    (hreopen : ∀ k fd, P k → P (k.reopen fd))
    (hleaves : ∀ k k', Kernel.Leaves k k' → P k → P k') (hP : P h.kernel) :
    P (h.happen entry).kernel := by
  have hclosed : P (entry.closed.foldl Kernel.close h.kernel) :=
    List.foldlRecOn _ Kernel.close hP fun k hk fd hfd => hclose k fd hfd hk
  have hopened : P (entry.opened.foldl Kernel.reopen (entry.closed.foldl Kernel.close h.kernel)) :=
    List.foldlRecOn _ Kernel.reopen hclosed fun k hk fd _ => hreopen k fd hk
  exact List.foldlRecOn (motive := fun h : Host => P h.kernel) entry.raised raise hopened
    fun h hh signo _ => hleaves _ _ (leaves_raise h signo) hh

/-- Only the descriptors that an entry of the script closes are lost while that
entry happens. -/
theorem loses_happen
    (h : Host) {entry : WaitEntry} (hgone : ∀ fd ∈ entry.closed, gone fd) :
    h.kernel.Loses gone (h.happen entry).kernel :=
  h.happen_induction (fun k fd hfd hk => hk.trans (k.loses_close (hgone fd hfd)))
    (fun k fd hk => hk.trans (k.loses_reopen fd))
    (fun _ _ hleaves hk => hk.trans (hleaves.loses gone)) (.refl gone h.kernel)

/-- How a wait ends, from the kernel as it is when everything has happened: it fails,
or reports what was collected, or nothing was collected that could end it. -/
inductive Awaited {β : Type} (collect : Bool → List (Int × Conditions) → Kernel →
    Report β × Kernel) (k : Kernel) : Except Errno β → Kernel → Prop
  | failed {cause : Errno} {k' : Kernel} :
      k.Leaves k' →
      Awaited collect k (.error cause) k'
  | reported {raw : Bool} {ready : List (Int × Conditions)} {k' : Kernel} :
      (collect raw ready k).2.Leaves k' →
      Awaited collect k (.ok (collect raw ready k).1.value) k'
  | unanswered {raw : Bool} {ready : List (Int × Conditions)} {k' : Kernel} :
      (collect raw ready k).2.Leaves k' →
      (collect raw ready k).1.any = false →
      Awaited collect k (.error .deadlock) k'

/-- What closing, reopening and all other calls keep still holds when a wait ends. -/
theorem await_induction
    {β : Type} {P : Kernel → Prop} {h h' : Host} {timeout : Option Nat}
    {collect : Bool → List (Int × Conditions) → Kernel → Report β × Kernel}
    {result : Except Errno β} (hawait : h.await timeout collect = (result, h'))
    (hclose : ∀ k, ∀ fd ∈ h.kernel.nextEntry.1.closed, P k → P (k.close fd))
    (hreopen : ∀ k fd, P k → P (k.reopen fd))
    (hleaves : ∀ k k', Kernel.Leaves k k' → P k → P k') (hP : P h.kernel) :
    ∃ k, P k ∧ Awaited collect k result h'.kernel := by
  have hentry := hleaves _ _ (Kernel.leaves_nextEntry h.kernel) hP
  unfold await at hawait
  split at hawait
  · cases hawait
    exact ⟨h.kernel, hP, .failed ⟨rfl, rfl, id⟩⟩
  · generalize h.kernel.nextEntry = next at hentry hclose hawait
    obtain ⟨entry, kernel⟩ := next
    have hhappen : P ({ h with kernel }.happen entry).kernel :=
      happen_induction { h with kernel } hclose hreopen hleaves hentry
    dsimp only at hawait
    generalize { h with kernel }.happen entry = host at hhappen hawait
    refine ⟨host.kernel, hhappen, ?_⟩
    split at hawait
    · cases hawait
      exact .failed ⟨rfl, rfl, id⟩
    · split at hawait
      · cases hawait
        exact .reported ⟨rfl, rfl, id⟩
      · cases hawait
        exact .reported ⟨rfl, rfl, id⟩
      · split at hawait
        next =>
            cases hawait
            exact .reported ⟨rfl, rfl, id⟩
        next hany =>
            cases hawait
            exact .unanswered ⟨rfl, rfl, id⟩ (Bool.not_eq_true _ ▸ hany)

/-- A wait loses only the descriptors that the next entry of the script closes, and
then it ends. -/
theorem await_ok
    {β : Type} {h h' : Host} {timeout : Option Nat}
    {collect : Bool → List (Int × Conditions) → Kernel → Report β × Kernel}
    {result : Except Errno β} (hawait : h.await timeout collect = (result, h'))
    (hgone : ∀ fd ∈ h.kernel.nextEntry.1.closed, gone fd) :
    ∃ k, h.kernel.Loses gone k ∧ Awaited collect k result h'.kernel :=
  await_induction hawait (fun k fd hfd hk => hk.trans (k.loses_close (hgone fd hfd)))
    (fun k fd hk => hk.trans (k.loses_reopen fd))
    (fun _ _ hleaves hk => hk.trans (hleaves.loses gone)) (.refl gone h.kernel)

/-- Only the descriptors that the next entry of the script closes are closed
during a wait. -/
theorem passes_await
    {β : Type} {h : Host} {timeout : Option Nat}
    {collect : Bool → List (Int × Conditions) → Kernel → Report β × Kernel}
    (hcollect : ∀ raw ready (k : Kernel), k.Passes gone (collect raw ready k).2)
    (hgone : ∀ fd ∈ h.kernel.nextEntry.1.closed, gone fd) :
    h.kernel.Passes gone (h.await timeout collect).2.kernel := by
  rcases hawait : h.await timeout collect with ⟨result, h'⟩
  obtain ⟨k, hloses, hawaited⟩ := await_ok hawait hgone
  refine hloses.passes.trans ?_
  cases hawaited with
  | failed hleaves =>
      exact hleaves.passes gone
  | reported hleaves =>
      exact (hcollect _ _ k).trans (hleaves.passes gone)
  | unanswered hleaves _ =>
      exact (hcollect _ _ k).trans (hleaves.passes gone)

theorem passes_epollWait
    (h : Host) (number : Nat) (timeoutMillis : Int) (capacity : Nat)
    (hgone : ∀ fd ∈ h.kernel.nextEntry.1.closed, gone fd) :
    h.kernel.Passes gone (h.epollWait number timeoutMillis capacity).2.kernel := by
  have hnote := Kernel.leaves_note h.kernel
    (.epollWait h.kernel.clock timeoutMillis capacity) none
  unfold epollWait
  refine (hnote.passes gone).trans
    (passes_await (h := { h with kernel := h.kernel.note _ }) ?_ ?_)
  · intro raw ready k
    split
    · exact (Kernel.Leaves.refl k).passes gone
    · dsimp only
      split
      · exact (Kernel.Leaves.refl k).passes gone
      · exact Kernel.passes_report k fun fd =>
          Kernel.mask_epollReport k.closed capacity ready (k.epollTable number) fd
  · rw [Kernel.nextEntry_note]
    exact hgone

theorem passes_select
    (h : Host) (timeoutMicros : Option Nat) (width : Int) (asked : SelectSets)
    (hgone : ∀ fd ∈ h.kernel.nextEntry.1.closed, gone fd) :
    h.kernel.Passes gone (h.select timeoutMicros width asked).2.kernel := by
  have hnote := Kernel.leaves_note h.kernel
    (.select h.kernel.clock timeoutMicros width asked.read asked.write asked.except) none
  unfold select
  dsimp only
  split
  · exact (hnote.trans (Kernel.leaves_fail (α := SelectSets) _ _)).passes gone
  · refine (hnote.passes gone).trans
      (passes_await (h := { h with kernel := h.kernel.note _ })
        (fun _ _ k => (Kernel.Leaves.refl k).passes gone) ?_)
    rw [Kernel.nextEntry_note]
    exact hgone

end Host

/-- The pipe of a loop takes nothing away. -/
theorem SelfPipe.leaves_acquire?
    {h h' : Host} {hub : Nat} {pipe : SelfPipe} (hacquire : acquire? h hub = (.ok pipe, h')) :
    h.kernel.Leaves h'.kernel := by
  unfold acquire? at hacquire
  split at hacquire
  next =>
      cases hacquire
  next heq =>
      have hleaves := Kernel.leaves_openPipe heq
      dsimp only at hacquire
      split at hacquire
      next hjoin =>
          cases hacquire
          unfold Host.join at hjoin
          split at hjoin
          next =>
              cases hjoin
          next =>
              cases hjoin
              exact hleaves
      next =>
          cases hacquire

/-- A wait closes only what the script says. -/
theorem Backend.passes_wait
    {gone : Int → Prop} (b : Backend) (h : Host) (timeout : Option Nat)
    (hgone : ∀ fd ∈ h.kernel.nextEntry.1.closed, gone fd) :
    h.kernel.Passes gone (b.wait h timeout).2.kernel := by
  cases b with
  | epoll e =>
      have hwait := Host.passes_epollWait h e.number (Time.timeoutMillis timeout) e.capacity
        hgone
      unfold Backend.wait EpollInstance.wait
      dsimp only
      split
      next heq =>
          rw [heq] at hwait
          exact hwait
      next heq =>
          rw [heq] at hwait
          exact hwait
  | select t =>
      have hwait := Host.passes_select h (timeout.map Time.cappedMicros) t.width t.sets hgone
      unfold Backend.wait SelectTable.wait
      dsimp only
      split
      next heq =>
          rw [heq] at hwait
          exact hwait
      next heq =>
          rw [heq] at hwait
          exact hwait

end CallbackLoop
