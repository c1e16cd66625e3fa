import CallbackLoop.Proofs.Fleet.Dropping

/-!
# Building a loop

Building a loop takes a backend, a pipe and a place in a hub, one after the other, and each
step can fail.  `LoopOptions.Comes` says what comes of it: a loop with all it needs, or a
refusal with nothing left of what was taken before.
-/

namespace CallbackLoop

variable {H : Type}

namespace Kernel

variable {k k' k'' : Kernel} {fd : Int}

/-- The kernel with one more pipe. -/
def withPipe (k : Kernel) : Kernel :=
  { k with pipes := k.pipes.push [] }

/-- Both ends of a pipe are closed. -/
def closePipe (k : Kernel) (n : Nat) : Kernel :=
  (k.close (readEnd n)).close (writeEnd n)

/-- What comes of opening a pipe: none is created, or it is closed again, or it is open. -/
inductive Opened (k : Kernel) : Except Errno (Int × Int) × Kernel → Prop
  | failed {cause : Errno} {k' : Kernel} :
      k.Modes k' →
      Opened k (.error cause, k')
  | abandoned {cause : Errno} {k' : Kernel} :
      k.withPipe.Modes k' →
      Opened k (.error cause, k'.closePipe k.pipes.size)
  | opened {k' : Kernel} :
      k.withPipe.Modes k' →
      Opened k (.ok (readEnd k.pipes.size, writeEnd k.pipes.size), k')

/-- Asking the faults about a call changes nothing but the faults. -/
theorem strike_eq
    (k : Kernel) (site : CallSite) :
    ∃ faults, k.strike site = ((k.strike site).1, { k with faults }) ∧
      ∀ f' ∈ faults, ∃ f ∈ k.faults, f.Wears f' :=
  ⟨_, rfl, (k.upholds_strike site).faults⟩

theorem opened_openPipe
    (k : Kernel) :
    k.Opened k.openPipe := by
  obtain ⟨faults, hstrike, hworn⟩ := k.strike_eq { name := .pipe }
  unfold openPipe createPipe
  rw [hstrike]
  cases (k.strike { name := .pipe }).1 with
  | some cause =>
      exact .failed ⟨_, _, _, _, rfl, hworn⟩
  | none =>
      dsimp only
      generalize hcreated : ({ k with
        faults
        pipes := k.pipes.push []
        statusFlags := (k.statusFlags.insert (readEnd k.pipes.size) 0).insert
          (writeEnd k.pipes.size) 1 } : Kernel) = created
      have hmodes : k.withPipe.Modes created := hcreated ▸ ⟨_, _, _, _, rfl, hworn⟩
      have hprepare := modes_preparePipe created [readEnd k.pipes.size, writeEnd k.pipes.size]
      split
      next heq =>
          rw [heq] at hprepare
          exact .abandoned (hmodes.trans hprepare)
      next heq =>
          rw [heq] at hprepare
          exact .opened (hmodes.trans hprepare)

end Kernel

/-- The number of the epoll instance of a backend. -/
def Backend.number? : Backend → Option Nat
  | epoll e => some e.number
  | select _ => none

/-- What comes of creating a backend. -/
inductive Backend.Created (k : Kernel) : Except HostError Backend × Kernel → Prop
  | failed {cause : HostError} {k' : Kernel} :
      k.Modes k' →
      Created k (.error cause, k')
  | created {b : Backend} {k' : Kernel} :
      k'.pipes = k.pipes →
      k'.caught = k.caught →
      (∀ number, k.epollsCreated ≤ number → number < k'.epollsCreated →
        b.number? = some number) →
      Created k (.ok b, k')

theorem Backend.created_create
    (k : Kernel) (kind : BackendKind) (capacity : Nat) :
    Created k (create k kind capacity) := by
  unfold create
  split
  next =>
      obtain ⟨faults, hstrike, hworn⟩ := k.strike_eq { name := .epollCreate }
      unfold EpollInstance.create Kernel.epollCreate
      rw [hstrike]
      cases (k.strike { name := .epollCreate }).1 with
      | some cause =>
          exact .failed ⟨_, _, _, _, rfl, hworn⟩
      | none =>
          refine .created rfl rfl fun number hge hlt => ?_
          have hsame : k.epollsCreated = number := Nat.le_antisymm hge (Nat.le_of_lt_succ hlt)
          exact congrArg some hsame
  next =>
      exact .created rfl rfl fun number hge hlt => absurd hlt (Nat.not_lt.2 hge)
  next =>
      exact .failed (.refl k)

namespace Kernel

variable {k k' k'' : Kernel}

theorem contains_epolls_close
    (k : Kernel) (fd : Int) (number : Nat) :
    (k.close fd).epolls.contains number = k.epolls.contains number :=
  Std.TreeMap.contains_map

/-- Nothing that was taken from the kernel in between is held any more: no end of a pipe
and no epoll instance. -/
structure Undone (k k' : Kernel) : Prop where
  caught : k'.caught = k.caught
  size : k.pipes.size ≤ k'.pipes.size
  ends : ∀ n, k.pipes.size ≤ n → n < k'.pipes.size →
    k'.closed.contains (readEnd n) = true ∧ k'.closed.contains (writeEnd n) = true
  pollers : ∀ number, k.epollsCreated ≤ number → number < k'.epollsCreated →
    k'.epolls.contains number = false

namespace Modes

theorem pipes
    (h : k.Modes k') :
    k'.pipes = k.pipes := by
  obtain ⟨_, _, _, _, rfl, -⟩ := h
  rfl

theorem caught
    (h : k.Modes k') :
    k'.caught = k.caught := by
  obtain ⟨_, _, _, _, rfl, -⟩ := h
  rfl

theorem epollsCreated
    (h : k.Modes k') :
    k'.epollsCreated = k.epollsCreated := by
  obtain ⟨_, _, _, _, rfl, -⟩ := h
  rfl

theorem undone
    (h : k.Modes k') :
    k.Undone k' where
  caught := h.caught
  size := Nat.le_of_eq (congrArg Array.size h.pipes).symm
  ends _ hge hlt := absurd (h.pipes ▸ hlt) (Nat.not_lt.2 hge)
  pollers _ hge hlt := absurd (h.epollsCreated ▸ hlt) (Nat.not_lt.2 hge)

end Modes

theorem closed_closePipe
    (k : Kernel) (n : Nat) :
    (k.closePipe n).closed.contains (readEnd n) = true ∧
      (k.closePipe n).closed.contains (writeEnd n) = true :=
  ⟨contains_closed_close_of_contains (contains_closed_close k _) _, contains_closed_close _ _⟩

theorem contains_epolls_closePipe
    (k : Kernel) (n number : Nat) :
    (k.closePipe n).epolls.contains number = k.epolls.contains number := by
  rw [closePipe, contains_epolls_close, contains_epolls_close]

end Kernel

namespace Backend

variable {b : Backend} {k k₁ k' : Kernel}

theorem contains_epolls_release
    {number : Nat} (hnumber : b.number? = some number) (k : Kernel) :
    (b.release k).epolls.contains number = false := by
  cases b with
  | epoll e =>
      cases hnumber
      simp [release, Kernel.epollClose]
  | select t =>
      cases hnumber

/-- With the backend released and the pipes closed nothing is held any more. -/
theorem Created.undone
    (hcreated : Created k (.ok b, k₁)) (hcaught : k'.caught = k₁.caught)
    (hcount : k'.epollsCreated = k₁.epollsCreated)
    (hreleased : ∀ number, b.number? = some number → k'.epolls.contains number = false)
    (hsize : k₁.pipes.size ≤ k'.pipes.size)
    (hends : ∀ n, k₁.pipes.size ≤ n → n < k'.pipes.size →
      k'.closed.contains (Kernel.readEnd n) = true ∧
        k'.closed.contains (Kernel.writeEnd n) = true) :
    k.Undone k' := by
  cases hcreated with
  | created hpipes hcaught₁ hnumber =>
      rw [hpipes] at hsize hends
      refine ⟨hcaught.trans hcaught₁, hsize, hends, fun number hge hlt => ?_⟩
      exact hreleased number (hnumber number hge (hcount ▸ hlt))

/-- A loop that has no pipe holds its backend only. -/
theorem Created.undone_release
    (hcreated : Created k (.ok b, k₁)) (hmodes : k₁.Modes k') :
    k.Undone (b.release k') := by
  have hpipes : (b.release k').pipes = k₁.pipes := (b.pipes_release k').trans hmodes.pipes
  refine hcreated.undone ((b.caught_release k').trans hmodes.caught)
    ((b.epollsCreated_release k').trans hmodes.epollsCreated)
    (fun number hnumber => contains_epolls_release hnumber k') (by rw [hpipes]) ?_
  intro n hge hlt
  rw [hpipes] at hlt
  exact absurd hlt (Nat.not_lt.2 hge)

/-- Whether the pipe is closed before the backend is released or after it is the same. -/
theorem Created.undone_closePipe
    (hcreated : Created k (.ok b, k₁)) (hmodes : k₁.withPipe.Modes k') :
    k.Undone (b.release (k'.closePipe k₁.pipes.size)) ∧
      k.Undone ((b.release k').closePipe k₁.pipes.size) := by
  have hsize : k'.pipes.size = k₁.pipes.size + 1 := by
    rw [hmodes.pipes]
    exact Array.size_push _
  have hlast : ∀ n, k₁.pipes.size ≤ n → n < k'.pipes.size → n = k₁.pipes.size := by
    omega
  constructor
  · refine hcreated.undone ((b.caught_release _).trans hmodes.caught)
      ((b.epollsCreated_release _).trans hmodes.epollsCreated)
      (fun number hnumber => contains_epolls_release hnumber _) ?_ fun n hge hlt => ?_
    · rw [b.pipes_release]
      exact hsize ▸ Nat.le_succ _
    · rw [b.pipes_release] at hlt
      rw [hlast n hge hlt, b.closed_release]
      exact k'.closed_closePipe _
  · refine hcreated.undone ((b.caught_release k').trans hmodes.caught)
      ((b.epollsCreated_release k').trans hmodes.epollsCreated) (fun number hnumber => ?_) ?_
      fun n hge hlt => ?_
    · rw [Kernel.contains_epolls_closePipe]
      exact contains_epolls_release hnumber k'
    · exact (b.pipes_release k').symm ▸ hsize ▸ Nat.le_succ _
    · have hlt' : n < (b.release k').pipes.size := hlt
      rw [b.pipes_release] at hlt'
      rw [hlast n hge hlt']
      exact (b.release k').closed_closePipe _

end Backend

namespace Host

variable {h h' : Host} {id place : Nat} {fd : Int}

/-- All places of a hub are taken. -/
def Filled (h : Host) (id : Nat) : Prop :=
  ∀ place < Hub.capacity, ∃ fd, h.placed id place = some fd

/-- What was taken from the host in between has been given back. -/
structure Undone (h h' : Host) : Prop where
  hub : ∀ id, h'.hub id = h.hub id
  owners : h'.owners = h.owners
  kernel : h.kernel.Undone h'.kernel

/-- A new pipe is open, and its write end stands in a place that was vacant. -/
structure Berths (h : Host) (id : Nat) (pipe : SelfPipe) (h' : Host) : Prop where
  hub : pipe.hub = id
  reader : pipe.reader = Kernel.readEnd h.kernel.pipes.size
  writer : pipe.writer = Kernel.writeEnd h.kernel.pipes.size
  opened : h.kernel.pipes.size < h'.kernel.pipes.size
  bound : pipe.place < Hub.capacity
  vacant : h.placed id pipe.place = none
  hubs : h'.hubs = (h.seat id pipe.place (some pipe.writer)).hubs
  owners : h'.owners = h.owners
  caught : h'.kernel.caught = h.kernel.caught

theorem Berths.roomy
    {pipe : SelfPipe} (hberths : h.Berths id pipe h')
    (hroomy : h.Roomy) :
    h'.Roomy := by
  intro i
  rw [hub_congr hberths.hubs]
  exact roomy_seat hroomy _ _ _ i

theorem Berths.placed
    {pipe : SelfPipe} (hberths : h.Berths id pipe h')
    (hroomy : h.Roomy) (i p : Nat) :
    h'.placed i p = if i = id ∧ p = pipe.place then some pipe.writer else h.placed i p := by
  rw [placed_congr (congrArg Hub.places (hub_congr hberths.hubs i)),
    placed_seat hroomy hberths.bound]

/-- Leaving a place that was vacant before restores the hub. -/
theorem hub_seat_seat
    (hroomy : h.Roomy) (hplace : place < Hub.capacity) (hvacant : h.placed id place = none)
    (fd : Int) (kernel : Kernel) (i : Nat) :
    (Host.seat { h.seat id place (some fd) with kernel } id place none).hub i = h.hub i := by
  have hlt : place < (h.hub id).places.size := (hroomy id).symm ▸ hplace
  have hnone : (h.hub id).places[place] = none := by
    unfold placed at hvacant
    rwa [Array.getElem?_eq_getElem hlt] at hvacant
  have hplaces : ((h.hub id).places.setIfInBounds place (some fd)).setIfInBounds place none =
      (h.hub id).places := by
    refine Array.ext_getElem? fun p => ?_
    simp only [Array.getElem?_setIfInBounds, Array.size_setIfInBounds]
    by_cases hp : place = p
    · subst hp
      rw [if_pos rfl, if_pos hlt, Array.getElem?_eq_getElem hlt, hnone]
    · rw [if_neg hp, if_neg hp]
  have hseated : Host.hub { h.seat id place (some fd) with kernel } id =
      { h.hub id with places := (h.hub id).places.setIfInBounds place (some fd) } :=
    (hub_setHub h id id _).trans (if_pos rfl)
  rw [seat, hub_setHub, hseated]
  dsimp only
  rw [hplaces]
  by_cases hi : i = id
  · rw [if_pos hi, hi]
  · rw [if_neg hi]
    exact (hub_setHub h id i _).trans (if_neg hi)

end Host

/-- What comes of opening a pipe and joining a hub with it.  Without a place the pipe is
closed again. -/
inductive SelfPipe.Acquired (h : Host) (id : Nat) : Except Refusal SelfPipe × Host → Prop
  | unopened {cause : Errno} {kernel : Kernel} :
      h.kernel.Modes kernel →
      Acquired h id (.error (.host (.call cause)), { h with kernel })
  | abandoned {refusal : Refusal} {kernel : Kernel} :
      h.kernel.withPipe.Modes kernel →
      (∀ limit, refusal = .tooManyLoops limit → limit = Hub.capacity ∧ h.Filled id) →
      Acquired h id
        (.error refusal, { h with kernel := kernel.closePipe h.kernel.pipes.size })
  | joined {place : Nat} {kernel : Kernel} :
      h.kernel.withPipe.Modes kernel →
      place < Hub.capacity →
      h.placed id place = none →
      Acquired h id
        (.ok ⟨id, place, Kernel.readEnd h.kernel.pipes.size,
            Kernel.writeEnd h.kernel.pipes.size⟩,
          Host.seat { h with kernel } id place (some (Kernel.writeEnd h.kernel.pipes.size)))

theorem SelfPipe.acquired_acquire?
    {h : Host} (hroomy : h.Roomy) (id : Nat) :
    Acquired h id (acquire? h id) := by
  have hopened := h.kernel.opened_openPipe
  unfold acquire?
  generalize h.kernel.openPipe = result at hopened ⊢
  cases hopened with
  | failed hmodes =>
      exact .unopened hmodes
  | abandoned hmodes =>
      exact .abandoned hmodes nofun
  | @opened kernel hmodes =>
      dsimp only
      have hroomy' : Host.Roomy { h with kernel } := hroomy
      split
      next place host hjoin =>
          have hwriter : 0 ≤ Kernel.writeEnd h.kernel.pipes.size := by
            unfold Kernel.writeEnd
            omega
          obtain ⟨hplace, hvacant, rfl⟩ := Host.join_ok hroomy' hwriter hjoin
          exact .joined hmodes hplace hvacant
      next refusal hjoin =>
          obtain ⟨rfl, hfilled⟩ := Host.join_error hroomy' hjoin
          refine .abandoned hmodes fun limit hlimit => ?_
          cases hlimit
          exact ⟨rfl, hfilled⟩

namespace LoopOptions

variable {o : LoopOptions} {h : Host}

/-- What comes of building a loop. -/
inductive Comes (o : LoopOptions) (h : Host) : Except Refusal (Loop H) × Host → Prop
  | plain {loop : Loop H} {host : Host} :
      o.primary = false →
      loop.hub = o.hub →
      loop.signals = {} →
      loop.pipe = none →
      h.Abides host →
      Comes o h (.ok loop, host)
  | berthed {loop : Loop H} {pipe : SelfPipe} {host : Host} :
      o.primary = true →
      loop.hub = o.hub →
      loop.signals = {} →
      loop.pipe = some pipe →
      h.Berths o.hub pipe host →
      Comes o h (.ok loop, host)
  | refused {refusal : Refusal} {host : Host} :
      h.Undone host →
      (∀ limit, refusal = .tooManyLoops limit → limit = Hub.capacity ∧ h.Filled o.hub) →
      Comes o h (.error refusal, host)

theorem comes_of_buildPrimary
    {b : Backend} {kernel : Kernel} {result : Except Refusal (Loop H) × Host}
    (hroomy : h.Roomy) (hprimary : o.primary = true)
    (hcreated : Backend.Created h.kernel (.ok b, kernel))
    (hbuild : buildPrimary { h with kernel }
      ({ backend := b, hub := o.hub, tick := o.tick } : Loop H) = .ok result) :
    o.Comes h result := by
  have hacquired :=
    SelfPipe.acquired_acquire? (h := { h with kernel }) hroomy o.hub
  unfold buildPrimary at hbuild
  generalize SelfPipe.acquire? { h with kernel } o.hub = acquired at hacquired hbuild
  cases hacquired with
  | unopened hmodes =>
      cases hbuild
      exact .refused ⟨fun _ => rfl, rfl, hcreated.undone_release hmodes⟩ nofun
  | abandoned hmodes hfilled =>
      cases hbuild
      exact .refused ⟨fun _ => rfl, rfl, (hcreated.undone_closePipe hmodes).1⟩ hfilled
  | @joined place kernel' hmodes hplace hvacant =>
      obtain ⟨⟨answer, m⟩, hset, hbuild⟩ := Except.bind_eq_ok_iff.1 hbuild
      rcases Machine.setFd_ok hset with ⟨hflags, -⟩ | ⟨-, hsame, limit, -, hanswer⟩ |
        ⟨-, hanswer, -, -, d, d', kernel'', hregisters⟩
      · exact absurd hflags (by decide)
      · subst hsame hanswer
        -- the machine is as it was, so its loop still has the pipe
        obtain ⟨⟨_, host⟩, hdiscard, hbuild⟩ := Except.bind_eq_ok_iff.1 hbuild
        cases hbuild
        obtain rfl := Loop.eq_unmoor_of_discard hdiscard rfl hplace
        refine .refused ⟨fun i => ?_, rfl, (hcreated.undone_closePipe hmodes).2⟩ nofun
        exact Host.hub_seat_seat (h := h) hroomy hplace hvacant _ _ i
      · subst hanswer
        cases hbuild
        have haloof := hregisters.aloof
        have hsize : kernel.pipes.size < kernel'.pipes.size := by
          rw [hmodes.pipes]
          exact Nat.lt_of_lt_of_eq (Nat.lt_succ_self _) (Array.size_push _).symm
        have hpipes : kernel'.pipes.size ≤ m.host.kernel.pipes.size := haloof.host.kernel.pipes
        cases hcreated with
        | created hkernel hcaught _ =>
            refine .berthed hprimary haloof.hub haloof.signals haloof.pipe ?_
            exact
              { hub := rfl
                reader := congrArg (Kernel.readEnd ∘ Array.size) hkernel
                writer := congrArg (Kernel.writeEnd ∘ Array.size) hkernel
                opened := hkernel ▸ Nat.lt_of_lt_of_le hsize hpipes
                bound := hplace
                vacant := hvacant
                hubs := haloof.host.hubs
                owners := haloof.host.owners
                caught := haloof.host.kernel.caught.trans (hmodes.caught.trans hcaught) }

theorem comes_of_build
    {result : Except Refusal (Loop H) × Host} (hroomy : h.Roomy)
    (hbuild : o.build H h = .ok result) :
    o.Comes h result := by
  have hcreated := Backend.created_create h.kernel o.backend o.capacity
  unfold build at hbuild
  split at hbuild
  next =>
      cases hbuild
  next =>
      generalize Backend.create h.kernel o.backend o.capacity = created at hcreated hbuild
      obtain ⟨backend?, kernel⟩ := created
      cases backend? with
      | error cause =>
          cases hcreated with
          | failed hmodes =>
              cases hbuild
              exact .refused ⟨fun _ => rfl, rfl, hmodes.undone⟩ nofun
      | ok b =>
          dsimp only at hbuild
          split at hbuild
          next hprimary =>
              exact comes_of_buildPrimary hroomy hprimary hcreated hbuild
          next hprimary =>
              cases hbuild
              cases hcreated with
              | created hpipes hcaught _ =>
                  refine .plain (Bool.not_eq_true _ ▸ hprimary) rfl rfl rfl ?_
                  exact ⟨rfl, rfl, hcaught, Nat.le_of_eq (congrArg Array.size hpipes).symm⟩

end LoopOptions

end CallbackLoop
