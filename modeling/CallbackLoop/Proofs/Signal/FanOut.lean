import CallbackLoop.Proofs.Signal.Pipes
import CallbackLoop.Proofs.Signal.Places

/-!
# Fan-out of signals

The handler of a signal writes its number to every pipe that has joined the hub of the
signal.  Pipes join and leave while signals are acquired, released and raised, several hubs
share the owners, and each write can fail on its own.

Who is joined is read off the log: `Seats.after` follows the joins and leaves.  The
invariant is that the places of the hubs hold what the log says.  A raised signal then
reaches the pipes seated at its hub and no other, and what a pipe has received is the
sequence of the signals raised while it was seated there.
-/

namespace CallbackLoop

/-- What happens to hubs, signals and pipes. -/
inductive FanAct where
  | joined (id : Nat) (fd : Int) (place : Nat)
  /-- A hub has no place for a write end. -/
  | excluded (id : Nat) (fd : Int)
  | left (id place : Nat)
  | acquired (id : Nat) (signo : Int) (result : Except Refusal Unit)
  | released (id : Nat) (signo : Int)
  /-- A signal is raised: the hub whose handler runs, and the calls that are made. -/
  | raised (signo : Int) (hub? : Option Nat) (calls : List CallRecord)
  | read (fd : Int) (bytes : List UInt8)
  /-- Anything else happens to the kernel, and to some pipes. -/
  | changed (pipes : List Nat)
deriving DecidableEq

namespace Host

/-- The hub that handles a signal, if the process catches it. -/
def notifier? (h : Host) (signo : Int) : Option Nat :=
  if h.kernel.caught.contains signo then h.owners[signo]? else none

end Host

/-- One move.  A write end joins only while it has no place, and only a taken place is
left. -/
inductive FanMove : Host → FanAct → Host → Prop
  | join {h h' : Host} {id place : Nat} {fd : Int} :
      0 ≤ fd →
      (∀ i p, h.placed i p ≠ some fd) →
      h.join id fd = .ok (place, h') →
      FanMove h (.joined id fd place) h'
  | exclude {h : Host} {id : Nat} {fd : Int} {refusal : Refusal} :
      h.join id fd = .error refusal →
      FanMove h (.excluded id fd) h
  | leave {h h' : Host} {id place : Nat} {fd : Int} :
      h.placed id place = some fd →
      h.leave id place = .ok h' →
      FanMove h (.left id place) h'
  | acquire {h h' : Host} {id : Nat} {signo : Int} {result : Except Refusal Unit} :
      h.acquire id signo = (result, h') →
      FanMove h (.acquired id signo result) h'
  | release {h h' : Host} {id : Nat} {signo : Int} :
      h.release id signo = .ok h' →
      FanMove h (.released id signo) h'
  | raise {h : Host} {signo : Int} {calls : List CallRecord} :
      (h.raise signo).kernel.record = calls.reverse ++ h.kernel.record →
      FanMove h (.raised signo (h.notifier? signo) calls) (h.raise signo)
  | read {h : Host} {fd : Int} {count : Nat} {bytes : List UInt8} {kernel : Kernel} :
      h.kernel.read fd count = (.ok bytes, kernel) →
      FanMove h (.read fd bytes) { h with kernel }
  | change {h : Host} {pipes : List Nat} {kernel : Kernel} :
      kernel.caught = h.kernel.caught →
      (∀ n, n ∉ pipes → kernel.pipeContents n = h.kernel.pipeContents n) →
      FanMove h (.changed pipes) { h with kernel }

/-- Moves one after the other. -/
inductive FanRun : Host → List FanAct → Host → Prop
  | nil {h : Host} :
      FanRun h [] h
  | cons {h h' h'' : Host} {act : FanAct} {log : List FanAct} :
      FanMove h act h' →
      FanRun h' log h'' →
      FanRun h (act :: log) h''

/-- Where each write end has its place: the hub, and the place there. -/
abbrev Seats := Int → Option (Nat × Nat)

namespace Seats

/-- The places after an act. -/
def after (s : Seats) : FanAct → Seats
  | .joined id fd place => Function.update s fd (some (id, place))
  | .left id place => fun fd => if s fd = some (id, place) then none else s fd
  | _ => s

/-- Whether a write end has a place in a hub. -/
def isAt (s : Seats) (id : Nat) (fd : Int) : Bool :=
  (s fd).any (·.1 == id)

theorem isAt_iff
    {s : Seats} {id : Nat} {fd : Int} :
    s.isAt id fd = true ↔ ∃ place, s fd = some (id, place) := by
  unfold isAt
  rw [Option.any_eq_true]
  constructor
  · rintro ⟨⟨i, place⟩, hs, hi⟩
    rw [beq_iff_eq] at hi
    exact ⟨place, hi ▸ hs⟩
  · rintro ⟨place, hs⟩
    exact ⟨(id, place), hs, beq_self_eq_true id⟩

/-- The places after what is in a log, from none at all. -/
def ofLog (log : List FanAct) : Seats :=
  log.foldl after fun _ => none

end Seats

/-- The byte that stands for a signal. -/
def signalByte (signo : Int) : UInt8 :=
  signo.toNat.toUInt8

namespace FanAct

/-- The signal that a write end is to be told of. -/
def heard (act : FanAct) (s : Seats) (fd : Int) : List UInt8 :=
  match act with
  | raised signo (some id) _ => if s.isAt id fd then [signalByte signo] else []
  | _ => []

/-- The bytes that are read from a read end. -/
def taken (act : FanAct) (fd : Int) : List UInt8 :=
  match act with
  | read fd' bytes => if fd' = fd then bytes else []
  | _ => []

/-- No write to a pipe fails, and nothing else happens to it than reads and writes. -/
def Spares (act : FanAct) (n : Nat) : Prop :=
  match act with
  | raised _ _ calls => ∀ bytes cause, ⟨.write (Kernel.writeEnd n) bytes, some cause⟩ ∉ calls
  | changed pipes => n ∉ pipes
  | _ => True

end FanAct

/-- The signals that are raised while a write end has a place in their hub, in order. -/
def heard (fd : Int) : Seats → List FanAct → List UInt8
  | _, [] => []
  | s, act :: log => act.heard s fd ++ heard fd (s.after act) log

namespace Host

variable {h h' : Host} {act : FanAct} {log : List FanAct} {s : Seats} {signo : Int}

/-- The places of the hubs hold what the log says. -/
structure Seated (h : Host) (s : Seats) : Prop where
  roomy : h.Roomy
  placed_iff : ∀ fd id place, h.placed id place = some fd ↔ s fd = some (id, place)
  nonneg : ∀ fd seat, s fd = some seat → 0 ≤ fd

namespace Seated

/-- No two write ends have the same place. -/
theorem alone
    (hseated : h.Seated s) {fd fd' : Int} {seat : Nat × Nat} (hfd : s fd = some seat)
    (hfd' : s fd' = some seat) :
    fd = fd' :=
  Option.some.inj (((hseated.placed_iff fd _ _).2 hfd).symm.trans
    ((hseated.placed_iff fd' _ _).2 hfd'))

theorem nodup_members
    (hseated : h.Seated s) (id : Nat) :
    (h.hub id).members.Nodup := by
  refine Host.nodup_members fun p p' fd hp hp' => ?_
  rw [hseated.placed_iff] at hp hp'
  cases hp.symm.trans hp'
  rfl

theorem mem_members_iff
    (hseated : h.Seated s) {id : Nat} {fd : Int} :
    fd ∈ (h.hub id).members ↔ ∃ place, s fd = some (id, place) := by
  rw [Host.mem_members_iff]
  simp only [hseated.placed_iff]
  constructor
  · exact And.right
  · rintro ⟨place, hplace⟩
    exact ⟨hseated.nonneg fd _ hplace, place, hplace⟩

theorem congr
    (hseated : h.Seated s) (hplaces : ∀ id, (h'.hub id).places = (h.hub id).places) :
    h'.Seated s where
  roomy := hseated.roomy.congr hplaces
  placed_iff fd id place := by
    rw [placed_congr (hplaces id)]
    exact hseated.placed_iff fd id place
  nonneg := hseated.nonneg

theorem joined
    (hseated : h.Seated s) {id place : Nat} {fd : Int} (hfd : 0 ≤ fd)
    (hout : ∀ i p, h.placed i p ≠ some fd) (hjoin : h.join id fd = .ok (place, h')) :
    h'.Seated (s.after (.joined id fd place)) := by
  obtain ⟨hplace, hvacant, rfl⟩ := join_ok hseated.roomy hfd hjoin
  refine ⟨roomy_seat hseated.roomy _ _ _, fun fd' i p => ?_, fun fd' seat hseat => ?_⟩
  · rw [placed_seat hseated.roomy hplace, Seats.after, Function.update_apply]
    by_cases hsame : fd' = fd
    · subst hsame
      rw [if_pos rfl]
      split
      next hat =>
          rw [hat.1, hat.2]
          exact ⟨fun _ => rfl, fun _ => rfl⟩
      next hat =>
          refine ⟨fun hplaced => absurd hplaced (hout i p), fun heq => ?_⟩
          cases heq
          exact absurd ⟨rfl, rfl⟩ hat
    · rw [if_neg hsame]
      split
      next hat =>
          rw [hat.1, hat.2]
          refine ⟨fun heq => absurd (Option.some.inj heq).symm hsame, fun heq => ?_⟩
          rw [(hseated.placed_iff fd' id place).2 heq] at hvacant
          cases hvacant
      next =>
          exact hseated.placed_iff fd' i p
  · rw [Seats.after, Function.update_apply] at hseat
    split at hseat
    next hsame =>
        exact hsame ▸ hfd
    next =>
        exact hseated.nonneg fd' seat hseat

theorem left
    (hseated : h.Seated s) {id place : Nat} (hleave : h.leave id place = .ok h') :
    h'.Seated (s.after (.left id place)) := by
  obtain ⟨hplace, rfl⟩ := leave_ok hleave
  refine ⟨roomy_seat hseated.roomy _ _ _, fun fd i p => ?_, fun fd seat hseat => ?_⟩
  · rw [placed_seat hseated.roomy hplace]
    dsimp only [Seats.after]
    by_cases hat : i = id ∧ p = place
    · rw [if_pos hat, hat.1, hat.2]
      refine ⟨nofun, fun heq => ?_⟩
      split at heq
      next =>
          cases heq
      next hother =>
          exact absurd heq hother
    · rw [if_neg hat]
      split
      next heq =>
          refine ⟨fun hplaced => absurd ?_ hat, nofun⟩
          rw [(hseated.placed_iff fd i p).1 hplaced] at heq
          cases heq
          exact ⟨rfl, rfl⟩
      next =>
          exact hseated.placed_iff fd i p
  · dsimp only [Seats.after] at hseat
    split at hseat
    next =>
        cases hseat
    next =>
        exact hseated.nonneg fd seat hseat

end Seated

/-- A signal that is caught reaches the pipes seated at its hub, and disturbs nothing
else. -/
structure Reaches (h : Host) (signo : Int) (s : Seats) (id : Nat) (calls : List CallRecord) :
    Prop where
  owner : h.owners[signo]? = some id
  counted : (h.hub id).refcount signo ≠ 0
  number : ((signalByte signo).toNat : Int) = signo
  /-- The number is written once to each write end seated at the hub, and to no other. -/
  made : ∃ members : List Int, members.Nodup ∧
    (∀ fd, fd ∈ members ↔ ∃ place, s fd = some (id, place)) ∧
      calls.map (·.call) = members.map (.write · [signalByte signo])
  record : (h.raise signo).kernel.record =
    calls.reverse ++ ⟨.signal signo .handler, none⟩ :: h.kernel.record
  /-- A pipe gains the number at its end if its write gets through, and is unchanged
  otherwise. -/
  contents : ∀ n, (h.raise signo).kernel.pipeContents n = h.kernel.pipeContents n ++
    if ⟨.write (Kernel.writeEnd n) [signalByte signo], none⟩ ∈ calls then [signalByte signo]
    else []
  /-- Whether it gets through depends on nothing but the pipe and its write end. -/
  accepted : ∀ n, s.isAt id (Kernel.writeEnd n) = true → h.kernel.Accepts n →
    ⟨.write (Kernel.writeEnd n) [signalByte signo], none⟩ ∈ calls
  hubs : (h.raise signo).hubs = h.hubs
  owners : (h.raise signo).owners = h.owners
  caught : (h.raise signo).kernel.caught = h.kernel.caught
  errno : (h.raise signo).kernel.errno = h.kernel.errno

theorem raise_eq_of_notifier?
    {id : Nat} (hnotifier : h.notifier? signo = some id) :
    h.raise signo =
      let kernel := broadcast (h.kernel.note (.signal signo .handler)) (signalByte signo)
        (h.hub id).members
      { h with kernel := { kernel with errno := h.kernel.errno } } := by
  unfold notifier? at hnotifier
  split at hnotifier
  next hcaught =>
      rw [raise, if_pos hcaught, catchSignal]
      dsimp only
      rw [hnotifier]
      rfl
  next =>
      cases hnotifier

/-- A signal that no hub handles is recorded, and nothing else. -/
theorem raise_eq_of_no_notifier
    (hnotifier : h.notifier? signo = none) :
    ∃ disposition, h.raise signo =
      { h with kernel := h.kernel.note (.signal signo disposition) } := by
  unfold notifier? at hnotifier
  unfold raise
  split
  next hcaught =>
      rw [if_pos hcaught] at hnotifier
      rw [catchSignal]
      dsimp only
      rw [hnotifier]
      exact ⟨_, rfl⟩
  next =>
      exact ⟨_, rfl⟩

theorem toNat_signalByte
    (hcatchable : isCatchable signo = true) :
    ((signalByte signo).toNat : Int) = signo := by
  simp only [isCatchable, Bool.and_eq_true, decide_eq_true_eq] at hcatchable
  obtain ⟨⟨⟨hpos, hlt⟩, -⟩, -⟩ := hcatchable
  have hsmall : signo.toNat < 256 := by omega
  rw [signalByte, Nat.toUInt8_eq, UInt8.toNat_ofNat', Nat.mod_eq_of_lt hsmall]
  omega

theorem exists_reaches
    {id : Nat} (hseated : h.Seated s) (hconsistent : h.ownership.Consistent)
    (hnotifier : h.notifier? signo = some id) :
    ∃ calls, h.Reaches signo s id calls := by
  have howner : h.owners[signo]? = some id := by
    unfold notifier? at hnotifier
    split at hnotifier
    · exact hnotifier
    · cases hnotifier
  have hcount := (hconsistent.owner_eq_some_iff id signo).1 howner
  have howned : h.ownership.owner signo ≠ none :=
    Option.ne_none_iff_exists'.2 ⟨id, howner⟩
  have haccepted := hconsistent.accepted signo howned
  have hraise := raise_eq_of_notifier? hnotifier
  obtain ⟨calls, hbroadcasts⟩ := Kernel.exists_broadcasts (signalByte signo)
    (h.hub id).members (h.kernel.note (.signal signo .handler))
  have hupholds := h.upholds_raise signo
  have hnodup := hseated.nodup_members id
  refine ⟨calls, ?_⟩
  exact
    { owner := howner
      counted := count_ownership h id signo ▸ hcount
      number := toNat_signalByte haccepted.1
      made := ⟨_, hnodup, fun fd => hseated.mem_members_iff, hbroadcasts.made⟩
      record := by
        rw [hraise]
        exact hbroadcasts.record
      contents := fun n => by
        rw [hraise]
        exact hbroadcasts.contents hnodup n
      accepted := fun n hat haccepts => by
        refine hbroadcasts.accepted hnodup n ?_
          ⟨haccepts.lt_size, haccepts.opened, haccepts.spared, haccepts.room⟩
        exact hseated.mem_members_iff.2 (Seats.isAt_iff.1 hat)
      hubs := (hubs_raise h signo).1
      owners := (hubs_raise h signo).2
      caught := hupholds.caught
      errno := by rw [hraise] }

/-- A pipe that a raised signal spares gains its number if it is seated at its hub. -/
theorem Reaches.contents_eq
    {id : Nat} {calls : List CallRecord} {n : Nat} (hreaches : h.Reaches signo s id calls)
    (hspares : ∀ bytes cause, ⟨.write (Kernel.writeEnd n) bytes, some cause⟩ ∉ calls) :
    (h.raise signo).kernel.pipeContents n = h.kernel.pipeContents n ++
      if s.isAt id (Kernel.writeEnd n) then [signalByte signo] else [] := by
  obtain ⟨members, -, hmembers, hmade⟩ := hreaches.made
  rw [hreaches.contents n]
  refine congrArg _ (if_congr ?_ rfl rfl)
  rw [Seats.isAt_iff, ← hmembers]
  constructor
  · intro hcall
    have hmem := List.mem_map_of_mem (f := fun record : CallRecord => record.call) hcall
    rw [hmade, List.mem_map] at hmem
    obtain ⟨fd, hfd, heq⟩ := hmem
    cases heq
    exact hfd
  · intro hmem
    have hcall := List.mem_map_of_mem (f := (Call.write · [signalByte signo])) hmem
    rw [← hmade, List.mem_map] at hcall
    obtain ⟨⟨call, failure⟩, hrecord, rfl⟩ := hcall
    cases failure with
    | none =>
        exact hrecord
    | some cause =>
        exact absurd hrecord (hspares _ cause)

/-- What every run keeps. -/
structure Attuned (h : Host) (s : Seats) : Prop where
  seated : h.Seated s
  consistent : h.ownership.Consistent

theorem Attuned.congr
    (hattuned : h.Attuned s) (hhubs : h'.hubs = h.hubs) (howners : h'.owners = h.owners)
    (hcaught : h'.kernel.caught = h.kernel.caught) :
    h'.Attuned s := by
  have hhub := hub_congr hhubs
  have hsame : h'.ownership = h.ownership :=
    ownership_congr (fun id => congrArg Hub.refcounts (hhub id)) howners hcaught
  exact ⟨hattuned.seated.congr fun id => congrArg Hub.places (hhub id),
    hsame ▸ hattuned.consistent⟩

theorem Attuned.move
    (hattuned : h.Attuned s) (hmove : FanMove h act h') :
    h'.Attuned (s.after act) := by
  have hcounted : ∀ {hubAct : HubAct}, HubMove h hubAct h' → h'.ownership.Consistent :=
    fun hhub => (change_move hattuned.consistent hhub).consistent hattuned.consistent
  cases hmove with
  | join hfd hout hjoin =>
      refine ⟨hattuned.seated.joined hfd hout hjoin, hcounted (.aside ?_)⟩
      obtain ⟨-, -, rfl⟩ := join_ok hattuned.seated.roomy hfd hjoin
      exact ownership_seat _ _ _ _
  | exclude _ =>
      exact hattuned
  | leave _ hleave =>
      refine ⟨hattuned.seated.left hleave, hcounted (.aside ?_)⟩
      obtain ⟨-, rfl⟩ := leave_ok hleave
      exact ownership_seat _ _ _ _
  | @acquire _ id signo result hacquire =>
      have hplaces := places_acquire h id signo
      rw [hacquire] at hplaces
      refine ⟨hattuned.seated.congr hplaces, ?_⟩
      cases result with
      | ok _ =>
          exact hcounted (.acquire hacquire)
      | error _ =>
          exact hcounted (.refuse hacquire)
  | release hrelease =>
      exact ⟨hattuned.seated.congr (places_release hrelease), hcounted (.release hrelease)⟩
  | raise _ =>
      exact hattuned.congr (hubs_raise _ _).1 (hubs_raise _ _).2 (upholds_raise _ _).caught
  | @read fd count _ _ hread =>
      have hupholds := h.kernel.upholds_read fd count
      rw [hread] at hupholds
      exact hattuned.congr rfl rfl hupholds.caught
  | change hcaught _ =>
      exact hattuned.congr rfl rfl hcaught

/-- What a spared pipe holds after one move: bytes are taken from the front only by reading,
and come to the end only for signals. -/
theorem Attuned.contents_move
    {n : Nat} (hattuned : h.Attuned s) (hmove : FanMove h act h') (hspares : act.Spares n) :
    h.kernel.pipeContents n ++ act.heard s (Kernel.writeEnd n) =
      act.taken (Kernel.readEnd n) ++ h'.kernel.pipeContents n := by
  have hstill : h'.kernel.pipes = h.kernel.pipes →
      h.kernel.pipeContents n ++ [] = [] ++ h'.kernel.pipeContents n := by
    intro hpipes
    rw [List.append_nil, List.nil_append, Kernel.pipeContents_congr hpipes]
  cases hmove with
  | join hfd _ hjoin =>
      obtain ⟨-, -, rfl⟩ := join_ok hattuned.seated.roomy hfd hjoin
      exact hstill rfl
  | exclude _ =>
      exact hstill rfl
  | leave _ hleave =>
      obtain ⟨-, rfl⟩ := leave_ok hleave
      exact hstill rfl
  | @acquire _ id signo _ hacquire =>
      have hpipes := pipes_acquire h id signo
      rw [hacquire] at hpipes
      exact hstill hpipes
  | release hrelease =>
      exact hstill (pipes_release hrelease)
  | @raise signo calls hrecord =>
      cases hnotifier : h.notifier? signo with
      | none =>
          obtain ⟨disposition, heq⟩ := raise_eq_of_no_notifier hnotifier
          exact hstill (congrArg (·.kernel.pipes) heq)
      | some id =>
          obtain ⟨writes, hreaches⟩ := exists_reaches hattuned.seated hattuned.consistent hnotifier
          have hcalls : calls.reverse = writes.reverse ++ [⟨.signal signo .handler, none⟩] := by
            refine List.append_cancel_right (hrecord.symm.trans (hreaches.record.trans ?_))
            rw [List.append_assoc, List.singleton_append]
          have hmem : ∀ record ∈ writes, record ∈ calls := by
            intro record hmem
            rw [← List.mem_reverse, hcalls]
            exact List.mem_append_left _ (List.mem_reverse.2 hmem)
          rw [hreaches.contents_eq fun bytes cause hwrite => hspares bytes cause (hmem _ hwrite)]
          rfl
  | read hread =>
      have hcontents := Kernel.pipeContents_of_read hread n
      rw [hcontents]
      exact List.append_nil _
  | change _ hkept =>
      rw [hkept n hspares]
      exact List.append_nil _

theorem Attuned.run
    (hattuned : h.Attuned s) (hrun : FanRun h log h') :
    h'.Attuned (log.foldl Seats.after s) := by
  induction hrun generalizing s with
  | nil =>
      exact hattuned
  | cons hmove _ ih =>
      exact ih (hattuned.move hmove)

theorem Attuned.contents_run
    {n : Nat} (hattuned : h.Attuned s) (hrun : FanRun h log h')
    (hspares : ∀ act ∈ log, act.Spares n) :
    h.kernel.pipeContents n ++ heard (Kernel.writeEnd n) s log =
      (log.flatMap (·.taken (Kernel.readEnd n))) ++ h'.kernel.pipeContents n := by
  induction hrun generalizing s with
  | nil =>
      exact List.append_nil _
  | cons hmove _ ih =>
      have hfirst := hattuned.contents_move hmove (hspares _ List.mem_cons_self)
      have hrest := ih (hattuned.move hmove) fun act hact =>
        hspares act (List.mem_cons_of_mem _ hact)
      rw [heard, ← List.append_assoc, hfirst, List.append_assoc, hrest, List.flatMap_cons,
        List.append_assoc]

theorem Fresh.attuned
    (hfresh : h.Fresh) :
    h.Attuned fun _ => none where
  seated := ⟨hfresh.roomy, fun fd id place => by rw [hfresh.placed]; exact ⟨nofun, nofun⟩,
    fun _ _ hseat => nomatch hseat⟩
  consistent := hfresh.ownership ▸ Ownership.consistent_vacant

/-- Whatever joins, leaves and counts of registrations came before, a caught signal is
written once to each write end that has a place in its hub and to no other; each of these
writes comes out as it would alone, and nothing else is changed.  A pipe to which every
write gets through receives exactly the signals of its hub that are raised while it is
joined. -/
theorem signals_reach_every_joined_loop
    (hfresh : h.Fresh) (hrun : FanRun h log h') :
    h'.Seated (Seats.ofLog log) ∧
      (∀ fd fd' seat, Seats.ofLog log fd = some seat → Seats.ofLog log fd' = some seat →
        fd = fd') ∧
      (∀ signo, h'.kernel.caught.contains signo = true →
        ∃ id calls, h'.Reaches signo (Seats.ofLog log) id calls) ∧
      ∀ n, (∀ act ∈ log, act.Spares n) →
        h.kernel.pipeContents n ++ heard (Kernel.writeEnd n) (fun _ => none) log =
          (log.flatMap (·.taken (Kernel.readEnd n))) ++ h'.kernel.pipeContents n := by
  have hattuned := hfresh.attuned.run hrun
  refine ⟨hattuned.seated, fun fd fd' seat => hattuned.seated.alone, fun signo hcaught => ?_,
    fun n => hfresh.attuned.contents_run hrun⟩
  have howned : h'.ownership.owner signo ≠ none :=
    (hattuned.consistent.caught_iff signo).1 hcaught
  obtain ⟨id, hid⟩ := Option.ne_none_iff_exists'.1 howned
  have hnotifier : h'.notifier? signo = some id := by
    rw [notifier?, if_pos hcaught]
    exact hid
  obtain ⟨calls, hreaches⟩ := exists_reaches hattuned.seated hattuned.consistent hnotifier
  exact ⟨id, calls, hreaches⟩

/-- What can be done next, without what it leads to. -/
inductive FanCue where
  | join (id : Nat) (fd : Int)
  | leave (id place : Nat)
  | acquire (id : Nat) (signo : Int)
  | release (id : Nat) (signo : Int)
  | raise (signo : Int)
  | read (fd : Int) (count : Nat)

/-- Follows a cue, unless it cannot be followed or ends the program. -/
def attend (h : Host) (s : Seats) : FanCue → Option (FanAct × Host)
  | .join id fd =>
      if 0 ≤ fd ∧ s fd = none then
        match h.join id fd with
        | .ok (place, h') => some (.joined id fd place, h')
        | .error _ => some (.excluded id fd, h)
      else none
  | .leave id place =>
      match h.placed id place, h.leave id place with
      | some _, .ok h' => some (.left id place, h')
      | _, _ => none
  | .acquire id signo =>
      match h.acquire id signo with
      | (result, h') => some (.acquired id signo result, h')
  | .release id signo =>
      match h.release id signo with
      | .ok h' => some (.released id signo, h')
      | .error _ => none
  | .raise signo =>
      let record := (h.raise signo).kernel.record
      let calls := (record.take (record.length - h.kernel.record.length)).reverse
      if record = calls.reverse ++ h.kernel.record then
        some (.raised signo (h.notifier? signo) calls, h.raise signo)
      else none
  | .read fd count =>
      match h.kernel.read fd count with
      | (.ok bytes, kernel) => some (.read fd bytes, { h with kernel })
      | (.error _, _) => none

theorem move_of_attend
    {cue : FanCue} (hattuned : h.Attuned s) (hattend : h.attend s cue = some (act, h')) :
    FanMove h act h' := by
  cases cue with
  | join id fd =>
      simp only [attend] at hattend
      split at hattend
      next hfree =>
          split at hattend <;> cases hattend
          next hjoin =>
              refine .join hfree.1 (fun i p hplaced => ?_) hjoin
              rw [(hattuned.seated.placed_iff fd i p).1 hplaced] at hfree
              cases hfree.2
          next hjoin =>
              exact .exclude hjoin
      next =>
          cases hattend
  | leave id place =>
      simp only [attend] at hattend
      split at hattend <;> cases hattend
      next hplaced hleave =>
          exact .leave hplaced hleave
  | acquire id signo =>
      cases hattend
      exact .acquire rfl
  | release id signo =>
      simp only [attend] at hattend
      split at hattend <;> cases hattend
      next hrelease =>
          exact .release hrelease
  | raise signo =>
      simp only [attend] at hattend
      split at hattend <;> cases hattend
      next hrecord =>
          exact .raise hrecord
  | read fd count =>
      simp only [attend] at hattend
      split at hattend <;> cases hattend
      next hread =>
          exact .read hread

/-- What comes of a cue while the seats are read off the log. -/
def attendSeated (state : Host × Seats) (cue : FanCue) : Option (FanAct × Host × Seats) :=
  (state.1.attend state.2 cue).map fun (act, h') => (act, h', state.2.after act)

theorem composes_fanRun :
    Composes attendSeated fun start log last =>
      start.1.Attuned start.2 → FanRun start.1 log last.1 where
  nil _ _ := .nil
  cons hattend hrest hattuned := by
    obtain ⟨⟨act, h'⟩, hcue, heq⟩ := Option.map_eq_some_iff.1 hattend
    cases heq
    have hmove := move_of_attend hattuned hcue
    exact .cons hmove (hrest (hattuned.move hmove))

/-- Two loops join one hub and a third joins another.  One write to the second loop fails,
and the first loop leaves before the last signal. -/
def crossedLog : List FanAct :=
  [.joined 0 901 0, .joined 0 903 1, .joined 1 905 0, .acquired 0 10 (.ok ()),
    .acquired 1 12 (.ok ()),
    .raised 10 (some 0) [⟨.signal 10 .handler, none⟩, ⟨.write 901 [10], none⟩,
      ⟨.write 903 [10], none⟩],
    .raised 12 (some 1) [⟨.signal 12 .handler, none⟩, ⟨.write 905 [12], none⟩],
    .read 900 [10],
    .raised 10 (some 0) [⟨.signal 10 .handler, none⟩, ⟨.write 901 [10], none⟩,
      ⟨.write 903 [10], some .wouldBlock⟩],
    .left 0 0,
    .raised 10 (some 0) [⟨.signal 10 .handler, none⟩, ⟨.write 903 [10], none⟩]]

theorem signals_reach_every_joined_loop_crossedLog :
    ∃ h h' : Host, h.Fresh ∧ FanRun h crossedLog h' ∧ (∀ act ∈ crossedLog, act.Spares 0) ∧
      h'.kernel.pipeContents 0 = [10] ∧
      ∃ id calls, h'.Reaches 12 (Seats.ofLog crossedLog) id calls ∧ id = 1 := by
  let faults : List Fault :=
    [{ name := .write, subject := some 903, errno := .wouldBlock, skip := 1 }]
  let start : Host := { kernel := { pipes := #[[], [], []], faults } }
  have hfresh : start.Fresh := ⟨rfl, rfl, rfl⟩
  let cues : List FanCue :=
    [.join 0 901, .join 0 903, .join 1 905, .acquire 0 10, .acquire 1 12, .raise 10, .raise 12,
      .read 900 64, .raise 10, .leave 0 0, .raise 10]
  have hfollow : (follow attendSeated (start, fun _ => none) cues).map (fun (log, h', _) =>
      (log, h'.kernel.caught.contains 12, h'.owners[(12 : Int)]?)) =
        some (crossedLog, true, some 1) := by
    decide +kernel
  obtain ⟨log, ⟨h', s⟩, hruns, hview⟩ := composes_fanRun.exists_run _ cues hfollow
  simp only [Prod.mk.injEq] at hview
  obtain ⟨rfl, hcaught, howner⟩ := hview
  have hrun : FanRun start crossedLog h' := hruns hfresh.attuned
  have hspares : ∀ act ∈ crossedLog, act.Spares 0 := by
    simp [crossedLog, FanAct.Spares, Kernel.writeEnd]
  obtain ⟨hseated, -, hreaches, hcontents⟩ := signals_reach_every_joined_loop hfresh hrun
  obtain ⟨id, calls, hreached⟩ := hreaches 12 hcaught
  have hend : [10, 10] = [10] ++ h'.kernel.pipeContents 0 := hcontents 0 hspares
  refine ⟨start, h', hfresh, hrun, hspares, ?_, id, calls, hreached, ?_⟩
  · exact (List.cons.inj hend).2.symm
  · exact Option.some.inj (hreached.owner.symm.trans howner)

end Host
end CallbackLoop
