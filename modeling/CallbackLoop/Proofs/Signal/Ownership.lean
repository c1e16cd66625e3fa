import CallbackLoop.Proofs.Following
import CallbackLoop.Signal.Hub
import Mathlib.Logic.Function.Basic

/-!
# Who owns a signal

Three things are kept of a signal: how often each hub has it registered, which hub owns
it, and whether the process catches it.  They are kept in different places and are changed
one after the other.  `Host.ownership` reads them side by side, and `Ownership.Change`
says what the calls on hubs make of them.

The invariant is that a hub owns exactly the signals that it counts, and that the process
catches exactly those that are owned.  A signal has one owner, so it is counted in one hub
at most.
-/

namespace CallbackLoop

namespace Kernel

/-- What comes of changing the disposition of a signal.  It is recorded in any case. -/
inductive Disposed (k : Kernel) (signo : Int) (disposition : Disposition) :
    Except Errno Unit × Kernel → Prop
  | failed {cause : Errno} {k' : Kernel} :
      k'.caught = k.caught →
      k'.record = ⟨.setDisposition signo disposition, some cause⟩ :: k.record →
      Disposed k signo disposition (.error cause, k')
  | done {k' : Kernel} :
      signo ≠ 32 ∧ signo ≠ 33 →
      k'.caught.contains =
        Function.update k.caught.contains signo (decide (disposition = .handler)) →
      k'.record = ⟨.setDisposition signo disposition, none⟩ :: k.record →
      Disposed k signo disposition (.ok (), k')

theorem contains_insert
    (caught : Std.TreeSet Int) (signo : Int) :
    (caught.insert signo).contains = Function.update caught.contains signo true := by
  funext other
  rw [Std.TreeSet.contains_insert, Function.update_apply]
  by_cases hsame : other = signo
  · simp [hsame]
  · simp [hsame, Ne.symm hsame]

theorem contains_erase
    (caught : Std.TreeSet Int) (signo : Int) :
    (caught.erase signo).contains = Function.update caught.contains signo false := by
  funext other
  rw [Std.TreeSet.contains_erase, Function.update_apply]
  by_cases hsame : other = signo
  · simp [hsame]
  · simp [hsame, Ne.symm hsame]

theorem disposed_setDisposition
    (k : Kernel) (signo : Int) (disposition : Disposition) :
    k.Disposed signo disposition (k.setDisposition signo disposition) := by
  have hkept : ∀ site, let hit := if signo = 32 || signo = 33 then
      (some Errno.invalidArgument, k) else k.strike site
      hit.2.caught = k.caught ∧ hit.2.record = k.record ∧
        (hit.1 = none → signo ≠ 32 ∧ signo ≠ 33) := by
    intro site
    dsimp only
    split
    next =>
        exact ⟨rfl, rfl, nofun⟩
    next hfree =>
        rw [Bool.or_eq_true, not_or, decide_eq_true_eq, decide_eq_true_eq] at hfree
        exact ⟨rfl, rfl, fun _ => hfree⟩
  unfold setDisposition
  dsimp only
  generalize hhit : (if signo = 32 || signo = 33 then (some Errno.invalidArgument, k)
    else k.strike _ : Option Errno × Kernel) = hit
  obtain ⟨hcaught, hrecord, hfree⟩ : hit.2.caught = k.caught ∧ hit.2.record = k.record ∧
      (hit.1 = none → signo ≠ 32 ∧ signo ≠ 33) := by
    rw [← hhit]
    exact hkept _
  obtain ⟨failure, k'⟩ := hit
  dsimp only at hcaught hrecord hfree
  cases failure with
  | some cause =>
      exact .failed hcaught (congrArg _ hrecord)
  | none =>
      cases disposition with
      | handler =>
          refine .done (hfree rfl) ?_ (congrArg _ hrecord)
          rw [← hcaught]
          exact contains_insert _ _
      | default =>
          refine .done (hfree rfl) ?_ (congrArg _ hrecord)
          rw [← hcaught]
          exact contains_erase _ _

/-- The default disposition is restored unless a fault prevents it. -/
theorem exists_setDisposition_default
    {k : Kernel} {signo : Int} (hfree : signo ≠ 32 ∧ signo ≠ 33)
    (hstrike : (k.strike ⟨.sigaction, some signo, some .default⟩).1 = none) :
    ∃ k', k.setDisposition signo .default = (.ok (), k') := by
  have hreserved : (signo = 32 || signo = 33) = false := by
    simp [hfree]
  unfold setDisposition
  simp only [hreserved, Bool.false_eq_true, if_false, hstrike]
  exact ⟨_, rfl⟩

end Kernel

theorem getElem?_insert
    (counts : Std.TreeMap Int Nat) (signo : Int) (n : Nat) :
    (fun other => (counts.insert signo n)[other]?) =
      Function.update (fun other => counts[other]?) signo (some n) := by
  funext other
  simp only [Std.TreeMap.getElem?_insert, Std.LawfulEqCmp.compare_eq_iff_eq,
    @eq_comm Int signo, Function.update_apply]

theorem getElem?_erase
    (counts : Std.TreeMap Int Nat) (signo : Int) :
    (fun other => (counts.erase signo)[other]?) =
      Function.update (fun other => counts[other]?) signo none := by
  funext other
  simp only [Std.TreeMap.getElem?_erase, Std.LawfulEqCmp.compare_eq_iff_eq,
    @eq_comm Int signo, Function.update_apply]

/-- What is kept of the signals of a process. -/
structure Ownership where
  /-- The number of registrations that a hub has stored for a signal. -/
  stored : Nat → Int → Option Nat
  owner : Int → Option Nat
  caught : Int → Bool

namespace Ownership

variable {o o' : Ownership} {id : Nat} {signo : Int}

/-- The number of registrations that a hub has for a signal. -/
def count (o : Ownership) (id : Nat) (signo : Int) : Nat :=
  (o.stored id signo).getD 0

/-- Changes the number that a hub has stored for a signal. -/
def store (o : Ownership) (id : Nat) (signo : Int) (n : Option Nat) : Ownership :=
  { o with stored := Function.update o.stored id (Function.update (o.stored id) signo n) }

/-- Changes the number that a hub has stored for a signal, which makes it the owner as long
as there is one. -/
def assign (o : Ownership) (id : Nat) (signo : Int) (n : Option Nat) : Ownership :=
  { o.store id signo n with
    owner := Function.update o.owner signo (n.map fun _ => id)
    caught := Function.update o.caught signo n.isSome }

theorem stored_assign
    (o : Ownership) (id : Nat) (signo : Int) (n : Option Nat) (i : Nat) (s : Int) :
    (o.assign id signo n).stored i s = if i = id ∧ s = signo then n else o.stored i s := by
  dsimp only [assign, store]
  by_cases hid : i = id
  · rw [hid, Function.update_self, Function.update_apply]
    simp
  · rw [Function.update_of_ne hid, if_neg fun h => hid h.1]

theorem owner_assign
    (o : Ownership) (id : Nat) (signo : Int) (n : Option Nat) (s : Int) :
    (o.assign id signo n).owner s = if s = signo then n.map fun _ => id else o.owner s :=
  Function.update_apply ..

theorem caught_assign
    (o : Ownership) (id : Nat) (signo : Int) (n : Option Nat) (s : Int) :
    (o.assign id signo n).caught s = if s = signo then n.isSome else o.caught s :=
  Function.update_apply ..

theorem count_assign
    (o : Ownership) (id : Nat) (signo : Int) (n : Option Nat) (i : Nat) (s : Int) :
    (o.assign id signo n).count i s = if i = id ∧ s = signo then n.getD 0 else o.count i s := by
  unfold count
  rw [stored_assign]
  split <;> rfl

/-- The owner of a signal remains so when it counts more or fewer registrations. -/
theorem store_eq_assign
    {n : Nat} (howner : o.owner signo = some id) (hcaught : o.caught signo = true) :
    o.store id signo (some n) = o.assign id signo (some n) := by
  have howners : Function.update o.owner signo (some id) = o.owner :=
    Function.update_eq_self_iff.2 howner.symm
  have hcaughts : Function.update o.caught signo true = o.caught :=
    Function.update_eq_self_iff.2 hcaught.symm
  dsimp only [assign, Option.map_some, Option.isSome_some]
  rw [howners, hcaughts]
  rfl

end Ownership

namespace Host

/-- What is kept of the signals of a process. -/
def ownership (h : Host) : Ownership where
  stored id signo := (h.hub id).refcounts[signo]?
  owner signo := h.owners[signo]?
  caught := h.kernel.caught.contains

/-- Stores how many registrations a hub has for a signal. -/
def recount (h : Host) (id : Nat) (signo : Int) (n : Nat) : Host :=
  h.setHub id { h.hub id with refcounts := (h.hub id).refcounts.insert signo n }

/-- Forgets that a hub had registrations for a signal. -/
def uncount (h : Host) (id : Nat) (signo : Int) : Host :=
  h.setHub id { h.hub id with refcounts := (h.hub id).refcounts.erase signo }

theorem ownership_with
    (h : Host) (kernel : Kernel) (owners : Std.TreeMap Int Nat) :
    Host.ownership { h with kernel, owners } =
      { h.ownership with
        owner := fun signo => owners[signo]?
        caught := kernel.caught.contains } :=
  rfl

theorem count_ownership
    (h : Host) (id : Nat) (signo : Int) :
    h.ownership.count id signo = (h.hub id).refcount signo := by
  rw [Hub.refcount, Std.TreeMap.getD_eq_getD_getElem?]
  rfl

theorem hub_setHub
    (h : Host) (id other : Nat) (hub : Hub) :
    (h.setHub id hub).hub other = if other = id then hub else h.hub other := by
  simp only [Host.hub, setHub, Std.TreeMap.getD_insert, Std.LawfulEqCmp.compare_eq_iff_eq,
    @eq_comm Nat id]

theorem refcount_uncount
    (h : Host) (id : Nat) (signo : Int) :
    ((h.uncount id signo).hub id).refcount signo = 0 := by
  rw [uncount, hub_setHub, if_pos rfl, Hub.refcount, Std.TreeMap.getD_erase_self]

theorem stored_setHub
    (h : Host) (id : Nat) (hub : Hub) :
    (h.setHub id hub).ownership.stored =
      Function.update h.ownership.stored id fun signo => hub.refcounts[signo]? := by
  funext other
  rw [Function.update_apply]
  unfold ownership
  dsimp only
  rw [hub_setHub]
  split <;> rfl

theorem ownership_recount
    (h : Host) (id : Nat) (signo : Int) (n : Nat) :
    (h.recount id signo n).ownership = h.ownership.store id signo (some n) := by
  have hstored := stored_setHub h id
    { h.hub id with refcounts := (h.hub id).refcounts.insert signo n }
  dsimp only at hstored
  rw [getElem?_insert] at hstored
  exact congrArg (Ownership.mk · _ _) hstored

theorem ownership_uncount
    (h : Host) (id : Nat) (signo : Int) :
    (h.uncount id signo).ownership = h.ownership.store id signo none := by
  have hstored := stored_setHub h id
    { h.hub id with refcounts := (h.hub id).refcounts.erase signo }
  dsimp only at hstored
  rw [getElem?_erase] at hstored
  exact congrArg (Ownership.mk · _ _) hstored

/-- What comes of counting one more registration. -/
inductive Acquired (h : Host) (id : Nat) (signo : Int) : Except Refusal Unit × Host → Prop
  | uncatchable :
      isCatchable signo = false →
      Acquired h id signo (.error (.invalidSignal signo), h)
  | again :
      (h.hub id).refcount signo ≠ 0 →
      Acquired h id signo (.ok (), h.recount id signo ((h.hub id).refcount signo + 1))
  | owned :
      h.owners.contains signo = true →
      Acquired h id signo (.error (.signalOwned signo), h)
  | failed {cause : Errno} {kernel : Kernel} {refusal : Refusal} :
      (h.hub id).refcount signo = 0 →
      h.kernel.Disposed signo .handler (.error cause, kernel) →
      Acquired h id signo (.error refusal, { h with kernel })
  | first {kernel : Kernel} :
      isCatchable signo = true →
      (h.hub id).refcount signo = 0 →
      h.owners[signo]? = none →
      h.kernel.Disposed signo .handler (.ok (), kernel) →
      Acquired h id signo
        (.ok (), { h.recount id signo 1 with kernel, owners := h.owners.insert signo id })

/-- What comes of dropping one registration. -/
inductive Released (h : Host) (id : Nat) (signo : Int) : Except Crash Host → Prop
  | uncounted :
      isCatchable signo = false ∨ (h.hub id).refcount signo = 0 →
      Released h id signo (.ok h)
  | fewer {n : Nat} :
      (h.hub id).refcount signo = n + 2 →
      Released h id signo (.ok (h.recount id signo (n + 1)))
  | last {kernel : Kernel} :
      (h.hub id).refcount signo = 1 →
      h.kernel.Disposed signo .default (.ok (), kernel) →
      Released h id signo
        (.ok { h.uncount id signo with kernel, owners := h.owners.erase signo })
  | stuck {cause : Errno} {kernel : Kernel} :
      (h.hub id).refcount signo = 1 →
      h.kernel.setDisposition signo .default = (.error cause, kernel) →
      Released h id signo
        (.error ⟨.dispositionStuck signo cause, { h.uncount id signo with kernel }⟩)

theorem acquired_acquire
    (h : Host) (id : Nat) (signo : Int) :
    h.Acquired id signo (h.acquire id signo) := by
  have hdisposed := h.kernel.disposed_setDisposition signo .handler
  unfold acquire
  split
  next hcatchable =>
      exact .uncatchable (Bool.not_eq_true' _ ▸ hcatchable)
  next hcatchable =>
      rw [Bool.not_eq_true', Bool.not_eq_false] at hcatchable
      dsimp only
      split
      next hcount =>
          exact .again hcount
      next hcount =>
          rw [not_not] at hcount
          split
          next howned =>
              exact .owned howned
          next howned =>
              have hnone : h.owners[signo]? = none := by
                rwa [Std.TreeMap.contains_eq_isSome_getElem?,
                  Option.not_isSome_iff_eq_none] at howned
              split
              next hset =>
                  rw [hset] at hdisposed
                  rw [hcount]
                  exact .first hcatchable hcount hnone hdisposed
              next hset =>
                  rw [hset] at hdisposed
                  exact .failed hcount hdisposed

theorem released_release
    (h : Host) (id : Nat) (signo : Int) :
    h.Released id signo (h.release id signo) := by
  have hdisposed := h.kernel.disposed_setDisposition signo .default
  unfold release
  dsimp only
  split
  next huncounted =>
      refine .uncounted ?_
      simpa using huncounted
  next hcounted =>
      have hpositive : (h.hub id).refcount signo ≠ 0 := by
        intro hzero
        simp [hzero] at hcounted
      split
      next hne =>
          obtain ⟨n, hn⟩ : ∃ n, (h.hub id).refcount signo = n + 2 :=
            ⟨(h.hub id).refcount signo - 2, by omega⟩
          rw [hn]
          exact .fewer hn
      next hone =>
          rw [not_not] at hone
          split
          next hset =>
              have hkernel : h.kernel.setDisposition signo .default = _ := hset
              rw [hkernel] at hdisposed
              exact .last hone hdisposed
          next hset =>
              exact .stuck hone hset

end Host

/-- What happens to the registrations for signals. -/
inductive HubAct where
  | acquired (id : Nat) (signo : Int)
  | refused (id : Nat) (signo : Int) (refusal : Refusal)
  /-- A registration is dropped, if the hub has one. -/
  | released (id : Nat) (signo : Int) (counted : Bool)
  /-- Something else happens to the host. -/
  | aside
deriving DecidableEq

/-- Whether nothing is changed of what is kept of the signals. -/
def HubAct.isStill : HubAct → Bool
  | acquired _ _ => false
  | released _ _ counted => !counted
  | _ => true

/-- One call on a hub, or anything that leaves the registrations, the owners and the
dispositions alone. -/
inductive HubMove : Host → HubAct → Host → Prop
  | acquire {h h' : Host} {id : Nat} {signo : Int} :
      h.acquire id signo = (.ok (), h') →
      HubMove h (.acquired id signo) h'
  | refuse {h h' : Host} {id : Nat} {signo : Int} {refusal : Refusal} :
      h.acquire id signo = (.error refusal, h') →
      HubMove h (.refused id signo refusal) h'
  | release {h h' : Host} {id : Nat} {signo : Int} :
      h.release id signo = .ok h' →
      HubMove h (.released id signo ((h.hub id).refcount signo != 0)) h'
  | aside {h h' : Host} :
      h'.ownership = h.ownership →
      HubMove h .aside h'

/-- Moves one after the other. -/
inductive HubRun : Host → List HubAct → Host → Prop
  | nil {h : Host} :
      HubRun h [] h
  | cons {h h' h'' : Host} {act : HubAct} {log : List HubAct} :
      HubMove h act h' →
      HubRun h' log h'' →
      HubRun h (act :: log) h''

namespace Ownership

variable {o o' : Ownership} {act : HubAct} {log : List HubAct} {id : Nat} {signo : Int}

/-- What a move makes of what is kept of the signals. -/
inductive Change (o : Ownership) : HubAct → Ownership → Prop
  | still {act : HubAct} :
      act.isStill = true →
      Change o act o
  | more {id : Nat} {signo : Int} :
      isCatchable signo = true ∧ signo ≠ 32 ∧ signo ≠ 33 →
      (∀ other, o.owner signo = some other → other = id) →
      Change o (.acquired id signo) (o.assign id signo (some (o.count id signo + 1)))
  | fewer {id : Nat} {signo : Int} {n : Nat} :
      o.count id signo = n + 1 →
      Change o (.released id signo true)
        (o.assign id signo (if n = 0 then none else some n))

/-- A hub owns the signals that it counts, and the process catches those that are owned. -/
structure Consistent (o : Ownership) : Prop where
  positive : ∀ id signo n, o.stored id signo = some n → n ≠ 0
  owner_iff : ∀ id signo, o.owner signo = some id ↔ o.stored id signo ≠ none
  caught_iff : ∀ signo, o.caught signo = true ↔ o.owner signo ≠ none
  accepted : ∀ signo, o.owner signo ≠ none → isCatchable signo = true ∧ signo ≠ 32 ∧ signo ≠ 33

namespace Consistent

theorem count_eq_zero_iff
    (h : o.Consistent) (id : Nat) (signo : Int) :
    o.count id signo = 0 ↔ o.stored id signo = none := by
  unfold count
  cases hstored : o.stored id signo with
  | none =>
      exact ⟨fun _ => rfl, fun _ => rfl⟩
  | some n =>
      exact ⟨fun hzero => absurd hzero (h.positive id signo n hstored), nofun⟩

/-- A hub owns exactly the signals that it counts. -/
theorem owner_eq_some_iff
    (h : o.Consistent) (id : Nat) (signo : Int) :
    o.owner signo = some id ↔ o.count id signo ≠ 0 := by
  rw [h.owner_iff, Ne, Ne, h.count_eq_zero_iff]

/-- No other hub may own the signal. -/
theorem assign
    {n : Option Nat} (h : o.Consistent) (hpositive : n ≠ some 0)
    (haccepted : isCatchable signo = true ∧ signo ≠ 32 ∧ signo ≠ 33)
    (hfree : ∀ other, o.owner signo = some other → other = id) :
    (o.assign id signo n).Consistent := by
  refine ⟨fun i s k => ?_, fun i s => ?_, fun s => ?_, fun s => ?_⟩
  · rw [stored_assign]
    split
    · rintro hn rfl
      exact hpositive hn
    · exact h.positive i s k
  · rw [stored_assign, owner_assign]
    by_cases hs : s = signo
    · by_cases hi : i = id
      · cases n <;> simp [hs, hi]
      · have hnone : o.stored i signo = none :=
          not_not.1 fun hsome => hi (hfree i ((h.owner_iff i signo).2 hsome))
        simp [hs, hi, hnone, Ne.symm hi]
    · simp only [hs, if_false, and_false]
      exact h.owner_iff i s
  · rw [owner_assign, caught_assign]
    split
    · cases n <;> simp
    · exact h.caught_iff s
  · rw [owner_assign]
    split
    next hs =>
        exact fun _ => hs ▸ haccepted
    next =>
        exact h.accepted s

end Consistent

theorem Change.consistent
    (hchange : o.Change act o') (h : o.Consistent) :
    o'.Consistent := by
  cases hchange with
  | still _ =>
      exact h
  | more haccepted hfree =>
      exact h.assign nofun haccepted hfree
  | @fewer id signo n hcount =>
      have howner := (h.owner_eq_some_iff id signo).2 (hcount ▸ Nat.succ_ne_zero n)
      refine h.assign ?_ (h.accepted signo (howner ▸ nofun)) fun other hother => ?_
      · split
        · nofun
        next hn =>
            exact fun hzero => hn (Option.some.inj hzero)
      · exact Option.some.inj (hother.symm.trans howner)

/-- What a hub counts for a signal is what was acquired and not released since. -/
def Balanced (o : Ownership) (log : List HubAct) : Prop :=
  ∀ id signo, o.count id signo + log.count (.released id signo true) =
    log.count (.acquired id signo)

theorem Change.balanced
    (hchange : o.Change act o') (h : o.Balanced log) :
    o'.Balanced (log ++ [act]) := by
  intro i s
  have hbalance := h i s
  rw [List.count_append, List.count_append, List.count_singleton, List.count_singleton]
  cases hchange with
  | still hstill =>
      have hacquired : act ≠ .acquired i s := by
        rintro rfl
        cases hstill
      have hreleased : act ≠ .released i s true := by
        rintro rfl
        cases hstill
      simpa [hacquired, hreleased] using hbalance
  | @more id signo _ _ =>
      rw [count_assign]
      by_cases hsame : i = id ∧ s = signo
      · obtain ⟨rfl, rfl⟩ := hsame
        simp
        omega
      · have hother : HubAct.acquired id signo ≠ .acquired i s := by
          rintro ⟨⟩
          exact hsame ⟨rfl, rfl⟩
        simpa [hsame, hother] using hbalance
  | @fewer id signo n hcount =>
      rw [count_assign]
      by_cases hsame : i = id ∧ s = signo
      · obtain ⟨rfl, rfl⟩ := hsame
        have hleft : (if n = 0 then none else some n).getD 0 = n := by
          split <;> simp [*]
        simp [hleft]
        omega
      · have hother : HubAct.released id signo true ≠ .released i s true := by
          rintro ⟨⟩
          exact hsame ⟨rfl, rfl⟩
        simpa [hsame, hother] using hbalance

/-- Nothing is kept of any signal. -/
def vacant : Ownership where
  stored _ _ := none
  owner _ := none
  caught _ := false

theorem consistent_vacant :
    vacant.Consistent :=
  ⟨fun _ _ _ => nofun, fun _ _ => ⟨nofun, fun h => absurd rfl h⟩,
    fun _ => ⟨nofun, fun h => absurd rfl h⟩, fun _ h => absurd rfl h⟩

theorem balanced_vacant :
    vacant.Balanced [] :=
  fun _ _ => rfl

end Ownership

namespace Host

variable {h h' : Host} {act : HubAct} {log : List HubAct} {id : Nat} {signo : Int}

theorem change_acquire
    (hconsistent : h.ownership.Consistent) (hacquire : h.acquire id signo = (.ok (), h')) :
    h.ownership.Change (.acquired id signo) h'.ownership := by
  have hacquired := h.acquired_acquire id signo
  rw [hacquire] at hacquired
  generalize hresult : (.ok () : Except Refusal Unit) = result at hacquired
  cases hacquired with
  | uncatchable _ | owned _ | failed _ _ =>
      cases hresult
  | again hcount =>
      rw [← count_ownership] at hcount ⊢
      have howner := (hconsistent.owner_eq_some_iff id signo).2 hcount
      have howned : h.ownership.owner signo ≠ none := howner ▸ nofun
      rw [ownership_recount, Ownership.store_eq_assign howner
        ((hconsistent.caught_iff signo).2 howned)]
      refine .more (hconsistent.accepted signo howned) fun other hother => ?_
      exact Option.some.inj (hother.symm.trans howner)
  | @first kernel hcatchable hcount hunowned hdisposed =>
      cases hdisposed with
      | done hfree hcaught _ =>
          have hassign : Host.ownership
              { h.recount id signo 1 with kernel, owners := h.owners.insert signo id } =
                h.ownership.assign id signo (some 1) := by
            rw [ownership_with, ownership_recount, getElem?_insert, hcaught]
            rfl
          have hzero : h.ownership.count id signo = 0 := by
            rw [count_ownership, hcount]
          rw [hassign, ← Nat.zero_add 1, ← hzero]
          exact .more ⟨hcatchable, hfree⟩ fun other hother => nomatch hunowned.symm.trans hother

theorem change_release
    (hconsistent : h.ownership.Consistent) (hrelease : h.release id signo = .ok h') :
    h.ownership.Change (.released id signo ((h.hub id).refcount signo != 0)) h'.ownership := by
  have hreleased := h.released_release id signo
  rw [hrelease] at hreleased
  generalize hresult : (.ok h' : Except Crash Host) = result at hreleased
  cases hreleased with
  | uncounted huncounted =>
      cases hresult
      refine .still ?_
      have hzero : (h.hub id).refcount signo = 0 := by
        refine huncounted.elim (fun hcatchable => ?_) fun hzero => hzero
        by_contra hcount
        rw [← count_ownership, ← Ne, ← hconsistent.owner_eq_some_iff] at hcount
        have haccepted := (hconsistent.accepted signo (hcount ▸ nofun)).1
        rw [hcatchable] at haccepted
        cases haccepted
      rw [hzero]
      rfl
  | @fewer n hcount =>
      cases hresult
      rw [hcount, ownership_recount]
      rw [← count_ownership] at hcount
      have howner := (hconsistent.owner_eq_some_iff id signo).2 (hcount ▸ Nat.succ_ne_zero _)
      rw [Ownership.store_eq_assign howner ((hconsistent.caught_iff signo).2 (howner ▸ nofun))]
      exact .fewer hcount
  | @last kernel hcount hdisposed =>
      cases hresult
      cases hdisposed with
      | done _ hcaught _ =>
          have hassign : Host.ownership
              { h.uncount id signo with kernel, owners := h.owners.erase signo } =
                h.ownership.assign id signo none := by
            rw [ownership_with, ownership_uncount, getElem?_erase, hcaught]
            rfl
          rw [hcount, hassign]
          exact .fewer (n := 0) ((count_ownership h id signo).trans hcount)
  | stuck _ _ =>
      cases hresult

/-- A refused call leaves the registrations, the owners and the dispositions alone. -/
theorem refuse_acquire
    {refusal : Refusal} (hacquire : h.acquire id signo = (.error refusal, h')) :
    h'.hubs = h.hubs ∧ h'.owners = h.owners ∧ h'.kernel.caught = h.kernel.caught := by
  have hacquired := h.acquired_acquire id signo
  rw [hacquire] at hacquired
  generalize hresult : (.error refusal : Except Refusal Unit) = result at hacquired
  cases hacquired with
  | uncatchable _ | owned _ =>
      exact ⟨rfl, rfl, rfl⟩
  | failed _ hdisposed =>
      cases hdisposed with
      | failed hcaught _ =>
          exact ⟨rfl, rfl, hcaught⟩
  | again _ | first _ _ _ _ =>
      cases hresult

theorem ownership_refuse
    {refusal : Refusal} (hacquire : h.acquire id signo = (.error refusal, h')) :
    h'.ownership = h.ownership := by
  obtain ⟨hhubs, howners, hcaught⟩ := refuse_acquire hacquire
  unfold ownership Host.hub
  rw [hhubs, howners, hcaught]

theorem change_move
    (hconsistent : h.ownership.Consistent) (hmove : HubMove h act h') :
    h.ownership.Change act h'.ownership := by
  cases hmove with
  | acquire hacquire =>
      exact change_acquire hconsistent hacquire
  | refuse hacquire =>
      rw [ownership_refuse hacquire]
      exact .still rfl
  | release hrelease =>
      exact change_release hconsistent hrelease
  | aside hsame =>
      rw [hsame]
      exact .still rfl

/-- What every run keeps, after what is in the log already. -/
theorem keeps_run
    {before : List HubAct} (hrun : HubRun h log h') (hconsistent : h.ownership.Consistent)
    (hbalanced : h.ownership.Balanced before) :
    h'.ownership.Consistent ∧ h'.ownership.Balanced (before ++ log) := by
  induction hrun generalizing before with
  | nil =>
      rw [List.append_nil]
      exact ⟨hconsistent, hbalanced⟩
  | cons hmove _ ih =>
      have hchange := change_move hconsistent hmove
      rw [List.append_cons]
      exact ih (hchange.consistent hconsistent) (hchange.balanced hbalanced)

/-- What is kept of the signals after the calls in a log. -/
structure Accounts (h : Host) (log : List HubAct) : Prop where
  /-- No two hubs count the same signal. -/
  unique : ∀ signo i j, (h.hub i).refcount signo ≠ 0 → (h.hub j).refcount signo ≠ 0 → i = j
  owner_iff : ∀ signo id, h.owners[signo]? = some id ↔ (h.hub id).refcount signo ≠ 0
  unowned_iff : ∀ signo, h.owners[signo]? = none ↔ ∀ id, (h.hub id).refcount signo = 0
  caught_iff : ∀ signo, h.kernel.caught.contains signo = true ↔
    ∃ id, (h.hub id).refcount signo ≠ 0
  /-- What is stored can be counted down. -/
  positive : ∀ (id : Nat) (signo : Int) (n : Nat),
    (h.hub id).refcounts[signo]? = some n → 1 ≤ n
  /-- A hub has counted what it acquired and has not released. -/
  balanced : ∀ id signo, (h.hub id).refcount signo + log.count (.released id signo true) =
    log.count (.acquired id signo)

/-- What the calls on hubs do next to the kernel, and when they fail. -/
structure Sparing (h : Host) : Prop where
  /-- The handler is installed for the first registration only. -/
  installs : ∀ id signo,
    (h.acquire id signo).2.kernel.record = h.kernel.record ∨
      (h.hub id).refcount signo = 0 ∧ ∃ failure, (h.acquire id signo).2.kernel.record =
        ⟨.setDisposition signo .handler, failure⟩ :: h.kernel.record
  /-- It is taken away with the last one only. -/
  restores : ∀ id signo h', h.release id signo = .ok h' →
    h'.kernel.record = h.kernel.record ∨
      (h.hub id).refcount signo = 1 ∧ (h'.hub id).refcount signo = 0 ∧
        h'.kernel.record = ⟨.setDisposition signo .default, none⟩ :: h.kernel.record
  /-- A refused registration changes nothing of what is kept. -/
  refusals : ∀ id signo refusal h', h.acquire id signo = (.error refusal, h') →
    h'.hubs = h.hubs ∧ h'.owners = h.owners ∧ h'.kernel.caught = h.kernel.caught
  /-- Nothing but the host can end the program in a release. -/
  releases : ∀ id signo,
    (h.kernel.strike ⟨.sigaction, some signo, some .default⟩).1 = none →
      ∃ h', h.release id signo = .ok h'

theorem accounts_of_consistent
    (hconsistent : h.ownership.Consistent) (hbalanced : h.ownership.Balanced log) :
    h.Accounts log := by
  have howner : ∀ signo id, h.owners[signo]? = some id ↔ (h.hub id).refcount signo ≠ 0 := by
    intro signo id
    rw [← count_ownership]
    exact hconsistent.owner_eq_some_iff id signo
  refine
    { unique := fun signo i j hi hj => ?_
      owner_iff := howner
      unowned_iff := fun signo => ?_
      caught_iff := fun signo => ?_
      positive := fun id signo n hn => Nat.pos_of_ne_zero (hconsistent.positive id signo n hn)
      balanced := fun id signo => ?_ }
  · exact Option.some.inj (((howner signo i).2 hi).symm.trans ((howner signo j).2 hj))
  · rw [Option.eq_none_iff_forall_ne_some]
    exact forall_congr' fun id => (not_congr (howner signo id)).trans not_not
  · refine (hconsistent.caught_iff signo).trans ?_
    rw [Option.ne_none_iff_exists']
    exact exists_congr (howner signo)
  · rw [← count_ownership]
    exact hbalanced id signo

theorem record_acquire
    (h : Host) (id : Nat) (signo : Int) :
    (h.acquire id signo).2.kernel.record = h.kernel.record ∨
      (h.hub id).refcount signo = 0 ∧ ∃ failure, (h.acquire id signo).2.kernel.record =
        ⟨.setDisposition signo .handler, failure⟩ :: h.kernel.record := by
  have hacquired := h.acquired_acquire id signo
  generalize h.acquire id signo = result at hacquired ⊢
  cases hacquired with
  | uncatchable _ | again _ | owned _ =>
      exact .inl rfl
  | failed hcount hdisposed =>
      cases hdisposed with
      | failed _ hrecord =>
          exact .inr ⟨hcount, _, hrecord⟩
  | first _ hcount _ hdisposed =>
      cases hdisposed with
      | done _ _ hrecord =>
          exact .inr ⟨hcount, _, hrecord⟩

theorem record_release
    (hrelease : h.release id signo = .ok h') :
    h'.kernel.record = h.kernel.record ∨
      (h.hub id).refcount signo = 1 ∧ (h'.hub id).refcount signo = 0 ∧
        h'.kernel.record = ⟨.setDisposition signo .default, none⟩ :: h.kernel.record := by
  have hreleased := h.released_release id signo
  rw [hrelease] at hreleased
  generalize hresult : (.ok h' : Except Crash Host) = result at hreleased
  cases hreleased with
  | uncounted _ | fewer _ =>
      cases hresult
      exact .inl rfl
  | last hcount hdisposed =>
      cases hresult
      cases hdisposed with
      | done _ _ hrecord =>
          exact .inr ⟨hcount, refcount_uncount h id signo, hrecord⟩
  | stuck _ _ =>
      cases hresult

theorem exists_release
    (hconsistent : h.ownership.Consistent)
    (hstrike : (h.kernel.strike ⟨.sigaction, some signo, some .default⟩).1 = none) :
    ∃ h', h.release id signo = .ok h' := by
  have hreleased := h.released_release id signo
  generalize h.release id signo = result at hreleased ⊢
  cases hreleased with
  | uncounted _ | fewer _ | last _ _ =>
      exact ⟨_, rfl⟩
  | stuck hcount hset =>
      have howned : h.ownership.owner signo ≠ none := by
        rw [(hconsistent.owner_eq_some_iff id signo).2 (by rw [count_ownership, hcount]; decide)]
        nofun
      obtain ⟨k', hdone⟩ :=
        Kernel.exists_setDisposition_default (hconsistent.accepted signo howned).2 hstrike
      cases hset.symm.trans hdone

/-- However hubs compete for signals, each signal has one owner at most, which is the hub
that counts it, and the process catches the signals that are owned. -/
theorem signals_have_one_owner
    (hvacant : h.ownership = .vacant) (hrun : HubRun h log h') :
    h'.Accounts log ∧ h'.Sparing := by
  have hvacant' : h.ownership.Consistent ∧ h.ownership.Balanced [] := by
    rw [hvacant]
    exact ⟨Ownership.consistent_vacant, Ownership.balanced_vacant⟩
  obtain ⟨hconsistent, hbalanced⟩ := keeps_run hrun hvacant'.1 hvacant'.2
  refine ⟨accounts_of_consistent hconsistent hbalanced, ?_⟩
  exact
    { installs := h'.record_acquire
      restores := fun _ _ _ => record_release
      refusals := fun _ _ _ _ => refuse_acquire
      releases := fun _ _ => exists_release hconsistent }

/-- A call on a hub, without what it leads to. -/
inductive HubCue where
  | acquire (id : Nat) (signo : Int)
  | release (id : Nat) (signo : Int)

/-- What a call on a hub comes to, unless it ends the program. -/
def heed (h : Host) : HubCue → Option (HubAct × Host)
  | .acquire id signo =>
      match h.acquire id signo with
      | (.ok (), h') => some (.acquired id signo, h')
      | (.error refusal, h') => some (.refused id signo refusal, h')
  | .release id signo =>
      match h.release id signo with
      | .ok h' => some (.released id signo ((h.hub id).refcount signo != 0), h')
      | .error _ => none

theorem move_of_heed
    {cue : HubCue} (hheed : h.heed cue = some (act, h')) :
    HubMove h act h' := by
  cases cue with
  | acquire id signo =>
      simp only [heed] at hheed
      split at hheed <;> cases hheed
      next hacquire =>
          exact .acquire hacquire
      next hacquire =>
          exact .refuse hacquire
  | release id signo =>
      simp only [heed] at hheed
      split at hheed <;> cases hheed
      next hrelease =>
          exact .release hrelease

theorem composes_hubRun :
    Composes heed HubRun where
  nil _ := .nil
  cons hheed hrun := .cons (move_of_heed hheed) hrun

/-- Two hubs compete for a signal, and the kernel once refuses to install the handler of
another. -/
def contestedLog : List HubAct :=
  [.acquired 0 10, .refused 1 10 (.signalOwned 10), .acquired 0 10,
    .refused 1 12 (.host (.call .deadlock)), .acquired 1 12, .released 0 10 true,
    .released 0 10 true, .released 0 10 false, .acquired 1 10]

theorem signals_have_one_owner_contestedLog :
    ∃ h h' : Host, h.ownership = .vacant ∧ HubRun h contestedLog h' ∧
      h'.Accounts contestedLog ∧ h'.Sparing ∧ (h'.hub 0).refcount 10 = 0 ∧
      h'.owners[(10 : Int)]? = some 1 := by
  let faults : List Fault :=
    [{ name := .sigaction, subject := some 12, variant := some .handler, errno := .deadlock }]
  have hvacant : Host.ownership { kernel := { faults } } = .vacant := rfl
  obtain ⟨log, h', hrun, rfl⟩ := composes_hubRun.exists_run (s := { kernel := { faults } })
    Prod.fst (v := contestedLog)
    [.acquire 0 10, .acquire 1 10, .acquire 0 10, .acquire 1 12, .acquire 1 12, .release 0 10,
      .release 0 10, .release 0 10, .acquire 1 10]
    (by decide +kernel)
  obtain ⟨haccounts, hsparing⟩ := signals_have_one_owner hvacant hrun
  have hfirst : (h'.hub 0).refcount 10 + 2 = 2 := haccounts.balanced 0 10
  have hsecond : (h'.hub 1).refcount 10 + 0 = 1 := haccounts.balanced 1 10
  refine ⟨_, h', hvacant, hrun, haccounts, hsparing, by omega, ?_⟩
  exact (haccounts.owner_iff 10 1).2 (by omega)

end Host
end CallbackLoop
