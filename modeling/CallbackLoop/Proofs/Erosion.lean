import CallbackLoop.Proofs.Epoll
import CallbackLoop.Proofs.Select
import Mathlib.Logic.Relation

/-!
# Backends in a world that closes descriptors

The world may close a descriptor behind the back of a loop and open its number again.  The
kernel then drops the entry of an epoll table, and the loop does not learn of it.  So the
table may hold less than the loop believes, but never more: what the loop does not believe
to be held has no entry.

`Dealings` is what lies between a loop and its backend: the backend with its kernel, and
what the loop believes to be held.  It changes by calls that are accepted and by erosion,
and both keep it `Tended`.
-/

namespace CallbackLoop

namespace Kernel

variable {k k' : Kernel} {number : Nat} {fd : Int}

/-- Without faults a removal fails only where there is nothing to remove. -/
theorem row?_of_delete_error
    {cause : Errno} (hspares : k.Spares)
    (h : k.epollControl number fd .delete = (.error cause, k')) :
    cause.isGone = true ∧ (k.closed.contains fd = true ∨ k.row? number fd = none) := by
  by_cases hclosed : k.closed.contains fd = true
  · have hobstacle : k.obstacle .epollControl fd (some (changeVariant .delete)) =
        (some .badDescriptor, k) := if_pos hclosed
    unfold epollControl at h
    rw [hobstacle] at h
    cases h
    exact ⟨rfl, .inl hclosed⟩
  · rw [Bool.not_eq_true] at hclosed
    have hnone := obstacle_eq_none .epollControl (some (changeVariant .delete)) hclosed hspares rfl
    obtain ⟨faults, hfaults⟩ := obstacle_eq k .epollControl fd (some (changeVariant .delete))
    unfold epollControl at h
    generalize k.obstacle .epollControl fd (some (changeVariant .delete)) = result at *
    obtain ⟨failure, k₁⟩ := result
    cases hnone
    cases hfaults
    have htable : Kernel.epollTable { k with faults } number = k.epollTable number := rfl
    simp only [htable, changeTable] at h
    by_cases hcontains : (k.epollTable number).contains fd = true
    · simp only [hcontains] at h
      cases h
    · simp only [hcontains] at h
      cases h
      refine ⟨rfl, .inr ?_⟩
      rw [Bool.not_eq_true] at hcontains
      exact Std.TreeMap.getElem?_eq_none_of_contains_eq_false hcontains

end Kernel

namespace Backend

variable {b b' : Backend} {k k' k'' : Kernel} {fd : Int} {call : BackendCall}
  {held : Int → Option Interest}

/-- The entry for a descriptor in the table of a backend. -/
def lookup? (b : Backend) (k : Kernel) (fd : Int) : Option (EpollEntry ⊕ Interest) :=
  match b with
  | epoll e => (k.row? e.number fd).map .inl
  | select t => t.registered[fd]?.map .inr

/-- The entry that an interest is given. -/
def armed (b : Backend) (interest : Interest) : EpollEntry ⊕ Interest :=
  match b with
  | epoll _ => .inl { mask := .ofInterest interest }
  | select _ => .inr interest

/-- The kernel lays no fault and makes no entry for the backend, and what it closes loses
its entry in an epoll table. -/
structure Erodes (b : Backend) (k k' : Kernel) : Prop where
  spares : k.Spares → k'.Spares
  lookup? : ∀ fd, b.lookup? k fd = none → b.lookup? k' fd = none
  closed : b.kind = .epoll → ∀ fd, k'.closed.contains fd = true →
    k.closed.contains fd = true ∨ b.lookup? k' fd = none

theorem erodes_of_leaves
    (b : Backend) (h : k.Leaves k') :
    b.Erodes k k' where
  spares := h.spares
  lookup? fd hnone := by
    cases b with
    | epoll e =>
        rw [Backend.lookup?, h.row?]
        exact hnone
    | select t =>
        exact hnone
  closed _ fd hfd := .inl (h.closed ▸ hfd)

theorem Erodes.refl
    (b : Backend) (k : Kernel) :
    b.Erodes k k :=
  b.erodes_of_leaves (.refl k)

theorem Erodes.trans
    (h : b.Erodes k k') (h' : b.Erodes k' k'') :
    b.Erodes k k'' where
  spares hs := h'.spares (h.spares hs)
  lookup? fd hnone := h'.lookup? fd (h.lookup? fd hnone)
  closed hkind fd hfd :=
    (h'.closed hkind fd hfd).elim (fun hfd' => (h.closed hkind fd hfd').imp_right (h'.lookup? fd))
      .inr

/-- Closing a descriptor drops its entry. -/
theorem erodes_close
    (b : Backend) (k : Kernel) (fd : Int) :
    b.Erodes k (k.close fd) where
  spares := id
  lookup? other hnone := by
    cases b with
    | epoll e =>
        rw [Backend.lookup?, Kernel.row?_close]
        split
        · rfl
        · exact hnone
    | select t =>
        exact hnone
  closed hkind other hother := by
    cases b with
    | select t =>
        cases hkind
    | epoll e =>
        by_cases hne : fd = other
        · right
          rw [Backend.lookup?, Kernel.row?_close, if_pos hne]
          rfl
        · left
          simpa [Kernel.close, Std.TreeSet.contains_insert, hne] using hother

/-- A number that is opened again comes without an entry. -/
theorem erodes_reopen
    (b : Backend) (k : Kernel) (fd : Int) :
    b.Erodes k (k.reopen fd) where
  spares := id
  lookup? other hnone := by
    cases b <;> exact hnone
  closed _ other hother := by
    rw [Kernel.reopen, Std.TreeSet.contains_erase, Bool.and_eq_true] at hother
    exact .inl hother.2

/-- Reporting disarms entries and makes none. -/
theorem erodes_report
    (e : EpollInstance) (k : Kernel) (capacity : Nat) (ready : List (Int × Conditions)) :
    (epoll e).Erodes k { k with
      epolls := k.epolls.insert e.number
        (Kernel.epollReport k.closed capacity ready (k.epollTable e.number)).2 } where
  spares := id
  lookup? fd hnone := by
    have hreported := Kernel.reported_epollReport k.closed capacity ready
      (k.epollTable e.number) fd
    have hrow : (k.epollTable e.number)[fd]? = none := Option.map_eq_none_iff.1 hnone
    rw [hrow] at hreported
    rw [Backend.lookup?, Kernel.row?_insert]
    generalize (Kernel.epollReport k.closed capacity ready
      (k.epollTable e.number)).2[fd]? = row at hreported
    cases hreported with
    | kept _ =>
        rfl
  closed _ _ := .inl

/-- A wait erodes, whatever happens in its course. -/
theorem erodes_await
    {β : Type} {h h' : Host} {timeout : Option Nat}
    {collect : Bool → List (Int × Conditions) → Kernel → Report β × Kernel}
    {result : Except Errno β} (hawait : h.await timeout collect = (result, h'))
    (hcollect : ∀ raw ready (k : Kernel), b.Erodes k (collect raw ready k).2) :
    b.Erodes h.kernel h'.kernel := by
  obtain ⟨k, hk, hawaited⟩ := Host.await_induction (P := fun k => b.Erodes h.kernel k) hawait
    (fun k fd _ hk => hk.trans (b.erodes_close k fd))
    (fun k fd hk => hk.trans (b.erodes_reopen k fd))
    (fun _ _ hleaves hk => hk.trans (b.erodes_of_leaves hleaves)) (.refl b h.kernel)
  generalize h'.kernel = k' at hawaited ⊢
  cases hawaited with
  | failed hleaves =>
      exact hk.trans (b.erodes_of_leaves hleaves)
  | reported hleaves | unanswered hleaves _ =>
      exact hk.trans ((hcollect _ _ k).trans (b.erodes_of_leaves hleaves))

theorem erodes_epollWait
    {h h' : Host} {e : EpollInstance} {millis : Int}
    {result : Except Errno (List (Int × Conditions))}
    (hwait : h.epollWait e.number millis e.capacity = (result, h')) :
    (epoll e).Erodes h.kernel h'.kernel := by
  have hnote := Kernel.leaves_note h.kernel (.epollWait h.kernel.clock millis e.capacity) none
  unfold Host.epollWait at hwait
  refine ((epoll e).erodes_of_leaves hnote).trans (erodes_await hwait ?_)
  intro raw ready k
  split
  · exact .refl _ k
  · dsimp only
    split
    · exact .refl _ k
    · exact erodes_report e k e.capacity ready

theorem erodes_select
    {h h' : Host} {timeout : Option Nat} {width : Int} {sets : SelectSets}
    {result : Except Errno SelectSets} (b : Backend)
    (hwait : h.select timeout width sets = (result, h')) :
    b.Erodes h.kernel h'.kernel := by
  have hnote := Kernel.leaves_note h.kernel
    (.select h.kernel.clock timeout width sets.read sets.write sets.except) none
  unfold Host.select at hwait
  dsimp only at hwait
  split at hwait
  · cases hwait
    exact b.erodes_of_leaves (hnote.trans (Kernel.leaves_fail (α := SelectSets) _ _))
  · exact (b.erodes_of_leaves hnote).trans (erodes_await hwait fun _ _ k => .refl _ k)

theorem erodes_wait
    {h h' : Host} {timeout : Option Nat} {result : Except Errno (List Event)}
    (hwait : b.wait h timeout = (result, h')) :
    b.Erodes h.kernel h'.kernel := by
  cases b with
  | epoll e =>
      simp only [wait, EpollInstance.wait] at hwait
      split at hwait
      next hepoll =>
          cases hwait
          exact erodes_epollWait hepoll
      next hepoll =>
          cases hwait
          exact erodes_epollWait hepoll
  | select t =>
      simp only [wait, SelectTable.wait] at hwait
      split at hwait
      next hselect =>
          cases hwait
          exact erodes_select _ hselect
      next hselect =>
          cases hwait
          exact erodes_select _ hselect

/-- A removal is never refused: what the kernel has forgotten already is no failure. -/
theorem exists_unregister
    (b : Backend) (fd : Int) (hspares : k.Spares) :
    ∃ b' k', BackendCall.unregister.apply b k fd = (.ok (), b', k') := by
  cases b with
  | select t =>
      exact ⟨_, _, rfl⟩
  | epoll e =>
      refine ⟨epoll e, (e.unregister k fd).2, ?_⟩
      have hok : (e.unregister k fd).1 = .ok () := by
        unfold EpollInstance.unregister
        split
        next hcontrol =>
            exact if_pos (Kernel.row?_of_delete_error hspares hcontrol).1
        next hcontrol =>
            cases hresult : (k.epollControl e.number fd .delete).1 with
            | ok _ =>
                rfl
            | error cause =>
                exact (hcontrol cause _ (Prod.ext hresult rfl)).elim
      rw [← hok]
      rfl

/-- A descriptor without an entry can be registered. -/
theorem exists_register
    (hentry : b.lookup? k fd = none) (htakes : b.Takes k fd) (hspares : k.Spares)
    (interest : Interest) :
    ∃ b' k', (BackendCall.register interest).apply b k fd = (.ok (), b', k') := by
  cases b with
  | epoll e =>
      have hrow : (k.epollTable e.number)[fd]? = none := Option.map_eq_none_iff.1 hentry
      have hcontains : ¬(k.epollTable e.number).contains fd = true := by
        rw [Std.TreeMap.contains_eq_isSome_getElem?, hrow]
        exact Bool.false_ne_true
      have htable : Kernel.changeTable (k.epollTable e.number) fd (.add (.ofInterest interest)) =
        .ok _ := if_neg hcontains
      obtain ⟨k', hcontrol⟩ := Kernel.exists_epollControl htakes hspares htable
      exact ⟨epoll e, k', congrArg (unchanged (epoll e)) hcontrol⟩
  | select t =>
      have hnone : t.registered[fd]? = none := Option.map_eq_none_iff.1 hentry
      have hself : (select t).Holds k fun fd : Int => t.registered[fd]? := fun _ => rfl
      exact exists_apply hself hnone htakes hspares

/-- What an accepted call does to a select table. -/
theorem select_of_apply
    {t : SelectTable} (h : call.apply (select t) k fd = (.ok (), b', k')) :
    ∃ t', b' = select t' ∧ k' = k ∧ (t.Tight → t'.Tight) ∧
      ∀ other, t'.registered[other]? =
        Function.update (fun other : Int => t.registered[other]?) fd call.leaves other := by
  have hself : ∀ fd : Int, t.registered[fd]? = (fun fd : Int => t.registered[fd]?) fd :=
    fun _ => rfl
  cases call with
  | register interest =>
      simp only [BackendCall.apply, register] at h
      split at h
      next t' hregister =>
          cases h
          refine ⟨t', rfl, rfl, fun htight => htight.register hregister, ?_⟩
          unfold SelectTable.register at hregister
          split at hregister <;> cases hregister
          exact registered_insert hself interest
      next =>
          cases h
  | modify interest =>
      simp only [BackendCall.apply, modify] at h
      split at h
      next t' hmodify =>
          cases h
          refine ⟨t', rfl, rfl, fun htight => htight.modify hmodify, ?_⟩
          unfold SelectTable.modify at hmodify
          split at hmodify <;> cases hmodify
          exact registered_insert hself interest
      next =>
          cases h
  | unregister =>
      cases h
      exact ⟨t.unregister fd, rfl, rfl, fun htight => htight.unregister fd,
        registered_unregister hself⟩

/-- What an accepted call does to the kernel of an epoll instance.  A removal may have come
too late. -/
theorem epoll_of_apply
    {e : EpollInstance} (h : call.apply (epoll e) k fd = (.ok (), b', k')) :
    (k.closed.contains fd = false ∧ k'.closed = k.closed ∧ (k.Spares → k'.Spares) ∧
        k'.row? e.number fd = call.leaves.map fun interest => { mask := .ofInterest interest }) ∨
      call = .unregister ∧ k.Leaves k' ∧
        (k.Spares → k.closed.contains fd = true ∨ k.row? e.number fd = none) := by
  have hmade : k.epollControl e.number fd call.change = (.ok (), k') →
      k.closed.contains fd = false ∧ k'.closed = k.closed ∧ (k.Spares → k'.Spares) ∧
        k'.row? e.number fd =
          call.leaves.map fun interest => { mask := .ofInterest interest } := by
    intro hcontrol
    obtain ⟨hopen, hclosed, hspares, hrow⟩ := Kernel.epollControl_ok hcontrol
    refine ⟨hopen, hclosed, hspares, ?_⟩
    rw [hrow, if_pos rfl]
    cases call <;> rfl
  cases call with
  | register interest | modify interest =>
      exact .inl (hmade (unchanged_eq h).1)
  | unregister =>
      have hunregister := (unchanged_eq h).1
      split at hunregister
      next hcontrol =>
          obtain ⟨-, rfl⟩ := Prod.mk.inj hunregister
          exact .inr ⟨rfl, Kernel.leaves_of_epollControl_error hcontrol,
            fun hspares => (Kernel.row?_of_delete_error hspares hcontrol).2⟩
      next =>
          exact .inl (hmade hunregister)

theorem spares_of_apply
    (h : call.apply b k fd = (.ok (), b', k')) (hspares : k.Spares) :
    k'.Spares := by
  cases b with
  | epoll e =>
      rcases epoll_of_apply h with ⟨-, -, hkept, -⟩ | ⟨-, hleaves, -⟩
      · exact hkept hspares
      · exact hleaves.spares hspares
  | select t =>
      obtain ⟨t', -, rfl, -, -⟩ := select_of_apply h
      exact hspares

/-- A call about a descriptor leaves the entries of all others. -/
theorem lookup?_of_apply
    (h : call.apply b k fd = (.ok (), b', k')) {other : Int} (hne : other ≠ fd) :
    b'.lookup? k' other = b.lookup? k other := by
  cases b with
  | epoll e =>
      obtain ⟨rfl, hrows, -⟩ := rows_of_apply h
      rw [lookup?, lookup?, hrows other hne]
  | select t =>
      obtain ⟨t', rfl, -, -, hentries⟩ := select_of_apply h
      rw [lookup?, lookup?, hentries, Function.update_of_ne hne]

/-- A descriptor that is registered or modified has an armed entry. -/
theorem lookup?_of_leaves
    {interest : Interest} (h : call.apply b k fd = (.ok (), b', k'))
    (hleaves : call.leaves = some interest) :
    b'.lookup? k' fd = some (b.armed interest) := by
  cases b with
  | epoll e =>
      obtain ⟨rfl, -, hrow⟩ := rows_of_apply h
      rw [lookup?, hrow interest hleaves]
      rfl
  | select t =>
      obtain ⟨t', rfl, -, -, hentries⟩ := select_of_apply h
      rw [lookup?, hentries, Function.update_self, hleaves]
      rfl

/-- The table of the backend has no entries but for what is held, a closed descriptor has
none in an epoll table, and select looks no further than it has to. -/
structure Tended (b : Backend) (k : Kernel) (held : Int → Option Interest) : Prop where
  lookup? : ∀ fd, held fd = none → b.lookup? k fd = none
  closed : b.kind = .epoll → ∀ fd, k.closed.contains fd = true → b.lookup? k fd = none
  tight : ∀ t, b = select t → t.Tight

theorem Tended.erodes
    (h : b.Tended k held) (herodes : b.Erodes k k') :
    b.Tended k' held where
  lookup? fd hfd := herodes.lookup? fd (h.lookup? fd hfd)
  closed hkind fd hfd :=
    (herodes.closed hkind fd hfd).elim (fun hold => herodes.lookup? fd (h.closed hkind fd hold)) id
  tight := h.tight

/-- What is unregistered has no entry any more. -/
theorem Tended.lookup?_of_unregister
    (h : b.Tended k held) (hspares : k.Spares)
    (happly : BackendCall.unregister.apply b k fd = (.ok (), b', k')) :
    b'.lookup? k' fd = none := by
  cases b with
  | epoll e =>
      obtain ⟨rfl, -, -⟩ := rows_of_apply happly
      rcases epoll_of_apply happly with ⟨-, -, -, hrow⟩ | ⟨-, hleaves, hwhy⟩
      · rw [Backend.lookup?, hrow]
        rfl
      · have hnone : (epoll e).lookup? k fd = none := by
          rcases hwhy hspares with hclosed | hrow
          · exact h.closed rfl fd hclosed
          · rw [Backend.lookup?, hrow]
            rfl
        exact ((epoll e).erodes_of_leaves hleaves).lookup? fd hnone
  | select t =>
      obtain ⟨t', rfl, -, -, hentries⟩ := select_of_apply happly
      rw [Backend.lookup?, hentries, Function.update_self]
      rfl

/-- A call reaches no closed descriptor, unless to find that there is nothing to remove. -/
theorem Tended.closed_of_apply
    (h : b.Tended k held) (hspares : call = .unregister → k.Spares)
    (happly : call.apply b k fd = (.ok (), b', k')) (hkind : b'.kind = .epoll) {other : Int}
    (hother : k'.closed.contains other = true) :
    b'.lookup? k' other = none := by
  cases b with
  | select t =>
      obtain ⟨t', rfl, -, -, -⟩ := select_of_apply happly
      cases hkind
  | epoll e =>
      have hkept : other ≠ fd → k.closed.contains other = true →
          b'.lookup? k' other = none := by
        intro hne hother
        rw [lookup?_of_apply happly hne]
        exact h.closed rfl other hother
      rcases epoll_of_apply happly with ⟨hopen, hclosed, -, -⟩ | ⟨rfl, hleaves, -⟩
      · rw [hclosed] at hother
        refine hkept ?_ hother
        rintro rfl
        rw [hopen] at hother
        cases hother
      · rw [hleaves.closed] at hother
        by_cases hne : other = fd
        · rw [hne]
          exact h.lookup?_of_unregister (hspares rfl) happly
        · exact hkept hne hother

theorem Tended.tight_of_apply
    (h : b.Tended k held) (happly : call.apply b k fd = (.ok (), b', k')) {t' : SelectTable}
    (ht' : b' = select t') :
    t'.Tight := by
  cases b with
  | epoll e =>
      obtain ⟨rfl, -, -⟩ := rows_of_apply happly
      cases ht'
  | select t =>
      obtain ⟨t'', rfl, -, htight, -⟩ := select_of_apply happly
      cases ht'
      exact htight (h.tight t rfl)

/-- A call that is accepted keeps the table in order. -/
theorem Tended.apply
    (h : b.Tended k held) (hspares : call = .unregister → k.Spares)
    (happly : call.apply b k fd = (.ok (), b', k')) :
    b'.Tended k' (Function.update held fd call.leaves) := by
  refine ⟨fun other hother => ?_, fun hkind other => h.closed_of_apply hspares happly hkind,
    fun t' => h.tight_of_apply happly⟩
  by_cases hne : other = fd
  · subst hne
    rw [Function.update_self] at hother
    cases call with
    | register interest | modify interest =>
        cases hother
    | unregister =>
        exact h.lookup?_of_unregister (hspares rfl) happly
  · rw [Function.update_of_ne hne] at hother
    rw [lookup?_of_apply happly hne]
    exact h.lookup? other hother

/-- A new backend is in order. -/
theorem tended_of_create
    {kind : BackendKind} {capacity : Nat}
    (h : create k kind capacity = (.ok b, k')) :
    b.Tended k' fun _ => none := by
  have hentry : ∀ fd, b.lookup? k' fd = none := by
    intro fd
    have hholds := holds_of_create h
    cases b with
    | epoll e =>
        have hmask : (k'.row? e.number fd).map (·.mask) = none := hholds fd
        rw [lookup?, Option.map_eq_none_iff.1 hmask]
        rfl
    | select t =>
        have hnone : t.registered[fd]? = none := hholds fd
        rw [lookup?, hnone]
        rfl
  refine ⟨fun fd _ => hentry fd, fun _ fd _ => hentry fd, ?_⟩
  rintro t rfl
  unfold create at h
  split at h
  next =>
      split at h <;> cases h
  next =>
      cases h
      exact SelectTable.tight_empty
  next =>
      cases h

end Backend

/-- What lies between a loop and its backend. -/
structure Dealings where
  backend : Backend
  kernel : Kernel
  /-- What the loop believes to be held. -/
  held : Int → Option Interest

namespace Dealings

variable {a a' : Dealings}

/-- A call is accepted, or the world and its waits erode the table. -/
inductive Step : Dealings → Dealings → Prop
  | called {a : Dealings} {call : BackendCall} {fd : Int} {backend : Backend} {kernel : Kernel} :
      (call = .unregister → a.kernel.Spares) →
      call.apply a.backend a.kernel fd = (.ok (), backend, kernel) →
      Step a ⟨backend, kernel, Function.update a.held fd call.leaves⟩
  | eroded {a : Dealings} {kernel : Kernel} :
      a.backend.Erodes a.kernel kernel →
      Step a ⟨a.backend, kernel, a.held⟩

/-- Steps one after the other. -/
def Leads (a a' : Dealings) : Prop :=
  Relation.ReflTransGen Step a a'

theorem Step.spares
    (h : Step a a') (hspares : a.kernel.Spares) :
    a'.kernel.Spares := by
  cases h with
  | called _ happly =>
      exact Backend.spares_of_apply happly hspares
  | eroded herodes =>
      exact herodes.spares hspares

theorem Step.tended
    (h : Step a a') (htended : a.backend.Tended a.kernel a.held) :
    a'.backend.Tended a'.kernel a'.held := by
  cases h with
  | called hspares happly =>
      exact htended.apply hspares happly
  | eroded herodes =>
      exact htended.erodes herodes

theorem Leads.spares
    (h : Leads a a') (hspares : a.kernel.Spares) :
    a'.kernel.Spares := by
  induction h with
  | refl =>
      exact hspares
  | tail _ hstep ih =>
      exact hstep.spares ih

theorem Leads.tended
    (h : Leads a a') (htended : a.backend.Tended a.kernel a.held) :
    a'.backend.Tended a'.kernel a'.held := by
  induction h with
  | refl =>
      exact htended
  | tail _ hstep ih =>
      exact hstep.tended ih

end Dealings
end CallbackLoop
