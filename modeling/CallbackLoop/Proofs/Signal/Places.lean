import CallbackLoop.Proofs.Signal.Ownership
import CallbackLoop.Proofs.Signal.Upkeep
import Mathlib.Data.List.Nodup

/-!
# The places of a hub

`Host.placed` is the write end that stands in a place.  Joining a hub fills one place that
was vacant, leaving it vacates one, and no other call on hubs touches a place.
-/

namespace CallbackLoop

namespace Host

variable {h h' : Host} {id place : Nat} {fd signo : Int}

/-- The write end in a place of a hub. -/
def placed (h : Host) (id place : Nat) : Option Int :=
  (h.hub id).places[place]?.join

/-- Every hub has as many places as it has room for loops. -/
def Roomy (h : Host) : Prop :=
  ∀ id, (h.hub id).places.size = Hub.capacity

theorem hub_congr
    (hhubs : h'.hubs = h.hubs) (id : Nat) :
    h'.hub id = h.hub id := by
  unfold Host.hub
  rw [hhubs]

theorem ownership_congr
    (hrefcounts : ∀ id, (h'.hub id).refcounts = (h.hub id).refcounts)
    (howners : h'.owners = h.owners) (hcaught : h'.kernel.caught = h.kernel.caught) :
    h'.ownership = h.ownership := by
  unfold ownership
  simp only [hrefcounts, howners, hcaught]

theorem placed_congr
    (hplaces : (h'.hub id).places = (h.hub id).places) (place : Nat) :
    h'.placed id place = h.placed id place := by
  unfold placed
  rw [hplaces]

theorem Roomy.congr
    (hroomy : h.Roomy) (hplaces : ∀ id, (h'.hub id).places = (h.hub id).places) :
    h'.Roomy := by
  intro id
  rw [hplaces, hroomy]

theorem Roomy.lt_capacity
    (hroomy : h.Roomy) (hplaced : h.placed id place = some fd) :
    place < Hub.capacity := by
  by_contra hout
  rw [← hroomy id, Nat.not_lt] at hout
  rw [placed, Array.getElem?_eq_none hout] at hplaced
  cases hplaced

/-- Puts something into a place of a hub. -/
def seat (h : Host) (id place : Nat) (occupant : Option Int) : Host :=
  h.setHub id { h.hub id with places := (h.hub id).places.setIfInBounds place occupant }

theorem placed_seat
    (hroomy : h.Roomy) (hplace : place < Hub.capacity) (occupant : Option Int) (i p : Nat) :
    (h.seat id place occupant).placed i p =
      if i = id ∧ p = place then occupant else h.placed i p := by
  unfold seat placed
  rw [hub_setHub]
  by_cases hi : i = id
  · subst hi
    rw [if_pos rfl, Array.getElem?_setIfInBounds]
    by_cases hp : place = p
    · subst hp
      have hlt : place < (h.hub i).places.size := (hroomy i).symm ▸ hplace
      simp [hlt]
    · simp [hp, Ne.symm hp]
  · rw [if_neg hi, if_neg fun h => hi h.1]

theorem roomy_seat
    (hroomy : h.Roomy) (id place : Nat) (occupant : Option Int) :
    (h.seat id place occupant).Roomy := by
  intro i
  unfold seat
  rw [hub_setHub]
  split
  next hi =>
      subst hi
      exact Array.size_setIfInBounds.trans (hroomy i)
  next =>
      exact hroomy i

theorem refcounts_seat
    (h : Host) (id place : Nat) (occupant : Option Int) (i : Nat) :
    ((h.seat id place occupant).hub i).refcounts = (h.hub i).refcounts := by
  unfold seat
  rw [hub_setHub]
  split
  next hi =>
      rw [hi]
  next =>
      rfl

theorem ownership_seat
    (h : Host) (id place : Nat) (occupant : Option Int) :
    (h.seat id place occupant).ownership = h.ownership :=
  ownership_congr (refcounts_seat h id place occupant) rfl rfl

/-- A write end that joins a hub gets a place that was vacant. -/
theorem join_ok
    (hroomy : h.Roomy) (hfd : 0 ≤ fd) (hjoin : h.join id fd = .ok (place, h')) :
    place < Hub.capacity ∧ h.placed id place = none ∧ h' = h.seat id place (some fd) := by
  unfold Host.join Hub.join at hjoin
  cases hfound : (h.hub id).places.findIdx? (·.isNone) with
  | none =>
      simp [hfound] at hjoin
  | some vacancy =>
      have hminus : fd ≠ -1 := by omega
      simp only [hfound, if_neg hminus] at hjoin
      cases hjoin
      obtain ⟨hlt, hvacant, -⟩ := Array.findIdx?_eq_some_iff_getElem.1 hfound
      refine ⟨hroomy id ▸ hlt, ?_, rfl⟩
      rw [placed, Array.getElem?_eq_getElem hlt, Option.isNone_iff_eq_none.1 hvacant]
      rfl

/-- A hub turns a loop away only if all its places are taken. -/
theorem join_error
    {refusal : Refusal} (hroomy : h.Roomy) (hjoin : h.join id fd = .error refusal) :
    refusal = .tooManyLoops Hub.capacity ∧
      ∀ place < Hub.capacity, ∃ fd, h.placed id place = some fd := by
  unfold Host.join Hub.join at hjoin
  cases hfound : (h.hub id).places.findIdx? (·.isNone) with
  | some vacancy =>
      simp [hfound] at hjoin
  | none =>
      simp only [hfound] at hjoin
      cases hjoin
      refine ⟨rfl, fun place hplace => ?_⟩
      have hlt : place < (h.hub id).places.size := (hroomy id).symm ▸ hplace
      have htaken := Array.findIdx?_eq_none_iff.1 hfound _ (Array.getElem_mem hlt)
      obtain ⟨fd, hfd⟩ := Option.isSome_iff_exists.1 (Option.isNone_eq_false_iff.1 htaken)
      refine ⟨fd, ?_⟩
      rw [placed, Array.getElem?_eq_getElem hlt, hfd]
      rfl

theorem leave_eq
    (hplace : place < Hub.capacity) :
    h.leave id place = .ok (h.seat id place none) :=
  if_pos hplace

theorem leave_ok
    (hleave : h.leave id place = .ok h') :
    place < Hub.capacity ∧ h' = h.seat id place none := by
  unfold leave at hleave
  split at hleave
  next hplace =>
      cases hleave
      exact ⟨hplace, rfl⟩
  next =>
      cases hleave

theorem places_recount
    (h : Host) (id : Nat) (signo : Int) (n : Nat) (i : Nat) :
    ((h.recount id signo n).hub i).places = (h.hub i).places := by
  unfold recount
  rw [hub_setHub]
  split
  next hi =>
      rw [hi]
  next =>
      rfl

theorem places_uncount
    (h : Host) (id : Nat) (signo : Int) (i : Nat) :
    ((h.uncount id signo).hub i).places = (h.hub i).places := by
  unfold uncount
  rw [hub_setHub]
  split
  next hi =>
      rw [hi]
  next =>
      rfl

theorem places_acquire
    (h : Host) (id : Nat) (signo : Int) (i : Nat) :
    ((h.acquire id signo).2.hub i).places = (h.hub i).places := by
  have hacquired := h.acquired_acquire id signo
  generalize h.acquire id signo = result at hacquired
  cases hacquired with
  | uncatchable _ | owned _ | failed _ _ =>
      rfl
  | again _ | first _ _ _ _ =>
      exact places_recount h id signo _ i

theorem places_release
    (hrelease : h.release id signo = .ok h') (i : Nat) :
    (h'.hub i).places = (h.hub i).places := by
  have hreleased := h.released_release id signo
  rw [hrelease] at hreleased
  generalize hresult : (.ok h' : Except Crash Host) = result at hreleased
  cases hreleased with
  | uncounted _ =>
      cases hresult
      rfl
  | fewer _ =>
      cases hresult
      exact places_recount h id signo _ i
  | last _ _ =>
      cases hresult
      exact places_uncount h id signo i
  | stuck _ _ =>
      cases hresult

/-- Counting a registration changes at most a disposition in the kernel. -/
theorem kernel_acquire
    (h : Host) (id : Nat) (signo : Int) :
    (h.acquire id signo).2.kernel = h.kernel ∨
      (h.acquire id signo).2.kernel = (h.kernel.setDisposition signo .handler).2 := by
  unfold acquire
  split
  · exact .inl rfl
  · dsimp only
    split
    · exact .inl rfl
    · split
      · exact .inl rfl
      · split
        next heq =>
            rw [heq]
            exact .inr rfl
        next heq =>
            rw [heq]
            exact .inr rfl

theorem kernel_release
    (hrelease : h.release id signo = .ok h') :
    h'.kernel = h.kernel ∨ h'.kernel = (h.kernel.setDisposition signo .default).2 := by
  unfold release at hrelease
  dsimp only at hrelease
  split at hrelease
  · cases hrelease
    exact .inl rfl
  · split at hrelease
    · cases hrelease
      exact .inl rfl
    · split at hrelease
      next heq =>
          cases hrelease
          exact .inr (congrArg Prod.snd heq).symm
      next =>
          cases hrelease

theorem pipes_acquire
    (h : Host) (id : Nat) (signo : Int) :
    (h.acquire id signo).2.kernel.pipes = h.kernel.pipes := by
  rcases kernel_acquire h id signo with heq | heq
  · rw [heq]
  · rw [heq, Kernel.pipes_setDisposition]

theorem pipes_release
    (hrelease : h.release id signo = .ok h') :
    h'.kernel.pipes = h.kernel.pipes := by
  rcases kernel_release hrelease with heq | heq
  · rw [heq]
  · rw [heq, Kernel.pipes_setDisposition]

theorem closed_release
    (hrelease : h.release id signo = .ok h') :
    h'.kernel.closed = h.kernel.closed := by
  rcases kernel_release hrelease with heq | heq
  · rw [heq]
  · rw [heq, Kernel.closed_setDisposition]

/-- No loop has been built and no signal registered yet. -/
structure Fresh (h : Host) : Prop where
  hubs : h.hubs = ∅
  owners : h.owners = ∅
  caught : h.kernel.caught = ∅

theorem Fresh.hub
    (hfresh : h.Fresh) (id : Nat) :
    h.hub id = {} := by
  rw [Host.hub, hfresh.hubs]
  exact Std.TreeMap.getD_emptyc

theorem Fresh.ownership
    (hfresh : h.Fresh) :
    h.ownership = .vacant := by
  unfold Host.ownership
  simp only [hfresh.hub, hfresh.owners, hfresh.caught]
  rfl

theorem Fresh.roomy
    (hfresh : h.Fresh) :
    h.Roomy := by
  intro id
  rw [hfresh.hub]
  rfl

theorem Fresh.placed
    (hfresh : h.Fresh) (id place : Nat) :
    h.placed id place = none := by
  rw [Host.placed, hfresh.hub, Array.getElem?_replicate]
  split <;> rfl

theorem mem_members_iff :
    fd ∈ (h.hub id).members ↔ 0 ≤ fd ∧ ∃ place, h.placed id place = some fd := by
  unfold Hub.members placed
  simp only [List.mem_filter, List.mem_filterMap, id_eq, exists_eq_right, Array.mem_toList_iff,
    decide_eq_true_eq, Array.mem_iff_getElem?, Option.join_eq_some_iff]
  exact and_comm

/-- A write end that stands in one place only is one member. -/
theorem nodup_members
    (halone : ∀ p p' fd, h.placed id p = some fd → h.placed id p' = some fd → p = p') :
    (h.hub id).members.Nodup := by
  unfold Hub.members
  refine List.Nodup.filter _ (List.pairwise_filterMap.2 (List.pairwise_iff_getElem.2 ?_))
  intro p p' hp hp' hlt fd hfd fd' hfd' hsame
  subst hsame
  refine absurd (halone p p' fd ?_ ?_) (Nat.ne_of_lt hlt)
  · rw [placed, ← Array.getElem?_toList, List.getElem?_eq_getElem hp]
    exact hfd
  · rw [placed, ← Array.getElem?_toList, List.getElem?_eq_getElem hp']
    exact hfd'

end Host

end CallbackLoop
