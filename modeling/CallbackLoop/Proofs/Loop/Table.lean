import CallbackLoop.DescriptorTable
import CallbackLoop.Proofs.Arena

/-!
# The table of descriptors

At most one descriptor of a loop is current: the one whose handlers the
dispatcher is running.  A table is sound, with respect to the slot of the
current descriptor, when no number is stored twice, both lists agree with what
is stored, and a cleared descriptor is still there only because it is current.

An operation of the loop touches one slot at a time.  `OnlyAt` says which one,
and `Sound.update` reduces soundness afterwards to what the operation leaves in
that slot.
-/

namespace CallbackLoop

variable {R H : Type}

namespace Descriptor

/-- What a stored descriptor satisfies.  The propositions say whether it is
current, on the active list and on the waiting list. -/
structure Fits (d : Descriptor R H) (current active waiting : Prop) : Prop where
  busy : d.busy = true ↔ current
  active_of_ready : d.ready ≠ ∅ → active
  waiting_of_active : active → waiting
  not_current : active → ¬current
  waiting_iff : waiting ↔ d.isClearing = false
  not_freed : d.stage ≠ .freed
  current_of_clearing : d.isClearing = true → current
  unbound_of_clearing : d.isClearing = true → ∀ a, d.binding? a = none
  idle_of_clearing : d.isClearing = true → d.held = none ∧ d.timeout = none

/-- A descriptor that is not cleared fits if it is on the waiting list. -/
theorem fits_of_not_clearing
    {d : Descriptor R H} {current active waiting : Prop}
    (hclearing : d.isClearing = false) (hfreed : d.stage ≠ .freed) (hwaiting : waiting)
    (hbusy : d.busy = true ↔ current) (hready : d.ready ≠ ∅ → active)
    (hactive : active → ¬current) :
    d.Fits current active waiting where
  busy := hbusy
  active_of_ready := hready
  waiting_of_active _ := hwaiting
  not_current := hactive
  waiting_iff := ⟨fun _ => hclearing, fun _ => hwaiting⟩
  not_freed := hfreed
  current_of_clearing hc := absurd (hclearing.symm.trans hc) Bool.noConfusion
  unbound_of_clearing hc := absurd (hclearing.symm.trans hc) Bool.noConfusion
  idle_of_clearing hc := absurd (hclearing.symm.trans hc) Bool.noConfusion

/-- Only a current descriptor can be cleared and still be there. -/
theorem Fits.not_clearing
    {d : Descriptor R H} {current active waiting : Prop}
    (h : d.Fits current active waiting) (hc : ¬current) :
    d.isClearing = false := by
  rw [← Bool.not_eq_true]
  exact fun hclearing => hc (h.current_of_clearing hclearing)

/-- What is bound is not cleared. -/
theorem Fits.not_clearing_of_binding?
    {d : Descriptor R H} {current active waiting : Prop}
    (h : d.Fits current active waiting) {a : Direction} (hbinding : d.binding? a ≠ none) :
    d.isClearing = false := by
  rw [← Bool.not_eq_true]
  exact fun hclearing => hbinding (h.unbound_of_clearing hclearing a)

/-- A current descriptor has no readiness that waits for a turn. -/
theorem Fits.ready_of_current
    {d : Descriptor R H} {current active waiting : Prop}
    (h : d.Fits current active waiting) (hc : current) :
    d.ready = ∅ := by
  by_contra hne
  exact h.not_current (h.active_of_ready hne) hc

end Descriptor

namespace DescriptorTable

variable {t t' t'' : DescriptorTable R H} {slot : Nat} {d d' : Descriptor R H}

/-- Two tables differ in one slot at most. -/
structure OnlyAt (slot : Nat) (t t' : DescriptorTable R H) : Prop where
  get? : ∀ j, j ≠ slot → t'.get? j = t.get? j
  waiting : t'.waiting.filter (· != slot) = t.waiting.filter (· != slot)
  active : t'.active.filter (· != slot) = t.active.filter (· != slot)

namespace OnlyAt

theorem refl
    (slot : Nat) (t : DescriptorTable R H) :
    OnlyAt slot t t :=
  ⟨fun _ _ => rfl, rfl, rfl⟩

theorem trans
    (h : OnlyAt slot t t') (h' : OnlyAt slot t' t'') :
    OnlyAt slot t t'' :=
  ⟨fun j hj => (h'.get? j hj).trans (h.get? j hj),
    h'.waiting.trans h.waiting, h'.active.trans h.active⟩

theorem mem_waiting
    (h : OnlyAt slot t t') {j : Nat} (hj : j ≠ slot) :
    j ∈ t'.waiting ↔ j ∈ t.waiting := by
  have hmem : j ∈ t'.waiting.filter (· != slot) ↔ j ∈ t.waiting.filter (· != slot) := by
    rw [h.waiting]
  simpa [hj] using hmem

theorem mem_active
    (h : OnlyAt slot t t') {j : Nat} (hj : j ≠ slot) :
    j ∈ t'.active ↔ j ∈ t.active := by
  have hmem : j ∈ t'.active.filter (· != slot) ↔ j ∈ t.active.filter (· != slot) := by
    rw [h.active]
  simpa [hj] using hmem

end OnlyAt

theorem filter_enlist
    (list : List Nat) (slot : Nat) :
    (enlist list slot).filter (· != slot) = list.filter (· != slot) := by
  unfold enlist
  split <;> simp

theorem filter_erase_self
    (list : List Nat) (slot : Nat) :
    (list.erase slot).filter (· != slot) = list.filter (· != slot) := by
  induction list with
  | nil =>
      rfl
  | cons i list ih =>
      rw [List.erase_cons]
      by_cases hi : i = slot
      · subst hi
        simp
      · simp [hi, ih]

/-- No slot is given out twice, and neither list repeats a slot. -/
structure Tidy (t : DescriptorTable R H) : Prop where
  arena : t.arena.Sound
  waiting : t.waiting.Nodup
  active : t.active.Nodup

theorem get?_set
    (t : DescriptorTable R H) (slot j : Nat) (d : Descriptor R H) :
    (t.set slot d).get? j =
      if slot = j ∧ (t.get? slot).isSome then some d else t.get? j :=
  Arena.get?_set t.arena slot j d

theorem get?_set_self
    (h : t.get? slot = some d) (d' : Descriptor R H) :
    (t.set slot d').get? slot = some d' := by
  simp [get?_set, h]

theorem onlyAt_set
    (t : DescriptorTable R H) (slot : Nat) (d : Descriptor R H) :
    OnlyAt slot t (t.set slot d) where
  get? j hj := by simp [get?_set, hj.symm]
  waiting := rfl
  active := rfl

theorem Tidy.set
    (h : t.Tidy) (slot : Nat) (d : Descriptor R H) :
    (t.set slot d).Tidy :=
  ⟨Arena.sound_set h.arena slot d, h.waiting, h.active⟩

/-- Nothing changes when a descriptor is replaced by itself. -/
theorem set_get?
    (h : t.get? slot = some d) :
    t.set slot d = t :=
  congrArg (fun arena => { t with arena }) (Arena.set_eq_self h)

@[simp] theorem set_set
    (t : DescriptorTable R H) (slot : Nat) (d d' : Descriptor R H) :
    (t.set slot d).set slot d' = t.set slot d' := by
  by_cases hocc : t.arena.contains slot = true
  · have hocc' : (t.arena.set slot d).contains slot = true := by
      rw [Arena.contains_iff]
      exact ⟨d, by rw [Arena.get?_set, if_pos ⟨rfl, hocc⟩]⟩
    have hset : ∀ x, t.arena.set slot x =
        { t.arena with slots := t.arena.slots.setIfInBounds slot (some x) } := by
      intro x
      rw [Arena.set, if_pos hocc]
    have harena : (t.arena.set slot d).set slot d' = t.arena.set slot d' := by
      rw [Arena.set, if_pos hocc', hset d, hset d']
      simp
    exact congrArg (fun arena => { t with arena }) harena
  · have hset : ∀ x, t.set slot x = t := by
      intro x
      unfold set Arena.set
      rw [if_neg hocc]
    rw [hset d, hset d']

theorem onlyAt_watch
    (t : DescriptorTable R H) (slot : Nat) :
    OnlyAt slot t (t.watch slot) :=
  ⟨fun _ _ => rfl, filter_enlist t.waiting slot, rfl⟩

theorem Tidy.watch
    (h : t.Tidy) (slot : Nat) :
    (t.watch slot).Tidy :=
  ⟨h.arena, nodup_enlist h.waiting slot, h.active⟩

theorem onlyAt_unwatch
    (t : DescriptorTable R H) (slot : Nat) :
    OnlyAt slot t (t.unwatch slot) :=
  ⟨fun _ _ => rfl, filter_erase_self t.waiting slot, rfl⟩

theorem Tidy.unwatch
    (h : t.Tidy) (slot : Nat) :
    (t.unwatch slot).Tidy :=
  ⟨h.arena, h.waiting.erase slot, h.active⟩

theorem onlyAt_activate
    (t : DescriptorTable R H) (slot : Nat) :
    OnlyAt slot t (t.activate slot) :=
  ⟨fun _ _ => rfl, rfl, filter_enlist t.active slot⟩

theorem Tidy.activate
    (h : t.Tidy) (slot : Nat) :
    (t.activate slot).Tidy :=
  ⟨h.arena, h.waiting, nodup_enlist h.active slot⟩

theorem onlyAt_deactivate
    (t : DescriptorTable R H) (slot : Nat) :
    OnlyAt slot t (t.deactivate slot) :=
  ⟨fun _ _ => rfl, rfl, filter_erase_self t.active slot⟩

theorem Tidy.deactivate
    (h : t.Tidy) (slot : Nat) :
    (t.deactivate slot).Tidy :=
  ⟨h.arena, h.waiting, h.active.erase slot⟩

/-- Taking the first slot off the active list touches that slot alone. -/
theorem onlyAt_takeActive
    {active : List Nat} (h : t.active = slot :: active) :
    OnlyAt slot t { t with active } := by
  refine ⟨fun _ _ => rfl, rfl, ?_⟩
  rw [h]
  simp

/-- The table without the descriptor in a slot. -/
def remove (t : DescriptorTable R H) (slot : Nat) : DescriptorTable R H :=
  { (t.unwatch slot).deactivate slot with arena := t.arena.erase slot }

theorem free?_eq
    (t : DescriptorTable R H) (slot : Nat) :
    t.free? slot =
      (t.get? slot).map fun d => ({ d with stage := .freed }, t.remove slot) := by
  unfold free?
  cases t.get? slot <;> rfl

@[simp] theorem get?_remove_self
    (t : DescriptorTable R H) (slot : Nat) :
    (t.remove slot).get? slot = none := by
  show (t.arena.erase slot).get? slot = none
  rw [Arena.get?_erase, if_pos rfl]

theorem onlyAt_remove
    (t : DescriptorTable R H) (slot : Nat) :
    OnlyAt slot t (t.remove slot) where
  get? j hj := by
    show (t.arena.erase slot).get? j = t.arena.get? j
    rw [Arena.get?_erase, if_neg hj.symm]
  waiting := filter_erase_self t.waiting slot
  active := filter_erase_self t.active slot

theorem Tidy.remove
    (h : t.Tidy) (hd : t.get? slot = some d) :
    (t.remove slot).Tidy :=
  ⟨Arena.sound_erase h.arena hd, h.waiting.erase slot, h.active.erase slot⟩

/-- No number is stored twice, both lists agree with what is stored, and every
stored descriptor is as it should be. -/
structure Sound (t : DescriptorTable R H) (current : Option Nat) : Prop extends Tidy t where
  inj : ∀ i j d e, t.get? i = some d → t.get? j = some e → d.fd = e.fd → i = j
  fits : ∀ i d, t.get? i = some d →
    d.Fits (current = some i) (i ∈ t.active) (i ∈ t.waiting)
  vacant : ∀ i, t.get? i = none →
    current ≠ some i ∧ i ∉ t.active ∧ i ∉ t.waiting

/-- Soundness after a change in one slot depends on that slot alone. -/
theorem Sound.update
    {current current' : Option Nat} (h : t.Sound current)
    (htidy : t'.Tidy) (honly : OnlyAt slot t t')
    (hcurrent : ∀ j, j ≠ slot → (current' = some j ↔ current = some j))
    (hfits : ∀ d, t'.get? slot = some d →
      d.Fits (current' = some slot) (slot ∈ t'.active) (slot ∈ t'.waiting))
    (hvacant : t'.get? slot = none →
      current' ≠ some slot ∧ slot ∉ t'.active ∧ slot ∉ t'.waiting)
    (hfd : ∀ d, t'.get? slot = some d →
      ∀ j e, j ≠ slot → t.get? j = some e → e.fd ≠ d.fd) :
    t'.Sound current' := by
  refine ⟨htidy, ?_, ?_, ?_⟩
  · intro i j d e hi hj heq
    by_cases his : i = slot
    · subst his
      by_contra hne
      have hjs : j ≠ i := fun e => hne e.symm
      exact hfd d hi j e hjs (honly.get? j hjs ▸ hj) heq.symm
    · by_cases hjs : j = slot
      · subst hjs
        exact absurd heq (hfd e hj i d his (honly.get? i his ▸ hi))
      · exact h.inj i j d e (honly.get? i his ▸ hi) (honly.get? j hjs ▸ hj) heq
  · intro i d hi
    by_cases his : i = slot
    · subst his
      exact hfits d hi
    · have hfit := h.fits i d (honly.get? i his ▸ hi)
      rwa [hcurrent i his, honly.mem_active his, honly.mem_waiting his]
  · intro i hi
    by_cases his : i = slot
    · subst his
      exact hvacant hi
    · have hvac := h.vacant i (honly.get? i his ▸ hi)
      rwa [ne_eq, hcurrent i his, honly.mem_active his, honly.mem_waiting his]

/-- Soundness after the descriptor in a slot was replaced. -/
theorem Sound.replace
    {current current' : Option Nat} (h : t.Sound current)
    (hd : t.get? slot = some d) (hd' : t'.get? slot = some d') (hfd : d'.fd = d.fd)
    (htidy : t'.Tidy) (honly : OnlyAt slot t t')
    (hcurrent : ∀ j, j ≠ slot → (current' = some j ↔ current = some j))
    (hfits : d'.Fits (current' = some slot) (slot ∈ t'.active) (slot ∈ t'.waiting)) :
    t'.Sound current' := by
  refine h.update htidy honly hcurrent ?_ ?_ ?_
  · intro e he
    rw [hd'] at he
    cases he
    exact hfits
  · intro hnone
    rw [hd'] at hnone
    cases hnone
  · intro e he j f hj hf heq
    rw [hd'] at he
    cases he
    exact hj (h.inj j slot f d hf hd (heq.trans hfd))

/-- Soundness after the descriptor in a slot was removed. -/
theorem Sound.remove
    {current current' : Option Nat} (h : t.Sound current) (hd : t.get? slot = some d)
    (hcurrent : ∀ j, j ≠ slot → (current' = some j ↔ current = some j))
    (hslot : current' ≠ some slot) :
    (t.remove slot).Sound current' := by
  refine h.update (h.toTidy.remove hd) (onlyAt_remove t slot) hcurrent ?_ ?_ ?_
  · intro e he
    rw [get?_remove_self] at he
    cases he
  · intro _
    exact ⟨hslot, h.active.not_mem_erase, h.waiting.not_mem_erase⟩
  · intro e he
    rw [get?_remove_self] at he
    cases he

/-- Without the current descriptor none is current. -/
theorem Sound.remove_current
    (h : t.Sound (some slot)) (hd : t.get? slot = some d) :
    (t.remove slot).Sound none := by
  refine h.remove hd ?_ fun hc => nomatch hc
  intro j hj
  constructor
  · intro hj'
    cases hj'
  · intro hj'
    exact absurd (Option.some.inj hj').symm hj

/-- While no handlers are run, every descriptor is idle. -/
theorem Sound.busy_eq_false
    (h : t.Sound none) (hd : t.get? slot = some d) :
    d.busy = false := by
  rw [← Bool.not_eq_true]
  intro hbusy
  cases (h.fits slot d hd).busy.1 hbusy

/-- With no number stored twice, looking for one finds its only slot. -/
theorem slotOf?_eq_some_iff_of_inj
    (hinj : ∀ i j d e, t.get? i = some d → t.get? j = some e → d.fd = e.fd → i = j)
    {fd : Int} :
    t.slotOf? fd = some slot ↔ ∃ d, t.get? slot = some d ∧ d.fd = fd := by
  have hget : ∀ (i : Nat) (hi : i < t.arena.slots.size) (e : Descriptor R H),
      t.arena.slots[i] = some e → t.get? i = some e := by
    intro i hi e he
    show t.arena.get? i = some e
    simp [Arena.get?, Array.getElem?_eq_getElem hi, he]
  unfold slotOf?
  rw [Array.findIdx?_eq_some_iff_getElem]
  constructor
  · rintro ⟨hlt, hfound, -⟩
    rw [Option.any_eq_true] at hfound
    obtain ⟨d, hd, hfd⟩ := hfound
    exact ⟨d, hget slot hlt d hd, by simpa using hfd⟩
  · rintro ⟨d, hd, hfd⟩
    have hlt := Arena.lt_size_of_get? hd
    have hslot : t.arena.slots[slot] = some d := by
      have : t.arena.get? slot = some d := hd
      simpa [Arena.get?, Array.getElem?_eq_getElem hlt] using this
    refine ⟨hlt, by simp [hslot, hfd], ?_⟩
    intro j hj hfound
    rw [Option.any_eq_true] at hfound
    obtain ⟨e, he, hefd⟩ := hfound
    have hfds : e.fd = d.fd := by
      rw [hfd]
      simpa using hefd
    have := hinj j slot e d (hget j (by omega) e he) hd hfds
    omega

theorem Sound.slotOf?_eq_some_iff
    {current : Option Nat} (h : t.Sound current) {fd : Int} :
    t.slotOf? fd = some slot ↔ ∃ d, t.get? slot = some d ∧ d.fd = fd :=
  slotOf?_eq_some_iff_of_inj h.inj

theorem Sound.find?_eq_some_iff
    {current : Option Nat} (h : t.Sound current) {fd : Int} :
    t.find? fd = some d ↔ ∃ i, t.get? i = some d ∧ d.fd = fd := by
  unfold find?
  rw [Option.bind_eq_some_iff]
  constructor
  · rintro ⟨i, hi, hd⟩
    obtain ⟨e, he, hfd⟩ := h.slotOf?_eq_some_iff.1 hi
    rw [hd] at he
    cases he
    exact ⟨i, hd, hfd⟩
  · rintro ⟨i, hd, hfd⟩
    exact ⟨i, h.slotOf?_eq_some_iff.2 ⟨d, hd, hfd⟩, hd⟩

/-- A change in the slot of `fd` is a change for `fd` only. -/
theorem Sound.find?_of_onlyAt
    {current current' : Option Nat} (h : t.Sound current) (h' : t'.Sound current')
    (honly : OnlyAt slot t t') {fd other : Int} (hne : other ≠ fd)
    (hfd : ∀ d, t.get? slot = some d → d.fd = fd)
    (hfd' : ∀ d, t'.get? slot = some d → d.fd = fd) :
    t'.find? other = t.find? other := by
  ext e
  rw [h'.find?_eq_some_iff, h.find?_eq_some_iff]
  constructor
  · rintro ⟨i, he, hother⟩
    have hi : i ≠ slot := fun e' => hne (hother.symm.trans (hfd' e (e' ▸ he)))
    exact ⟨i, honly.get? i hi ▸ he, hother⟩
  · rintro ⟨i, he, hother⟩
    have hi : i ≠ slot := fun e' => hne (hother.symm.trans (hfd e (e' ▸ he)))
    exact ⟨i, (honly.get? i hi).trans he, hother⟩

theorem Sound.find?_replace
    {current current' : Option Nat} (h : t.Sound current) (h' : t'.Sound current')
    (honly : OnlyAt slot t t') (hd : t.get? slot = some d) (hd' : t'.get? slot = some d')
    (hfd : d'.fd = d.fd) (other : Int) :
    t'.find? other = if other = d.fd then some d' else t.find? other := by
  split
  next heq =>
      exact h'.find?_eq_some_iff.2 ⟨slot, hd', hfd.trans heq.symm⟩
  next hne =>
      refine h.find?_of_onlyAt h' honly hne ?_ ?_
      · intro e he
        cases hd.symm.trans he
        rfl
      · intro e he
        cases hd'.symm.trans he
        exact hfd

theorem Sound.find?_remove
    {current current' : Option Nat} (h : t.Sound current)
    (h' : (t.remove slot).Sound current') (hd : t.get? slot = some d) (other : Int) :
    (t.remove slot).find? other = if other = d.fd then none else t.find? other := by
  have hout : ∀ e, (t.remove slot).get? slot = some e → e.fd = d.fd := by
    intro e he
    rw [get?_remove_self] at he
    cases he
  split
  next heq =>
      rw [Option.eq_none_iff_forall_ne_some]
      intro e he
      obtain ⟨i, hi, hfd⟩ := h'.find?_eq_some_iff.1 he
      by_cases his : i = slot
      · subst his
        rw [get?_remove_self] at hi
        cases hi
      · have hi' : t.get? i = some e := (onlyAt_remove t slot).get? i his ▸ hi
        exact his (h.inj i slot e d hi' hd (hfd.trans heq))
  next hne =>
      refine h.find?_of_onlyAt h' (onlyAt_remove t slot) hne ?_ hout
      intro e he
      cases hd.symm.trans he
      rfl

/-- The table with `d` on the waiting list, in the slot of `fd`. -/
def register (t : DescriptorTable R H) (fd : Int) (d : Descriptor R H) :
    DescriptorTable R H :=
  ((t.ensure fd).2.watch (t.ensure fd).1).set (t.ensure fd).1 d

theorem ensure_of_slotOf?
    {fd : Int} (h : t.slotOf? fd = some slot) :
    t.ensure fd = (slot, t) := by
  simp [ensure, h]

theorem ensure_of_none
    {fd : Int} (h : t.slotOf? fd = none) :
    t.ensure fd = ((t.arena.insert { fd }).1, { t with arena := (t.arena.insert { fd }).2 }) := by
  simp [ensure, h]

/-- The slot of a number after it was ensured: what was stored under it, or a
new descriptor in a slot that was vacant. -/
theorem Sound.ensure_spec
    {current : Option Nat} (h : t.Sound current) (fd : Int) :
    ∃ d, (t.ensure fd).2.get? (t.ensure fd).1 = some d ∧ d.fd = fd ∧
      OnlyAt (t.ensure fd).1 t (t.ensure fd).2 ∧ (t.ensure fd).2.Tidy ∧
      (t.ensure fd).2.active = t.active ∧
      (t.get? (t.ensure fd).1 = some d ∨
        t.find? fd = none ∧ t.get? (t.ensure fd).1 = none ∧ d = { fd }) := by
  cases hslot : t.slotOf? fd with
  | some slot =>
      obtain ⟨d, hd, hfd⟩ := h.slotOf?_eq_some_iff.1 hslot
      rw [ensure_of_slotOf? hslot]
      exact ⟨d, hd, hfd, .refl slot t, h.toTidy, rfl, .inl hd⟩
  | none =>
      rw [ensure_of_none hslot]
      have hget := Arena.get?_insert h.arena ({ fd } : Descriptor R H)
      refine ⟨{ fd }, ?_, rfl, ⟨?_, rfl, rfl⟩, ⟨Arena.sound_insert h.arena _, h.waiting,
        h.active⟩, rfl, .inr ⟨by simp [find?, hslot], Arena.get?_insert_fst h.arena _, rfl⟩⟩
      · exact (hget _).trans (if_pos rfl)
      · intro j hj
        exact (hget j).trans (if_neg hj.symm)

theorem Sound.register_spec
    {current : Option Nat} (h : t.Sound current) (fd : Int) (d : Descriptor R H) :
    OnlyAt (t.ensure fd).1 t (t.register fd d) ∧ (t.register fd d).Tidy ∧
      (t.register fd d).get? (t.ensure fd).1 = some d ∧
      (t.ensure fd).1 ∈ (t.register fd d).waiting ∧ (t.register fd d).active = t.active := by
  obtain ⟨e, he, -, honly, htidy, hactive, -⟩ := h.ensure_spec fd
  refine ⟨(honly.trans (onlyAt_watch _ _)).trans (onlyAt_set _ _ d), (htidy.watch _).set _ d,
    ?_, mem_enlist.2 (.inr rfl), hactive⟩
  have hget : ((t.ensure fd).2.watch (t.ensure fd).1).get? (t.ensure fd).1 = some e := he
  exact get?_set_self hget d

theorem Sound.find?_register
    {current current' : Option Nat} (h : t.Sound current) {fd : Int}
    (h' : (t.register fd d).Sound current') (hfd : d.fd = fd) (other : Int) :
    (t.register fd d).find? other = if other = fd then some d else t.find? other := by
  obtain ⟨honly, -, hget, -⟩ := h.register_spec fd d
  obtain ⟨e, -, hefd, -, -, -, hold⟩ := h.ensure_spec fd
  split
  next heq =>
      exact h'.find?_eq_some_iff.2 ⟨_, hget, hfd.trans heq.symm⟩
  next hne =>
      refine h.find?_of_onlyAt h' honly hne ?_ ?_
      · intro f hf
        rcases hold with hold | ⟨-, hnone, -⟩
        · cases hold.symm.trans hf
          exact hefd
        · rw [hnone] at hf
          cases hf
      · intro f hf
        cases hget.symm.trans hf
        exact hfd

/-- Two tables differ in the timeouts of descriptors at most. -/
structure Retimed (t t' : DescriptorTable R H) : Prop where
  waiting : t'.waiting = t.waiting
  active : t'.active = t.active
  get? : ∀ i, ∃ entry handler, t'.get? i = (t.get? i).map fun d =>
    { d with timeout := entry, onTimeout := handler }

namespace Retimed

theorem refl
    (t : DescriptorTable R H) :
    Retimed t t := by
  refine ⟨rfl, rfl, fun i => ?_⟩
  cases h : t.get? i with
  | none =>
      exact ⟨none, none, rfl⟩
  | some d =>
      exact ⟨d.timeout, d.onTimeout, rfl⟩

theorem trans
    (h : Retimed t t') (h' : Retimed t' t'') :
    Retimed t t'' := by
  refine ⟨h'.waiting.trans h.waiting, h'.active.trans h.active, fun i => ?_⟩
  obtain ⟨entry, handler, heq⟩ := h.get? i
  obtain ⟨entry', handler', heq'⟩ := h'.get? i
  refine ⟨entry', handler', ?_⟩
  rw [heq', heq, Option.map_map]
  rfl

theorem set
    (hd : t.get? slot = some d) (entry : Option Handle) (handler : Option H) :
    Retimed t (t.set slot { d with timeout := entry, onTimeout := handler }) := by
  refine ⟨rfl, rfl, fun i => ?_⟩
  by_cases hi : i = slot
  · subst hi
    exact ⟨entry, handler, by rw [get?_set_self hd, hd]; rfl⟩
  · obtain ⟨e, f, heq⟩ := (refl t).get? i
    exact ⟨e, f, ((onlyAt_set t slot _).get? i hi).trans heq⟩

/-- What is found is the same but for its timeout. -/
theorem find?
    {current current' : Option Nat} (hr : Retimed t t') (h : t.Sound current)
    (h' : t'.Sound current') (fd : Int) :
    ∃ entry handler, t'.find? fd = (t.find? fd).map fun d =>
      { d with timeout := entry, onTimeout := handler } := by
  cases hfind : t.find? fd with
  | none =>
      refine ⟨none, none, ?_⟩
      rw [Option.map_none, Option.eq_none_iff_forall_ne_some]
      intro e he
      obtain ⟨i, hi, hfd⟩ := h'.find?_eq_some_iff.1 he
      obtain ⟨entry, handler, heq⟩ := hr.get? i
      rw [hi] at heq
      obtain ⟨d, hd, rfl⟩ := Option.map_eq_some_iff.1 heq.symm
      have := h.find?_eq_some_iff.2 ⟨i, hd, hfd⟩
      rw [hfind] at this
      cases this
  | some d =>
      obtain ⟨i, hi, hfd⟩ := h.find?_eq_some_iff.1 hfind
      obtain ⟨entry, handler, heq⟩ := hr.get? i
      rw [hi] at heq
      exact ⟨entry, handler, h'.find?_eq_some_iff.2 ⟨i, heq, hfd⟩⟩

end Retimed

end DescriptorTable
end CallbackLoop
