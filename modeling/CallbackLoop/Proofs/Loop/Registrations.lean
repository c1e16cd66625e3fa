import CallbackLoop.Proofs.Loop.Course
import CallbackLoop.Proofs.Loop.Dispatcher
import Mathlib.Data.Finmap

/-!
# Registrations are a finite map

Code that uses a loop sees a registry: for every registered descriptor the
binding of each direction.  `Registry.after` says what a move does to it.  Only
registering, clearing and the start of a oneshot reaction change it; that a
descriptor cleared by its own handler stays in storage for a while cannot be
seen.

`run_follows_registry` is the result for whole runs of a machine with a loop
that was just built.
-/

namespace CallbackLoop

variable {H R : Type}

/-- The reaction bound to each direction, and whether it runs only once. -/
abbrev Bindings (R : Type) := Direction → Option (Binding R)

namespace Bindings

/-- The bound directions. -/
def directions (b : Bindings R) : Directions :=
  ⟨(b .recv).isSome, (b .send).isSome, (b .error).isSome⟩

/-- The bindings after a registration.  If the flags name directions these are
bound, and all others are unbound unless `append` is given. -/
def rebind (b : Bindings R) (flags : Flags) (reaction : R) : Bindings R :=
  fun a =>
    if flags.directions.contains a then some ⟨reaction, flags.contains .oneshot⟩
    else if flags.directions.isEmpty || flags.contains .append then b a
    else none

/-- The bindings when the reaction to a direction starts: a oneshot one is
gone. -/
def spend (b : Bindings R) (a : Direction) : Bindings R :=
  if (b a).any (·.oneshot) then Function.update b a none else b

end Bindings

/-- The bindings of every registered descriptor. -/
abbrev Registry (H : Type) := Finmap fun _ : Int => Bindings (Reaction H)

namespace Registry

/-- What a move does to the registry.  Registering with the flag `clear` is
clearing, and what is refused changes nothing. -/
def after (A : Registry H) : Act H → Registry H
  | .request (.setFd fd flags _ handler) .done =>
      if flags = .clear then A.erase fd
      else A.insert fd (((A.lookup fd).getD fun _ => none).rebind flags (.call handler))
  | .request (.clearFd fd) _ => A.erase fd
  | .fire fd a _ =>
      match A.lookup fd with
      | some b => A.insert fd (b.spend a)
      | none => A
  | _ => A

theorem after_of_fd?
    (A : Registry H) {r : Request H} (h : r.fd? = none) (reply : Reply) :
    A.after (.request r reply) = A := by
  cases r <;> first | rfl | cases h

theorem after_fire
    {A : Registry H} {fd : Int} {b : Bindings (Reaction H)} (h : A.lookup fd = some b)
    (a : Direction) (reaction : Reaction H) :
    A.after (.fire fd a reaction) = A.insert fd (b.spend a) := by
  simp only [after, h]

end Registry

/-- What a move does to the bindings of one descriptor. -/
def Act.rebound (act : Act H) (fd : Int) (b? : Option (Bindings (Reaction H))) :
    Option (Bindings (Reaction H)) :=
  match act with
  | .request (.setFd other flags _ handler) .done =>
      if other ≠ fd then b?
      else if flags = .clear then none
      else some ((b?.getD fun _ => none).rebind flags (.call handler))
  | .request (.clearFd other) _ => if other ≠ fd then b? else none
  | .fire other a _ => if other ≠ fd then b? else b?.map (·.spend a)
  | _ => b?

theorem Registry.lookup_after
    (A : Registry H) (act : Act H) (fd : Int) :
    (A.after act).lookup fd = act.rebound fd (A.lookup fd) := by
  unfold Registry.after Act.rebound
  split
  next other flags _ handler =>
      by_cases hfd : other = fd
      · subst hfd
        split <;> simp
      · rw [if_pos hfd]
        split
        · exact Finmap.lookup_erase_ne (Ne.symm hfd)
        · exact Finmap.lookup_insert_of_ne _ (Ne.symm hfd)
  next other _ =>
      by_cases hfd : other = fd
      · subst hfd
        simp
      · rw [if_pos hfd]
        exact Finmap.lookup_erase_ne (Ne.symm hfd)
  next other a _ =>
      by_cases hfd : other = fd
      · subst hfd
        split
        next b hlookup =>
            simp [hlookup]
        next hlookup =>
            simp [hlookup]
      · rw [if_pos hfd]
        split
        · exact Finmap.lookup_insert_of_ne _ (Ne.symm hfd)
        · rfl
  next =>
      rfl

namespace Descriptor

variable {d : Descriptor R H}

/-- What is bound, unless the descriptor is cleared. -/
def bindings? (d : Descriptor R H) : Option (Bindings R) :=
  if d.isClearing then none else some d.binding?

theorem bindings?_eq_some_iff
    {b : Bindings R} :
    d.bindings? = some b ↔ d.isClearing = false ∧ d.binding? = b := by
  unfold bindings?
  split
  next hclearing =>
      simp [hclearing]
  next hclearing =>
      simp [Bool.not_eq_true _ ▸ hclearing]

theorem binding?_bound
    (d : Descriptor R H) (flags : Flags) (reaction : R) :
    (d.bound flags reaction).binding? = Bindings.rebind d.binding? flags reaction := by
  funext a
  unfold bound Bindings.rebind
  by_cases hempty : flags.directions.isEmpty = true
  · have hnone : flags.directions.contains a = false := by
      rw [Directions.isEmpty_iff.1 hempty, Directions.contains_empty]
    rw [if_pos hempty, hnone, hempty]
    rfl
  · rw [if_neg hempty]
    show ((if flags.contains .append then d else d.unbindAll).bindAll flags.directions
      ⟨reaction, flags.contains .oneshot⟩).binding? a = _
    rw [binding?_bindAll]
    by_cases happend : flags.contains .append = true
    · simp [hempty, happend]
    · simp [hempty, happend]

theorem binding?_revived
    (d : Descriptor R H) :
    d.revived.binding? = d.binding? := by
  funext a
  unfold revived
  split <;> cases a <;> rfl

theorem binding?_spent
    (d : Descriptor R H) (a : Direction) :
    (d.spent a).binding? = Bindings.spend d.binding? a := by
  funext b
  unfold spent Bindings.spend
  split
  · rw [binding?_setBinding, Function.update_apply]
    simp only [eq_comm]
  · rfl

end Descriptor

namespace DescriptorTable

variable {t t' : DescriptorTable R H} {current current' : Option Nat} {slot : Nat}
  {d d' : Descriptor R H}

/-- The bindings of a descriptor, if it is registered. -/
def bindings? (t : DescriptorTable R H) (fd : Int) : Option (Bindings R) :=
  (t.find? fd).bind Descriptor.bindings?

theorem bindings?_eq_some_iff
    {fd : Int} {b : Bindings R} :
    t.bindings? fd = some b ↔
      ∃ d, t.find? fd = some d ∧ d.isClearing = false ∧ d.binding? = b := by
  simp only [bindings?, Option.bind_eq_some_iff, Descriptor.bindings?_eq_some_iff]

theorem Sound.bindings?_of_get?
    (h : t.Sound current) (hd : t.get? slot = some d) :
    t.bindings? d.fd = d.bindings? := by
  rw [bindings?, h.find?_eq_some_iff.2 ⟨slot, hd, rfl⟩]
  rfl

theorem Sound.bindings?_replace
    (h : t.Sound current) (h' : t'.Sound current') (honly : OnlyAt slot t t')
    (hd : t.get? slot = some d) (hd' : t'.get? slot = some d') (hfd : d'.fd = d.fd)
    (fd : Int) :
    t'.bindings? fd = if fd = d.fd then d'.bindings? else t.bindings? fd := by
  unfold bindings?
  rw [h.find?_replace h' honly hd hd' hfd]
  split <;> rfl

/-- What is bound to a number is what is stored under it or in a new descriptor. -/
theorem Sound.bindings?_ensure
    (h : t.Sound current) {fd : Int}
    (hd : (t.ensure fd).2.get? (t.ensure fd).1 = some d) :
    ((t.bindings? fd).getD fun _ => none) = d.binding? := by
  obtain ⟨e, he, hfd, -, -, -, hold⟩ := h.ensure_spec fd
  cases hd.symm.trans he
  funext a
  rcases hold with hold | ⟨hnone, -, rfl⟩
  · rw [← hfd, h.bindings?_of_get? hold]
    unfold Descriptor.bindings?
    split
    next hclearing =>
        exact ((h.fits _ d hold).unbound_of_clearing hclearing a).symm
    next =>
        rfl
  · rw [bindings?, hnone]
    cases a <;> rfl

/-- A descriptor with the same bindings makes no difference. -/
theorem Sound.bindings?_of_eq
    (h : t.Sound current) (h' : t'.Sound current') (honly : OnlyAt slot t t')
    (hd : t.get? slot = some d) (hd' : t'.get? slot = some d') (hfd : d'.fd = d.fd)
    (hsame : d'.bindings? = d.bindings?) :
    t'.bindings? = t.bindings? := by
  funext fd
  rw [h.bindings?_replace h' honly hd hd' hfd]
  split
  next heq =>
      rw [hsame, heq, h.bindings?_of_get? hd]
  next =>
      rfl

theorem Retimed.bindings?
    (hr : Retimed t t') (h : t.Sound current) (h' : t'.Sound current') :
    t'.bindings? = t.bindings? := by
  funext fd
  obtain ⟨entry, handler, heq⟩ := hr.find? h h' fd
  unfold DescriptorTable.bindings?
  rw [heq]
  cases t.find? fd <;> rfl

/-- The registered descriptors are those on the waiting list. -/
theorem Sound.bindings?_isSome_iff
    (h : t.Sound current) (fd : Int) :
    (t.bindings? fd).isSome = true ↔
      ∃ i d, i ∈ t.waiting ∧ t.get? i = some d ∧ d.fd = fd := by
  rw [Option.isSome_iff_exists]
  constructor
  · rintro ⟨b, hb⟩
    obtain ⟨d, hfind, hclearing, -⟩ := bindings?_eq_some_iff.1 hb
    obtain ⟨i, hi, hfd⟩ := h.find?_eq_some_iff.1 hfind
    exact ⟨i, d, (h.fits i d hi).waiting_iff.2 hclearing, hi, hfd⟩
  · rintro ⟨i, d, hwaiting, hi, hfd⟩
    have hclearing := (h.fits i d hi).waiting_iff.1 hwaiting
    exact ⟨d.binding?, bindings?_eq_some_iff.2
      ⟨d, h.find?_eq_some_iff.2 ⟨i, hi, hfd⟩, hclearing, rfl⟩⟩

/-- As many descriptors are registered as are on the waiting list. -/
theorem Sound.card_keys
    (h : t.Sound current) {A : Finmap fun _ : Int => Bindings R}
    (hA : ∀ fd, A.lookup fd = t.bindings? fd) :
    A.keys.card = t.watched := by
  have hstored : ∀ i ∈ t.waiting, ∃ d, t.get? i = some d := by
    intro i hi
    rw [← Option.isSome_iff_exists, ← Option.ne_none_iff_isSome]
    exact fun hnone => (h.vacant i hnone).2.2 hi
  let number (i : Nat) : Int := ((t.get? i).map (·.fd)).getD 0
  have hnumber : ∀ i d, t.get? i = some d → number i = d.fd := by
    intro i d hd
    show ((t.get? i).map (·.fd)).getD 0 = d.fd
    rw [hd]
    rfl
  have hnodup : (t.waiting.map number).Nodup := by
    refine List.Nodup.map_on ?_ h.waiting
    intro i hi j hj heq
    obtain ⟨d, hd⟩ := hstored i hi
    obtain ⟨e, he⟩ := hstored j hj
    exact h.inj i j d e hd he (by rw [← hnumber i d hd, ← hnumber j e he, heq])
  have hkeys : A.keys = (t.waiting.map number).toFinset := by
    ext fd
    rw [Finmap.mem_keys, ← Finmap.lookup_isSome, hA, h.bindings?_isSome_iff,
      List.mem_toFinset, List.mem_map]
    constructor
    · rintro ⟨i, d, hi, hd, hfd⟩
      exact ⟨i, hi, (hnumber i d hd).trans hfd⟩
    · rintro ⟨i, hi, hfd⟩
      obtain ⟨d, hd⟩ := hstored i hi
      exact ⟨i, d, hi, hd, (hnumber i d hd).symm.trans hfd⟩
  rw [hkeys, List.toFinset_card_of_nodup hnodup, List.length_map, watched]

end DescriptorTable

namespace Machine

variable {m m' : Machine H}

/-- The registry is that of the loop. -/
def Represents (m : Machine H) (A : Registry H) : Prop :=
  ∀ fd, A.lookup fd = m.loop.table.bindings? fd

/-- A move that leaves every binding as it is changes nothing in the registry. -/
theorem Represents.of_bindings?
    {A : Registry H} (hr : m.Represents A)
    (hsame : m'.loop.table.bindings? = m.loop.table.bindings?) :
    m'.Represents A := by
  unfold Represents
  rw [hsame]
  exact hr

theorem interest?_eq
    (l : Loop H) (fd : Int) :
    l.interest? fd = (l.table.bindings? fd).map Bindings.directions := by
  unfold Loop.interest? DescriptorTable.bindings?
  cases l.table.find? fd with
  | none =>
      rfl
  | some d =>
      show (if d.isClearing = true then none else some d.registered) =
        (if d.isClearing = true then none else some d.binding?).map Bindings.directions
      split <;> rfl

/-- Clearing a descriptor takes it out of the registry. -/
theorem represents_clearFd
    (h : m.Sound) {A : Registry H} (hr : m.Represents A) {fd : Int}
    (hclear : m.clearFd fd = .ok m') :
    m'.Represents (A.erase fd) := by
  intro other
  rcases clearFd_ok hclear with ⟨hslot, rfl⟩ | ⟨slot, d, b, k, hslot, hd, -, rfl⟩
  · by_cases hne : other = fd
    · rw [hne, Finmap.lookup_erase, DescriptorTable.bindings?, DescriptorTable.find?, hslot]
      rfl
    · rw [Finmap.lookup_erase_ne hne]
      exact hr other
  · obtain ⟨e, he, hfd⟩ := h.table.slotOf?_eq_some_iff.1 hslot
    cases hd.symm.trans he
    show _ = (m.loop.table.clear slot d).bindings? other
    rw [DescriptorTable.bindings?, h.table.find?_clear hd, hfd]
    by_cases hne : other = fd
    · rw [if_pos hne, hne, Finmap.lookup_erase]
      split <;> rfl
    · rw [if_neg hne, Finmap.lookup_erase_ne hne]
      exact hr other

/-- The descriptor that a registration stores. -/
theorem Registers.stores
    {fd : Int} {flags : Flags} {timeout : FdTimeout} {reaction : Reaction H}
    {d d₀ : Descriptor (Reaction H) H} {kernel : Kernel} (h : m.Sound)
    (hreg : m.Registers fd flags timeout reaction m' d d₀ kernel) :
    ∃ d', m'.loop.table = m.loop.table.register fd d' ∧ d'.fd = fd ∧
      d'.isClearing = false ∧ d'.clears = d.clears ∧
      d'.ready = d.revived.ready \ flags.directions ∧
      d'.binding? = Bindings.rebind d.binding? flags reaction := by
  obtain ⟨e, he, hfd, -⟩ := h.table.ensure_spec fd
  cases hreg.found.symm.trans he
  obtain ⟨entry, rfl⟩ := hreg.bound
  obtain ⟨b, k, q, -, -, rfl⟩ := hreg.result
  refine ⟨_, rfl, ?_, ?_, ?_, ?_, ?_⟩
  · show (d.revived.bound flags reaction).fd = fd
    rw [Descriptor.fd_bound, Descriptor.fd_revived, hfd]
  · show ((d.revived.bound flags reaction).stage == .clearing) = false
    rw [Descriptor.stage_bound]
    exact Descriptor.isClearing_revived d
  · show (d.revived.bound flags reaction).clears = d.clears
    rw [Descriptor.clears_bound, Descriptor.clears_revived]
  · exact Descriptor.ready_bound d.revived flags reaction
  · rw [← Descriptor.binding?_revived d, ← Descriptor.binding?_bound]
    rfl

/-- A registration binds what its flags say. -/
theorem represents_registers
    (h : m.Sound) {A : Registry H} (hr : m.Represents A) {fd : Int} {flags : Flags}
    {timeout : FdTimeout} {reaction : Reaction H} {d d' : Descriptor (Reaction H) H}
    {kernel : Kernel} (hreg : m.Registers fd flags timeout reaction m' d d' kernel) :
    m'.Represents
      (A.insert fd (((A.lookup fd).getD fun _ => none).rebind flags reaction)) := by
  have hsound := (h.registers hreg).table
  obtain ⟨e, htable, hfd, hclearing, -, -, hbinding⟩ := hreg.stores h
  rw [htable] at hsound
  intro other
  rw [htable, DescriptorTable.bindings?, h.table.find?_register hsound hfd]
  by_cases hne : other = fd
  · rw [if_pos hne, hne, Finmap.lookup_insert, hr, h.table.bindings?_ensure hreg.found]
    exact (Descriptor.bindings?_eq_some_iff.2 ⟨hclearing, hbinding⟩).symm
  · rw [if_neg hne, Finmap.lookup_insert_of_ne _ hne]
    exact hr other

theorem represents_perform
    (h : m.Sound) {A : Registry H} (hr : m.Represents A) {r : Request H} {reply : Reply}
    (hperform : Performed m r reply m') :
    m'.Represents (A.after (.request r reply)) := by
  have hsound := (h.perform hperform).table
  cases hperform with
  | cleared hclear =>
      exact represents_clearFd h hr hclear
  | unset hclear =>
      exact represents_clearFd h hr hclear
  | refused _ =>
      exact hr
  | @registered fd flags timeout handler d d' kernel _ hflags _ _ hreg =>
      have hne : flags ≠ .clear := by
        rintro rfl
        cases hflags
      rw [Registry.after, if_neg hne]
      exact represents_registers h hr hreg
  | handled hslot hd =>
      exact hr.of_bindings?
        ((DescriptorTable.Retimed.set hd _ _).bindings? h.table hsound)
  | aside haside =>
      rw [Registry.after_of_fd? A haside.fd?]
      exact hr.of_bindings? (by rw [haside.table])

/-- Settling a descriptor leaves its bindings, or drops it if it was cleared. -/
theorem bindings?_settle
    {slot clears : Nat} {pending : Directions} (h : m.loop.table.Sound (some slot))
    (hsettle : m.settle slot clears pending = .ok m') :
    m'.loop.table.bindings? = m.loop.table.bindings? := by
  obtain ⟨d, hd, ⟨hclearing, rfl⟩ | ⟨hclearing, b, k, -, rfl⟩⟩ := settle_ok hsettle
  · funext fd
    show (m.loop.table.remove slot).bindings? fd = _
    rw [DescriptorTable.bindings?, h.find?_remove (h.remove_current hd) hd]
    split
    next heq =>
        rw [heq, h.bindings?_of_get? hd, Descriptor.bindings?, if_pos hclearing]
        rfl
    next =>
        rfl
  · exact h.bindings?_of_eq (h.settle hd hclearing clears pending)
      (DescriptorTable.onlyAt_settle _ slot d clears pending) hd
      (DescriptorTable.get?_settle_self hd clears pending) rfl rfl

/-- Queuing an event leaves every binding as it is. -/
theorem bindings?_enqueue
    {event : Event} (h : m.loop.table.Sound none) (henqueue : m.enqueue event = .ok m') :
    m'.loop.table.bindings? = m.loop.table.bindings? := by
  rcases enqueue_ok henqueue with ⟨rfl, -⟩ | ⟨slot, d, b, k, -, hd, hclearing, -, -, rfl⟩
  · rfl
  · exact h.bindings?_of_eq (h.notify hd hclearing event.ready)
      (DescriptorTable.onlyAt_notify _ slot d event.ready) hd
      (DescriptorTable.get?_notify_self hd event.ready) rfl rfl

theorem bindings?_awaitEvents
    (h : m.loop.table.Sound none) (hawait : m.awaitEvents = .ok m') :
    m'.loop.table.bindings? = m.loop.table.bindings? := by
  unfold awaitEvents at hawait
  split at hawait
  next =>
      cases hawait
  next events host _ =>
      refine (Except.foldlM_induction
        (fun m₁ : Machine H => m₁.loop.table.Sound none ∧
          m₁.loop.table.bindings? = m.loop.table.bindings?) ?_ events ?_ hawait).2
      · rintro m₁ event m₂ ⟨hsound, hsame⟩ henqueue
        obtain ⟨k, b, t, hm₂, ht⟩ := enqueue_sound hsound henqueue
        refine ⟨?_, (bindings?_enqueue hsound henqueue).trans hsame⟩
        rw [hm₂]
        exact ht
      · exact ⟨h, rfl⟩

/-- A oneshot binding is used up when its reaction starts. -/
theorem represents_spent
    {slot : Nat} {d : Descriptor (Reaction H) H} {A : Registry H}
    (h : m.loop.table.Sound (some slot)) (hr : m.Represents A)
    (hd : m.loop.table.get? slot = some d) {a : Direction} {binding : Binding (Reaction H)}
    (hbinding : d.binding? a = some binding)
    (htable : m'.loop.table = m.loop.table.set slot (d.spent a)) :
    (∃ b, A.lookup d.fd = some b ∧ b a = some binding) ∧
      m'.Represents (A.after (.fire d.fd a binding.reaction)) := by
  have hbound : d.binding? a ≠ none := by
    rw [hbinding]
    exact Option.some_ne_none binding
  have hclearing := (h.fits slot d hd).not_clearing_of_binding? hbound
  have hlookup : A.lookup d.fd = some d.binding? := by
    rw [hr, h.bindings?_of_get? hd]
    exact Descriptor.bindings?_eq_some_iff.2 ⟨hclearing, rfl⟩
  have hspent : (d.spent a).isClearing = false := by
    rw [Descriptor.isClearing, d.stage_spent a]
    exact hclearing
  refine ⟨⟨_, hlookup, hbinding⟩, fun fd => ?_⟩
  rw [htable, h.bindings?_replace (follows_spent h hd a).sound
    (DescriptorTable.onlyAt_set _ slot _) hd (DescriptorTable.get?_set_self hd _) (d.fd_spent a)]
  rw [Registry.after_fire hlookup]
  by_cases hne : fd = d.fd
  · rw [if_pos hne, hne, Finmap.lookup_insert, Descriptor.bindings?, hspent,
      Descriptor.binding?_spent]
    rfl
  · rw [if_neg hne, Finmap.lookup_insert_of_ne _ hne]
    exact hr fd

theorem represents_advance
    (h : m.Sound) {A : Registry H} (hr : m.Represents A) {phase : Phase H}
    (hc : m.control = .dispatching phase) (hadvance : Advance m phase m') :
    m'.Represents (A.after (m.act m')) ∧
      ∀ fd a reaction, m.act m' = .fire fd a reaction →
        ∃ b binding, A.lookup fd = some b ∧ b a = some binding ∧
          binding.reaction = reaction := by
  have hsound := (h.advance hc hadvance).table
  have htable := h.table_of_dispatching hc
  -- Outside of turns no reaction starts, so nothing may change.
  have hstill : (∀ turn, phase ≠ .turn turn) →
      m'.loop.table.bindings? = m.loop.table.bindings? →
      m'.Represents (A.after (m.act m')) ∧
        ∀ fd a reaction, m.act m' = .fire fd a reaction →
          ∃ b binding, A.lookup fd = some b ∧ b a = some binding ∧
            binding.reaction = reaction := by
    intro hturn hsame
    have hact : m.act m' = .advance ∨ m.act m' = .wait m.reports := by
      by_cases hwait : phase = .wait
      · exact .inr (act_eq_wait (hwait ▸ hc))
      · exact .inl (act_eq_advance hc hturn hwait)
    rcases hact with hact | hact
    · rw [hact]
      exact ⟨hr.of_bindings? hsame, by simp⟩
    · rw [hact]
      exact ⟨hr.of_bindings? hsame, by simp⟩
  cases hadvance with
  | quiet hquiet =>
      exact hstill hquiet.not_turn (by rw [hquiet.table])
  | @begins slot active d _ hactive hd =>
      refine hstill (fun _ ht => nomatch ht) ?_
      have honly := DescriptorTable.onlyAt_takeActive hactive
      have hget : DescriptorTable.get? { m.loop.table with active } slot = some d := hd
      exact htable.bindings?_of_eq hsound
        (honly.trans (DescriptorTable.onlyAt_set _ slot _)) hd
        (DescriptorTable.get?_set_self hget _) rfl rfl
  | @turn turn d _ hd hmove =>
      have hfd : d.fd = turn.fd := h.turn_fd turn d (by rw [hc]; rfl) hd
      rcases act_of_turn hc hmove with ⟨hact, hended | hskipped⟩ |
        ⟨a, binding, hact, -, -, -, hbinding, htable', -⟩
      · obtain ⟨m₁, -, hsettle, rfl⟩ := hended
        have hsame := bindings?_settle htable hsettle
        rw [hact]
        exact ⟨hr.of_bindings? hsame, by simp⟩
      · obtain ⟨a, -, -, -, rfl⟩ := hskipped
        rw [hact]
        exact ⟨hr.of_bindings? rfl, by simp⟩
      · obtain ⟨⟨b, hlookup, hb⟩, hr'⟩ := represents_spent htable hr hd hbinding htable'
        rw [hact, ← hfd]
        refine ⟨hr', ?_⟩
        intro fd a' reaction hfire
        cases hfire
        exact ⟨b, binding, hlookup, hb, rfl⟩
  | @postponed now deferred =>
      refine hstill (fun _ ht => nomatch ht) ?_
      obtain ⟨t, q, hfold, ht, hretimed⟩ := follows_postpone now deferred htable
      rw [hfold]
      exact hretimed.bindings? htable ht.sound
  | @expires now deferred fd q slot d _ _ _ _ hd hexpiry =>
      obtain ⟨busy, htable'⟩ := hexpiry.table_eq
      refine hstill (fun _ ht => nomatch ht) ?_
      rw [htable'] at hsound ⊢
      exact htable.bindings?_of_eq hsound (DescriptorTable.onlyAt_set _ slot _) hd
        (DescriptorTable.get?_set_self hd _) rfl rfl
  | settles hsettle =>
      have hsame := bindings?_settle htable hsettle
      exact hstill (fun _ ht => nomatch ht) hsame
  | waits hawait =>
      have hsame := bindings?_awaitEvents htable hawait
      exact hstill (fun _ ht => nomatch ht) hsame

/-- Every move does to the registry what its entry in the log says, and a
reaction that starts is the one that is bound. -/
theorem represents_move
    (h : m.Sound) {A : Registry H} (hr : m.Represents A) {act : Act H}
    (hmove : Move m act m') :
    m'.Represents (A.after act) ∧
      ∀ fd a reaction, act = .fire fd a reaction →
        ∃ b binding, A.lookup fd = some b ∧ b a = some binding ∧
          binding.reaction = reaction := by
  cases hmove with
  | request _ hperform =>
      exact ⟨represents_perform h hr (perform_ok hperform), by simp⟩
  | @resume invocation next hc =>
      rw [resume_eq hc]
      exact ⟨hr.of_bindings? rfl, by simp⟩
  | step hc hstep =>
      simp only [step, hc] at hstep
      exact represents_advance h hr hc (advance_ok hstep)
  | world host =>
      exact ⟨hr.of_bindings? rfl, by simp⟩

theorem represents_run
    {log : List (Act H)} (hrun : Run m log m') (h : m.Sound) {A : Registry H}
    (hr : m.Represents A) :
    m'.Represents (log.foldl Registry.after A) ∧
      ∀ before fd a reaction later, log = before ++ .fire fd a reaction :: later →
        ∃ b binding, (before.foldl Registry.after A).lookup fd = some b ∧
          b a = some binding ∧ binding.reaction = reaction := by
  induction hrun generalizing A with
  | nil =>
      refine ⟨hr, ?_⟩
      intro before fd a reaction later hlog
      simp at hlog
  | cons hmove _ ih =>
      obtain ⟨hr', hfire⟩ := represents_move h hr hmove
      obtain ⟨hr'', hfires⟩ := ih (h.move hmove) hr'
      refine ⟨hr'', ?_⟩
      intro before fd a reaction later hlog
      cases before with
      | nil =>
          rw [List.nil_append, List.cons.injEq] at hlog
          exact hfire fd a reaction hlog.1
      | cons first before =>
          rw [List.cons_append, List.cons.injEq] at hlog
          obtain ⟨rfl, hlog⟩ := hlog
          exact hfires before fd a reaction later hlog

/-- The registry of a loop that was just built: empty, or the notification pipe
alone, whose reading end delivers signals. -/
def builtRegistry (l : Loop H) : Registry H :=
  match l.pipe with
  | none => ∅
  | some pipe =>
      (∅ : Registry H).insert pipe.reader
        (Bindings.rebind (fun _ => none) (.recv ∪ .nonblock) .deliver)

theorem represents_empty
    {m : Machine H} (htable : m.loop.table = {}) :
    m.Represents ∅ := by
  intro fd
  rw [htable, DescriptorTable.bindings?, find?_empty]
  exact Finmap.lookup_empty fd

theorem Built.represents
    (h : Built m) :
    m.Represents (builtRegistry m.loop) := by
  cases h with
  | mk hbuild =>
      obtain ⟨backend, kernel, -, ⟨rfl, rfl⟩ | ⟨pipe, host₁, m, -, hset, rfl, rfl⟩⟩ :=
        build_ok hbuild
      · exact represents_empty rfl
      · rcases setFd_ok hset with ⟨hflags, -⟩ | ⟨-, -, limit, -, hresult⟩ |
          ⟨-, -, -, -, d, d', k, hreg⟩
        · exact absurd hflags (by decide)
        · cases hresult
        · have hr := represents_registers (sound_of_table_empty rfl rfl rfl)
            (represents_empty rfl) hreg
          obtain ⟨b, k, q, -, -, rfl⟩ := hreg.result
          exact hr

/-- Whatever is done to a loop that was just built, the descriptors it counts as
registered, the directions it names for each, and every reaction that starts
are those of a finite map from descriptors to bindings, which only changes as
`Registry.after` says. -/
theorem run_follows_registry
    {log : List (Act H)} (hbuilt : Built m) (hrun : Run m log m') :
    (∀ fd, m'.loop.interest? fd =
      ((log.foldl Registry.after (builtRegistry m.loop)).lookup fd).map Bindings.directions) ∧
    m'.loop.fdCount = (log.foldl Registry.after (builtRegistry m.loop)).keys.card ∧
    ∀ before fd a reaction later, log = before ++ .fire fd a reaction :: later →
      ∃ b binding,
        (before.foldl Registry.after (builtRegistry m.loop)).lookup fd = some b ∧
          b a = some binding ∧ binding.reaction = reaction := by
  have hsound := hbuilt.sound
  obtain ⟨hr, hfires⟩ := represents_run hrun hsound hbuilt.represents
  refine ⟨?_, ?_, hfires⟩
  · intro fd
    rw [interest?_eq, hr]
  · exact ((hrun.sound hsound).table.card_keys hr).symm

/-- A handler clears the descriptor that it runs for and registers it again.  The
direction that was still pending is not run for the new registration. -/
def clearingLog : List (Act Nat) :=
  [Act.request (.setFd 5 (.recv ∪ .oneshot) .unlimited 1) .done,
    .request (.setFd 5 (.send ∪ .append) .unlimited 2) .done, .request .dispatch .done] ++
  List.replicate 7 Act.advance ++ [Act.wait [⟨5, ⟨true, true, false⟩⟩]] ++
  List.replicate 4 Act.advance ++
  [Act.fire 5 .recv (.call 1), .request (.clearFd 5) .done,
    .request (.setFd 5 .send .unlimited 3) .done, .resume, .advance, .advance]

theorem run_follows_registry_clearingLog :
    ∃ m m' : Machine Nat, Built m ∧ Run m clearingLog m' ∧
      (∀ fd, m'.loop.interest? fd =
        ((clearingLog.foldl Registry.after (builtRegistry m.loop)).lookup fd).map
          Bindings.directions) ∧
      m'.loop.fdCount =
        (clearingLog.foldl Registry.after (builtRegistry m.loop)).keys.card := by
  have hbuilt := built_scripted Nat [{ events := [(5, { input := true, output := true })] }]
  have hruns : ∃ m', Run (scripted Nat
      [{ events := [(5, { input := true, output := true })] }]) clearingLog m' :=
    exists_run_of_trail
      (List.flatten [
        [.request (.setFd 5 (.recv ∪ .oneshot) .unlimited 1),
          .request (.setFd 5 (.send ∪ .append) .unlimited 2), .request .dispatch],
        List.replicate 13 .step,
        [.request (.clearFd 5), .request (.setFd 5 .send .unlimited 3), .resume, .step, .step]])
      (by decide +kernel)
  obtain ⟨m', hrun⟩ := hruns
  obtain ⟨hinterest, hcount, -⟩ := run_follows_registry hbuilt hrun
  exact ⟨_, m', hbuilt, hrun, hinterest, hcount⟩

end Machine
end CallbackLoop
