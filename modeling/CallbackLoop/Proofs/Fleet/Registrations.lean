import CallbackLoop.Proofs.Fleet.Berths

/-!
# What hubs count

A registration is kept twice: the loop lists its handler, and the hub of the loop counts it.
The two are changed by paired calls when a signal is set or unset and when a loop is
dropped.  Over all live loops of a hub the lists add up to what the hub counts, after every
move of every loop.
-/

namespace CallbackLoop

variable {H : Type}

namespace SignalHandlers

theorem length_registeredFor_insert
    (t : SignalHandlers H) (signo s : Int) (handler : H) :
    ((t.insert signo handler).2.registeredFor s).length =
      (t.registeredFor s).length + if s = signo then 1 else 0 := by
  unfold insert registeredFor
  dsimp only
  rw [List.filter_append, List.length_append]
  congr 1
  by_cases hs : s = signo
  · simp [hs]
  · simp [hs, Ne.symm hs]

theorem length_registeredFor_erase
    {t : SignalHandlers H} {signo : Int} {key : Nat} (hcontains : t.contains signo key = true)
    (s : Int) :
    ((t.erase signo key).registeredFor s).length + (if s = signo then 1 else 0) =
      (t.registeredFor s).length := by
  obtain ⟨r, hr, hmatch⟩ := List.any_eq_true.1 hcontains
  obtain ⟨r', before, after, -, hmatch', hsplit, herase⟩ :=
    List.exists_of_eraseP (p := fun r : Registration H => r.signo == signo && r.key == key)
      hr hmatch
  have hsigno : r'.signo = signo := by
    simp only [Bool.and_eq_true, beq_iff_eq] at hmatch'
    exact hmatch'.1
  unfold erase registeredFor
  dsimp only
  rw [herase, hsplit, List.filter_append, List.filter_append, List.length_append,
    List.length_append, Nat.add_assoc]
  congr 1
  by_cases hs : s = signo
  · rw [if_pos hs, List.filter_cons_of_pos (by simp [hsigno, hs])]
    rfl
  · rw [if_neg hs, List.filter_cons_of_neg (by simp [hsigno, Ne.symm hs])]
    rfl

/-- A signal is released once for each of its handlers. -/
theorem count_signos
    (t : SignalHandlers H) (s : Int) :
    t.signos.count s = (t.registeredFor s).length := by
  unfold signos registeredFor
  rw [(sortBy_perm _ _).count_eq, List.count_eq_countP, List.countP_map, List.countP_eq_length_filter]
  rfl

end SignalHandlers

namespace Ownership

variable {o o' : Ownership} {id : Nat} {signo : Int}

/-- A granted registration is counted once, in its own hub. -/
theorem Change.count_acquired
    (hchange : o.Change (.acquired id signo) o') (i : Nat) (s : Int) :
    o'.count i s = o.count i s + if i = id ∧ s = signo then 1 else 0 := by
  cases hchange with
  | more _ _ =>
      rw [count_assign]
      split
      next hsame =>
          rw [hsame.1, hsame.2]
          rfl
      next =>
          rfl
  | still hstill =>
      cases hstill

theorem Change.count_released
    (hchange : o.Change (.released id signo true) o') (i : Nat) (s : Int) :
    o'.count i s + (if i = id ∧ s = signo then 1 else 0) = o.count i s := by
  cases hchange with
  | @fewer _ _ n hn =>
      rw [count_assign]
      split
      next hsame =>
          rw [hsame.1, hsame.2, hn]
          split
          next hzero =>
              rw [hzero]
              rfl
          next =>
              rfl
      next =>
          rfl
  | still hstill =>
      cases hstill

end Ownership

namespace Host

variable {h h' : Host} {id : Nat} {signo : Int}

theorem Abides.ownership
    (habides : h.Abides h') :
    h'.ownership = h.ownership :=
  ownership_congr (fun id => congrArg Hub.refcounts (hub_congr habides.hubs id)) habides.owners
    habides.caught

theorem Undone.ownership
    (hundone : h.Undone h') :
    h'.ownership = h.ownership :=
  ownership_congr (fun id => congrArg Hub.refcounts (hundone.hub id)) hundone.owners
    hundone.kernel.caught

theorem Berths.ownership
    {pipe : SelfPipe} (hberths : h.Berths id pipe h') :
    h'.ownership = h.ownership :=
  ownership_congr
    (fun i => (congrArg Hub.refcounts (hub_congr hberths.hubs i)).trans (refcounts_seat h id _ _ i))
    hberths.owners hberths.caught

/-- A registration that is counted is not counted any more once it is released. -/
theorem released_of_count
    (hconsistent : h.ownership.Consistent) (hcount : h.ownership.count id signo ≠ 0)
    (hrelease : h.release id signo = .ok h') :
    h.ownership.Change (.released id signo true) h'.ownership := by
  have hchange := change_release hconsistent hrelease
  rw [count_ownership] at hcount
  rwa [bne_iff_ne.2 hcount] at hchange

/-- Registrations that are counted are given up one after the other. -/
theorem count_releases
    {signos : List Int} (hconsistent : h.ownership.Consistent)
    (hcount : ∀ s, signos.count s ≤ h.ownership.count id s)
    (hreleases : signos.foldlM (fun h signo => h.release id signo) h = .ok h') :
    h'.ownership.Consistent ∧ ∀ i s,
      h'.ownership.count i s + (if i = id then signos.count s else 0) =
        h.ownership.count i s := by
  induction signos generalizing h with
  | nil =>
      cases hreleases
      exact ⟨hconsistent, fun i s => by simp⟩
  | cons signo signos ih =>
      rw [List.foldlM_cons] at hreleases
      obtain ⟨h₁, hrelease, hreleases⟩ := Except.bind_eq_ok_iff.1 hreleases
      have hpositive : h.ownership.count id signo ≠ 0 := by
        have hone := hcount signo
        rw [List.count_cons_self] at hone
        omega
      have hchange := released_of_count hconsistent hpositive hrelease
      have hcount₁ := hchange.count_released
      have hleft : ∀ s, signos.count s ≤ h₁.ownership.count id s := by
        intro s
        have hall := hcount s
        have hone := hcount₁ id s
        by_cases hs : s = signo
        · subst hs
          rw [List.count_cons_self] at hall
          rw [if_pos ⟨rfl, rfl⟩] at hone
          omega
        · rw [List.count_cons_of_ne (Ne.symm hs)] at hall
          rw [if_neg fun h => hs h.2] at hone
          omega
      obtain ⟨hconsistent', hcount'⟩ := ih (hchange.consistent hconsistent) hleft hreleases
      refine ⟨hconsistent', fun i s => ?_⟩
      rw [← hcount₁ i s, ← hcount' i s]
      by_cases hi : i = id
      · by_cases hs : s = signo
        · simp [hi, hs, Nat.add_assoc]
        · simp [hi, hs, List.count_cons_of_ne (Ne.symm hs)]
      · simp [hi]

/-- Only signals that are given back matter to their owners. -/
theorem ownership_giveBack
    {a : Holding} (ha : ∀ id signo, a ≠ .signal id signo) (hgive : h.giveBack a = .ok h') :
    h'.ownership = h.ownership := by
  cases a with
  | signal id signo =>
      exact absurd rfl (ha id signo)
  | backend b =>
      cases hgive
      exact ownership_congr (fun _ => rfl) rfl (b.caught_release _)
  | place id place =>
      obtain ⟨-, rfl⟩ := leave_ok hgive
      exact ownership_seat h id place none
  | descriptor fd =>
      cases hgive
      exact ownership_congr (fun _ => rfl) rfl rfl

theorem ownership_giveBackAll
    {given : List Holding} {passed : List Host}
    (hgiven : ∀ a ∈ given, ∀ id signo, a ≠ .signal id signo)
    (hgive : h.giveBackAll given = .ok (passed, h')) :
    h'.ownership = h.ownership := by
  induction given generalizing h passed with
  | nil =>
      cases hgive
      rfl
  | cons a given ih =>
      rw [List.forall_mem_cons] at hgiven
      obtain ⟨h₁, passed', hfirst, hrest, -⟩ := giveBackAll_cons_ok hgive
      exact (ih hgiven.2 hrest).trans (ownership_giveBack hgiven.1 hfirst)

end Host

namespace Loop

variable {l : Loop H} {h h' : Host} {id : Nat} {signo : Int}

/-- The handlers of a loop for a signal, as a hub has to count them. -/
def registrations (l : Loop H) (id : Nat) (signo : Int) : Nat :=
  if l.hub = id then (l.signals.registeredFor signo).length else 0

theorem registrations_congr
    {l' : Loop H} (hhub : l'.hub = l.hub) (hsignals : l'.signals = l.signals) :
    l'.registrations = l.registrations := by
  unfold registrations
  rw [hhub, hsignals]

theorem registrations_vacant
    (hsignals : l.signals = {}) (id : Nat) (signo : Int) :
    l.registrations id signo = 0 := by
  unfold registrations
  rw [hsignals]
  exact ite_self 0

theorem ownership_discard
    {passed : List Host} (hdiscard : l.discard h = .ok (passed, h')) :
    h'.ownership = h.ownership := by
  refine Host.ownership_giveBackAll (fun a ha id signo hsignal => ?_) hdiscard
  subst hsignal
  cases hpipe : l.pipe with
  | none =>
      simp [resources, hpipe] at ha
  | some pipe =>
      simp [resources, hpipe, SelfPipe.holdings] at ha

/-- Dropping a loop gives up what it has registered. -/
theorem count_drop
    (hconsistent : h.ownership.Consistent)
    (hcount : ∀ s, l.registrations l.hub s ≤ h.ownership.count l.hub s)
    {passed : List Host} (hdrop : l.drop h = .ok (passed, h')) :
    h'.ownership.Consistent ∧ ∀ i s,
      h'.ownership.count i s + l.registrations i s = h.ownership.count i s := by
  obtain ⟨h₁, _, hreleases, hdiscard⟩ := drop_ok hdrop
  have hsignos : ∀ i s, (if i = l.hub then l.signals.signos.count s else 0) =
      l.registrations i s := by
    intro i s
    rw [SignalHandlers.count_signos]
    exact if_congr eq_comm rfl rfl
  have hcounted : ∀ s, l.signals.signos.count s ≤ h.ownership.count l.hub s := by
    intro s
    have hsame := hsignos l.hub s
    rw [if_pos rfl] at hsame
    exact hsame ▸ hcount s
  obtain ⟨hconsistent₁, hcount₁⟩ := Host.count_releases hconsistent hcounted hreleases
  rw [ownership_discard hdiscard]
  refine ⟨hconsistent₁, fun i s => ?_⟩
  rw [← hsignos i s]
  exact hcount₁ i s

end Loop

/-- What a move changes in the handlers of a loop it changes in what its hub counts. -/
theorem Machine.SignalChange.count
    {m m' : Machine H} {act : Act H} (hchange : SignalChange m act m') (hact : act ≠ .world)
    (hconsistent : m.host.ownership.Consistent)
    (hcount : ∀ s, m.loop.registrations m.loop.hub s ≤ m.host.ownership.count m.loop.hub s) :
    m'.host.ownership.Consistent ∧ ∀ i s,
      m'.host.ownership.count i s + m.loop.registrations i s =
        m.host.ownership.count i s + m'.loop.registrations i s := by
  cases hchange with
  | still _ _ haloof =>
      rw [haloof.host.abides.ownership, Loop.registrations_congr haloof.hub haloof.signals]
      exact ⟨hconsistent, fun _ _ => rfl⟩
  | @registered signo handler host _ hacquire =>
      have hmore := Host.change_acquire hconsistent hacquire
      refine ⟨hmore.consistent hconsistent, fun i s => ?_⟩
      dsimp only
      rw [hmore.count_acquired, Nat.add_assoc]
      congr 1
      unfold Loop.registrations
      dsimp only
      rw [SignalHandlers.length_registeredFor_insert]
      by_cases hi : m.loop.hub = i
      · simp [hi, Nat.add_comm]
      · simp [hi, Ne.symm hi]
  | refused hacquire =>
      dsimp only
      rw [Host.ownership_refuse hacquire]
      exact ⟨hconsistent, fun _ _ => rfl⟩
  | @removed signo key host _ hcontains hrelease =>
      have herase := SignalHandlers.length_registeredFor_erase hcontains
      have hpositive : m.host.ownership.count m.loop.hub signo ≠ 0 := by
        have hone := herase signo
        have hall := hcount signo
        unfold Loop.registrations at hall
        rw [if_pos rfl] at hone hall
        omega
      have hfewer := Host.released_of_count hconsistent hpositive hrelease
      refine ⟨hfewer.consistent hconsistent, fun i s => ?_⟩
      dsimp only
      rw [← hfewer.count_released i s, Nat.add_assoc]
      congr 1
      unfold Loop.registrations
      dsimp only
      rw [← herase s]
      by_cases hi : m.loop.hub = i
      · simp [hi, Nat.add_comm]
      · simp [hi, Ne.symm hi]
  | world =>
      exact absurd rfl hact

namespace Fleet

variable {F F' : Fleet H} {act : FleetAct H} {log : List (FleetAct H)} {number : Nat}
  {v : Vessel H} {host : Host} {loop : Loop H} {id : Nat} {signo : Int}

/-- The handlers that the live loops on a hub have for a signal. -/
def registrations (F : Fleet H) (id : Nat) (signo : Int) : Nat :=
  (F.loops.map fun v? => v?.elim 0 (·.loop.registrations id signo)).sum

theorem registrations_launch
    (hsignals : loop.signals = {}) :
    (F.launch host loop).registrations = F.registrations := by
  funext id signo
  unfold registrations launch
  dsimp only
  rw [List.map_append, List.sum_append]
  exact congrArg _ (loop.registrations_vacant hsignals id signo)

theorem registrations_update
    (hv : F.vessel? number = some v) (host : Host) (v? : Option (Vessel H)) (id : Nat)
    (signo : Int) :
    (F.update host number v?).registrations id signo + v.loop.registrations id signo =
      F.registrations id signo + v?.elim 0 (·.loop.registrations id signo) := by
  have hlt := lt_length_of_vessel? hv
  have hold : F.loops[number] = some v := by
    rw [vessel?_eq_some_iff, List.getElem?_eq_getElem hlt] at hv
    exact Option.some.inj hv
  have hsum := List.sum_set_add
    (l := F.loops.map fun v? => v?.elim 0 (·.loop.registrations id signo))
    (n := number) (by rwa [List.length_map]) (v?.elim 0 (·.loop.registrations id signo))
  rw [List.getElem_map, hold] at hsum
  unfold registrations update
  dsimp only
  rw [List.map_set]
  exact hsum

/-- One loop has no more registrations than all. -/
theorem registrations_le
    (hv : F.vessel? number = some v) (id : Nat) (signo : Int) :
    v.loop.registrations id signo ≤ F.registrations id signo := by
  have hsum := registrations_update hv F.host none id signo
  rw [Option.elim_none] at hsum
  omega

theorem registrations_eq_zero_iff :
    F.registrations id signo = 0 ↔
      ∀ number v, F.vessel? number = some v → v.loop.registrations id signo = 0 := by
  constructor
  · intro hzero number v hv
    have hle := registrations_le hv id signo
    omega
  · intro hzero
    refine List.sum_eq_zero fun n hn => ?_
    obtain ⟨v?, hmem, rfl⟩ := List.mem_map.1 hn
    cases v? with
    | none =>
        rfl
    | some v =>
        obtain ⟨number, hnumber⟩ := List.mem_iff_getElem?.1 hmem
        exact hzero number v (vessel?_eq_some_iff.2 hnumber)

/-- The hubs count what the live loops have registered. -/
structure Tallied (F : Fleet H) : Prop where
  consistent : F.host.ownership.Consistent
  counted : ∀ id signo, F.host.ownership.count id signo = F.registrations id signo

theorem Fresh.tallied
    (hfresh : F.Fresh) :
    F.Tallied := by
  have hownership := hfresh.host.ownership
  refine ⟨hownership ▸ Ownership.consistent_vacant, fun id signo => ?_⟩
  rw [hownership, registrations, hfresh.loops]
  rfl

theorem Tallied.congr
    (h : F.Tallied) (hownership : F'.host.ownership = F.host.ownership)
    (hregistrations : F'.registrations = F.registrations) :
    F'.Tallied := by
  refine ⟨hownership ▸ h.consistent, fun id signo => ?_⟩
  rw [hownership, hregistrations, h.counted]

theorem Tallied.le_count
    (h : F.Tallied) (hv : F.vessel? number = some v) (id : Nat) (signo : Int) :
    v.loop.registrations id signo ≤ F.host.ownership.count id signo := by
  rw [h.counted]
  exact registrations_le hv id signo

/-- One loop is changed or dropped, and its hub counts what is left. -/
theorem Tallied.update
    (h : F.Tallied) (hv : F.vessel? number = some v) {v? : Option (Vessel H)}
    (hconsistent : host.ownership.Consistent)
    (hcount : ∀ id signo, host.ownership.count id signo + v.loop.registrations id signo =
      F.host.ownership.count id signo + v?.elim 0 (·.loop.registrations id signo)) :
    (F.update host number v?).Tallied := by
  refine ⟨hconsistent, fun id signo => ?_⟩
  have hsum := registrations_update hv host v? id signo
  have hhub := hcount id signo
  rw [h.counted] at hhub
  show host.ownership.count id signo = _
  omega

/-- A move keeps the two sides in step. -/
theorem Tallied.move
    (h : F.Tallied) (hroomy : F.host.Roomy) (hmove : Move F act F') :
    F'.Tallied := by
  cases hmove with
  | build hbuild =>
      cases LoopOptions.comes_of_build hroomy hbuild with
      | plain _ _ hsignals _ habides =>
          exact h.congr habides.ownership (registrations_launch hsignals)
      | berthed _ _ hsignals _ hberths =>
          exact h.congr hberths.ownership (registrations_launch hsignals)
  | refuse hbuild =>
      cases LoopOptions.comes_of_build hroomy hbuild with
      | refused hundone _ =>
          exact h.congr hundone.ownership rfl
  | drop hv _ hdrop =>
      obtain ⟨hconsistent, hcount⟩ :=
        Loop.count_drop h.consistent (fun s => h.le_count hv _ s) hdrop
      exact h.update hv hconsistent hcount
  | move hv hact hmove =>
      obtain ⟨hconsistent, hcount⟩ := (Machine.signalChange_of_move hmove).count hact
        h.consistent fun s => h.le_count hv _ s
      exact h.update hv hconsistent hcount
  | world habides =>
      exact h.congr habides.ownership rfl

end Fleet
end CallbackLoop
