import CallbackLoop.Proofs.Fleet.Keys
import CallbackLoop.Proofs.Fleet.Registrations

/-!
# Signals of several loops

Whatever the loops of a process do, each hub counts what its live loops have registered, and
the process catches what is counted somewhere.  A loop that is dropped gives up all it has
registered, so a hub without loops holds no signal.
-/

namespace CallbackLoop

variable {H : Type}

namespace Machine

variable {m m' : Machine H} {signo : Int} {refusal : Refusal}

/-- A registration that is refused has at most asked the kernel. -/
theorem refused_setSignal
    {handler : H} (hperform : m.perform (.setSignal signo handler) = .ok (.refused refusal, m')) :
    (m'.loop = m.loop ∧ m'.control = m.control) ∧ m'.host.hubs = m.host.hubs ∧
      m'.host.owners = m.host.owners ∧ m'.host.kernel.caught = m.host.kernel.caught := by
  unfold perform setSignal at hperform
  cases hprimary : m.loop.isPrimary with
  | false =>
      simp only [hprimary] at hperform
      cases hperform
      exact ⟨⟨rfl, rfl⟩, rfl, rfl, rfl⟩
  | true =>
      simp only [hprimary, if_true] at hperform
      rcases hacquire : m.host.acquire m.loop.hub signo with ⟨_ | refusal', host⟩
      · simp only [hacquire] at hperform
        cases hperform
        exact ⟨⟨rfl, rfl⟩, Host.refuse_acquire hacquire⟩
      · simp only [hacquire] at hperform
        cases hperform

theorem refused_unsetSignal
    {key : Nat} (hperform : m.perform (.unsetSignal signo key) = .ok (.refused refusal, m')) :
    m' = m := by
  obtain ⟨⟨result, m₁⟩, hunset, heq⟩ := Except.bind_eq_ok_iff.1 hperform
  cases result with
  | ok _ =>
      cases heq
  | error _ =>
      cases heq
      unfold unsetSignal at hunset
      split at hunset
      next =>
          cases hunset
          rfl
      next =>
          split at hunset
          next =>
              cases hunset
              rfl
          next =>
              obtain ⟨_, -, hunset⟩ := Except.bind_eq_ok_iff.1 hunset
              cases hunset

end Machine

/-- Nothing keeps the kernel from restoring a default disposition. -/
def Kernel.Restores (k : Kernel) : Prop :=
  ∀ f ∈ k.faults, ∀ signo, f.fits ⟨.sigaction, some signo, some .default⟩ = false

theorem Kernel.Restores.strike
    {k : Kernel} (hrestores : k.Restores) (signo : Int) :
    (k.strike ⟨.sigaction, some signo, some .default⟩).1 = none := by
  cases hstrike : (k.strike ⟨.sigaction, some signo, some .default⟩).1 with
  | none =>
      rfl
  | some cause =>
      obtain ⟨f, hf, hfits, -⟩ := Fault.exists_fits_of_strike hstrike
      rw [hrestores f hf signo] at hfits
      cases hfits

/-- A release wears no fault but those that there were. -/
theorem Kernel.Restores.release
    {h h' : Host} {id : Nat} {signo : Int} (hrestores : h.kernel.Restores)
    (hrelease : h.release id signo = .ok h') :
    h'.kernel.Restores := by
  rcases Host.kernel_release hrelease with heq | heq
  · rwa [heq]
  · obtain ⟨caught, errno, faults, record, hframe, hworn⟩ :=
      h.kernel.frame_setDisposition signo .default
    rw [heq, hframe]
    intro f' hf' other
    obtain ⟨f, hf, hwears⟩ := hworn f' hf'
    rw [← Bool.not_eq_true]
    intro hfits
    have hfalse := hrestores f hf other
    rw [hwears.fits hfits] at hfalse
    cases hfalse

theorem Host.exists_releases
    {h : Host} {id : Nat} (hconsistent : h.ownership.Consistent)
    (hrestores : h.kernel.Restores) (signos : List Int) :
    ∃ h', signos.foldlM (fun h signo => h.release id signo) h = .ok h' := by
  induction signos generalizing h with
  | nil =>
      exact ⟨h, rfl⟩
  | cons signo signos ih =>
      obtain ⟨h₁, hrelease⟩ : ∃ h₁, h.release id signo = .ok h₁ :=
        exists_release hconsistent (hrestores.strike signo)
      obtain ⟨h', hreleases⟩ := ih ((change_release hconsistent hrelease).consistent hconsistent)
        (hrestores.release hrelease)
      exact ⟨h', by rw [List.foldlM_cons, hrelease]; exact hreleases⟩

theorem Loop.exists_drop
    {l : Loop H} {h : Host} (hconsistent : h.ownership.Consistent)
    (hrestores : h.kernel.Restores)
    (hplace : ∀ pipe, l.pipe = some pipe → pipe.place < Hub.capacity) :
    ∃ passed h', l.drop h = .ok (passed, h') := by
  cases hdrop : l.drop h with
  | ok result =>
      exact ⟨result.1, result.2, rfl⟩
  | error crash =>
      obtain ⟨h₁, hreleases⟩ : ∃ h₁,
          l.signals.signos.foldlM (fun h signo => h.release l.hub signo) h = .ok h₁ :=
        Host.exists_releases hconsistent hrestores l.signals.signos
      rw [Host.foldlM_release, drop_error hplace hdrop] at hreleases
      cases hreleases

/-- Unsetting a signal is granted for the registrations of the loop. -/
theorem Machine.exists_unsetSignal
    {m : Machine H} (hconsistent : m.host.ownership.Consistent)
    (hrestores : m.host.kernel.Restores) (signo : Int) (key : Nat) :
    ∃ reply m', m.perform (.unsetSignal signo key) = .ok (reply, m') ∧
      (reply = .done ↔ m.loop.isPrimary = true ∧ m.loop.signals.contains signo key = true) := by
  have hanswer : ∃ result m', m.unsetSignal signo key = .ok (result, m') ∧
      (Reply.ofExcept result = .done ↔
        m.loop.isPrimary = true ∧ m.loop.signals.contains signo key = true) := by
    unfold unsetSignal
    split
    next hprimary =>
        refine ⟨_, _, rfl, nofun, fun h => ?_⟩
        rw [h.1] at hprimary
        cases hprimary
    next hprimary =>
        split
        next hcontains =>
            refine ⟨_, _, rfl, nofun, fun h => ?_⟩
            rw [h.2] at hcontains
            cases hcontains
        next hcontains =>
            rw [Bool.not_eq_true', Bool.not_eq_false] at hprimary hcontains
            obtain ⟨host, hrelease⟩ : ∃ host, m.host.release m.loop.hub signo = .ok host :=
              Host.exists_release hconsistent (hrestores.strike signo)
            rw [hrelease]
            exact ⟨_, _, rfl, fun _ => ⟨hprimary, hcontains⟩, fun _ => rfl⟩
  obtain ⟨result, m', hunset, hdone⟩ := hanswer
  refine ⟨.ofExcept result, m', ?_, hdone⟩
  show (m.unsetSignal signo key >>= _) = _
  rw [hunset]
  rfl

namespace Fleet

variable {F F' : Fleet H} {act : FleetAct H} {log : List (FleetAct H)} {number : Nat}
  {v : Vessel H} {host : Host}

/-- What the hubs of a process keep is what its loops have registered. -/
structure Accounted (F : Fleet H) (log : List (FleetAct H)) : Prop where
  counted : ∀ id signo, (F.host.hub id).refcount signo = F.registrations id signo
  /-- The process catches what some loop has registered. -/
  caught_iff : ∀ signo, F.host.kernel.caught.contains signo = true ↔
    ∃ id, F.registrations id signo ≠ 0
  /-- A hub without loops holds no signal. -/
  vacant : ∀ id, (∀ number v, F.vessel? number = some v → v.loop.hub ≠ id) →
    ∀ signo : Int, (F.host.hub id).refcounts[signo]? = none ∧ F.host.owners[signo]? ≠ some id
  /-- The handlers of a loop are what its log says: keys are never issued twice, and each is
  accepted once at most and only for its own signal. -/
  keyed : ∀ number, ∃ t, Keyed (acts number log) t ∧
    ∀ v, F.vessel? number = some v → v.loop.signals = t

/-- Neither the loops nor what is kept of signals has changed. -/
structure Unmoved (F F' : Fleet H) : Prop where
  loops : F'.loops = F.loops
  hubs : F'.host.hubs = F.host.hubs
  owners : F'.host.owners = F.host.owners
  caught : F'.host.kernel.caught = F.host.kernel.caught

/-- What the next move does to registrations. -/
structure Responsive (F : Fleet H) (log : List (FleetAct H)) : Prop where
  /-- A signal that is not set changes neither side. -/
  unsettled : ∀ number signo handler refusal F',
    Move F (.moved number (.request (.setSignal signo handler) (.refused refusal))) F' →
      F.Unmoved F'
  /-- A signal that is not unset changes neither side. -/
  retained : ∀ number signo key refusal F',
    Move F (.moved number (.request (.unsetSignal signo key) (.refused refusal))) F' →
      F.Unmoved F'
  /-- With the last loop on a hub its signals get back their default dispositions. -/
  restored : ∀ number v F', F.vessel? number = some v → Move F (.dropped number) F' →
    (∀ other v', F'.vessel? other = some v' → v'.loop.hub ≠ v.loop.hub) →
      ∀ signo, (F.host.hub v.loop.hub).refcount signo ≠ 0 →
        F'.host.kernel.caught.contains signo = false
  /-- Unsetting a signal is granted exactly for a key that was issued for this signal and
  has not been used yet, provided that default dispositions are restored. -/
  granted : ∀ number v signo key, F.vessel? number = some v → F.host.kernel.Restores →
    ∃ reply m, (F.machine v).perform (.unsetSignal signo key) = .ok (reply, m) ∧
      (reply = .done ↔ (∃ r ∈ registered (acts number log), r.signo = signo ∧ r.key = key) ∧
        (signo, key) ∉ unset (acts number log))
  /-- Dropping a loop succeeds under the same condition. -/
  dropped : ∀ number v, F.vessel? number = some v → F.host.kernel.Restores →
    ∃ passed host, v.loop.drop F.host = .ok (passed, host)

/-- What every run keeps of registrations. -/
structure Orderly (F : Fleet H) (log : List (FleetAct H)) : Prop where
  moored : F.Moored
  tallied : F.Tallied
  logged : F.Logged log

theorem Orderly.move
    (h : F.Orderly log) (hmove : Move F act F') :
    F'.Orderly (log ++ [act]) :=
  ⟨h.moored.move hmove, h.tallied.move h.moored.moors.roomy hmove,
    h.logged.move h.moored.moors.roomy hmove⟩

theorem Run.orderly
    (hrun : Run F log F') (hfresh : F.Fresh) :
    F'.Orderly log := by
  induction hrun with
  | nil =>
      exact ⟨hfresh.moored, hfresh.tallied, hfresh.logged⟩
  | snoc _ hlast ih =>
      exact ih.move hlast

theorem Tallied.refcount_eq
    (h : F.Tallied) (id : Nat) (signo : Int) :
    (F.host.hub id).refcount signo = F.registrations id signo := by
  rw [← Host.count_ownership]
  exact h.counted id signo

theorem Tallied.owner_iff
    (h : F.Tallied) (id : Nat) (signo : Int) :
    F.host.owners[signo]? = some id ↔ F.registrations id signo ≠ 0 := by
  rw [← h.counted]
  exact h.consistent.owner_eq_some_iff id signo

theorem Tallied.caught_iff
    (h : F.Tallied) (signo : Int) :
    F.host.kernel.caught.contains signo = true ↔ ∃ id, F.registrations id signo ≠ 0 := by
  refine (h.consistent.caught_iff signo).trans ?_
  rw [Option.ne_none_iff_exists']
  exact exists_congr fun id => h.owner_iff id signo

/-- Nothing is registered on a hub without loops. -/
theorem registrations_of_forall_ne
    {id : Nat} (hvacant : ∀ number v, F.vessel? number = some v → v.loop.hub ≠ id) (signo : Int) :
    F.registrations id signo = 0 :=
  registrations_eq_zero_iff.2 fun number v hv => if_neg (hvacant number v hv)

theorem Orderly.accounted
    (h : F.Orderly log) :
    F.Accounted log where
  counted := h.tallied.refcount_eq
  caught_iff := h.tallied.caught_iff
  vacant id hvacant signo := by
    have hzero := registrations_of_forall_ne hvacant signo
    constructor
    · rw [← h.tallied.counted, h.tallied.consistent.count_eq_zero_iff] at hzero
      exact hzero
    · rw [Ne, h.tallied.owner_iff, not_not]
      exact hzero
  keyed number := by
    cases hv : F.vessel? number with
    | none =>
        obtain ⟨t, ht⟩ := h.logged.gone number hv
        exact ⟨t, ht, fun v hsome => absurd hsome.symm (Option.some_ne_none v)⟩
    | some v =>
        exact ⟨_, h.logged.live number v hv, fun v' hv' => Option.some.inj hv' ▸ rfl⟩

theorem unmoved_update
    (hv : F.vessel? number = some v) (hhubs : host.hubs = F.host.hubs)
    (howners : host.owners = F.host.owners)
    (hcaught : host.kernel.caught = F.host.kernel.caught) :
    F.Unmoved (F.update host number (some v)) := by
  obtain ⟨hlt, hsame⟩ := List.getElem?_eq_some_iff.1 (vessel?_eq_some_iff.1 hv)
  have hloops : F.loops.set number (some v) = F.loops := by
    rw [← hsame, List.set_getElem_self]
  exact ⟨hloops, hhubs, howners, hcaught⟩

/-- The last loop on a hub takes the signals of the hub with it. -/
theorem Tallied.restored
    (h : F.Tallied) (h' : F'.Tallied) (hv : F.vessel? number = some v)
    (hF' : F' = F.update host number none)
    (hlast : ∀ other v', F'.vessel? other = some v' → v'.loop.hub ≠ v.loop.hub) {signo : Int}
    (hheld : (F.host.hub v.loop.hub).refcount signo ≠ 0) :
    F'.host.kernel.caught.contains signo = false := by
  rw [h.refcount_eq, ← h.owner_iff] at hheld
  rw [← Bool.not_eq_true, h'.caught_iff, not_exists]
  intro id
  rw [not_not]
  by_cases hid : id = v.loop.hub
  · rw [hid]
    exact registrations_of_forall_ne hlast signo
  · -- no other hub counts a signal that this one owns
    have hbefore : F.registrations id signo = 0 := by
      by_contra hother
      rw [← Ne, ← h.owner_iff, hheld] at hother
      exact hid (Option.some.inj hother).symm
    have hsum := registrations_update hv host none id signo
    rw [← hF', hbefore, Option.elim_none] at hsum
    omega

theorem Orderly.granted
    (h : F.Orderly log) (hv : F.vessel? number = some v) (hrestores : F.host.kernel.Restores)
    (signo : Int) (key : Nat) :
    ∃ reply m, (F.machine v).perform (.unsetSignal signo key) = .ok (reply, m) ∧
      (reply = .done ↔ (∃ r ∈ registered (acts number log), r.signo = signo ∧ r.key = key) ∧
        (signo, key) ∉ unset (acts number log)) := by
  obtain ⟨reply, m, hperform, hdone⟩ :=
    Machine.exists_unsetSignal (m := F.machine v) h.tallied.consistent hrestores signo key
  refine ⟨reply, m, hperform, hdone.trans ?_⟩
  have hkeyed := h.logged.live number v hv
  constructor
  · rintro ⟨-, hcontains⟩
    obtain ⟨r, hr, rfl, rfl⟩ := SignalHandlers.contains_iff.1 hcontains
    obtain ⟨hissued, hkept⟩ := hkeyed.mem_registrations_iff.1 hr
    exact ⟨⟨r, hissued, rfl, rfl⟩, hkept⟩
  · rintro ⟨⟨r, hissued, rfl, rfl⟩, hkept⟩
    have hr : r ∈ v.loop.signals.registrations := hkeyed.mem_registrations_iff.2 ⟨hissued, hkept⟩
    refine ⟨?_, (hkeyed.contains_iff hissued).2 hkept⟩
    show v.loop.pipe.isSome = true
    rw [Option.isSome_iff_ne_none]
    intro hnone
    rw [h.logged.secondary number v hv hnone] at hr
    cases hr

theorem Orderly.responsive
    (h : F.Orderly log) :
    F.Responsive log where
  unsettled number signo handler refusal F' hmove := by
    cases hmove with
    | @move _ v _ m hv _ hmove =>
        obtain ⟨⟨hloop, hcontrol⟩, hhubs, howners, hcaught⟩ :=
          Machine.refused_setSignal (Machine.request_of_move hmove).2
        rw [hloop, hcontrol]
        exact unmoved_update hv hhubs howners hcaught
  retained number signo key refusal F' hmove := by
    cases hmove with
    | @move _ v _ m hv _ hmove =>
        rw [Machine.refused_unsetSignal (Machine.request_of_move hmove).2]
        exact unmoved_update hv rfl rfl rfl
  restored number v F' hv hmove hlast signo hheld := by
    have h' := (h.move hmove).tallied
    cases hmove with
    | drop hv' _ _ =>
        cases hv.symm.trans hv'
        exact h.tallied.restored h' hv rfl hlast hheld
  granted number v signo key hv hrestores := h.granted hv hrestores signo key
  dropped number v hv hrestores :=
    Loop.exists_drop h.tallied.consistent hrestores fun _ hpipe => h.moored.place_lt hv hpipe

/-- However signals are set and unset and loops are dropped, also by signal handlers, hubs
count the registrations of live loops. -/
theorem hubs_count_live_registrations
    (hfresh : F.Fresh) (hrun : Run F log F') :
    F'.Accounted log ∧ F'.Responsive log := by
  have horderly := hrun.orderly hfresh
  exact ⟨horderly.accounted, horderly.responsive⟩

/-- Two loops share a signal that a loop on another hub does not get.  While it is delivered
the first loop exchanges its handler.  Once both are dropped the third loop gets the
signal. -/
def sharedLog : List (FleetAct Nat) :=
  List.flatten [
    [.built { backend := .select, primary := true } (.ok 0),
      .built { backend := .select, primary := true } (.ok 1),
      .built { backend := .select, primary := true, hub := 1 } (.ok 2),
      .moved 0 (.request (.setSignal 10 1) (.key 0)),
      .moved 1 (.request (.setSignal 10 2) (.key 0)),
      .moved 2 (.request (.setSignal 10 3) (.refused (.signalOwned 10))),
      .moved 0 (.request .dispatch .done)],
    List.replicate 7 (.moved 0 .advance),
    [.moved 0 (.wait [⟨900, ⟨true, false, false⟩⟩])],
    List.replicate 4 (.moved 0 .advance),
    [.moved 0 (.fire 900 .recv .deliver), .moved 0 .advance, .moved 0 .advance,
      .moved 0 (.request (.unsetSignal 12 0) (.refused (.unknownSignalHandler 12))),
      .moved 0 (.request (.unsetSignal 10 0) .done),
      .moved 0 (.request (.unsetSignal 10 0) (.refused (.unknownSignalHandler 10))),
      .moved 0 (.request (.setSignal 12 4) (.key 1)),
      .moved 0 (.request .setBreak .done),
      .moved 0 .resume],
    List.replicate 7 (.moved 0 .advance),
    [.dropped 0, .dropped 1, .moved 2 (.request (.setSignal 10 3) (.key 0))]]

theorem hubs_count_live_registrations_sharedLog :
    ∃ F F' : Fleet Nat, F.Fresh ∧ Run F sharedLog F' ∧ F'.Accounted sharedLog ∧
      F'.Responsive sharedLog ∧ (F'.host.hub 0).refcount 12 = 0 ∧
      (F'.host.hub 1).refcount 10 = 1 ∧ F'.host.kernel.caught.contains 10 = true := by
  let start : Fleet Nat := ⟨{ kernel := { script := [{ raised := [10] }] } }, []⟩
  have hfresh : start.Fresh := ⟨⟨rfl, rfl, rfl⟩, rfl⟩
  let cues : List (Cue Nat) := List.flatten [
    [.build { backend := .select, primary := true },
      .build { backend := .select, primary := true },
      .build { backend := .select, primary := true, hub := 1 },
      .move 0 (.request (.setSignal 10 1)), .move 1 (.request (.setSignal 10 2)),
      .move 2 (.request (.setSignal 10 3)), .move 0 (.request .dispatch)],
    List.replicate 15 (.move 0 .step),
    [.move 0 (.request (.unsetSignal 12 0)), .move 0 (.request (.unsetSignal 10 0)),
      .move 0 (.request (.unsetSignal 10 0)), .move 0 (.request (.setSignal 12 4)),
      .move 0 (.request .setBreak), .move 0 .resume],
    List.replicate 7 (.move 0 .step),
    [.drop 0, .drop 1, .move 2 (.request (.setSignal 10 3))]]
  have hfollow : (follow heed start cues).map (fun (log, F) =>
      (log, F.registrations 0 12, F.registrations 1 10)) = some (sharedLog, 0, 1) := by
    decide +kernel
  obtain ⟨log, F', hrun, hview⟩ := composes_run.exists_run _ cues hfollow
  simp only [Prod.mk.injEq] at hview
  obtain ⟨rfl, hnone, hone⟩ := hview
  obtain ⟨haccounted, hresponsive⟩ := hubs_count_live_registrations hfresh hrun
  refine ⟨start, F', hfresh, hrun, haccounted, hresponsive, ?_, ?_, ?_⟩
  · rw [haccounted.counted, hnone]
  · rw [haccounted.counted, hone]
  · refine (haccounted.caught_iff 10).2 ⟨1, ?_⟩
    rw [hone]
    exact Nat.one_ne_zero

end Fleet
end CallbackLoop
