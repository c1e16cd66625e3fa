import CallbackLoop.Proofs.Fleet.Building
import CallbackLoop.Proofs.Signal.Pipes
import Mathlib.Data.List.Perm.Basic

/-!
# The places of live loops

The places of all hubs hold the write ends of the live loops that have a pipe, each of them
in one place.  Only building and dropping a loop changes a place, so it is enough to follow
which loop has which pipe.
-/

namespace CallbackLoop

variable {H : Type}

/-- The places hold the write ends of pipes, and no two of their holders share one. -/
structure Host.Moors (h : Host) (pipe? : Nat → Option SelfPipe) : Prop where
  roomy : h.Roomy
  placed_iff : ∀ id place fd, h.placed id place = some fd ↔
    ∃ number pipe, pipe? number = some pipe ∧ pipe.hub = id ∧ pipe.place = place ∧
      pipe.writer = fd
  opened : ∀ number pipe, pipe? number = some pipe → ∃ n < h.kernel.pipes.size,
    pipe.reader = Kernel.readEnd n ∧ pipe.writer = Kernel.writeEnd n
  alone : ∀ number number' pipe pipe', pipe? number = some pipe → pipe? number' = some pipe' →
    pipe.writer = pipe'.writer → number = number'

namespace Host.Moors

variable {h h' : Host} {pipe? : Nat → Option SelfPipe} {number number' : Nat}
  {pipe pipe' : SelfPipe}

theorem placed
    (hmoors : h.Moors pipe?) (hpipe : pipe? number = some pipe) :
    h.placed pipe.hub pipe.place = some pipe.writer :=
  (hmoors.placed_iff _ _ _).2 ⟨number, pipe, hpipe, rfl, rfl, rfl⟩

theorem lt_capacity
    (hmoors : h.Moors pipe?) (hpipe : pipe? number = some pipe) :
    pipe.place < Hub.capacity :=
  hmoors.roomy.lt_capacity (hmoors.placed hpipe)

/-- A place has one holder. -/
theorem eq_of_place_eq
    (hmoors : h.Moors pipe?) (hpipe : pipe? number = some pipe)
    (hpipe' : pipe? number' = some pipe') (hhub : pipe.hub = pipe'.hub)
    (hplace : pipe.place = pipe'.place) :
    number = number' := by
  have hplaced := hmoors.placed hpipe
  rw [hhub, hplace, hmoors.placed hpipe'] at hplaced
  exact hmoors.alone _ _ _ _ hpipe hpipe' (Option.some.inj hplaced).symm

/-- What leaves the places alone and takes no pipe away. -/
theorem congr
    (hmoors : h.Moors pipe?) (hplaces : ∀ id, (h'.hub id).places = (h.hub id).places)
    (hpipes : h.kernel.pipes.size ≤ h'.kernel.pipes.size) :
    h'.Moors pipe? where
  roomy := hmoors.roomy.congr hplaces
  placed_iff id place fd := by
    rw [Host.placed_congr (hplaces id), hmoors.placed_iff]
  opened number pipe hpipe := by
    obtain ⟨n, hn, hends⟩ := hmoors.opened number pipe hpipe
    exact ⟨n, Nat.lt_of_lt_of_le hn hpipes, hends⟩
  alone := hmoors.alone

/-- The write end of a new pipe is no other's. -/
theorem writer_ne
    (hmoors : h.Moors pipe?) {id : Nat} (hberths : h.Berths id pipe h')
    (hpipe' : pipe? number' = some pipe') :
    pipe'.writer ≠ pipe.writer := by
  intro hsame
  obtain ⟨n, hn, -, hwriter⟩ := hmoors.opened number' pipe' hpipe'
  rw [hsame, hberths.writer, Kernel.writeEnd_inj] at hwriter
  exact Nat.ne_of_gt hn hwriter

/-- A new pipe takes the place that it has joined. -/
theorem berth
    (hmoors : h.Moors pipe?) {id : Nat} (hberths : h.Berths id pipe h')
    (hnew : pipe? number = none) :
    h'.Moors (Function.update pipe? number (some pipe)) := by
  refine ⟨hberths.roomy hmoors.roomy, fun i p fd => ?_, fun other pipe' hpipe' => ?_, ?_⟩
  · rw [hberths.placed hmoors.roomy]
    split
    next hown =>
        obtain ⟨rfl, rfl⟩ := hown
        constructor
        · intro hfd
          exact ⟨number, pipe, Function.update_self .., hberths.hub, rfl, Option.some.inj hfd⟩
        · rintro ⟨other, pipe', hpipe', hhub', hplace', rfl⟩
          by_cases hother : other = number
          · rw [hother, Function.update_self] at hpipe'
            cases hpipe'
            rfl
          · rw [Function.update_of_ne hother] at hpipe'
            have htaken := hmoors.placed hpipe'
            rw [hhub', hplace', hberths.vacant] at htaken
            cases htaken
    next hown =>
        rw [hmoors.placed_iff]
        refine exists_congr fun other => ?_
        by_cases hother : other = number
        · rw [hother, Function.update_self, hnew]
          constructor
          · rintro ⟨_, hnone, -⟩
            cases hnone
          · rintro ⟨_, hsome, rfl, rfl, -⟩
            cases hsome
            exact absurd ⟨hberths.hub, rfl⟩ hown
        · rw [Function.update_of_ne hother]
  · by_cases hother : other = number
    · rw [hother, Function.update_self] at hpipe'
      cases hpipe'
      exact ⟨_, hberths.opened, hberths.reader, hberths.writer⟩
    · rw [Function.update_of_ne hother] at hpipe'
      obtain ⟨n, hn, hends⟩ := hmoors.opened other pipe' hpipe'
      exact ⟨n, Nat.lt_trans hn hberths.opened, hends⟩
  · intro other other' pipe₁ pipe₂ hpipe₁ hpipe₂ hsame
    by_cases hother : other = number
    · rw [hother, Function.update_self] at hpipe₁
      cases hpipe₁
      by_cases hother' : other' = number
      · rw [hother, hother']
      · rw [Function.update_of_ne hother'] at hpipe₂
        exact absurd hsame.symm (hmoors.writer_ne hberths hpipe₂)
    · rw [Function.update_of_ne hother] at hpipe₁
      by_cases hother' : other' = number
      · rw [hother', Function.update_self] at hpipe₂
        cases hpipe₂
        exact absurd hsame (hmoors.writer_ne hberths hpipe₁)
      · rw [Function.update_of_ne hother'] at hpipe₂
        exact hmoors.alone other other' pipe₁ pipe₂ hpipe₁ hpipe₂ hsame

/-- A pipe that is given up vacates its place. -/
theorem vacate
    (hmoors : h.Moors pipe?) (hpipe : pipe? number = some pipe)
    (hhubs : h'.hubs = (h.seat pipe.hub pipe.place none).hubs)
    (hpipes : h.kernel.pipes.size ≤ h'.kernel.pipes.size) :
    h'.Moors (Function.update pipe? number none) := by
  have hhub := hub_congr hhubs
  have hkept : ∀ other pipe', Function.update pipe? number none other = some pipe' →
      other ≠ number ∧ pipe? other = some pipe' := by
    intro other pipe' hpipe'
    by_cases hother : other = number
    · rw [hother, Function.update_self] at hpipe'
      cases hpipe'
    · rw [Function.update_of_ne hother] at hpipe'
      exact ⟨hother, hpipe'⟩
  refine ⟨fun i => ?_, fun i p fd => ?_, fun other pipe' hpipe' => ?_, ?_⟩
  · rw [hhub]
    exact Host.roomy_seat hmoors.roomy _ _ _ i
  · rw [Host.placed_congr (congrArg Hub.places (hhub i)),
      Host.placed_seat hmoors.roomy (hmoors.lt_capacity hpipe)]
    split
    next hown =>
        refine ⟨nofun, ?_⟩
        rintro ⟨other, pipe', hpipe', hhub', hplace', -⟩
        obtain ⟨hother, hpipe'⟩ := hkept other pipe' hpipe'
        exact absurd (hmoors.eq_of_place_eq hpipe' hpipe (hhub'.trans hown.1)
          (hplace'.trans hown.2)) hother
    next hown =>
        rw [hmoors.placed_iff]
        refine exists_congr fun other => exists_congr fun pipe' => ?_
        constructor
        · rintro ⟨hpipe', rfl, rfl, hwriter⟩
          have hother : other ≠ number := by
            rintro rfl
            cases hpipe.symm.trans hpipe'
            exact hown ⟨rfl, rfl⟩
          exact ⟨(Function.update_of_ne hother ..).trans hpipe', rfl, rfl, hwriter⟩
        · rintro ⟨hpipe', hsame⟩
          exact ⟨(hkept other pipe' hpipe').2, hsame⟩
  · obtain ⟨n, hn, hends⟩ := hmoors.opened other pipe' (hkept other pipe' hpipe').2
    exact ⟨n, Nat.lt_of_lt_of_le hn hpipes, hends⟩
  · intro other other' pipe₁ pipe₂ hpipe₁ hpipe₂ hsame
    exact hmoors.alone other other' pipe₁ pipe₂ (hkept _ _ hpipe₁).2 (hkept _ _ hpipe₂).2 hsame

end Host.Moors

/-- Requests and the dispatcher leave places and pipes where they are. -/
theorem Machine.SignalChange.places
    {m m' : Machine H} {act : Act H} (h : SignalChange m act m') (hact : act ≠ .world) :
    (∀ id, (m'.host.hub id).places = (m.host.hub id).places) ∧
      m.host.kernel.pipes.size ≤ m'.host.kernel.pipes.size := by
  have hacquire : ∀ {id signo answer host}, m.host.acquire id signo = (answer, host) →
      (∀ i, (host.hub i).places = (m.host.hub i).places) ∧
        m.host.kernel.pipes.size ≤ host.kernel.pipes.size := by
    intro id signo answer host hacquire
    have hplaces := m.host.places_acquire id signo
    have hpipes := m.host.pipes_acquire id signo
    rw [hacquire] at hplaces hpipes
    exact ⟨hplaces, Nat.le_of_eq (congrArg Array.size hpipes.symm)⟩
  cases h with
  | still _ _ haloof =>
      exact ⟨fun id => congrArg Hub.places (Host.hub_congr haloof.host.hubs id),
        haloof.host.kernel.pipes⟩
  | registered _ hgranted =>
      exact hacquire hgranted
  | refused hrefused =>
      exact hacquire hrefused
  | removed _ _ hrelease =>
      have hsheds := Host.sheds_release hrelease
      exact ⟨hsheds.places, Nat.le_of_eq (congrArg Array.size hsheds.pipes.symm)⟩
  | world =>
      exact absurd rfl hact

namespace Fleet

variable {F F' : Fleet H} {act : FleetAct H} {log : List (FleetAct H)} {number : Nat}
  {v : Vessel H} {pipe : SelfPipe} {host : Host} {loop : Loop H}

/-- The pipe of the live loop with a number. -/
def pipe? (F : Fleet H) (number : Nat) : Option SelfPipe :=
  (F.vessel? number).bind (·.loop.pipe)

theorem pipe?_eq_some_iff :
    F.pipe? number = some pipe ↔ ∃ v, F.vessel? number = some v ∧ v.loop.pipe = some pipe :=
  Option.bind_eq_some_iff

theorem pipe?_launch
    (F : Fleet H) (host : Host) (loop : Loop H) :
    (F.launch host loop).pipe? = Function.update F.pipe? F.loops.length loop.pipe := by
  funext other
  rw [Function.update_apply]
  unfold pipe?
  rw [vessel?_launch]
  split <;> rfl

theorem pipe?_update
    (hv : F.vessel? number = some v) (host : Host) (v? : Option (Vessel H)) :
    (F.update host number v?).pipe? =
      Function.update F.pipe? number (v?.bind (·.loop.pipe)) := by
  funext other
  rw [Function.update_apply]
  unfold pipe?
  rw [vessel?_update hv]
  split <;> rfl

/-- What every run keeps of pipes and places. -/
structure Moored (F : Fleet H) : Prop where
  moors : F.host.Moors F.pipe?
  hub : ∀ number v pipe, F.vessel? number = some v → v.loop.pipe = some pipe →
    pipe.hub = v.loop.hub

theorem Fresh.moored
    (hfresh : F.Fresh) :
    F.Moored := by
  have hnone : ∀ number, F.pipe? number = none := by
    intro number
    rw [pipe?, hfresh.vessel?]
    rfl
  refine ⟨⟨hfresh.host.roomy, fun id place fd => ?_, fun number pipe hpipe => ?_, ?_⟩, ?_⟩
  · rw [hfresh.host.placed]
    constructor
    · nofun
    · rintro ⟨number, pipe, hpipe, -⟩
      rw [hnone] at hpipe
      cases hpipe
  · rw [hnone] at hpipe
    cases hpipe
  · intro number number' pipe pipe' hpipe
    rw [hnone] at hpipe
    cases hpipe
  · intro number v pipe hv
    rw [hfresh.vessel?] at hv
    cases hv

theorem Moored.launch
    (h : F.Moored) {o : LoopOptions} (hcomes : o.Comes F.host (.ok loop, host)) :
    (F.launch host loop).Moored := by
  have hvacant : F.pipe? F.loops.length = none := by
    rw [pipe?, vessel?_length]
    rfl
  refine ⟨?_, fun other v pipe hv hpipe => ?_⟩
  · rw [pipe?_launch]
    cases hcomes with
    | plain _ _ _ hpipe habides =>
        rw [hpipe, Function.update_eq_self_iff.2 hvacant.symm]
        exact h.moors.congr
          (fun id => congrArg Hub.places (Host.hub_congr habides.hubs id)) habides.pipes
    | berthed _ _ _ hpipe hberths =>
        rw [hpipe]
        exact h.moors.berth hberths hvacant
  · rw [vessel?_launch] at hv
    split at hv
    next =>
        cases hv
        cases hcomes with
        | plain _ _ _ hnone _ =>
            cases hnone.symm.trans hpipe
        | berthed _ hhub _ hsome hberths =>
            cases hsome.symm.trans hpipe
            exact hberths.hub.trans hhub.symm
    next =>
        exact h.hub other v pipe hv hpipe

/-- A change of one loop that leaves its pipe alone. -/
theorem Moored.update
    (h : F.Moored) (hv : F.vessel? number = some v) {v' : Vessel H}
    (hhub : v'.loop.hub = v.loop.hub) (hpipe : v'.loop.pipe = v.loop.pipe)
    (hplaces : ∀ id, (host.hub id).places = (F.host.hub id).places)
    (hpipes : F.host.kernel.pipes.size ≤ host.kernel.pipes.size) :
    (F.update host number (some v')).Moored := by
  refine ⟨?_, fun other v₁ pipe hv₁ hpipe₁ => ?_⟩
  · have hsame : F.pipe? number = v.loop.pipe := by
      rw [Fleet.pipe?, hv]
      rfl
    rw [pipe?_update hv, Option.bind_some, hpipe, Function.update_eq_self_iff.2 hsame.symm]
    exact h.moors.congr hplaces hpipes
  · rw [vessel?_update hv] at hv₁
    split at hv₁
    next =>
        cases hv₁
        rw [hhub]
        exact h.hub number v pipe hv (hpipe.symm.trans hpipe₁)
    next =>
        exact h.hub other v₁ pipe hv₁ hpipe₁

theorem Moored.place_lt
    (h : F.Moored) (hv : F.vessel? number = some v) {pipe : SelfPipe}
    (hpipe : v.loop.pipe = some pipe) :
    pipe.place < Hub.capacity :=
  h.moors.lt_capacity (pipe?_eq_some_iff.2 ⟨v, hv, hpipe⟩)

theorem Moored.drop
    (h : F.Moored) (hv : F.vessel? number = some v) {passed : List Host}
    (hdrop : v.loop.drop F.host = .ok (passed, host)) :
    (F.update host number none).Moored := by
  refine ⟨?_, fun other v' pipe hv' => ?_⟩
  · rw [pipe?_update hv]
    have hsame : F.pipe? number = v.loop.pipe := by
      rw [Fleet.pipe?, hv]
      rfl
    cases hpipe : v.loop.pipe with
    | none =>
        have hsheds := Loop.sheds_drop hpipe hdrop
        rw [Function.update_eq_self_iff.2 (hsame.trans hpipe).symm]
        exact h.moors.congr hsheds.places (Nat.le_of_eq (congrArg Array.size hsheds.pipes).symm)
    | some pipe =>
        have hplace := h.place_lt hv hpipe
        obtain ⟨-, before, hsheds, rfl⟩ := Loop.departs_drop h.moors.roomy hplace hpipe hdrop
        have hbefore : before.Moors F.pipe? :=
          h.moors.congr hsheds.places (Nat.le_of_eq (congrArg Array.size hsheds.pipes).symm)
        exact hbefore.vacate (hsame.trans hpipe) rfl (Nat.le_refl _)
  · rw [vessel?_update hv] at hv'
    split at hv'
    next =>
        cases hv'
    next =>
        exact h.hub other v' pipe hv'

/-- A move keeps pipes and places in order. -/
theorem Moored.move
    (h : F.Moored) (hmove : Move F act F') :
    F'.Moored := by
  cases hmove with
  | build hbuild =>
      exact h.launch (LoopOptions.comes_of_build h.moors.roomy hbuild)
  | refuse hbuild =>
      cases LoopOptions.comes_of_build h.moors.roomy hbuild with
      | refused hundone _ =>
          exact ⟨h.moors.congr (fun id => congrArg Hub.places (hundone.hub id))
            hundone.kernel.size, h.hub⟩
  | drop hv _ hdrop =>
      exact h.drop hv hdrop
  | move hv hact hmove =>
      have hchange := Machine.signalChange_of_move hmove
      obtain ⟨hplaces, hpipes⟩ := hchange.places hact
      exact h.update hv hchange.hub hchange.pipe hplaces hpipes
  | world habides =>
      exact ⟨h.moors.congr (fun id => congrArg Hub.places (Host.hub_congr habides.hubs id))
        habides.pipes, h.hub⟩

theorem Run.moored
    (hrun : Run F log F') (h : F.Moored) :
    F'.Moored :=
  hrun.induction (P := Moored) (fun h hmove => h.move hmove) h

/-- The live loops on a hub that receive signals. -/
def primaries (F : Fleet H) (id : Nat) : List Nat :=
  (List.range F.loops.length).filter fun number =>
    (F.vessel? number).any fun v => v.loop.isPrimary && v.loop.hub == id

theorem mem_primaries_iff
    {id : Nat} :
    number ∈ F.primaries id ↔ ∃ v pipe, F.vessel? number = some v ∧ v.loop.hub = id ∧
      v.loop.pipe = some pipe := by
  unfold primaries
  rw [List.mem_filter, List.mem_range, Option.any_eq_true]
  simp only [Bool.and_eq_true, beq_iff_eq, Loop.isPrimary, Option.isSome_iff_exists]
  constructor
  · rintro ⟨-, v, hv, ⟨pipe, hpipe⟩, hhub⟩
    exact ⟨v, pipe, hv, hhub, hpipe⟩
  · rintro ⟨v, pipe, hv, hhub, hpipe⟩
    exact ⟨lt_length_of_vessel? hv, v, hv, ⟨pipe, hpipe⟩, hhub⟩

/-- The place that a loop has in its hub. -/
def place (F : Fleet H) (number : Nat) : Nat :=
  ((F.pipe? number).map (·.place)).getD 0

theorem place_eq
    (hpipe : F.pipe? number = some pipe) :
    F.place number = pipe.place := by
  rw [place, hpipe]
  rfl

theorem Moored.exists_pipe_of_mem
    (h : F.Moored) {id : Nat} (hmem : number ∈ F.primaries id) :
    ∃ pipe, F.pipe? number = some pipe ∧ pipe.hub = id := by
  obtain ⟨v, pipe, hv, hhub, hpipe⟩ := mem_primaries_iff.1 hmem
  exact ⟨pipe, pipe?_eq_some_iff.2 ⟨v, hv, hpipe⟩, (h.hub number v pipe hv hpipe).trans hhub⟩

/-- The loops on a hub have different places. -/
theorem Moored.nodup_places
    (h : F.Moored) (id : Nat) :
    ((F.primaries id).map F.place).Nodup := by
  refine List.Nodup.map_on ?_ (List.nodup_range.filter _)
  intro number hnumber number' hnumber' hsame
  obtain ⟨pipe, hpipe, hhub⟩ := h.exists_pipe_of_mem hnumber
  obtain ⟨pipe', hpipe', hhub'⟩ := h.exists_pipe_of_mem hnumber'
  rw [place_eq hpipe, place_eq hpipe'] at hsame
  exact h.moors.eq_of_place_eq hpipe hpipe' (hhub.trans hhub'.symm) hsame

theorem Moored.places_subset
    (h : F.Moored) (id : Nat) :
    (F.primaries id).map F.place ⊆ List.range Hub.capacity := by
  intro p hp
  obtain ⟨number, hmem, rfl⟩ := List.mem_map.1 hp
  obtain ⟨pipe, hpipe, -⟩ := h.exists_pipe_of_mem hmem
  rw [List.mem_range, place_eq hpipe]
  exact h.moors.lt_capacity hpipe

theorem Moored.length_primaries_le
    (h : F.Moored) (id : Nat) :
    (F.primaries id).length ≤ Hub.capacity := by
  have hle := ((h.nodup_places id).subperm (h.places_subset id)).length_le
  rwa [List.length_map, List.length_range] at hle

/-- The holders of the places of a full hub are as many as there are places. -/
theorem Moored.length_primaries
    (h : F.Moored) {id : Nat} (hfilled : F.host.Filled id) :
    (F.primaries id).length = Hub.capacity := by
  refine Nat.le_antisymm (h.length_primaries_le id) ?_
  have hsubset : List.range Hub.capacity ⊆ (F.primaries id).map F.place := by
    intro p hp
    obtain ⟨fd, hfd⟩ := hfilled p (List.mem_range.1 hp)
    obtain ⟨number, pipe, hpipe, hhub, hplace, -⟩ := (h.moors.placed_iff id p fd).1 hfd
    obtain ⟨v, hv, hvpipe⟩ := pipe?_eq_some_iff.1 hpipe
    refine List.mem_map.2 ⟨number, mem_primaries_iff.2 ⟨v, pipe, hv, ?_, hvpipe⟩,
      (place_eq hpipe).trans hplace⟩
    exact (h.hub number v pipe hv hvpipe).symm.trans hhub
  have hle := (List.nodup_range.subperm hsubset).length_le
  rwa [List.length_map, List.length_range] at hle

/-- The places are those of the live loops that receive signals. -/
structure Berthed (F : Fleet H) : Prop where
  placed_iff : ∀ id place fd, F.host.placed id place = some fd ↔
    ∃ number v pipe, F.vessel? number = some v ∧ v.loop.hub = id ∧ v.loop.pipe = some pipe ∧
      pipe.place = place ∧ pipe.writer = fd
  /-- A write end stands in one place only. -/
  once : ∀ id id' place place' fd, F.host.placed id place = some fd →
    F.host.placed id' place' = some fd → id = id' ∧ place = place'
  bounded : ∀ id, (F.primaries id).length ≤ 64

/-- What building and dropping loops takes and gives back. -/
structure Scrupulous (F : Fleet H) : Prop where
  /-- A refused build leaves nothing behind. -/
  refusals : ∀ options refusal F', Move F (.built options (.error refusal)) F' →
    F'.loops = F.loops ∧ F.host.Undone F'.host
  /-- A hub refuses a loop only if it has no place left. -/
  crowded : ∀ options limit F', Move F (.built options (.error (.tooManyLoops limit))) F' →
    limit = 64 ∧ (F.primaries options.hub).length = 64
  /-- A loop that receives signals vacates its own place before its pipe is closed. -/
  departures : ∀ number v pipe F', F.vessel? number = some v → v.loop.pipe = some pipe →
    Move F (.dropped number) F' →
      pipe.hub = v.loop.hub ∧ ∃ passed, v.loop.drop F.host = .ok (passed, F'.host) ∧
        F.host.Departs pipe passed F'.host
  /-- Any other loop has no place. -/
  removals : ∀ number v F', F.vessel? number = some v → v.loop.pipe = none →
    Move F (.dropped number) F' → F.host.Sheds F'.host
  /-- No drop ends the program for the sake of a place. -/
  stuck : ∀ number v crash, F.vessel? number = some v → v.loop.drop F.host = .error crash →
    ∃ signo cause, crash.panic = .dispositionStuck signo cause

theorem Moored.berthed
    (h : F.Moored) :
    F.Berthed := by
  refine ⟨fun id place fd => ?_, fun id id' place place' fd hfd hfd' => ?_,
    h.length_primaries_le⟩
  · rw [h.moors.placed_iff]
    constructor
    · rintro ⟨number, pipe, hpipe, rfl, hsame⟩
      obtain ⟨v, hv, hpipe⟩ := pipe?_eq_some_iff.1 hpipe
      exact ⟨number, v, pipe, hv, (h.hub number v pipe hv hpipe).symm, hpipe, hsame⟩
    · rintro ⟨number, v, pipe, hv, rfl, hpipe, hsame⟩
      exact ⟨number, pipe, pipe?_eq_some_iff.2 ⟨v, hv, hpipe⟩, h.hub number v pipe hv hpipe, hsame⟩
  · obtain ⟨number, pipe, hpipe, rfl, rfl, rfl⟩ := (h.moors.placed_iff id place fd).1 hfd
    obtain ⟨number', pipe', hpipe', rfl, rfl, hsame⟩ :=
      (h.moors.placed_iff id' place' pipe.writer).1 hfd'
    cases h.moors.alone _ _ _ _ hpipe hpipe' hsame.symm
    cases hpipe.symm.trans hpipe'
    exact ⟨rfl, rfl⟩

theorem Moored.scrupulous
    (h : F.Moored) :
    F.Scrupulous where
  refusals options refusal F' hmove := by
    cases hmove with
    | refuse hbuild =>
        cases LoopOptions.comes_of_build h.moors.roomy hbuild with
        | refused hundone _ =>
            exact ⟨rfl, hundone⟩
  crowded options limit F' hmove := by
    cases hmove with
    | refuse hbuild =>
        cases LoopOptions.comes_of_build h.moors.roomy hbuild with
        | refused _ hfilled =>
            obtain ⟨hlimit, hfilled⟩ := hfilled limit rfl
            exact ⟨hlimit, h.length_primaries hfilled⟩
  departures number v pipe F' hv hpipe hmove := by
    cases hmove with
    | drop hv' _ hdrop =>
        cases hv.symm.trans hv'
        have hdeparts := Loop.departs_drop h.moors.roomy (h.place_lt hv hpipe) hpipe hdrop
        exact ⟨h.hub number v pipe hv hpipe, _, hdrop, hdeparts.1⟩
  removals number v F' hv hpipe hmove := by
    cases hmove with
    | drop hv' _ hdrop =>
        cases hv.symm.trans hv'
        exact Loop.sheds_drop hpipe hdrop
  stuck number v crash hv hdrop :=
    Loop.panic_of_drop (fun _ hpipe => h.place_lt hv hpipe) hdrop

/-- However loops are built and dropped, and whatever is refused in between, the places of
the hubs are those of the live loops. -/
theorem building_is_all_or_nothing
    (hfresh : F.Fresh) (hrun : Run F log F') :
    F'.Berthed ∧ F'.Scrupulous := by
  have hmoored := hrun.moored hfresh.moored
  exact ⟨hmoored.berthed, hmoored.scrupulous⟩

/-- The kernel has no more epoll instances, no more pipes and a mode that it does not change,
each of them once.  Later a descriptor is too large for its backend. -/
def besetLog : List (FleetAct Nat) :=
  [.built { primary := true } (.error (.host (.call ⟨24⟩))),
    .built { primary := true } (.error (.host (.call ⟨24⟩))),
    .built { primary := true } (.error (.host (.call .invalidArgument))),
    .built { primary := true } (.ok 0),
    .built { primary := true, backend := .select } (.error (.fdOutOfRange 1024 1024)),
    .built { primary := true, hub := 1 } (.ok 1),
    .built {} (.ok 2),
    .dropped 0,
    .built { primary := true } (.ok 3)]

theorem building_is_all_or_nothing_besetLog :
    ∃ F F' : Fleet Nat, F.Fresh ∧ Run F besetLog F' ∧ F'.Berthed ∧ F'.Scrupulous ∧
      F'.primaries 0 = [3] ∧ F'.host.placed 0 0 = some 1029 ∧ F'.host.placed 0 1 = none ∧
      F'.host.placed 1 0 = some 1027 := by
  let faults : List Fault :=
    [{ name := .epollCreate, errno := ⟨24⟩ }, { name := .pipe, errno := ⟨24⟩ },
      { name := .setDescriptorFlags, errno := .invalidArgument, skip := 1 }]
  let start : Fleet Nat := ⟨{ kernel := { pipes := Array.replicate 60 [], faults } }, []⟩
  have hfresh : start.Fresh := ⟨⟨rfl, rfl, rfl⟩, rfl⟩
  obtain ⟨log, F', hrun, hview⟩ := composes_run.exists_run (s := start)
    (fun (log, F) => (log, F.primaries 0, F.host.placed 0 0, F.host.placed 0 1, F.host.placed 1 0))
    (v := (besetLog, [3], some 1029, none, some 1027))
    [.build { primary := true }, .build { primary := true }, .build { primary := true },
      .build { primary := true }, .build { primary := true, backend := .select },
      .build { primary := true, hub := 1 }, .build {}, .drop 0, .build { primary := true }]
    (by decide +kernel)
  simp only [Prod.mk.injEq] at hview
  obtain ⟨rfl, hview⟩ := hview
  obtain ⟨hberthed, hscrupulous⟩ := building_is_all_or_nothing hfresh hrun
  exact ⟨start, F', hfresh, hrun, hberthed, hscrupulous, hview⟩

end Fleet
end CallbackLoop
