import CallbackLoop.Proofs.Fleet.Moves
import CallbackLoop.Proofs.Signal.Keys
import Mathlib.Data.List.Chain

/-!
# Dropping a loop

Dropping a loop gives back what it holds, one thing after the other.  `Host.Passage` says
how one host that is passed on the way differs from the next one, and `Host.Departs` says of
all of them that no descriptor is closed as long as the place of the loop is held.
-/

namespace CallbackLoop

variable {H : Type}

namespace Kernel

theorem contains_closed_close
    (k : Kernel) (fd : Int) :
    (k.close fd).closed.contains fd = true := by
  simp [close]

theorem contains_closed_close_of_contains
    {k : Kernel} {fd : Int} (h : k.closed.contains fd = true) (other : Int) :
    (k.close other).closed.contains fd = true := by
  rw [close, Std.TreeSet.contains_insert, h, Bool.or_true]

end Kernel

namespace Backend

theorem pipes_release
    (b : Backend) (k : Kernel) :
    (b.release k).pipes = k.pipes := by
  cases b <;> rfl

theorem closed_release
    (b : Backend) (k : Kernel) :
    (b.release k).closed = k.closed := by
  cases b <;> rfl

theorem caught_release
    (b : Backend) (k : Kernel) :
    (b.release k).caught = k.caught := by
  cases b <;> rfl

theorem epollsCreated_release
    (b : Backend) (k : Kernel) :
    (b.release k).epollsCreated = k.epollsCreated := by
  cases b <;> rfl

end Backend

namespace Host

variable {h h₁ h' : Host} {a : Holding} {given rest holdings : List Holding}
  {passed : List Host} {crash : Crash}

theorem giveBackAll_cons_ok
    (hgive : h.giveBackAll (a :: rest) = .ok (passed, h')) :
    ∃ h₁ passed', h.giveBack a = .ok h₁ ∧ h₁.giveBackAll rest = .ok (passed', h') ∧
      passed = h :: passed' := by
  obtain ⟨h₁, hfirst, hgive⟩ := Except.bind_eq_ok_iff.1 hgive
  obtain ⟨⟨passed', _⟩, hrest, hgive⟩ := Except.bind_eq_ok_iff.1 hgive
  cases hgive
  exact ⟨h₁, passed', hfirst, hrest, rfl⟩

theorem giveBackAll_cons_error
    (hgive : h.giveBackAll (a :: rest) = .error crash) :
    h.giveBack a = .error crash ∨ ∃ h₁, Host.giveBackAll h₁ rest = .error crash := by
  rcases Except.bind_eq_error hgive with hfirst | ⟨h₁, -, hgive⟩
  · exact .inl hfirst
  · rcases Except.bind_eq_error hgive with hrest | ⟨_, -, hgive⟩
    · exact .inr ⟨h₁, hrest⟩
    · cases hgive

theorem giveBackAll_append
    (h : Host) (given rest : List Holding) :
    h.giveBackAll (given ++ rest) = (do
      let (early, h₁) ← h.giveBackAll given
      let (late, h') ← h₁.giveBackAll rest
      return (early ++ late, h')) := by
  induction given generalizing h with
  | nil =>
      simp [giveBackAll]
  | cons a given ih =>
      simp [giveBackAll, ih]

theorem giveBackAll_append_ok
    (hgive : h.giveBackAll (given ++ rest) = .ok (passed, h')) :
    ∃ early h₁ late, h.giveBackAll given = .ok (early, h₁) ∧
      h₁.giveBackAll rest = .ok (late, h') ∧ passed = early ++ late := by
  rw [giveBackAll_append] at hgive
  obtain ⟨⟨early, h₁⟩, hfirst, hgive⟩ := Except.bind_eq_ok_iff.1 hgive
  obtain ⟨⟨late, _⟩, hrest, hgive⟩ := Except.bind_eq_ok_iff.1 hgive
  cases hgive
  exact ⟨early, h₁, late, hfirst, hrest, rfl⟩

theorem giveBackAll_append_error
    (hgive : h.giveBackAll (given ++ rest) = .error crash) :
    h.giveBackAll given = .error crash ∨ ∃ h₁, Host.giveBackAll h₁ rest = .error crash := by
  rw [giveBackAll_append] at hgive
  rcases Except.bind_eq_error hgive with hfirst | ⟨result, -, hgive⟩
  · exact .inl hfirst
  · rcases Except.bind_eq_error hgive with hrest | ⟨_, -, hgive⟩
    · exact .inr ⟨result.2, hrest⟩
    · cases hgive

/-- One step does not both vacate a place and close a descriptor. -/
def Apart (h h' : Host) : Prop :=
  (∀ id, (h'.hub id).places = (h.hub id).places) ∨ h'.kernel.closed = h.kernel.closed

/-- The hosts that are passed from one to another, step by step. -/
structure Passage (h : Host) (passed : List Host) (h' : Host) : Prop where
  first : (passed ++ [h']).head? = some h
  steps : (passed ++ [h']).IsChain Apart

theorem apart_giveBack
    (hgive : h.giveBack a = .ok h') :
    h.Apart h' := by
  cases a with
  | signal id signo =>
      exact .inl (places_release hgive)
  | backend b | descriptor fd =>
      cases hgive
      exact .inl fun _ => rfl
  | place id place =>
      obtain ⟨-, rfl⟩ := leave_ok hgive
      exact .inr rfl

theorem passage_giveBackAll
    (hgive : h.giveBackAll holdings = .ok (passed, h')) :
    h.Passage passed h' := by
  induction holdings generalizing h passed with
  | nil =>
      cases hgive
      exact ⟨rfl, .singleton _⟩
  | cons a rest ih =>
      obtain ⟨h₁, passed', hfirst, hrest, rfl⟩ := giveBackAll_cons_ok hgive
      have hpassage := ih hrest
      refine ⟨rfl, hpassage.steps.cons fun h₂ hnext => ?_⟩
      rw [hpassage.first] at hnext
      cases hnext
      exact apart_giveBack hfirst

/-- No place changes hands, and no descriptor is opened or closed. -/
structure Sheds (h h' : Host) : Prop where
  places : ∀ id, (h'.hub id).places = (h.hub id).places
  pipes : h'.kernel.pipes = h.kernel.pipes
  closed : h'.kernel.closed = h.kernel.closed

theorem Sheds.refl
    (h : Host) :
    h.Sheds h :=
  ⟨fun _ => rfl, rfl, rfl⟩

theorem Sheds.trans
    (hsheds : h.Sheds h₁) (hsheds' : h₁.Sheds h') :
    h.Sheds h' :=
  ⟨fun id => (hsheds'.places id).trans (hsheds.places id), hsheds'.pipes.trans hsheds.pipes,
    hsheds'.closed.trans hsheds.closed⟩

theorem sheds_release
    {id : Nat} {signo : Int} (hrelease : h.release id signo = .ok h') :
    h.Sheds h' :=
  ⟨places_release hrelease, pipes_release hrelease, closed_release hrelease⟩

end Host

/-- Signals and backends, which are no matter of places and descriptors. -/
def Holding.isAside : Holding → Bool
  | signal _ _ => true
  | backend _ => true
  | place _ _ => false
  | descriptor _ => false

namespace Host

variable {h h₁ h' : Host} {a : Holding} {given : List Holding} {passed : List Host}
  {pipe : SelfPipe}

theorem sheds_giveBack
    (haside : a.isAside = true) (hgive : h.giveBack a = .ok h') :
    h.Sheds h' := by
  cases a with
  | signal id signo =>
      exact sheds_release hgive
  | backend b =>
      cases hgive
      exact ⟨fun _ => rfl, b.pipes_release _, b.closed_release _⟩
  | place | descriptor =>
      cases haside

theorem sheds_giveBackAll
    (haside : ∀ a ∈ given, a.isAside = true) (hgive : h.giveBackAll given = .ok (passed, h')) :
    (∀ h₁ ∈ passed, h.Sheds h₁) ∧ h.Sheds h' := by
  induction given generalizing h passed with
  | nil =>
      cases hgive
      exact ⟨nofun, .refl _⟩
  | cons a given ih =>
      rw [List.forall_mem_cons] at haside
      obtain ⟨h₁, passed', hfirst, hrest, rfl⟩ := giveBackAll_cons_ok hgive
      have hsheds := sheds_giveBack haside.1 hfirst
      obtain ⟨hpassed, hlast⟩ := ih haside.2 hrest
      refine ⟨?_, hsheds.trans hlast⟩
      rw [List.forall_mem_cons]
      exact ⟨.refl h, fun h₂ hmem => hsheds.trans (hpassed h₂ hmem)⟩

/-- The host without a pipe: its place is vacant and its ends are closed. -/
def unmoor (h : Host) (pipe : SelfPipe) : Host :=
  { h.seat pipe.hub pipe.place none with
    kernel := (h.kernel.close pipe.reader).close pipe.writer }

/-- The place of a pipe is vacated first, and then its ends are closed. -/
theorem giveBackAll_pipe
    (hplace : pipe.place < Hub.capacity) (h : Host) :
    h.giveBackAll pipe.holdings = .ok
      ([h, h.seat pipe.hub pipe.place none,
          { h.seat pipe.hub pipe.place none with kernel := h.kernel.close pipe.reader }],
        h.unmoor pipe) := by
  rw [SelfPipe.holdings, giveBackAll, giveBack, leave_eq hplace]
  rfl

theorem contains_closed_unmoor
    (h : Host) (pipe : SelfPipe) :
    (h.unmoor pipe).kernel.closed.contains pipe.reader = true ∧
      (h.unmoor pipe).kernel.closed.contains pipe.writer = true :=
  ⟨Kernel.contains_closed_close_of_contains (Kernel.contains_closed_close _ _) _,
    Kernel.contains_closed_close _ _⟩

/-- The place of a pipe is vacated before any descriptor is closed, and then both ends are
closed.  Other places do not change hands on the way. -/
structure Departs (h : Host) (pipe : SelfPipe) (passed : List Host) (h' : Host) :
    Prop where
  passage : h.Passage passed h'
  unclosed : ∀ h₁ ∈ passed, h₁.placed pipe.hub pipe.place ≠ none →
    h₁.kernel.closed = h.kernel.closed
  others : ∀ h₁ ∈ passed ++ [h'], ∀ id place, ¬(id = pipe.hub ∧ place = pipe.place) →
    h₁.placed id place = h.placed id place
  vacated : h'.placed pipe.hub pipe.place = none
  closed : h'.kernel.closed.contains pipe.reader = true ∧
    h'.kernel.closed.contains pipe.writer = true

/-- Once the place of a pipe has been vacated it stays vacant. -/
theorem placed_of_giveBackAll_pipe
    (hroomy : h.Roomy) (hplace : pipe.place < Hub.capacity)
    (hgive : h.giveBackAll pipe.holdings = .ok (passed, h')) :
    ∀ h₁ ∈ passed ++ [h'], h₁ = h ∨ ∀ id place, h₁.placed id place =
      if id = pipe.hub ∧ place = pipe.place then none else h.placed id place := by
  rw [giveBackAll_pipe hplace] at hgive
  cases hgive
  have hvacated : ∀ h₁ : Host, h₁.hubs = (h.seat pipe.hub pipe.place none).hubs →
      ∀ id place, h₁.placed id place =
        if id = pipe.hub ∧ place = pipe.place then none else h.placed id place := by
    intro h₁ hhubs id place
    rw [placed_congr (congrArg Hub.places (hub_congr hhubs id)), placed_seat hroomy hplace]
  intro h₁ hmem
  rcases List.mem_cons.1 hmem with rfl | hmem
  · exact .inl rfl
  · refine .inr (hvacated h₁ ?_)
    rcases List.mem_cons.1 hmem with rfl | hmem
    · rfl
    rcases List.mem_cons.1 hmem with rfl | hmem
    · rfl
    rw [List.mem_singleton.1 hmem]
    rfl

/-- A pipe that is given back after signals and a backend departs. -/
theorem departs_giveBackAll
    (hroomy : h.Roomy) (hplace : pipe.place < Hub.capacity)
    (haside : ∀ a ∈ given, a.isAside = true)
    (hgive : h.giveBackAll (given ++ pipe.holdings) = .ok (passed, h')) :
    h.Departs pipe passed h' ∧ ∃ h₁, h.Sheds h₁ ∧ h' = h₁.unmoor pipe := by
  have hpassage := passage_giveBackAll hgive
  obtain ⟨early, h₁, late, hfirst, hrest, rfl⟩ := giveBackAll_append_ok hgive
  obtain ⟨hearly, hsheds⟩ := sheds_giveBackAll haside hfirst
  have hlate := placed_of_giveBackAll_pipe (hroomy.congr hsheds.places) hplace hrest
  obtain rfl : h' = h₁.unmoor pipe := by
    rw [giveBackAll_pipe hplace] at hrest
    cases hrest
    rfl
  -- Every host on the way either has the place still, or has it no more.
  have hpassed : ∀ h₂ ∈ early ++ late ++ [h₁.unmoor pipe], h.Sheds h₂ ∨ ∀ id place,
      h₂.placed id place =
        if id = pipe.hub ∧ place = pipe.place then none else h₁.placed id place := by
    intro h₂ hmem
    rw [List.append_assoc] at hmem
    rcases List.mem_append.1 hmem with hmem | hmem
    · exact .inl (hearly h₂ hmem)
    · rcases hlate h₂ hmem with rfl | hplaced
      · exact .inl hsheds
      · exact .inr hplaced
  have hvacated : (h₁.unmoor pipe).placed pipe.hub pipe.place = none := by
    refine (placed_seat (hroomy.congr hsheds.places) hplace none _ _).trans ?_
    exact if_pos ⟨rfl, rfl⟩
  refine ⟨⟨hpassage, fun h₂ hmem hheld => ?_, fun h₂ hmem id place hother => ?_, hvacated,
    contains_closed_unmoor h₁ pipe⟩, h₁, hsheds, rfl⟩
  · rcases hpassed h₂ (List.mem_append_left _ hmem) with hsame | hplaced
    · exact hsame.closed
    · exact absurd ((hplaced _ _).trans (if_pos ⟨rfl, rfl⟩)) hheld
  · rcases hpassed h₂ hmem with hsame | hplaced
    · exact placed_congr (hsame.places id) place
    · rw [hplaced, if_neg hother]
      exact placed_congr (hsheds.places id) place

/-- What is left in the end, without the hosts on the way. -/
theorem snd_giveBackAll
    (h : Host) (holdings : List Holding) :
    Prod.snd <$> h.giveBackAll holdings = holdings.foldlM giveBack h := by
  induction holdings generalizing h with
  | nil =>
      rfl
  | cons a rest ih =>
      simp [giveBackAll, List.foldlM_cons, ← ih]

/-- Signals are given back by releasing them. -/
theorem foldlM_release
    (h : Host) (id : Nat) (signos : List Int) :
    signos.foldlM (fun h signo => h.release id signo) h =
      Prod.snd <$> h.giveBackAll (signos.map (.signal id)) := by
  rw [snd_giveBackAll, List.foldlM_map]
  rfl

theorem panic_of_releases
    {id : Nat} {signos : List Int} {crash : Crash}
    (hreleases : h.giveBackAll (signos.map (.signal id)) = .error crash) :
    ∃ signo cause, crash.panic = .dispositionStuck signo cause := by
  induction signos generalizing h with
  | nil =>
      cases hreleases
  | cons signo signos ih =>
      rcases giveBackAll_cons_error hreleases with hrelease | ⟨h₁, hrest⟩
      · have hreleased := h.released_release id signo
        rw [show h.release id signo = .error crash from hrelease] at hreleased
        cases hreleased
        exact ⟨_, _, rfl⟩
      · exact ih hrest

end Host

namespace Loop

variable {l : Loop H} {h h' : Host} {passed : List Host} {crash : Crash}

theorem discard_of_pipe_eq_none
    (hpipe : l.pipe = none) (h : Host) :
    ∃ passed, l.discard h = .ok (passed, { h with kernel := l.backend.release h.kernel }) := by
  rw [discard, resources, hpipe]
  exact ⟨_, rfl⟩

theorem discard_of_pipe_eq_some
    {pipe : SelfPipe} (hpipe : l.pipe = some pipe) (hplace : pipe.place < Hub.capacity) (h : Host) :
    ∃ passed, l.discard h =
      .ok (passed, Host.unmoor { h with kernel := l.backend.release h.kernel } pipe) := by
  rw [discard, resources, hpipe, Host.giveBackAll]
  show ∃ passed, (Host.giveBackAll _ pipe.holdings >>= _ : Except Crash _) = .ok (passed, _)
  rw [Host.giveBackAll_pipe hplace]
  exact ⟨_, rfl⟩

theorem eq_unmoor_of_discard
    {pipe : SelfPipe} (hdiscard : l.discard h = .ok (passed, h')) (hpipe : l.pipe = some pipe)
    (hplace : pipe.place < Hub.capacity) :
    h' = Host.unmoor { h with kernel := l.backend.release h.kernel } pipe := by
  obtain ⟨_, hgranted⟩ := discard_of_pipe_eq_some hpipe hplace h
  cases hgranted.symm.trans hdiscard
  rfl

/-- A place of the hub is always vacated. -/
theorem exists_discard
    (hplace : ∀ pipe, l.pipe = some pipe → pipe.place < Hub.capacity) (h : Host) :
    ∃ result, l.discard h = .ok result := by
  cases hpipe : l.pipe with
  | none =>
      obtain ⟨_, hdiscard⟩ := discard_of_pipe_eq_none hpipe h
      exact ⟨_, hdiscard⟩
  | some pipe =>
      obtain ⟨_, hdiscard⟩ := discard_of_pipe_eq_some hpipe (hplace pipe hpipe) h
      exact ⟨_, hdiscard⟩

/-- Dropping a loop releases every signal that it holds and then its own resources. -/
theorem drop_ok
    (hdrop : l.drop h = .ok (passed, h')) :
    ∃ h₁ late, l.signals.signos.foldlM (fun h signo => h.release l.hub signo) h = .ok h₁ ∧
      l.discard h₁ = .ok (late, h') := by
  obtain ⟨early, h₁, late, hreleases, hdiscard, -⟩ := Host.giveBackAll_append_ok hdrop
  exact ⟨h₁, late, by rw [Host.foldlM_release, hreleases]; rfl, hdiscard⟩

/-- A drop ends the program only where releasing the signals does. -/
theorem drop_error
    (hplace : ∀ pipe, l.pipe = some pipe → pipe.place < Hub.capacity)
    (hdrop : l.drop h = .error crash) :
    h.giveBackAll (l.signals.signos.map (.signal l.hub)) = .error crash := by
  rcases Host.giveBackAll_append_error hdrop with hreleases | ⟨h₁, hdiscard⟩
  · exact hreleases
  · obtain ⟨_, hgranted⟩ := exists_discard hplace h₁
    cases hgranted.symm.trans hdiscard

/-- What a loop holds besides its pipe comes first. -/
theorem holdings_eq
    (l : Loop H) :
    l.holdings = (l.signals.signos.map (.signal l.hub) ++ [.backend l.backend]) ++
      (l.pipe.map SelfPipe.holdings).getD [] := by
  rw [List.append_assoc]
  rfl

theorem isAside_of_mem
    (l : Loop H) {a : Holding}
    (ha : a ∈ l.signals.signos.map (.signal l.hub) ++ [.backend l.backend]) :
    a.isAside = true := by
  rcases List.mem_append.1 ha with ha | ha
  · obtain ⟨signo, -, rfl⟩ := List.mem_map.1 ha
    rfl
  · rw [List.mem_singleton.1 ha]
    rfl

/-- A loop without a pipe vacates no place. -/
theorem sheds_drop
    (hpipe : l.pipe = none) (hdrop : l.drop h = .ok (passed, h')) :
    h.Sheds h' := by
  rw [drop, holdings_eq, hpipe, Option.map_none, Option.getD_none, List.append_nil] at hdrop
  exact (Host.sheds_giveBackAll (fun _ => l.isAside_of_mem) hdrop).2

/-- A loop with a pipe vacates its place. -/
theorem departs_drop
    {pipe : SelfPipe} (hroomy : h.Roomy) (hplace : pipe.place < Hub.capacity)
    (hpipe : l.pipe = some pipe) (hdrop : l.drop h = .ok (passed, h')) :
    h.Departs pipe passed h' ∧ ∃ h₁, h.Sheds h₁ ∧ h' = h₁.unmoor pipe := by
  rw [drop, holdings_eq, hpipe, Option.map_some, Option.getD_some] at hdrop
  exact Host.departs_giveBackAll hroomy hplace (fun _ => l.isAside_of_mem) hdrop

/-- A drop ends the program only if the host does not restore a disposition. -/
theorem panic_of_drop
    (hplace : ∀ pipe, l.pipe = some pipe → pipe.place < Hub.capacity)
    (hdrop : l.drop h = .error crash) :
    ∃ signo cause, crash.panic = .dispositionStuck signo cause :=
  Host.panic_of_releases (drop_error hplace hdrop)

end Loop

end CallbackLoop
