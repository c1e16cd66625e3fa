import CallbackLoop.Proofs.Loop.Blame
import CallbackLoop.Proofs.Loop.Course
import CallbackLoop.Proofs.Loop.Phases
import Mathlib.Data.Prod.Lex
import Mathlib.Order.WellFounded

/-!
# What a break leaves to be done

Once a loop is broken the dispatcher comes nearer to its return with every move it makes,
and starts no more handlers on the way.  The delivery of signals is the exception: it does
not look at the break, so the handlers of all signals that were taken from the pipe run
first.  How many they are is known only signal by signal, which is why the distance to the
return is a pair.
-/

namespace CallbackLoop

variable {H : Type}

namespace Phase

/-- Whether signals are being delivered. -/
def delivers : Phase H → Bool
  | deliver _ _ => true
  | signal _ _ _ _ => true
  | _ => false

/-- The signals taken from the pipe whose handlers have not all had their turn. -/
def undelivered : Phase H → List Int
  | deliver signos _ => signos
  | signal signo _ signos _ => signo :: signos
  | _ => []

/-- How far a broken loop is from returning in a phase. -/
def distance : Phase H → ℕ ×ₗ ℕ
  | deliver signos _ => toLex (2 * signos.length, 6)
  | signal _ left signos _ => toLex (2 * signos.length + 1, left.length)
  | turn _ => toLex (0, 5)
  | timers .early _ => toLex (0, 5)
  | ready => toLex (0, 4)
  | timedOut _ _ _ _ => toLex (0, 4)
  | timeouts _ _ => toLex (0, 3)
  | timers .late _ => toLex (0, 2)
  | _ => toLex (0, 1)

end Phase

namespace Control

/-- The handler that is running, and its arguments. -/
def invocation? : Control H → Option (Invocation H)
  | running invocation _ => some invocation
  | _ => none

/-- Whether signals are being delivered, by the dispatcher or by a handler. -/
def delivers (c : Control H) : Bool :=
  c.phase?.any Phase.delivers

/-- The signals taken from the pipe whose handlers have not all had their turn. -/
def undelivered (c : Control H) : List Int :=
  (c.phase?.map Phase.undelivered).getD []

/-- How far a broken loop is from returning.  Outside of dispatch that is how far it will
be when it is dispatched. -/
def distance (c : Control H) : ℕ ×ₗ ℕ :=
  (c.phase?.map Phase.distance).getD (toLex (0, 1))

end Control

/-- Whether a move is one of the dispatcher. -/
def Act.isDispatchers : Act H → Bool
  | fire _ _ _ => true
  | wait _ => true
  | advance => true
  | _ => false

namespace Transition

/-- The handler that the dispatcher starts, and its arguments. -/
def started? (s : Transition H) : Option (Invocation H) :=
  match s.before.control with
  | .dispatching _ => s.after.control.invocation?
  | _ => none

/-- Dispatch returns. -/
def Returns (s : Transition H) : Prop :=
  s.before.control ≠ .idle ∧ s.after.control = .idle

instance [DecidableEq H] (s : Transition H) : Decidable s.Returns :=
  inferInstanceAs (Decidable (_ ∧ _))

end Transition

/-- The machine of a loop that was just built, unless it cannot be built. -/
def LoopOptions.machine? (H : Type) (o : LoopOptions) (host : Host) : Option (Machine H) :=
  match o.build H host with
  | .ok (.ok loop, host') => some { host := host', loop }
  | _ => none

namespace Machine

variable {m m' : Machine H} {act : Act H} {signos : List Int} {steps : List (Transition H)}

/-- What is left for a broken loop to do from a phase on, and which handler it may start. -/
structure Winds (phase : Phase H) (control : Control H) : Prop where
  awake : control.phase? ≠ some .wait
  distance : control.distance < phase.distance
  undelivered : control.undelivered ⊆ phase.undelivered
  handler : ∀ invocation, control.invocation? = some invocation →
    ∃ handler, ∃ signo ∈ phase.undelivered, invocation = .signal handler signo

theorem Leads.winds
    {phase : Phase H} {control : Control H} (h : Leads m phase control)
    (hbroken : m.loop.broken = true) (hphase : phase ≠ .wait) :
    control = .idle ∨ Winds phase control := by
  cases h with
  | returns _ _ =>
      exact .inl rfl
  | endsTimers =>
      rename_i pass now
      cases pass <;>
        exact .inr ⟨nofun, Prod.Lex.toLex_lt_toLex.2 (.inr ⟨rfl, by decide⟩), nofun, nofun⟩
  | endsReady | endsTurn | endsDelivery | endsTimeouts | settles =>
      exact .inr ⟨nofun, Prod.Lex.toLex_lt_toLex.2 (.inr ⟨rfl, by decide⟩), nofun, nofun⟩
  | delivers =>
      exact .inr ⟨nofun, Prod.Lex.toLex_lt_toLex.2 (.inl (Nat.lt_succ_self _)), List.Subset.refl _,
        nofun⟩
  | endsSignal =>
      exact .inr ⟨nofun, Prod.Lex.toLex_lt_toLex.2 (.inl (Nat.lt_succ_self _)),
        List.subset_cons_self _ _, nofun⟩
  | signals _ =>
      refine .inr ⟨nofun, Prod.Lex.toLex_lt_toLex.2 (.inr ⟨rfl, Nat.lt_succ_self _⟩),
        List.Subset.refl _, ?_⟩
      intro invocation hrunning
      cases hrunning
      exact ⟨_, _, List.mem_cons_self, rfl⟩
  | skipsSignal _ =>
      exact .inr ⟨nofun, Prod.Lex.toLex_lt_toLex.2 (.inr ⟨rfl, Nat.lt_succ_self _⟩),
        List.Subset.refl _, nofun⟩
  | wakes =>
      exact absurd rfl hphase
  | calls h | skipsCallback h | opens h | fires h | begins h _ | skipsDirection h | handles h
  | drains h | passesOver h | expires h _ _ | rests h =>
      rw [hbroken] at h
      cases h

/-- The dispatcher never goes on with the wait after a handler. -/
def Wakeful (m : Machine H) : Prop :=
  ∀ invocation, m.control ≠ .running invocation .wait

theorem wakeful_move
    (h : m.Wakeful) (hmove : Move m act m') :
    m'.Wakeful := by
  intro invocation hrunning
  cases hmove with
  | request _ hperform =>
      obtain ⟨-, -, hcontrol | ⟨-, hcontrol⟩, -⟩ := frame_perform hperform <;>
        rw [hcontrol] at hrunning
      · exact h invocation hrunning
      · cases hrunning
  | resume hc =>
      rw [resume_eq hc] at hrunning
      cases hrunning
  | step hc hstep =>
      simp only [step, hc] at hstep
      have hleads := leads_advance hstep
      rw [hrunning] at hleads
      cases hleads
  | world _ =>
      exact h invocation hrunning

/-- A broken loop that has `signos` left to deliver at most. -/
structure Ending (signos : List Int) (m : Machine H) : Prop where
  sound : m.Sound
  linked : m.timing.Linked
  broken : m.loop.broken = true
  awake : m.control.phase? ≠ some .wait
  undelivered : m.control.undelivered ⊆ signos

/-- What a move of a broken loop comes to. -/
structure Approaches (signos : List Int) (s : Transition H) : Prop where
  ending : s.after.Ending signos
  distance : s.after.control.distance ≤ s.before.control.distance
  nearer : s.act.isDispatchers = true → s.after.control.distance < s.before.control.distance
  handler : ∀ invocation, s.started? = some invocation →
    ∃ handler, ∃ signo ∈ signos, invocation = .signal handler signo
  no_wait : ∀ events, s.act ≠ .wait events

theorem Ending.approaches_of_advance
    {phase : Phase H} (h : m.Ending signos) (hc : m.control = .dispatching phase)
    (hadvance : m.advance phase = .ok m') (hmove : Move m (m.act m') m')
    (hreturn : m'.control ≠ .idle) :
    Approaches signos ⟨m, m.act m', m'⟩ := by
  have hphase : phase ≠ .wait := by
    rintro rfl
    exact h.awake (congrArg Control.phase? hc)
  have hundelivered : phase.undelivered ⊆ signos := by
    have hsubset := h.undelivered
    rwa [hc] at hsubset
  have hdistance : m.control.distance = phase.distance := by
    rw [hc]
    rfl
  have hwinds := ((leads_advance hadvance).winds h.broken hphase).resolve_left hreturn
  have hbroken : m'.loop.broken = true := by
    obtain rfl | ⟨-, hsame⟩ := broken_advance h.sound hc hadvance
    · exact absurd rfl hreturn
    · rw [hsame, h.broken]
  have hnearer : m'.control.distance < m.control.distance := hdistance ▸ hwinds.distance
  exact
    { ending :=
        { sound := h.sound.move hmove
          linked := (Run.cons hmove .nil).linked h.sound h.linked
          broken := hbroken
          awake := hwinds.awake
          undelivered := List.Subset.trans hwinds.undelivered hundelivered }
      distance := le_of_lt hnearer
      nearer := fun _ => hnearer
      handler := by
        intro invocation hstarted
        simp only [Transition.started?, hc] at hstarted
        obtain ⟨handler, signo, hin, heq⟩ := hwinds.handler _ hstarted
        exact ⟨handler, signo, hundelivered hin, heq⟩
      no_wait := act_ne_wait hc hphase }

/-- Other code than the dispatcher brings a broken loop no further from its return. -/
theorem Ending.approaches_of_bystander
    (h : m.Ending signos) (hmove : Move m act m') (hact : act.isDispatchers = false)
    (hbroken : m'.loop.broken = true)
    (hcontrol : m'.control.phase? = m.control.phase? ∨
      m.control.phase? = none ∧ m'.control = .dispatching .start)
    (hstarted : Transition.started? ⟨m, act, m'⟩ = none) :
    Approaches signos ⟨m, act, m'⟩ := by
  have hsound := h.sound.move hmove
  have hlinked := (Run.cons hmove .nil).linked h.sound h.linked
  refine ⟨⟨hsound, hlinked, hbroken, ?_, ?_⟩, le_of_eq ?_, ?_, ?_, ?_⟩
  · rcases hcontrol with hsame | ⟨-, hstart⟩
    · rw [hsame]
      exact h.awake
    · rw [hstart]
      nofun
  · rcases hcontrol with hsame | ⟨-, hstart⟩
    · unfold Control.undelivered
      rw [hsame]
      exact h.undelivered
    · rw [hstart]
      exact List.nil_subset _
  · dsimp only [Control.distance]
    rcases hcontrol with hsame | ⟨hidle, hstart⟩
    · rw [hsame]
    · rw [hstart, hidle]
      rfl
  · intro hdispatchers
    rw [hact] at hdispatchers
    cases hdispatchers
  · intro invocation hsome
    rw [hstarted] at hsome
    cases hsome
  · rintro events rfl
    cases hact

/-- A broken loop stays so, and comes nearer to its return, until it returns. -/
theorem Ending.approaches
    (h : m.Ending signos) (hmove : Move m act m')
    (hreturn : ¬Transition.Returns ⟨m, act, m'⟩) :
    Approaches signos ⟨m, act, m'⟩ := by
  have hmove' := hmove
  cases hmove with
  | request hopen hperform =>
      obtain ⟨-, hbroken, hcontrol, -⟩ := frame_perform hperform
      refine h.approaches_of_bystander hmove' rfl (hbroken h.broken) ?_ ?_
      · exact hcontrol.imp (congrArg _) (And.imp_left h.sound.phase?_eq_none)
      · unfold Transition.started?
        split
        next hc =>
            rw [hc] at hopen
            cases hopen
        next =>
            rfl
  | resume hc =>
      rw [resume_eq hc] at hmove' ⊢
      refine h.approaches_of_bystander hmove' rfl h.broken (.inl ?_) ?_
      · rw [hc]
        rfl
      · rw [Transition.started?, hc]
  | step hc hstep =>
      have hadvance := hstep
      simp only [step, hc] at hadvance
      refine h.approaches_of_advance hc hadvance hmove' fun hidle => hreturn ⟨?_, hidle⟩
      intro hnot
      cases hc.symm.trans hnot
  | world host =>
      refine h.approaches_of_bystander hmove' rfl h.broken (.inl rfl) ?_
      unfold Transition.started?
      split
      next hc =>
          exact congrArg Control.invocation? hc
      next =>
          rfl

/-- What has been done since a break, and what is left to be done, as long as dispatch has
not returned. -/
structure WindsDown (signos : List Int) (steps : List (Transition H)) (m : Machine H) :
    Prop where
  broken : m.loop.broken = true
  /-- No handler was started but those of signals that had been taken from the pipe. -/
  handlers : ∀ s ∈ steps, ∀ invocation, s.started? = some invocation →
    ∃ handler, ∃ signo ∈ signos, invocation = .signal handler signo
  no_wait : ∀ s ∈ steps, ∀ events, s.act ≠ .wait events
  /-- Only the host can keep the dispatcher from going on. -/
  host : LaidTo (· = .host) m.step
  /-- When dispatch returns, the break is used up, and the loop can be dispatched again. -/
  returns : ∀ act m', Move m act m' → Transition.Returns ⟨m, act, m'⟩ →
    act = .advance ∧ m'.loop.broken = false ∧ m'.loop.dispatching = false ∧
      ∃ m'', Move m' (.request .dispatch .done) m''

theorem started?_finish
    (m : Machine H) :
    m.started? m.finish = none := by
  unfold started?
  split
  next hrunning =>
      cases hrunning
  next hdispatching =>
      cases hdispatching
  next =>
      rfl

theorem Ending.returns
    (h : m.Ending signos) (hmove : Move m act m') (hreturn : Transition.Returns ⟨m, act, m'⟩) :
    act = .advance ∧ m' = m.finish := by
  obtain ⟨hbusy, hidle⟩ := hreturn
  dsimp only at hbusy hidle
  cases hmove with
  | request _ hperform =>
      obtain ⟨-, -, hcontrol | ⟨-, hcontrol⟩, -⟩ := frame_perform hperform <;>
        rw [hcontrol] at hidle
      · exact absurd hidle hbusy
      · cases hidle
  | resume hc =>
      rw [resume_eq hc] at hidle
      cases hidle
  | @step _ phase hc hstep =>
      simp only [step, hc] at hstep
      obtain rfl | ⟨hnot, -⟩ := broken_advance h.sound hc hstep
      · refine ⟨?_, rfl⟩
        unfold act
        split
        next hwait =>
            exact absurd (congrArg Control.phase? hwait) h.awake
        next =>
            rw [started?_finish]
      · rw [hidle] at hnot
        cases hnot
  | world _ =>
      exact absurd hidle hbusy

theorem exists_dispatch_finish
    (m : Machine H) :
    ∃ m'', Move m.finish (.request .dispatch .done) m'' :=
  ⟨_, .request rfl rfl⟩

theorem Ending.windsDown
    (h : m.Ending signos) (hsteps : ∀ s ∈ steps, Approaches signos s) :
    WindsDown signos steps m := by
  refine ⟨h.broken, fun s hs => (hsteps s hs).handler, fun s hs => (hsteps s hs).no_wait,
    h.sound.laidTo_step h.linked, ?_⟩
  intro act m' hmove hreturn
  obtain ⟨hact, rfl⟩ := h.returns hmove hreturn
  exact ⟨hact, rfl, rfl, exists_dispatch_finish m⟩

theorem Ending.course
    (h : m.Ending signos) (hcourse : Course m steps m') (hreturn : ∀ s ∈ steps, ¬s.Returns) :
    m'.Ending signos ∧ ∀ s ∈ steps, Approaches signos s := by
  induction hcourse with
  | nil =>
      exact ⟨h, List.forall_mem_nil _⟩
  | @snoc m₁ m₂ act steps _ hmove ih =>
      obtain ⟨h₁, hsteps⟩ := ih fun s hs => hreturn s (List.mem_append_left _ hs)
      have hlast := h₁.approaches hmove
        (hreturn _ (List.mem_append_right _ (List.mem_singleton.2 rfl)))
      refine ⟨hlast.ending, fun s hs => ?_⟩
      rcases List.mem_append.1 hs with hin | hin
      · exact hsteps s hin
      · rw [List.mem_singleton.1 hin]
        exact hlast

/-- Moves one after the other without end. -/
def Endless (f : ℕ → Transition H) : Prop :=
  ∀ n, Move (f n).before (f n).act (f n).after ∧ (f (n + 1)).before = (f n).after

/-- A distance that no move increases is not decreased for ever. -/
theorem Endless.exists_settled
    {α : Type} [LinearOrder α] [WellFoundedLT α] {f : ℕ → Transition H} (hf : Endless f)
    (distance : Machine H → α) (hle : ∀ n, distance (f n).after ≤ distance (f n).before) :
    ∃ n, ∀ k ≥ n, distance (f k).before ≤ distance (f k).after := by
  let before : ℕ → α := fun n => distance (f n).before
  have hanti : Antitone before := by
    refine antitone_nat_of_succ_le fun n => ?_
    change distance (f (n + 1)).before ≤ distance (f n).before
    rw [(hf n).2]
    exact hle n
  -- from where it is least the distance cannot decrease any more
  refine ⟨Function.argmin before, fun k hk => ?_⟩
  have hleast : before (Function.argmin before) ≤ before (k + 1) :=
    not_lt.1 (Function.not_lt_argmin before (k + 1))
  have hle' := (hanti hk).trans hleast
  change distance (f k).before ≤ distance (f (k + 1)).before at hle'
  rwa [(hf k).2] at hle'

/-- A broken loop returns if only the dispatcher moves again and again. -/
theorem Ending.exists_returns
    {f : ℕ → Transition H} (h : (f 0).before.Ending signos) (hf : Endless f)
    (hoften : ∀ n, ∃ k ≥ n, (f k).act.isDispatchers = true) :
    ∃ n, (f n).Returns := by
  by_contra hnever
  rw [not_exists] at hnever
  have hending : ∀ n, (f n).before.Ending signos := by
    intro n
    induction n with
    | zero =>
        exact h
    | succ n ih =>
        rw [(hf n).2]
        exact (ih.approaches (hf n).1 (hnever n)).ending
  have happroaches := fun n => (hending n).approaches (hf n).1 (hnever n)
  obtain ⟨n, hsettled⟩ :=
    hf.exists_settled (fun m => m.control.distance) fun n => (happroaches n).distance
  obtain ⟨k, hk, hact⟩ := hoften n
  exact absurd ((happroaches k).nearer hact) (not_lt.2 (hsettled k hk))

theorem built_of_machine?
    {o : LoopOptions} {host : Host} (h : o.machine? H host = some m) :
    Built m := by
  unfold LoopOptions.machine? at h
  split at h
  next hbuild =>
      cases h
      exact .mk hbuild
  next =>
      cases h

theorem Run.wakeful
    {log : List (Act H)} (hrun : Run m log m') (h : m.Wakeful) :
    m'.Wakeful :=
  hrun.induction wakeful_move h

theorem Built.wakeful
    (h : Built m) :
    m.Wakeful := by
  intro invocation hrunning
  rw [h.control] at hrunning
  cases hrunning

/-- A break leaves the machine as it was otherwise. -/
theorem eq_setBreak_of_move
    (hbreak : Move m (.request .setBreak .done) m') :
    m.control.isOpen = true ∧ m' = m.setBreak := by
  obtain ⟨hopen, hperform⟩ := request_of_move hbreak
  cases hperform
  exact ⟨hopen, rfl⟩

theorem ending_setBreak
    (hsound : m.Sound) (hlinked : m.timing.Linked) (hwakeful : m.Wakeful)
    (hbreak : Move m (.request .setBreak .done) m') :
    m'.Ending m.control.undelivered := by
  have hsound' := hsound.move hbreak
  have hlinked' := (Run.cons hbreak .nil).linked hsound hlinked
  obtain ⟨hopen, rfl⟩ := eq_setBreak_of_move hbreak
  refine ⟨hsound', hlinked', rfl, ?_, List.Subset.refl _⟩
  intro hwait
  cases hc : m.control with
  | idle =>
      rw [setBreak, hc] at hwait
      cases hwait
  | dispatching phase =>
      rw [hc] at hopen
      cases hopen
  | running invocation next =>
      rw [setBreak, hc] at hwait
      cases hwait
      exact hwakeful invocation hc

/-- Until dispatch returns, a broken loop starts no handlers but those of the signals that
were taken from the pipe before the break, and does not wait.  It returns, and can then be
dispatched again. -/
theorem break_ends_dispatch
    {log : List (Act H)} {m₁ m₂ : Machine H} (hbuilt : Built m) (hrun : Run m log m₁)
    (hbreak : Move m₁ (.request .setBreak .done) m₂) :
    (∀ steps m', Course m₂ steps m' → (∀ s ∈ steps, ¬s.Returns) →
      WindsDown m₁.control.undelivered steps m') ∧
    ∀ f : ℕ → Transition H, (f 0).before = m₂ → Endless f →
      (∀ n, ∃ k ≥ n, (f k).act.isDispatchers = true) → ∃ n, (f n).Returns := by
  have hending := ending_setBreak (hrun.sound hbuilt.sound)
    (hrun.linked hbuilt.sound hbuilt.linked) (hrun.wakeful hbuilt.wakeful) hbreak
  refine ⟨fun steps m' hcourse hreturn => ?_, ?_⟩
  · obtain ⟨hending', hsteps⟩ := hending.course hcourse hreturn
    exact hending'.windsDown hsteps
  · rintro f rfl hf hoften
    exact hending.exists_returns hf hoften

/-- The first of two timers that are due fires. -/
def timerLog : List (Act Nat) :=
  [.request (.setTimer 0 1) (.timer ⟨0, 0⟩), .request (.setTimer 0 2) (.timer ⟨1, 1⟩),
    .request .dispatch .done, .advance, .advance, .advance]

/-- The first timer breaks the loop, and the second stays where it is. -/
theorem break_ends_dispatch_timerLog :
    ∃ m m₁ m₂ : Machine Nat, Built m ∧ Run m timerLog m₁ ∧
      Move m₁ (.request .setBreak .done) m₂ ∧
      m₁.control = .running (.timer 1) (.timers .early 0) ∧ m₁.loop.timers.size = 1 ∧
      (∀ steps m', Course m₂ steps m' → (∀ s ∈ steps, ¬s.Returns) → WindsDown [] steps m') ∧
      ∀ f : ℕ → Transition Nat, (f 0).before = m₂ → Endless f →
        (∀ n, ∃ k ≥ n, (f k).act.isDispatchers = true) → ∃ n, (f n).Returns := by
  have hbuilt := built_scripted Nat []
  obtain ⟨m₁, m₂, hrun, hbreak, hc, hsize⟩ :=
    exists_move_of_trail (m := scripted Nat []) timerLog (.request .setBreak .done)
      (fun m₁ _ => m₁.control = .running (.timer 1) (.timers .early 0) ∧ m₁.loop.timers.size = 1)
      [.request (.setTimer 0 1), .request (.setTimer 0 2), .request .dispatch, .step, .step,
        .step, .request .setBreak]
      (by decide +kernel)
  obtain ⟨hwinds, hreturns⟩ := break_ends_dispatch hbuilt hrun hbreak
  rw [hc] at hwinds
  exact ⟨_, m₁, m₂, hbuilt, hrun, hbreak, hc, hsize, hwinds, hreturns⟩

/-- A loop that receives signals, on a host that raises one in the first wait. -/
def signalled : Machine Nat :=
  (LoopOptions.machine? Nat { backend := .select, primary := true }
    { kernel := { script := [{ raised := [10] }] } }).getD (scripted Nat [])

theorem built_signalled :
    Built signalled := by
  have hsome : (LoopOptions.machine? Nat { backend := .select, primary := true }
      { kernel := { script := [{ raised := [10] }] } }).isSome = true := by decide +kernel
  obtain ⟨m, hm⟩ := Option.isSome_iff_exists.1 hsome
  rw [signalled, hm]
  exact built_of_machine? hm

/-- The signal has two handlers, and the first is running. -/
def signalLog : List (Act Nat) :=
  [Act.request (.setSignal 10 1) (.key 0), .request (.setSignal 10 2) (.key 1),
    .request .dispatch .done] ++
  List.replicate 7 Act.advance ++ [Act.wait [⟨900, ⟨true, false, false⟩⟩]] ++
  List.replicate 4 Act.advance ++ [Act.fire 900 .recv .deliver, .advance, .advance]

/-- The second handler of a signal is started although the first one has broken the loop. -/
theorem signal_runs_after_break :
    ∃ (m m₁ m₂ m' : Machine Nat) (steps : List (Transition Nat)),
      Built m ∧ Run m signalLog m₁ ∧ m₁.control.invocation? = some (.signal 1 10) ∧
      Move m₁ (.request .setBreak .done) m₂ ∧ Course m₂ steps m' ∧
      (∀ s ∈ steps, ¬s.Returns) ∧ steps.map (·.started?) = [none, some (.signal 2 10)] := by
  obtain ⟨m₁, m₂, hrun, hbreak, hrunning, htrail⟩ :=
    exists_move_of_trail (m := signalled) signalLog (.request .setBreak .done)
      (fun m₁ m₂ => m₁.control.invocation? = some (.signal 1 10) ∧
        (m₂.trail [.resume, .step]).map (fun steps =>
          (steps.map (·.started?), decide (∀ s ∈ steps, ¬s.Returns))) =
            some ([none, some (.signal 2 10)], true))
      (List.flatten [
        [.request (.setSignal 10 1), .request (.setSignal 10 2), .request .dispatch],
        List.replicate 15 .step, [.request .setBreak]])
      (by decide +kernel)
  obtain ⟨steps, m', hcourse, hview⟩ := exists_course_of_trail _ _ htrail
  obtain ⟨hstarted, hreturn⟩ := Prod.mk.inj hview
  exact ⟨_, m₁, m₂, m', steps, built_signalled, hrun, hrunning, hbreak, hcourse,
    of_decide_eq_true hreturn, hstarted⟩

end Machine
end CallbackLoop
