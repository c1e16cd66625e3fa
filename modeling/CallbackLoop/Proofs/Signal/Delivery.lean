import CallbackLoop.Proofs.Loop.Breaking
import CallbackLoop.Proofs.Loop.Clearing
import CallbackLoop.Proofs.Signal.Draining
import CallbackLoop.Proofs.Signal.Keys

/-!
# Delivery of signals

When the notification pipe is readable its signals are taken out, and then each of them has
its turn.  In the turn of a signal every handler that was registered for it when the turn
began has its own turn, unless it was unset before that.  Handlers set and unset others
meanwhile, so what is called is said by the log: `called` are the registrations for the
signal in the log before its turn, less those that are unset in the log before their own
turn.

The argument is one induction over the moves of a delivery.  Between two signals and within
the turn of one signal it needs different statements, which are proved together.
-/

namespace CallbackLoop

variable {H : Type}

namespace Transition

/-- The signal whose turn begins. -/
def signo? (s : Transition H) : Option Int :=
  match s.before.control, s.after.control with
  | .dispatching (.deliver (signo :: _) _), .dispatching (.signal _ _ _ _) => some signo
  | _, _ => none

/-- The key of the registration whose own turn it is. -/
def key? (s : Transition H) : Option Nat :=
  match s.before.control, s.act with
  | .dispatching (.signal _ (r :: _) _ _), .advance => some r.key
  | _, _ => none

end Transition

/-- What happens before the own turn of a registration. -/
def untilKey (key : Nat) (steps : List (Transition H)) : List (Act H) :=
  (steps.takeWhile fun s => s.key? != some key).map (·.act)

/-- The registrations that are not unset before their own turn. -/
def spared (past : List (Act H)) (steps : List (Transition H)) (rs : List (Registration H)) :
    List (Registration H) :=
  rs.filter fun r => !(unset (past ++ untilKey r.key steps)).contains (r.signo, r.key)

/-- The registrations for a signal that are there when its turn begins and are not unset
before their own turn. -/
def called (past : List (Act H)) (signo : Int) (steps : List (Transition H)) :
    List (Registration H) :=
  spared past steps ((registered past).filter (·.signo == signo))

/-- The signals have their turns one after the other, and in each the handlers that are
called are started, in the order in which they were registered. -/
inductive Delivers : List (Act H) → List Int → List (Transition H) → Prop
  | nil {past : List (Act H)} :
      Delivers past [] []
  | cons {past : List (Act H)} {signo : Int} {signos : List Int} {first : Transition H}
      {rest later : List (Transition H)} :
      first.signo? = some signo →
      (∀ s ∈ rest, s.signo? = none) →
      (first :: rest).filterMap (·.started?) =
        (called past signo (first :: rest)).map (fun r => .signal r.handler signo) →
      Delivers (past ++ (first :: rest).map (·.act)) signos later →
      Delivers past (signo :: signos) (first :: rest ++ later)

section UntilKey

variable {s : Transition H} {steps : List (Transition H)} {key : Nat}

theorem untilKey_cons_of_ne
    (h : s.key? ≠ some key) :
    untilKey key (s :: steps) = s.act :: untilKey key steps := by
  have hother : (s.key? != some key) = true := bne_iff_ne.2 h
  rw [untilKey, List.takeWhile_cons, if_pos hother]
  rfl

theorem untilKey_cons_of_eq
    (h : s.key? = some key) :
    untilKey key (s :: steps) = [] := by
  have hown : ¬ (s.key? != some key) = true := by simp [h]
  rw [untilKey, List.takeWhile_cons, if_neg hown]
  rfl

variable {past : List (Act H)} {r : Registration H} {rs : List (Registration H)}

theorem spared_cons_of_ne
    (h : ∀ r ∈ rs, s.key? ≠ some r.key) :
    spared past (s :: steps) rs = spared (past ++ [s.act]) steps rs := by
  refine List.filter_congr fun r hr => ?_
  rw [untilKey_cons_of_ne (h r hr), ← List.append_cons]

theorem spared_cons_of_eq
    (hkey : s.key? = some r.key) (hnodup : ((r :: rs).map (·.key)).Nodup) :
    spared past (s :: steps) (r :: rs) =
      (if (unset past).contains (r.signo, r.key) then [] else [r]) ++
        spared (past ++ [s.act]) steps rs := by
  have hothers : ∀ r' ∈ rs, s.key? ≠ some r'.key := by
    intro r' hr' hsame
    rw [hkey] at hsame
    rw [List.map_cons, List.nodup_cons] at hnodup
    exact hnodup.1 (List.mem_map.2 ⟨r', hr', (Option.some.inj hsame).symm⟩)
  have hrest : spared past (s :: steps) rs = spared (past ++ [s.act]) steps rs :=
    spared_cons_of_ne hothers
  unfold spared at hrest ⊢
  rw [List.filter_cons, untilKey_cons_of_eq hkey, List.append_nil, hrest]
  cases (unset past).contains (r.signo, r.key) <;> rfl

/-- What is registered when the turn of a signal begins has not been unset yet. -/
theorem spared_registeredFor
    {t : SignalHandlers H} (hkeyed : Keyed past t) (signo : Int) :
    spared past steps (t.registeredFor signo) = called past signo steps := by
  unfold spared called SignalHandlers.registeredFor
  rw [hkeyed.registrations, spared, List.filter_filter, List.filter_filter, List.filter_filter]
  refine List.filter_congr fun r _ => ?_
  rw [unset, List.filterMap_append, ← unset, List.contains_append, Bool.not_or]
  cases (unset past).contains (r.signo, r.key) <;> cases r.signo == signo <;> simp

end UntilKey

/-- Only the read end of the notification pipe delivers signals. -/
def Registry.DeliversAt (A : Registry H) (pipe? : Option SelfPipe) : Prop :=
  ∀ fd a binding, A.Binds fd a binding → binding.reaction = .deliver →
    ∃ pipe, pipe? = some pipe ∧ fd = pipe.reader ∧ a = .recv

/-- Moves bind handlers only. -/
theorem Registry.DeliversAt.after
    {A : Registry H} {pipe? : Option SelfPipe} (h : A.DeliversAt pipe?) (act : Act H) :
    (A.after act).DeliversAt pipe? := by
  intro fd a binding hbinds hdeliver
  rcases hbinds.of_after with ⟨flags, timeout, handler, -, -, rfl⟩ | ⟨hbinds, -⟩
  · cases hdeliver
  · exact h fd a binding hbinds hdeliver

namespace Machine

variable {m m' m'' : Machine H} {act : Act H} {log past : List (Act H)}
  {steps : List (Transition H)} {fd : Int} {a : Direction}

theorem Run.pipe
    (hrun : Run m log m') :
    m'.loop.pipe = m.loop.pipe :=
  hrun.induction (P := fun m' => m'.loop.pipe = m.loop.pipe)
    (fun h hmove => (signalChange_of_move hmove).pipe.trans h) rfl

theorem deliversAt_builtRegistry
    (l : Loop H) :
    (builtRegistry l).DeliversAt l.pipe := by
  rintro fd a binding ⟨b, hb, hbinding⟩ -
  unfold builtRegistry at hb
  cases hpipe : l.pipe with
  | none =>
      simp only [hpipe] at hb
      rw [Finmap.lookup_empty] at hb
      cases hb
  | some pipe =>
      simp only [hpipe] at hb
      by_cases hfd : fd = pipe.reader
      · subst hfd
        rw [Finmap.lookup_insert] at hb
        cases hb
        refine ⟨pipe, rfl, rfl, ?_⟩
        cases a with
        | recv =>
            rfl
        | send | error =>
            cases hbinding
      · rw [Finmap.lookup_insert_of_ne _ hfd, Finmap.lookup_empty] at hb
        cases hb

/-- Signals are delivered only when the read end of the notification pipe can be read. -/
theorem exists_pipe_of_fire
    (hbuilt : Built m) (hrun : Run m log m') (hfire : Move m' (.fire fd a .deliver) m'') :
    ∃ pipe, m'.loop.pipe = some pipe ∧ fd = pipe.reader ∧ a = .recv := by
  obtain ⟨hr, -⟩ := represents_run hrun hbuilt.sound hbuilt.represents
  obtain ⟨-, hbound⟩ := represents_move (hrun.sound hbuilt.sound) hr hfire
  obtain ⟨b, binding, hlookup, hbinding, hreaction⟩ := hbound fd a .deliver rfl
  have hdelivers : (log.foldl Registry.after (builtRegistry m.loop)).DeliversAt m.loop.pipe :=
    List.foldlRecOn (motive := fun A => A.DeliversAt m.loop.pipe) log Registry.after
      (deliversAt_builtRegistry m.loop) fun _ h act _ => h.after act
  rw [hrun.pipe]
  exact hdelivers fd a binding ⟨b, hlookup, hbinding⟩ hreaction

/-- A delivery begins with draining the pipe. -/
theorem drain_of_fire
    (hfire : Move m (.fire fd a .deliver) m') :
    ∃ signos turn, m.host.kernel.drain fd = (signos, m'.host.kernel) ∧
      m'.control = .dispatching (.deliver signos turn) := by
  generalize hact : Act.fire fd a .deliver = act at hfire
  cases hfire with
  | request _ _ | resume _ | world _ =>
      cases hact
  | @step _ phase hc hstep =>
      simp only [step, hc] at hstep
      cases phase with
      | turn turn =>
          obtain ⟨d, -, hmove⟩ := advanceTurn_ok hstep
          unfold Machine.act started? at hact
          rw [hc] at hact
          cases hmove with
          | ended _ _ | unbound _ _ _ | called _ _ _ _ _ =>
              cases hact
          | delivered hfirst _ _ _ _ hdrain =>
              simp only [goTo, hfirst, Option.map_some] at hact
              cases hact
              exact ⟨_, _, hdrain, rfl⟩
      | wait =>
          rw [act_eq_wait hc] at hact
          cases hact
      | _ =>
          rw [act_eq_advance hc (by rintro _ ⟨⟩) (by rintro ⟨⟩)] at hact
          cases hact

/-- A move that starts no handler, and in which neither a signal nor a registration has its
turn. -/
structure Idles (s : Transition H) : Prop where
  signo? : s.signo? = none
  key? : s.key? = none
  started? : s.started? = none

/-- What a move does within the turn of a signal. -/
inductive WithinTurn (m : Machine H) (signo : Int) (left : List (Registration H))
    (signos : List Int) (turn : Turn) : Act H → Machine H → Prop
  /-- Requests are made, or a handler returns. -/
  | idles {act : Act H} {m' : Machine H} :
      Idles ⟨m, act, m'⟩ →
      m'.control.phase? = some (.signal signo left signos turn) →
      WithinTurn m signo left signos turn act m'
  /-- A registration has its own turn. -/
  | considers {r : Registration H} {rest : List (Registration H)} {act : Act H}
      {m' : Machine H} :
      left = r :: rest →
      Transition.signo? ⟨m, act, m'⟩ = none →
      Transition.key? ⟨m, act, m'⟩ = some r.key →
      Transition.started? ⟨m, act, m'⟩ =
        (if m.loop.signals.contains signo r.key then some (.signal r.handler signo) else none) →
      m'.control.phase? = some (.signal signo rest signos turn) →
      WithinTurn m signo left signos turn act m'
  | ends {act : Act H} {m' : Machine H} :
      left = [] →
      Idles ⟨m, act, m'⟩ →
      m'.control = .dispatching (.deliver signos turn) →
      WithinTurn m signo left signos turn act m'

/-- What a move does between two signals. -/
inductive BetweenTurns (m : Machine H) (signos : List Int) (turn : Turn) :
    Act H → Machine H → Prop
  | idles {act : Act H} {m' : Machine H} :
      Idles ⟨m, act, m'⟩ →
      m'.control = .dispatching (.deliver signos turn) →
      BetweenTurns m signos turn act m'
  /-- The next signal has its turn. -/
  | begins {signo : Int} {rest : List Int} {act : Act H} {m' : Machine H} :
      signos = signo :: rest →
      Transition.signo? ⟨m, act, m'⟩ = some signo →
      Transition.key? ⟨m, act, m'⟩ = none →
      Transition.started? ⟨m, act, m'⟩ = none →
      m'.control =
        .dispatching (.signal signo (m.loop.signals.registeredFor signo) rest turn) →
      BetweenTurns m signos turn act m'
  | ends {act : Act H} {m' : Machine H} :
      signos = [] →
      Idles ⟨m, act, m'⟩ →
      m'.control = .dispatching (.turn turn) →
      BetweenTurns m signos turn act m'

theorem idles_of_running
    {invocation : Invocation H} {next : Phase H} (hc : m.control = .running invocation next)
    (act : Act H) (m' : Machine H) :
    Idles ⟨m, act, m'⟩ where
  signo? := by simp only [Transition.signo?, hc]
  key? := by simp only [Transition.key?, hc]
  started? := by simp only [Transition.started?, hc]

/-- The world moves without the dispatcher. -/
theorem idles_world
    (m : Machine H) (host : Host) :
    Idles ⟨m, .world, { m with host }⟩ := by
  constructor
  · unfold Transition.signo?
    split
    next hbefore hafter =>
        cases hbefore.symm.trans hafter
    next =>
        rfl
  · unfold Transition.key?
    split
    next hact =>
        cases hact
    next =>
        rfl
  · unfold Transition.started?
    split
    next hc =>
        exact congrArg Control.invocation? hc
    next =>
        rfl

theorem withinTurn_of_move
    {signo : Int} {left : List (Registration H)} {signos : List Int} {turn : Turn}
    (hsound : m.Sound) (hphase : m.control.phase? = some (.signal signo left signos turn))
    (hmove : Move m act m') :
    WithinTurn m signo left signos turn act m' := by
  have hdispatching : m.loop.dispatching = true := hsound.dispatching.2 (by rw [hphase]; rfl)
  cases hmove with
  | @request _ r reply hopen hperform =>
      obtain ⟨-, -, hcontrol | ⟨hidle, -⟩, -⟩ := frame_perform hperform
      · cases hc : m.control with
        | idle =>
            rw [hc] at hphase
            cases hphase
        | dispatching phase =>
            rw [hc] at hopen
            cases hopen
        | running invocation next =>
            exact .idles (idles_of_running hc _ _) (by rw [hcontrol, hphase])
      · rw [hdispatching] at hidle
        cases hidle
  | @resume invocation next hc =>
      refine .idles (idles_of_running hc _ _) ?_
      rw [hc] at hphase
      rw [resume_eq hc]
      exact hphase
  | @step _ phase hc hstep =>
      rw [hc] at hphase
      cases hphase
      simp only [step, hc] at hstep
      have hact : m.act m' = .advance :=
        act_eq_advance hc (by rintro _ ⟨⟩) (by rintro ⟨⟩)
      rw [hact]
      cases left with
      | nil =>
          cases hstep
          refine .ends rfl ⟨?_, ?_, ?_⟩ rfl
          · simp only [Transition.signo?, hc]
          · simp only [Transition.key?, hc]
          · simp only [Transition.started?, hc]
            rfl
      | cons r rest =>
          simp only [advance] at hstep
          split at hstep
          next hcontains =>
              cases hstep
              refine .considers rfl ?_ ?_ ?_ rfl
              · simp only [Transition.signo?, hc]
              · simp only [Transition.key?, hc]
              · simp only [Transition.started?, hc, hcontains, if_true]
                rfl
          next hcontains =>
              cases hstep
              refine .considers rfl ?_ ?_ ?_ rfl
              · simp only [Transition.signo?, hc]
              · simp only [Transition.key?, hc]
              · simp only [Transition.started?, hc, if_neg hcontains]
                rfl
  | world host =>
      exact .idles (idles_world m host) hphase

theorem betweenTurns_of_move
    {signos : List Int} {turn : Turn} (hc : m.control = .dispatching (.deliver signos turn))
    (hmove : Move m act m') :
    BetweenTurns m signos turn act m' := by
  cases hmove with
  | request hopen _ =>
      rw [hc] at hopen
      cases hopen
  | resume hrunning =>
      cases hc.symm.trans hrunning
  | step hdispatching hstep =>
      cases hc.symm.trans hdispatching
      simp only [step, hc] at hstep
      have hact : m.act m' = .advance :=
        act_eq_advance hc (by rintro _ ⟨⟩) (by rintro ⟨⟩)
      rw [hact]
      cases signos with
      | nil =>
          cases hstep
          refine .ends rfl ⟨?_, ?_, ?_⟩ rfl
          · simp only [Transition.signo?, hc]
          · simp only [Transition.key?, hc]
          · simp only [Transition.started?, hc]
            rfl
      | cons signo signos =>
          cases hstep
          refine .begins rfl ?_ ?_ ?_ rfl
          · simp only [Transition.signo?, hc]
            rfl
          · simp only [Transition.key?, hc]
          · simp only [Transition.started?, hc]
            rfl
  | world host =>
      exact .idles (idles_world m host) hc

/-- The signals left between two turns have their turns. -/
def DeliversFrom (m : Machine H) (past : List (Act H)) (steps : List (Transition H)) : Prop :=
  ∀ signos turn, m.control = .dispatching (.deliver signos turn) →
    ∃ lead later, steps = lead ++ later ∧ (∀ s ∈ lead, Idles s) ∧
      Delivers (past ++ lead.map (·.act)) signos later

/-- The registrations left within the turn of a signal have theirs, and then the signals
that are left. -/
def DeliversWithin (m : Machine H) (past : List (Act H)) (steps : List (Transition H)) : Prop :=
  ∀ signo left signos turn, m.control.phase? = some (.signal signo left signos turn) →
    (left.map (·.key)).Nodup → (∀ r ∈ left, r.signo = signo ∧ r ∈ registered past) →
      ∃ rest later, steps = rest ++ later ∧ (∀ s ∈ rest, s.signo? = none) ∧
        rest.filterMap (·.started?) =
          (spared past rest left).map (fun r => .signal r.handler signo) ∧
        Delivers (past ++ rest.map (·.act)) signos later

theorem Idles.filterMap_started?
    {lead : List (Transition H)} (h : ∀ s ∈ lead, Idles s) :
    lead.filterMap (·.started?) = [] :=
  List.filterMap_eq_nil_iff.2 fun s hs => (h s hs).started?

theorem deliversFrom_cons
    (hkeyed : Keyed past m.loop.signals) (hmove : Move m act m')
    (hfrom : DeliversFrom m' (past ++ [act]) steps)
    (hwithin : DeliversWithin m' (past ++ [act]) steps)
    (hdone : m'.control.delivers = false → steps = []) :
    DeliversFrom m past (⟨m, act, m'⟩ :: steps) := by
  intro signos turn hc
  cases betweenTurns_of_move hc hmove with
  | idles hidles hc' =>
      obtain ⟨lead, later, rfl, hlead, hdelivers⟩ := hfrom signos turn hc'
      refine ⟨⟨m, act, m'⟩ :: lead, later, rfl, ?_, ?_⟩
      · exact List.forall_mem_cons.2 ⟨hidles, hlead⟩
      · rw [List.map_cons, List.append_cons]
        exact hdelivers
  | @begins signo rest _ _ hsignos hsigno hkey hstarted hc' =>
      subst hsignos
      have hissued : ((m.loop.signals.registeredFor signo).map (·.key)).Nodup := by
        refine List.Sublist.nodup ?_ hkeyed.nodup_keys
        refine List.Sublist.map _ (List.filter_sublist.trans ?_)
        rw [hkeyed.registrations]
        exact List.filter_sublist
      have hfound : ∀ r ∈ m.loop.signals.registeredFor signo,
          r.signo = signo ∧ r ∈ registered (past ++ [act]) := by
        intro r hr
        obtain ⟨hr, hsame⟩ := List.mem_filter.1 hr
        refine ⟨beq_iff_eq.1 hsame, ?_⟩
        rw [registered, List.filterMap_append]
        exact List.mem_append_left _ (hkeyed.mem_registrations_iff.1 hr).1
      obtain ⟨turnRest, later, rfl, hnone, hstarts, hdelivers⟩ :=
        hwithin signo _ rest turn (by rw [hc']; rfl) hissued hfound
      refine ⟨[], _, rfl, List.forall_mem_nil _, ?_⟩
      rw [List.map_nil, List.append_nil]
      refine .cons hsigno hnone ?_ ?_
      · rw [List.filterMap_cons_none hstarted, hstarts, ← spared_registeredFor hkeyed,
          spared_cons_of_ne fun r _ => by rw [hkey]; rintro ⟨⟩]
      · rw [List.map_cons, List.append_cons]
        exact hdelivers
  | ends hsignos hidles hc' =>
      subst hsignos
      cases hdone (by rw [hc']; rfl)
      refine ⟨[⟨m, act, m'⟩], [], rfl, ?_, .nil⟩
      exact List.forall_mem_singleton.2 hidles

theorem deliversWithin_cons
    (hsound : m.Sound) (hkeyed : Keyed past m.loop.signals) (hmove : Move m act m')
    (hfrom : DeliversFrom m' (past ++ [act]) steps)
    (hwithin : DeliversWithin m' (past ++ [act]) steps) :
    DeliversWithin m past (⟨m, act, m'⟩ :: steps) := by
  intro signo left signos turn hphase hnodup hfound
  have hkept : ∀ r ∈ registered past, r ∈ registered (past ++ [act]) := by
    intro r hr
    rw [registered, List.filterMap_append]
    exact List.mem_append_left _ hr
  cases withinTurn_of_move hsound hphase hmove with
  | idles hidles hphase' =>
      obtain ⟨rest, later, rfl, hnone, hstarts, hdelivers⟩ := hwithin signo left signos turn
        hphase' hnodup fun r hr => ⟨(hfound r hr).1, hkept r (hfound r hr).2⟩
      refine ⟨⟨m, act, m'⟩ :: rest, later, rfl, ?_, ?_, ?_⟩
      · exact List.forall_mem_cons.2 ⟨hidles.signo?, hnone⟩
      · rw [List.filterMap_cons_none hidles.started?, hstarts,
          spared_cons_of_ne fun r _ => by rw [hidles.key?]; rintro ⟨⟩]
      · rw [List.map_cons, List.append_cons]
        exact hdelivers
  | @considers r left' _ _ hleft hsigno hkey hstarted hphase' =>
      subst hleft
      obtain ⟨rest, later, rfl, hnone, hstarts, hdelivers⟩ := hwithin signo left' signos turn
        hphase' (List.nodup_cons.1 hnodup).2 fun r hr =>
          ⟨(hfound r (List.mem_cons_of_mem _ hr)).1, hkept r (hfound r (List.mem_cons_of_mem _ hr)).2⟩
      refine ⟨⟨m, act, m'⟩ :: rest, later, rfl, ?_, ?_, ?_⟩
      · exact List.forall_mem_cons.2 ⟨hsigno, hnone⟩
      · obtain ⟨rfl, hr⟩ := hfound r List.mem_cons_self
        rw [spared_cons_of_eq hkey hnodup, List.map_append, ← hstarts]
        have hcontains := hkeyed.contains_iff hr
        by_cases hunset : (r.signo, r.key) ∈ unset past
        · rw [if_neg (fun h => hcontains.1 h hunset)] at hstarted
          rw [List.filterMap_cons_none hstarted, if_pos (List.contains_iff_mem.2 hunset)]
          rfl
        · rw [if_pos (hcontains.2 hunset)] at hstarted
          rw [List.filterMap_cons_some hstarted,
            if_neg (fun h => hunset (List.contains_iff_mem.1 h))]
          rfl
      · rw [List.map_cons, List.append_cons]
        exact hdelivers
  | ends hleft hidles hc' =>
      subst hleft
      obtain ⟨lead, later, rfl, hlead, hdelivers⟩ := hfrom signos turn hc'
      have hall : ∀ s ∈ (⟨m, act, m'⟩ :: lead : List (Transition H)), Idles s :=
        List.forall_mem_cons.2 ⟨hidles, hlead⟩
      refine ⟨⟨m, act, m'⟩ :: lead, later, rfl, fun s hs => (hall s hs).signo?, ?_, ?_⟩
      · exact Idles.filterMap_started? hall
      · rw [List.map_cons, List.append_cons]
        exact hdelivers

/-- The induction over the moves of a delivery. -/
theorem delivers_of_course
    (hcourse : Course m steps m') (hsound : m.Sound) (hkeyed : Keyed past m.loop.signals)
    (hwithin : ∀ s ∈ steps, s.before.control.delivers = true)
    (hend : m'.control.delivers = false) :
    DeliversFrom m past steps ∧ DeliversWithin m past steps := by
  induction steps generalizing m past with
  | nil =>
      cases hcourse.eq_of_nil
      constructor
      · intro signos turn hc
        rw [hc] at hend
        cases hend
      · intro signo left signos turn hphase
        rw [Control.delivers, hphase] at hend
        cases hend
  | cons s steps ih =>
      obtain ⟨rfl, hmove, hrest⟩ := hcourse.first
      obtain ⟨hfrom, hinside⟩ := ih hrest (hsound.move hmove)
        ((signalChange_of_move hmove).keyed hkeyed)
        fun t ht => hwithin t (List.mem_cons_of_mem _ ht)
      refine ⟨deliversFrom_cons hkeyed hmove hfrom hinside fun hdone => ?_,
        deliversWithin_cons hsound hkeyed hmove hfrom hinside⟩
      cases steps with
      | nil =>
          rfl
      | cons t steps =>
          have hcut : Course s.after ([] ++ t :: steps) m' := hrest
          obtain ⟨hnil, -, -⟩ := hcut.cut
          have hdelivers := hwithin t (List.mem_cons_of_mem _ List.mem_cons_self)
          rw [hnil.eq_of_nil, hdone] at hdelivers
          cases hdelivers

/-- A run of the reaction to the notification pipe takes the bytes from the front of the
pipe, and for each of them, in order, it calls the handlers that are registered for the
signal when its turn begins and are not unset before their own turn.  No key is ever issued
twice. -/
theorem signals_are_delivered_in_order
    {m₀ m₁ m₂ m₃ : Machine H} (hbuilt : Built m₀) (hrun : Run m₀ log m₁)
    (hfire : Move m₁ (.fire fd a .deliver) m₂) (hcourse : Course m₂ steps m₃)
    (hwithin : ∀ s ∈ steps, s.before.control.delivers = true)
    (hend : m₃.control.delivers = false) :
    ∃ pipe results signos lead later,
      m₁.loop.pipe = some pipe ∧ fd = pipe.reader ∧ a = .recv ∧
      m₁.host.kernel.Drains fd results signos m₂.host.kernel ∧
      steps = lead ++ later ∧ (∀ s ∈ lead, s.started? = none) ∧
      Delivers (log ++ .fire fd a .deliver :: lead.map (·.act)) signos later ∧
      ((registered (log ++ .fire fd a .deliver :: steps.map (·.act))).map (·.key)).Nodup := by
  obtain ⟨pipe, hpipe, hfd, ha⟩ := exists_pipe_of_fire hbuilt hrun hfire
  obtain ⟨signos, turn, hdrain, hc⟩ := drain_of_fire hfire
  obtain ⟨results, hdrains⟩ := Kernel.exists_drains hdrain
  have hkeyed := (signalChange_of_move hfire).keyed (hrun.keyed hbuilt.keyed)
  have hsound := (hrun.sound hbuilt.sound).move hfire
  obtain ⟨hfrom, -⟩ := delivers_of_course hcourse hsound hkeyed hwithin hend
  obtain ⟨lead, later, hsteps, hlead, hdelivers⟩ := hfrom signos turn hc
  have hall := (hcourse.run.keyed hkeyed).nodup_keys
  rw [List.nil_append, List.append_assoc] at hdelivers hall
  exact ⟨pipe, results, signos, lead, later, hpipe, hfd, ha, hdrains, hsteps,
    fun s hs => (hlead s hs).started?, hdelivers, hall⟩

/-- A loop that receives signals, on a host that raises two in the first wait. -/
def burst : Machine Nat :=
  (LoopOptions.machine? Nat { backend := .select, primary := true }
    { kernel := { script := [{ raised := [10, 12] }] } }).getD (scripted Nat [])

theorem built_burst :
    Built burst := by
  have hsome : (LoopOptions.machine? Nat { backend := .select, primary := true }
      { kernel := { script := [{ raised := [10, 12] }] } }).isSome = true := by decide +kernel
  obtain ⟨m, hm⟩ := Option.isSome_iff_exists.1 hsome
  rw [burst, hm]
  exact built_of_machine? hm

/-- The first signal has two handlers, the other one. -/
def burstLog : List (Act Nat) :=
  [Act.request (.setSignal 10 1) (.key 0), .request (.setSignal 10 2) (.key 1),
    .request (.setSignal 12 3) (.key 2), .request .dispatch .done] ++
  List.replicate 7 Act.advance ++ [Act.wait [⟨900, ⟨true, false, false⟩⟩]] ++
  List.replicate 4 Act.advance

/-- The first handler unsets the second and sets another. -/
def unsettingLog : List (Act Nat) :=
  [.advance, .advance, .request (.unsetSignal 10 1) .done, .request (.setSignal 10 4) (.key 3),
    .resume, .advance, .advance, .advance, .advance, .resume, .advance, .advance]

/-- Neither of the handlers that are unset and set meanwhile is called. -/
theorem signals_are_delivered_in_order_burst :
    ∃ (m₀ m₁ m₂ m₃ : Machine Nat) (steps : List (Transition Nat)),
      Built m₀ ∧ Run m₀ burstLog m₁ ∧ m₁.host.kernel.pipeContents 0 = [10, 12] ∧
      Move m₁ (.fire 900 .recv .deliver) m₂ ∧ Course m₂ steps m₃ ∧
      steps.map (·.act) = unsettingLog ∧ m₃.control.delivers = false ∧
      steps.filterMap (·.started?) = [.signal 1 10, .signal 3 12] ∧
      ∃ results signos lead later,
        m₁.host.kernel.Drains 900 results signos m₂.host.kernel ∧ steps = lead ++ later ∧
        Delivers (burstLog ++ .fire 900 .recv .deliver :: lead.map (·.act)) signos later := by
  let P : List (Transition Nat) → Machine Nat → Prop := fun steps m₃ =>
    (∀ s ∈ steps, s.before.control.delivers = true) ∧ m₃.control.delivers = false ∧
      steps.filterMap (·.started?) = [.signal 1 10, .signal 3 12]
  let cues : List (Cue Nat) :=
    [.step, .step, .request (.unsetSignal 10 1), .request (.setSignal 10 4), .resume, .step,
      .step, .step, .step, .resume, .step, .step]
  obtain ⟨m₁, m₂, hrun, hfire, hcontents, htrail⟩ :=
    exists_move_of_trail (m := burst) burstLog (.fire 900 .recv .deliver)
      (fun m₁ m₂ => m₁.host.kernel.pipeContents 0 = [10, 12] ∧
        (m₂.trail cues).map (fun steps => (steps.map (·.act), decide (Timely steps),
          steps.getLast?.any fun s => decide (P steps s.after))) =
            some (unsettingLog, true, true))
      (List.flatten [
        [.request (.setSignal 10 1), .request (.setSignal 10 2), .request (.setSignal 12 3),
          .request .dispatch],
        List.replicate 13 .step])
      (by decide +kernel)
  obtain ⟨steps, m₃, hcourse, -, hlog, hwithin, hend, hstarted⟩ :=
    exists_timely_course_of_trail unsettingLog P cues htrail
  obtain ⟨_, results, signos, lead, later, -, -, -, hdrains, hsteps, -, hdelivers, -⟩ :=
    signals_are_delivered_in_order built_burst hrun hfire hcourse hwithin hend
  exact ⟨_, m₁, m₂, m₃, steps, built_burst, hrun, hcontents, hfire, hcourse, hlog, hend,
    hstarted, results, signos, lead, later, hdrains, hsteps, hdelivers⟩

end Machine
end CallbackLoop
