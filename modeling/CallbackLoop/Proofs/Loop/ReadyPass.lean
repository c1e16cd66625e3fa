import CallbackLoop.Proofs.Loop.Breaking
import CallbackLoop.Proofs.Loop.ReadyQueue

/-!
# Passes over ready descriptors

A pass takes the first descriptor off the queue again and again and runs its directions,
while the handlers that it starts register and clear descriptors.  The turns that have begun,
followed by what is left of the queue, are at every moment the queue at the beginning of the
pass without the descriptors that were cleared before their turn.

The queue only shrinks, so every descriptor costs the dispatcher a bounded number of moves.
The delivery of signals is the exception: how many handlers it runs is known only signal by
signal, which is why the measure that makes a pass end is a pair.
-/

namespace CallbackLoop

variable {H : Type}

namespace Phase

/-- Whether a phase belongs to a pass over ready descriptors. -/
def serves : Phase H → Bool
  | ready => true
  | phase => phase.turn?.isSome

/-- How many moves the pass takes the dispatcher from a phase on, at most, if no other
descriptor waits.  The delivery of signals does not count. -/
def chores : Phase H → Nat
  | ready => 1
  | phase => (phase.turn?.map fun turn => turn.pending.toList.length + 2).getD 0

end Phase

namespace Control

/-- Whether a pass over ready descriptors is under way. -/
def serves (c : Control H) : Bool :=
  c.phase?.any (·.serves)

/-- How many moves the pass takes the dispatcher, at most, if no other descriptor waits. -/
def chores (c : Control H) : Nat :=
  (c.phase?.map (·.chores)).getD 0

/-- The directions that the turn under way has left, with its descriptor. -/
def left (c : Control H) : List (Int × Direction) :=
  (c.turn?.map fun turn => turn.pending.toList.map (turn.fd, ·)).getD []

theorem chores_of_turn?
    {c : Control H} {turn : Turn} (h : c.turn? = some turn) :
    c.chores = turn.pending.toList.length + 2 := by
  obtain ⟨phase, hphase, hturn⟩ := Option.bind_eq_some_iff.1 h
  rw [chores, hphase]
  cases phase <;> cases hturn <;> rfl

theorem serves_of_turn?
    {c : Control H} {turn : Turn} (h : c.turn? = some turn) :
    c.serves = true := by
  obtain ⟨phase, hphase, hturn⟩ := Option.bind_eq_some_iff.1 h
  rw [serves, hphase]
  cases phase <;> cases hturn <;> rfl

end Control

/-- The direction whose reaction starts, with its descriptor. -/
def Act.fired? : Act H → Option (Int × Direction)
  | fire fd a _ => some (fd, a)
  | _ => none

/-- The descriptor whose turn begins. -/
def Transition.begun? (s : Transition H) : Option Int :=
  match s.before.control with
  | .dispatching .ready => s.after.control.turn?.map (·.fd)
  | _ => none

/-- Whether the dispatcher moves, other than in the delivery of signals. -/
def Transition.isChore (s : Transition H) : Bool :=
  s.act.isDispatchers && !s.before.control.delivers

/-- The directions of a descriptor in the order in which their handlers run. -/
def Direction.ordered (fd : Int) : List (Int × Direction) :=
  [(fd, .recv), (fd, .send), (fd, .error)]

namespace Machine

variable {m m₀ m' : Machine H} {act : Act H} {prior steps : List (Transition H)} {fd : Int}

/-- The descriptors whose turns have begun, in order. -/
def turns (steps : List (Transition H)) : List Int :=
  steps.filterMap (·.begun?)

/-- The directions whose reactions have started, in order. -/
def firedDirections (steps : List (Transition H)) : List (Int × Direction) :=
  steps.filterMap (·.act.fired?)

/-- Whether a descriptor is cleared before a turn of it begins. -/
def struck (steps : List (Transition H)) (fd : Int) : Bool :=
  (steps.takeWhile fun s => s.begun? != some fd).any (·.act.clears fd)

/-- How many moves a pass takes the dispatcher, at most, apart from the delivery of
signals. -/
def chores (m : Machine H) : Nat :=
  m.control.chores + if m.loop.broken then 0 else 5 * m.queue.length

/-- What a move does during a pass over ready descriptors. -/
inductive ReadyMove (m : Machine H) : Act H → Machine H → Prop
  | begins {turn : Turn} {m' : Machine H} :
      m.control = .dispatching .ready →
      m.loop.broken = false →
      m'.loop.broken = false →
      m'.control = .dispatching (.turn turn) →
      m.queue = turn.fd :: m'.queue →
      ReadyMove m .advance m'
  | ends :
      m.control = .dispatching .ready →
      m.loop.broken = true ∨ m.queue = [] →
      ReadyMove m .advance (m.goTo (.timeouts m.clock []))
  /-- A direction is run, or passed over. -/
  | takes {act : Act H} {turn : Turn} {a : Direction} {m' : Machine H} :
      m.control = .dispatching (.turn turn) →
      turn.pending.first? = some a →
      act = .advance ∨ (∃ reaction, act = .fire turn.fd a reaction) →
      m'.control.turn? = some { turn with pending := turn.pending.erase a } →
      m'.loop.broken = m.loop.broken →
      m'.queue = m.queue →
      ReadyMove m act m'
  | leaves {turn : Turn} {m' : Machine H} :
      m.control = .dispatching (.turn turn) →
      m'.control = .dispatching .ready →
      m'.loop.broken = m.loop.broken →
      m'.queue = m.queue ∨ m.loop.broken = true ∧ m'.queue = m.queue ++ [turn.fd] →
      ReadyMove m .advance m'
  | delivers {phase : Phase H} {turn : Turn} {m' : Machine H} :
      m.control = .dispatching phase →
      phase.delivers = true →
      phase.turn? = some turn →
      m'.control.turn? = some turn →
      m'.control.distance < phase.distance →
      m'.loop.broken = m.loop.broken →
      m'.queue = m.queue →
      ReadyMove m .advance m'
  | apart {act : Act H} {m' : Machine H} :
      act.isDispatchers = false →
      m'.control.phase? = m.control.phase? →
      (m.loop.broken = true → m'.loop.broken = true) →
      m.control.isOpen = true ∨ m'.control = m.control ∧ (∀ fd, act.clears fd = false) →
      m'.queue = m.queue.filter (fun fd => !act.clears fd) →
      ReadyMove m act m'

theorem readyMove_ready
    (hc : m.control = .dispatching .ready) (hadvance : m.advance .ready = .ok m') :
    ReadyMove m .advance m' := by
  simp only [advance] at hadvance
  split at hadvance
  next hbroken =>
      cases hadvance
      exact .ends hc (.inl hbroken)
  next hbroken =>
      rw [Bool.not_eq_true] at hbroken
      unfold DescriptorTable.takeActive? at hadvance
      cases hactive : m.loop.table.active with
      | nil =>
          simp only [hactive] at hadvance
          cases hadvance
          refine .ends hc (.inr ?_)
          rw [queue, DescriptorTable.queue, hactive, List.filterMap_nil]
      | cons slot active =>
          simp only [hactive] at hadvance
          obtain ⟨d, hd, rfl⟩ := beginTurn_ok hadvance
          exact .begins hc hbroken hbroken rfl (queue_begins hactive hd rfl rfl)

theorem readyMove_turn
    {turn : Turn} (h : m.Sound) (hc : m.control = .dispatching (.turn turn))
    (hadvance : m.advance (.turn turn) = .ok m') :
    ReadyMove m (m.act m') m' := by
  obtain ⟨d, hd, hmove⟩ := advanceTurn_ok hadvance
  have hqueue := queue_turn h hc hd hmove
  rcases act_of_turn hc hmove with ⟨hact, hended | hskipped⟩ |
    ⟨a, binding, hact, hfirst, -, -, -, -, hturn⟩
  · obtain ⟨m₁, -, hsettle, rfl⟩ := hended
    have hbroken : m₁.loop.broken = m.loop.broken := broken_settle hsettle
    rw [hact]
    exact .leaves hc rfl hbroken (hqueue.imp id (And.imp_right And.right))
  · obtain ⟨a, hfirst, -, -, rfl⟩ := hskipped
    rw [hact]
    exact .takes hc hfirst (.inl rfl) rfl rfl rfl
  · have hsame : m'.queue = m.queue := by
      refine hqueue.resolve_right ?_
      rintro ⟨-, hready, -⟩
      rw [hready] at hturn
      cases hturn
    refine .takes hc hfirst (.inr ⟨binding.reaction, hact⟩) hturn ?_ hsame
    obtain rfl | ⟨-, hbroken⟩ := broken_advance h hc hadvance
    · cases hturn
    · exact hbroken

theorem readyMove_delivery
    {phase : Phase H} (hc : m.control = .dispatching phase) (hdelivers : phase.delivers = true)
    (hadvance : m.advance phase = .ok m') :
    ReadyMove m .advance m' := by
  cases phase with
  | deliver signos turn =>
      cases signos <;> cases hadvance
      · exact .delivers hc rfl rfl rfl
          (Prod.Lex.toLex_lt_toLex.2 (.inr ⟨rfl, by decide⟩)) rfl rfl
      · exact .delivers hc rfl rfl rfl
          (Prod.Lex.toLex_lt_toLex.2 (.inl (Nat.lt_succ_self _))) rfl rfl
  | signal signo registrations signos turn =>
      cases registrations with
      | nil =>
          cases hadvance
          exact .delivers hc rfl rfl rfl
            (Prod.Lex.toLex_lt_toLex.2 (.inl (Nat.lt_succ_self _))) rfl rfl
      | cons r registrations =>
          simp only [advance] at hadvance
          split at hadvance <;> cases hadvance <;>
            exact .delivers hc rfl rfl rfl
              (Prod.Lex.toLex_lt_toLex.2 (.inr ⟨rfl, Nat.lt_succ_self _⟩)) rfl rfl
  | _ =>
      cases hdelivers

/-- What every move of a pass does. -/
theorem readyMove_move
    (h : m.Sound) (hserves : m.control.serves = true) (hmove : Move m act m') :
    ReadyMove m act m' := by
  cases hmove with
  | request hopen hperform =>
      obtain ⟨-, hbroken, hsame | ⟨hidle, -⟩, -⟩ := frame_perform hperform
      · exact .apart rfl (congrArg _ hsame) hbroken (.inl hopen) (queue_perform h hperform)
      · rw [Control.serves, h.phase?_eq_none hidle] at hserves
        cases hserves
  | resume hc =>
      refine .apart rfl ?_ ?_ (.inl ?_) ?_
      · rw [resume_eq hc, hc]
        rfl
      · rw [resume_eq hc]
        exact id
      · rw [hc]
        rfl
      · rw [resume_eq hc, filter_not_clears fun _ => rfl]
        rfl
  | world host =>
      exact .apart rfl rfl id (.inr ⟨rfl, fun _ => rfl⟩)
        (filter_not_clears (fun _ => rfl) m).symm
  | @step _ phase hc hstep =>
      simp only [step, hc] at hstep
      rw [hc] at hserves
      cases phase with
      | ready =>
          rw [act_eq_advance hc (by rintro _ ⟨⟩) (by rintro ⟨⟩)]
          exact readyMove_ready hc hstep
      | turn turn =>
          exact readyMove_turn h hc hstep
      | deliver | signal =>
          rw [act_eq_advance hc (by rintro _ ⟨⟩) (by rintro ⟨⟩)]
          exact readyMove_delivery hc rfl hstep
      | _ =>
          cases hserves

/-- After a move the pass goes on, or it has ended. -/
theorem ReadyMove.stage
    (h : ReadyMove m act m') (hserves : m.control.serves = true) :
    m'.control.serves = true ∨ m'.control = .dispatching (.timeouts m'.clock []) ∧
      (m'.queue = [] ∨ m'.loop.broken = true) := by
  cases h with
  | begins _ _ _ hc _ | leaves _ hc _ _ =>
      exact .inl (by rw [hc]; rfl)
  | ends _ hend =>
      exact .inr ⟨rfl, hend.symm⟩
  | takes _ _ _ hturn _ _ | delivers _ _ _ hturn _ _ _ =>
      exact .inl (Control.serves_of_turn? hturn)
  | apart _ hphase _ _ _ =>
      exact .inl (by rwa [Control.serves, hphase])

theorem length_toList_le
    (s : Directions) :
    s.toList.length ≤ 3 :=
  List.length_filter_le _ _

/-- A move of the dispatcher leaves it less to do, unless it delivers signals. -/
theorem ReadyMove.chores_lt
    (h : ReadyMove m act m') (hact : act.isDispatchers = true)
    (hdelivers : m.control.delivers = false) :
    m'.chores < m.chores := by
  cases h with
  | @begins turn _ hc hbroken hbroken' hc' hqueue =>
      have hle := length_toList_le turn.pending
      have hturn : m'.control.chores = turn.pending.toList.length + 2 :=
        Control.chores_of_turn? (by rw [hc']; rfl)
      have hready : m.control.chores = 1 := by
        rw [hc]
        rfl
      rw [chores, chores, hbroken, hbroken', hqueue, hturn, hready, List.length_cons]
      simp only [Bool.false_eq_true, if_false]
      omega
  | ends hc hend =>
      have hready : m.control.chores = 1 := by
        rw [hc]
        rfl
      have hnone : (m.goTo (.timeouts m.clock [])).chores = 0 := by
        rw [chores, show (m.goTo (.timeouts m.clock [])).control.chores = 0 from rfl,
          Nat.zero_add]
        rcases hend with hbroken | hnil
        · exact if_pos hbroken
        · rw [show (m.goTo (.timeouts m.clock [])).queue = [] from hnil]
          exact ite_self 0
      rw [hnone, chores, hready]
      omega
  | @takes _ turn a _ hc hfirst _ hturn hbroken hqueue =>
      have hbefore : m.control.chores = turn.pending.toList.length + 2 :=
        Control.chores_of_turn? (by rw [hc]; rfl)
      have hafter : m'.control.chores = (turn.pending.erase a).toList.length + 2 :=
        Control.chores_of_turn? hturn
      rw [chores, chores, hbroken, hqueue, hbefore, hafter, Directions.toList_eq_cons hfirst,
        List.length_cons]
      omega
  | @leaves turn _ hc hc' hbroken hqueue =>
      have hbefore : m.control.chores = turn.pending.toList.length + 2 :=
        Control.chores_of_turn? (by rw [hc]; rfl)
      have hafter : m'.control.chores = 1 := by
        rw [hc']
        rfl
      rw [chores, chores, hbroken, hbefore, hafter]
      rcases hqueue with hsame | ⟨hbreak, -⟩
      · rw [hsame]
        omega
      · rw [if_pos hbreak, if_pos hbreak]
        omega
  | delivers hc hphase _ _ _ _ _ =>
      rw [hc] at hdelivers
      cases hphase.symm.trans hdelivers
  | apart hother _ _ _ _ =>
      rw [hother] at hact
      cases hact

/-- Nothing adds to what the dispatcher has to do. -/
theorem ReadyMove.chores_le
    (h : ReadyMove m act m') :
    m'.chores ≤ m.chores := by
  have hmove := h
  cases h with
  | begins hc _ _ _ _ | ends hc _ | leaves hc _ _ _ =>
      exact (hmove.chores_lt rfl (by rw [hc]; rfl)).le
  | takes hc _ hact _ _ _ =>
      have hdispatchers : act.isDispatchers = true := by
        rcases hact with rfl | ⟨reaction, rfl⟩ <;> rfl
      exact (hmove.chores_lt hdispatchers (by rw [hc]; rfl)).le
  | delivers hc _ hturn hturn' _ hbroken hqueue =>
      rw [chores, chores, hbroken, hqueue, Control.chores_of_turn? hturn', hc,
        Control.chores_of_turn? (c := .dispatching _) hturn]
  | apart _ hphase hbroken _ hqueue =>
      have hle : m'.queue.length ≤ m.queue.length := by
        rw [hqueue]
        exact List.length_filter_le _ _
      rw [chores, chores, Control.chores, hphase, ← Control.chores]
      cases hbefore : m.loop.broken with
      | true =>
          rw [hbroken hbefore]
          rfl
      | false =>
          cases m'.loop.broken <;> simp only [Bool.false_eq_true, if_false, if_true] <;> omega

/-- Delivering signals comes nearer to its end with every move of the dispatcher. -/
theorem ReadyMove.distance_lt
    (h : ReadyMove m act m') (hact : act.isDispatchers = true)
    (hdelivers : m.control.delivers = true) :
    m'.control.distance < m.control.distance := by
  cases h with
  | begins hc _ _ _ _ | ends hc _ | takes hc _ _ _ _ _ | leaves hc _ _ _ =>
      rw [hc] at hdelivers
      cases hdelivers
  | delivers hc _ _ _ hdistance _ _ =>
      rw [hc]
      exact hdistance
  | apart hother _ _ _ _ =>
      rw [hother] at hact
      cases hact

theorem ReadyMove.distance_eq
    (h : ReadyMove m act m') (hact : act.isDispatchers = false) :
    m'.control.distance = m.control.distance := by
  cases h with
  | takes _ _ hfires _ _ _ =>
      rcases hfires with rfl | ⟨reaction, rfl⟩ <;> cases hact
  | apart _ hphase _ _ _ =>
      rw [Control.distance, hphase, Control.distance]
  | _ =>
      cases hact

/-- How far a pass is from its end. -/
def remoteness (m : Machine H) : ℕ ×ₗ ℕ ×ₗ ℕ :=
  toLex (m.chores, m.control.distance)

theorem ReadyMove.remoteness_lt
    (h : ReadyMove m act m') (hact : act.isDispatchers = true) :
    m'.remoteness < m.remoteness := by
  rw [remoteness, remoteness, Prod.Lex.toLex_lt_toLex]
  cases hdelivers : m.control.delivers with
  | false =>
      exact .inl (h.chores_lt hact hdelivers)
  | true =>
      exact h.chores_le.lt_or_eq.imp id fun heq => ⟨heq, h.distance_lt hact hdelivers⟩

theorem ReadyMove.remoteness_le
    (h : ReadyMove m act m') :
    m'.remoteness ≤ m.remoteness := by
  cases hact : act.isDispatchers with
  | true =>
      exact (h.remoteness_lt hact).le
  | false =>
      rw [remoteness, remoteness, Prod.Lex.toLex_le_toLex]
      exact h.chores_le.lt_or_eq.imp id fun heq => ⟨heq, (h.distance_eq hact).le⟩

/-- A pass ends if only the dispatcher moves again and again. -/
theorem exists_ends_of_endless
    {f : ℕ → Transition H} (h : (f 0).before.Sound)
    (hserves : (f 0).before.control.serves = true) (hf : Endless f)
    (hoften : ∀ n, ∃ k ≥ n, (f k).act.isDispatchers = true) :
    ∃ n, (f n).after.control = .dispatching (.timeouts (f n).after.clock []) := by
  by_contra hnever
  rw [not_exists] at hnever
  have hpass : ∀ n, (f n).before.Sound ∧ (f n).before.control.serves = true := by
    intro n
    induction n with
    | zero =>
        exact ⟨h, hserves⟩
    | succ n ih =>
        obtain ⟨hsound, hserves⟩ := ih
        have hmove := readyMove_move hsound hserves (hf n).1
        rw [(hf n).2]
        exact ⟨hsound.move (hf n).1,
          (hmove.stage hserves).resolve_right fun hend => hnever n hend.1⟩
  have hmoves := fun n => readyMove_move (hpass n).1 (hpass n).2 (hf n).1
  obtain ⟨n, hsettled⟩ := hf.exists_settled remoteness fun n => (hmoves n).remoteness_le
  obtain ⟨k, hk, hact⟩ := hoften n
  exact absurd ((hmoves k).remoteness_lt hact) (not_lt.2 (hsettled k hk))

theorem turns_snoc
    (steps : List (Transition H)) (s : Transition H) :
    turns (steps ++ [s]) = turns steps ++ s.begun?.toList := by
  rw [turns, List.filterMap_append, List.filterMap_cons, List.filterMap_nil, turns]
  cases s.begun? <;> rfl

theorem firedDirections_snoc
    (steps : List (Transition H)) (s : Transition H) :
    firedDirections (steps ++ [s]) = firedDirections steps ++ s.act.fired?.toList := by
  rw [firedDirections, List.filterMap_append, List.filterMap_cons, List.filterMap_nil,
    firedDirections]
  cases s.act.fired? <;> rfl

theorem turns_snoc_of_none
    {s : Transition H} (hbegun : s.begun? = none) :
    turns (steps ++ [s]) = turns steps := by
  rw [turns_snoc, hbegun, Option.toList_none, List.append_nil]

theorem mem_turns_iff :
    fd ∈ turns steps ↔ ∃ s ∈ steps, s.begun? = some fd :=
  List.mem_filterMap

/-- A clear strikes out what has not had a turn. -/
theorem struck_snoc
    (steps : List (Transition H)) (s : Transition H) (fd : Int) :
    struck (steps ++ [s]) fd =
      (struck steps fd ||
        !decide (fd ∈ turns steps) && (s.begun? != some fd && s.act.clears fd)) := by
  induction steps with
  | nil =>
      by_cases hs : s.begun? = some fd <;> simp [struck, turns, hs]
  | cons t steps ih =>
      by_cases ht : t.begun? = some fd
      · simp [struck, turns, ht]
      · have hin : fd ∈ turns (t :: steps) ↔ fd ∈ turns steps := by
          simp [mem_turns_iff, ht]
        simp only [struck, List.cons_append, List.takeWhile_cons, bne_iff_ne, ne_eq, ht,
          not_false_eq_true, if_true, List.any_cons] at ih ⊢
        rw [ih]
        simp only [hin, Bool.or_assoc]

/-- The turns that have begun, and then those to come, are the queue of `m₀` without what was
cleared.  The descriptor whose turn was cut short by a break waits behind the others. -/
def InLine (m₀ : Machine H) (steps : List (Transition H)) (m : Machine H) : Prop :=
  ∃ rest, turns steps ++ rest = m₀.queue.filter (fun fd => !struck steps fd) ∧
    (m.queue = rest ∨ m.loop.broken = true ∧
      (∃ phase, m.control = .dispatching phase ∧ phase.turn? = none) ∧
        ∃ fd, (turns steps).getLast? = some fd ∧ m.queue = rest ++ [fd])

/-- What has been done since a pass over ready descriptors began at `m₀`. -/
structure WorkingOff (m₀ : Machine H) (steps : List (Transition H)) (m : Machine H) : Prop where
  line : InLine m₀ steps m
  current : ∀ turn, m.control.turn? = some turn → (turns steps).getLast? = some turn.fd
  fired : (firedDirections steps ++ m.control.left).Sublist
    ((turns steps).flatMap Direction.ordered)
  chores : steps.countP (·.isChore) + m.chores ≤ m₀.chores
  stage : m.control.serves = true ∨ m.control = .dispatching (.timeouts m.clock []) ∧
    (m.queue = [] ∨ m.loop.broken = true)

theorem workingOff_nil
    (hc : m.control = .dispatching .ready) :
    WorkingOff m [] m where
  line := ⟨m.queue, (List.filter_true _).symm, .inl rfl⟩
  current turn hturn := by
    rw [hc] at hturn
    cases hturn
  fired := by
    rw [hc]
    exact .slnil
  chores := (Nat.zero_add _).le
  stage := .inl (by rw [hc]; rfl)

theorem begun?_of_begins
    {turn : Turn} (hc : m.control = .dispatching .ready)
    (hc' : m'.control = .dispatching (.turn turn)) :
    Transition.begun? ⟨m, act, m'⟩ = some turn.fd := by
  simp only [Transition.begun?, hc, hc']
  rfl

theorem begun?_eq_none
    (hturn : m.control = .dispatching .ready → m'.control.turn? = none) :
    Transition.begun? ⟨m, act, m'⟩ = none := by
  unfold Transition.begun?
  split
  next hc =>
      change m'.control.turn?.map _ = none
      rw [hturn hc, Option.map_none]
  next =>
      rfl

/-- A turn begins only where a descriptor is taken off the queue. -/
theorem ReadyMove.begun?_cases
    (h : ReadyMove m act m') :
    Transition.begun? ⟨m, act, m'⟩ = none ∨
    ∃ turn, act = .advance ∧ m.control = .dispatching .ready ∧ m.loop.broken = false ∧
      m'.control = .dispatching (.turn turn) ∧ m.queue = turn.fd :: m'.queue := by
  cases h with
  | begins hc hbroken _ hc' hqueue =>
      exact .inr ⟨_, rfl, hc, hbroken, hc', hqueue⟩
  | ends _ _ =>
      exact .inl (begun?_eq_none fun _ => rfl)
  | takes hc _ _ _ _ _ | leaves hc _ _ _ =>
      exact .inl (begun?_eq_none fun hready => nomatch hc.symm.trans hready)
  | delivers hc hphase _ _ _ _ _ =>
      refine .inl (begun?_eq_none fun hready => ?_)
      cases hc.symm.trans hready
      cases hphase
  | apart _ hphase _ _ _ =>
      refine .inl (begun?_eq_none fun hready => ?_)
      rw [Control.turn?, hphase, hready]
      rfl

/-- What is cleared is struck out of the rest of the queue. -/
theorem strikes
    {rest : List Int} {s : Transition H} (hnodup : m₀.queue.Nodup)
    (hrest : turns steps ++ rest = m₀.queue.filter (fun fd => !struck steps fd))
    (hbegun : s.begun? = none) :
    turns (steps ++ [s]) ++ rest.filter (fun fd => !s.act.clears fd) =
      m₀.queue.filter fun fd => !struck (steps ++ [s]) fd := by
  have hdisjoint : (turns steps).Disjoint rest :=
    List.disjoint_of_nodup_append (hrest ▸ hnodup.filter _)
  have hturns : (turns steps).filter (fun fd => decide (fd ∈ turns steps) || !s.act.clears fd) =
      turns steps :=
    List.filter_eq_self.2 fun fd hfd => by simp [hfd]
  have hleft : rest.filter (fun fd => decide (fd ∈ turns steps) || !s.act.clears fd) =
      rest.filter fun fd => !s.act.clears fd :=
    List.filter_congr fun fd hfd => by rw [decide_eq_false (hdisjoint.symm hfd), Bool.false_or]
  calc turns (steps ++ [s]) ++ rest.filter (fun fd => !s.act.clears fd)
      = (turns steps ++ rest).filter fun fd =>
          decide (fd ∈ turns steps) || !s.act.clears fd := by
        rw [List.filter_append, hturns, hleft, turns_snoc_of_none hbegun]
    _ = m₀.queue.filter fun fd => !struck (steps ++ [s]) fd := by
        rw [hrest, List.filter_filter]
        refine List.filter_congr fun fd _ => ?_
        have hother : (none != some fd) = true := rfl
        rw [struck_snoc, hbegun, hother, Bool.true_and, Bool.not_or, Bool.not_and, Bool.not_not,
          Bool.and_comm]

/-- The queue goes on as it was, but for what is cleared. -/
theorem InLine.kept
    (h : InLine m₀ steps m) (hnodup : m₀.queue.Nodup)
    (hbegun : Transition.begun? ⟨m, act, m'⟩ = none)
    (hqueue : m'.queue = m.queue.filter fun fd => !act.clears fd)
    (hcut : m.loop.broken = true → ∀ phase, m.control = .dispatching phase →
      phase.turn? = none → m'.loop.broken = true ∧ (∀ fd, act.clears fd = false) ∧
        ∃ phase', m'.control = .dispatching phase' ∧ phase'.turn? = none) :
    InLine m₀ (steps ++ [⟨m, act, m'⟩]) m' := by
  obtain ⟨rest, hrest, hline⟩ := h
  refine ⟨_, strikes hnodup hrest hbegun, ?_⟩
  rcases hline with rfl | ⟨hbroken, ⟨phase, hc, hphase⟩, fd, hlast, hline⟩
  · exact .inl hqueue
  · obtain ⟨hbroken', hclears, hc'⟩ := hcut hbroken phase hc hphase
    have hkept : ∀ l : List Int, l.filter (fun fd => !act.clears fd) = l := fun l =>
      List.filter_eq_self.2 fun fd _ => by rw [hclears fd, Bool.not_false]
    refine .inr ⟨hbroken', hc', fd, ?_, ?_⟩
    · rw [turns_snoc_of_none hbegun, hlast]
    · rw [hqueue, hline, hkept, hkept]

/-- During a turn no turn has been cut short. -/
theorem InLine.turns_append_queue
    {phase : Phase H} (h : InLine m₀ steps m) (hc : m.control = .dispatching phase)
    (hwhole : phase.turn?.isSome = true ∨ m.loop.broken = false) :
    turns steps ++ m.queue = m₀.queue.filter fun fd => !struck steps fd := by
  obtain ⟨rest, hrest, rfl | ⟨hbroken, ⟨phase', hc', hphase⟩, -⟩⟩ := h
  · exact hrest
  · cases hc.symm.trans hc'
    rw [hphase, hbroken] at hwhole
    rcases hwhole with hwhole | hwhole <;> cases hwhole

theorem InLine.begins
    {turn : Turn} (h : InLine m₀ steps m) (hc : m.control = .dispatching .ready)
    (hbroken : m.loop.broken = false) (hc' : m'.control = .dispatching (.turn turn))
    (hqueue : m.queue = turn.fd :: m'.queue) :
    InLine m₀ (steps ++ [⟨m, .advance, m'⟩]) m' := by
  have hline := h.turns_append_queue hc (.inr hbroken)
  refine ⟨m'.queue, ?_, .inl rfl⟩
  rw [turns_snoc, begun?_of_begins hc hc', Option.toList_some, List.append_assoc,
    List.singleton_append, ← hqueue, hline]
  refine List.filter_congr fun fd _ => ?_
  rw [struck_snoc]
  simp [Act.clears]

/-- A turn ends, and what a break has left of it is queued again. -/
theorem InLine.leaves
    {turn : Turn} (h : InLine m₀ steps m) (hnodup : m₀.queue.Nodup)
    (hbegun : Transition.begun? ⟨m, .advance, m'⟩ = none)
    (hlast : (turns steps).getLast? = some turn.fd)
    (hc : m.control = .dispatching (.turn turn)) (hc' : m'.control = .dispatching .ready)
    (hbroken : m'.loop.broken = m.loop.broken)
    (hqueue : m'.queue = m.queue ∨ m.loop.broken = true ∧ m'.queue = m.queue ++ [turn.fd]) :
    InLine m₀ (steps ++ [⟨m, .advance, m'⟩]) m' := by
  have hline := h.turns_append_queue hc (.inl rfl)
  have hrest := strikes hnodup hline hbegun
  rw [filter_not_clears fun _ => rfl] at hrest
  refine ⟨m.queue, hrest, hqueue.imp id ?_⟩
  rintro ⟨hbreak, happend⟩
  refine ⟨hbroken.trans hbreak, ⟨.ready, hc', rfl⟩, turn.fd, ?_, happend⟩
  rw [turns_snoc_of_none hbegun, hlast]

theorem WorkingOff.line_of_none
    (h : WorkingOff m₀ steps m) (hnodup : m₀.queue.Nodup) (hmove : ReadyMove m act m')
    (hbegun : Transition.begun? ⟨m, act, m'⟩ = none) :
    InLine m₀ (steps ++ [⟨m, act, m'⟩]) m' := by
  cases hmove with
  | begins hc _ _ hc' _ =>
      cases hbegun.symm.trans (begun?_of_begins hc hc')
  | ends _ _ =>
      refine h.line.kept hnodup hbegun (filter_not_clears (fun _ => rfl) m).symm ?_
      intro hbroken _ _ _
      exact ⟨hbroken, fun _ => rfl, _, rfl, rfl⟩
  | takes hc _ hact _ _ hqueue =>
      have hclears : ∀ fd, act.clears fd = false := by
        rcases hact with rfl | ⟨reaction, rfl⟩ <;> exact fun _ => rfl
      refine h.line.kept hnodup hbegun (hqueue.trans (filter_not_clears hclears m).symm) ?_
      rintro - phase hphase hnone
      cases hc.symm.trans hphase
      cases hnone
  | leaves hc hc' hbroken hqueue =>
      exact h.line.leaves hnodup hbegun (h.current _ (by rw [hc]; rfl)) hc hc' hbroken hqueue
  | delivers hc _ hturn _ _ _ hqueue =>
      refine h.line.kept hnodup hbegun
        (hqueue.trans (filter_not_clears (fun _ => rfl) m).symm) ?_
      rintro - phase hphase hnone
      cases hc.symm.trans hphase
      cases hturn.symm.trans hnone
  | apart _ _ hbroken hopen hqueue =>
      refine h.line.kept hnodup hbegun hqueue ?_
      intro hbreak phase hc hnone
      rcases hopen with hopen | ⟨hsame, hclears⟩
      · rw [hc] at hopen
        cases hopen
      · exact ⟨hbroken hbreak, hclears, phase, hsame.trans hc, hnone⟩

/-- A move takes the directions of the turn under way in their order. -/
theorem ReadyMove.left_of_none
    (h : ReadyMove m act m') (hbegun : Transition.begun? ⟨m, act, m'⟩ = none) :
    (∀ turn', m'.control.turn? = some turn' →
      ∃ turn, m.control.turn? = some turn ∧ turn'.fd = turn.fd) ∧
    (act.fired?.toList ++ m'.control.left).Sublist m.control.left := by
  have hsame : act.fired? = none → m'.control.turn? = m.control.turn? →
      (∀ turn', m'.control.turn? = some turn' →
        ∃ turn, m.control.turn? = some turn ∧ turn'.fd = turn.fd) ∧
      (act.fired?.toList ++ m'.control.left).Sublist m.control.left := by
    intro hfired hturn
    rw [hfired, Control.left, hturn, ← Control.left]
    exact ⟨fun turn' hturn' => ⟨turn', hturn', rfl⟩, .refl _⟩
  cases h with
  | begins hc _ _ hc' _ =>
      cases hbegun.symm.trans (begun?_of_begins hc hc')
  | ends _ _ =>
      exact ⟨nofun, List.nil_sublist _⟩
  | @takes _ turn a _ hc hfirst hact hturn _ _ =>
      have hbefore : m.control.turn? = some turn := by
        rw [hc]
        rfl
      refine ⟨fun turn' hturn' => ?_, ?_⟩
      · cases hturn.symm.trans hturn'
        exact ⟨turn, hbefore, rfl⟩
      · rw [Control.left, Control.left, hbefore, hturn, Option.map_some, Option.map_some,
          Option.getD_some, Option.getD_some, Directions.toList_eq_cons hfirst, List.map_cons]
        rcases hact with rfl | ⟨reaction, rfl⟩
        · exact List.sublist_cons_self _ _
        · exact .refl _
  | leaves _ hc' _ _ =>
      have hnone : m'.control.turn? = none := by
        rw [hc']
        rfl
      rw [Control.left, hnone]
      exact ⟨nofun, List.nil_sublist _⟩
  | delivers hc _ hturn hturn' _ _ _ =>
      refine hsame rfl (hturn'.trans ?_)
      rw [hc]
      exact hturn.symm
  | apart hact hphase _ _ _ =>
      refine hsame ?_ (by rw [Control.turn?, hphase, Control.turn?])
      cases act <;> first | rfl | cases hact

theorem WorkingOff.fired_of_none
    (h : WorkingOff m₀ steps m) (hmove : ReadyMove m act m')
    (hbegun : Transition.begun? ⟨m, act, m'⟩ = none) :
    (firedDirections (steps ++ [⟨m, act, m'⟩]) ++ m'.control.left).Sublist
      ((turns (steps ++ [⟨m, act, m'⟩])).flatMap Direction.ordered) := by
  rw [turns_snoc_of_none hbegun, firedDirections_snoc, List.append_assoc]
  exact ((hmove.left_of_none hbegun).2.append_left _).trans h.fired

theorem WorkingOff.chores_move
    (h : WorkingOff m₀ steps m) (hmove : ReadyMove m act m') :
    List.countP (fun s : Transition H => s.isChore) (steps ++ [⟨m, act, m'⟩]) + m'.chores ≤
      m₀.chores := by
  have hbefore := h.chores
  have hle := hmove.chores_le
  rw [List.countP_append, List.countP_singleton]
  split
  next hcounts =>
      rw [Transition.isChore, Bool.and_eq_true, Bool.not_eq_true'] at hcounts
      have hlt := hmove.chores_lt hcounts.1 hcounts.2
      omega
  next =>
      omega

theorem WorkingOff.begins
    {turn : Turn} (h : WorkingOff m₀ steps m) (hmove : ReadyMove m .advance m')
    (hserves : m.control.serves = true) (hc : m.control = .dispatching .ready)
    (hbroken : m.loop.broken = false) (hc' : m'.control = .dispatching (.turn turn))
    (hqueue : m.queue = turn.fd :: m'.queue) :
    WorkingOff m₀ (steps ++ [⟨m, .advance, m'⟩]) m' := by
  have hturns : turns (steps ++ [⟨m, .advance, m'⟩]) = turns steps ++ [turn.fd] := by
    rw [turns_snoc, begun?_of_begins hc hc', Option.toList_some]
  have hturn : m'.control.turn? = some turn := by
    rw [hc']
    rfl
  refine ⟨h.line.begins hc hbroken hc' hqueue, ?_, ?_, h.chores_move hmove,
    hmove.stage hserves⟩
  · intro turn' hturn'
    cases hturn.symm.trans hturn'
    rw [hturns, List.getLast?_concat]
  · have hfired := h.fired
    have hready : m.control.left = [] := by
      rw [hc]
      rfl
    have hleft : m'.control.left = turn.pending.toList.map (turn.fd, ·) := by
      rw [Control.left, hturn]
      rfl
    rw [hready, List.append_nil] at hfired
    have hsame : firedDirections (steps ++ [⟨m, .advance, m'⟩]) = firedDirections steps :=
      (firedDirections_snoc steps _).trans (List.append_nil _)
    rw [hturns, hsame, hleft, List.flatMap_append, List.flatMap_singleton]
    exact hfired.append (List.filter_sublist.map _)

/-- One more move of a pass. -/
theorem WorkingOff.move
    (h : WorkingOff m₀ steps m) (hnodup : m₀.queue.Nodup) (hserves : m.control.serves = true)
    (hmove : ReadyMove m act m') :
    WorkingOff m₀ (steps ++ [⟨m, act, m'⟩]) m' := by
  rcases hmove.begun?_cases with hbegun | ⟨turn, rfl, hc, hbroken, hc', hqueue⟩
  · refine ⟨h.line_of_none hnodup hmove hbegun, ?_, h.fired_of_none hmove hbegun,
      h.chores_move hmove, hmove.stage hserves⟩
    intro turn' hturn'
    obtain ⟨turn, hturn, hfd⟩ := (hmove.left_of_none hbegun).1 turn' hturn'
    rw [turns_snoc_of_none hbegun, h.current turn hturn, hfd]
  · exact h.begins hmove hserves hc hbroken hc' hqueue

theorem Course.workingOff
    (hcourse : Course m₀ steps m') (h : m₀.Sound) (hc : m₀.control = .dispatching .ready)
    (hserves : ∀ s ∈ steps, s.before.control.serves = true) :
    WorkingOff m₀ steps m' := by
  induction hcourse with
  | nil =>
      exact workingOff_nil hc
  | @snoc m₁ m₂ act steps hfirst hmove ih =>
      have hlast : m₁.control.serves = true :=
        hserves ⟨m₁, act, m₂⟩ (List.mem_append_right _ (List.mem_singleton.2 rfl))
      have hfirst' := ih fun s hs => hserves s (List.mem_append_left _ hs)
      exact hfirst'.move h.table.nodup_queue hlast
        (readyMove_move (hfirst.run.sound h) hlast hmove)

/-- What a pass over ready descriptors has come to. -/
structure WorkedOff (m₀ : Machine H) (steps : List (Transition H)) (m : Machine H) : Prop where
  /-- The descriptors that were not cleared before their turn have had it in the order of the
  queue, up to those that are left.  If a break has cut the last turn short, that descriptor
  is queued again. -/
  served : ∃ rest, turns steps ++ rest = m₀.queue.filter (fun fd => !struck steps fd) ∧
    (m.queue = rest ∨ m.loop.broken = true ∧
      ∃ fd, (turns steps).getLast? = some fd ∧ m.queue = rest ++ [fd])
  once : (turns steps).Nodup
  /-- The directions of each descriptor were run one after the other, none of them twice. -/
  directions : (firedDirections steps).Sublist ((turns steps).flatMap Direction.ordered)
  /-- Each descriptor costs the dispatcher five moves at most, apart from the delivery of
  signals, and the end of the pass costs it one. -/
  bounded : steps.countP (·.isChore) ≤ 5 * m₀.queue.length + 1
  /-- Only the host can keep the dispatcher from going on. -/
  host : LaidTo (· = .host) m.step
  /-- The pass ends when the queue is empty, or the loop is broken. -/
  ends : m.control.serves = false → m.control = .dispatching (.timeouts m.clock []) ∧
    (m.queue = [] ∨ m.loop.broken = true)

theorem chores_ready_le
    (hc : m.control = .dispatching .ready) :
    m.chores ≤ 5 * m.queue.length + 1 := by
  have hready : m.control.chores = 1 := by
    rw [hc]
    rfl
  rw [chores, hready]
  split <;> omega

theorem WorkingOff.workedOff
    (h : WorkingOff m₀ steps m) (hnodup : m₀.queue.Nodup)
    (hc : m₀.control = .dispatching .ready) (hsound : m.Sound) (hlinked : m.timing.Linked) :
    WorkedOff m₀ steps m := by
  obtain ⟨rest, hrest, hline⟩ := h.line
  have hall : (turns steps ++ rest).Nodup := hrest ▸ hnodup.filter _
  refine ⟨⟨rest, hrest, ?_⟩, hall.of_append_left, ?_, ?_, hsound.laidTo_step hlinked, ?_⟩
  · exact hline.imp id (And.imp_right And.right)
  · exact (List.sublist_append_left _ _).trans h.fired
  · have hle := chores_ready_le hc
    have hcount := h.chores
    omega
  · intro hserves
    refine h.stage.resolve_left ?_
    rw [hserves]
    exact Bool.false_ne_true

/-- A pass over ready descriptors gives each its turn in the order in which they arrived,
except for those that are cleared before it and those that are left when the loop is broken.
In a turn directions are run in the order receive, send, error.  Whatever its handlers do,
they put no descriptor in the queue, and the pass ends. -/
theorem pass_serves_in_order
    (hbuilt : Built m) (hprior : Course m prior m₀) (hc : m₀.control = .dispatching .ready) :
    (∀ steps m', Course m₀ steps m' → (∀ s ∈ steps, s.before.control.serves = true) →
      Lined (prior ++ steps) m' ∧ WorkedOff m₀ steps m') ∧
    ∀ f : ℕ → Transition H, (f 0).before = m₀ → Endless f →
      (∀ n, ∃ k ≥ n, (f k).act.isDispatchers = true) →
        ∃ n, (f n).after.control = .dispatching (.timeouts (f n).after.clock []) := by
  have hsound : m₀.Sound := hprior.run.sound hbuilt.sound
  have hlinked := hprior.run.linked hbuilt.sound hbuilt.linked
  refine ⟨fun steps m' hcourse hserves => ⟨(hprior.append hcourse).lined hbuilt, ?_⟩, ?_⟩
  · exact (hcourse.workingOff hsound hc hserves).workedOff hsound.table.nodup_queue hc
      (hcourse.run.sound hsound) (hcourse.run.linked hsound hlinked)
  · rintro f rfl hf hoften
    exact exists_ends_of_endless hsound (by rw [hc]; rfl) hf hoften

/-- Four descriptors are reported in one wait. -/
def crowdLog : List (Act Nat) :=
  [Act.request (.setFd 4 .recv .unlimited 1) .done, .request (.setFd 5 .recv .unlimited 2) .done,
    .request (.setFd 6 (.recv ∪ .send) .unlimited 3) .done,
    .request (.setFd 7 .recv .unlimited 4) .done, .request .dispatch .done] ++
  List.replicate 7 Act.advance ++
  [Act.wait [⟨4, ⟨true, false, false⟩⟩, ⟨5, ⟨true, false, false⟩⟩, ⟨6, ⟨true, true, false⟩⟩,
    ⟨7, ⟨true, false, false⟩⟩]] ++
  List.replicate 3 Act.advance

/-- The first handler clears the second descriptor and registers it anew; the third
descriptor breaks the loop before its second direction. -/
def cutShortLog : List (Act Nat) :=
  [.advance, .fire 4 .recv (.call 1), .request (.clearFd 5) .done,
    .request (.setFd 5 .recv .unlimited 2) .done, .resume, .advance, .advance,
    .fire 6 .recv (.call 3), .request .setBreak .done, .resume, .advance, .advance]

theorem pass_serves_in_order_cutShortLog :
    ∃ (m m₀ m' : Machine Nat) (prior steps : List (Transition Nat)), Built m ∧
      Course m prior m₀ ∧ prior.map (·.act) = crowdLog ∧ Course m₀ steps m' ∧
      steps.map (·.act) = cutShortLog ∧ m₀.queue = [4, 5, 6, 7] ∧ turns steps = [4, 6] ∧
      m'.queue = [7, 6] ∧ Lined (prior ++ steps) m' ∧ WorkedOff m₀ steps m' ∧
      ∀ f : ℕ → Transition Nat, (f 0).before = m₀ → Endless f →
        (∀ n, ∃ k ≥ n, (f k).act.isDispatchers = true) →
          ∃ n, (f n).after.control = .dispatching (.timeouts (f n).after.clock []) := by
  let m := scripted Nat [{ events := [(4, { input := true }), (5, { input := true }),
    (6, { input := true, output := true }), (7, { input := true })] }]
  have hbuilt : Built m := built_scripted Nat _
  obtain ⟨prior, m₀, hprior, -, hcrowd, ⟨hc, hqueue⟩, htrail⟩ :=
    exists_timely_course_of_trail (m := m) crowdLog
      (fun _ m₀ => (m₀.control = .dispatching .ready ∧ m₀.queue = [4, 5, 6, 7]) ∧
        (m₀.trail [.step, .step, .request (.clearFd 5), .request (.setFd 5 .recv .unlimited 2),
            .resume, .step, .step, .step, .request .setBreak, .resume, .step, .step]).map
          (fun steps => (steps.map (·.act), decide (turns steps = [4, 6] ∧
            (steps.getLast?.map fun s => s.after.queue) = some [7, 6] ∧
              ∀ s ∈ steps, s.before.control.serves = true))) = some (cutShortLog, true))
      (List.flatten [
        [.request (.setFd 4 .recv .unlimited 1), .request (.setFd 5 .recv .unlimited 2),
          .request (.setFd 6 (.recv ∪ .send) .unlimited 3),
          .request (.setFd 7 .recv .unlimited 4), .request .dispatch],
        List.replicate 11 .step])
      (by decide +kernel)
  obtain ⟨steps, m', hcourse, hview⟩ := exists_course_of_trail _ _ htrail
  obtain ⟨hlog, hview⟩ := Prod.mk.inj hview
  obtain ⟨hturns, hlast, hserves⟩ := of_decide_eq_true hview
  obtain ⟨s, hs, hqueue'⟩ := Option.map_eq_some_iff.1 hlast
  obtain ⟨earlier, rfl⟩ := List.getLast?_eq_some_iff.1 hs
  obtain ⟨-, -, rfl⟩ := hcourse.last
  obtain ⟨hpass, hends⟩ := pass_serves_in_order hbuilt hprior hc
  obtain ⟨hlined, hworked⟩ := hpass _ _ hcourse hserves
  exact ⟨m, m₀, _, prior, _, hbuilt, hprior, hcrowd, hcourse, hlog, hqueue, hturns, hqueue',
    hlined, hworked, hends⟩

end Machine
end CallbackLoop
