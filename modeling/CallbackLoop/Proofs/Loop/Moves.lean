import CallbackLoop.Loop.Build
import CallbackLoop.Loop.Dispatch
import CallbackLoop.Loop.Request

/-!
# Runs of a machine

Code outside of dispatch and running handlers make requests, handlers return,
the dispatcher moves on its own, and the world may do anything to the host in
between.  A run is any sequence of such moves.  Its log says for every move what
happened, so that statements about the order of events are statements about
logs.
-/

namespace CallbackLoop

variable {H : Type}

deriving instance DecidableEq for Reaction, Request

/-- What happens in one move. -/
inductive Act (H : Type) where
  | request (request : Request H) (reply : Reply)
  /-- The running handler returns. -/
  | resume
  /-- The reaction bound to a direction of a descriptor starts. -/
  | fire (fd : Int) (direction : Direction) (reaction : Reaction H)
  /-- The backend wait reports events. -/
  | wait (events : List Event)
  /-- The dispatcher does anything else. -/
  | advance
  | world
deriving DecidableEq

/-- The turn that a phase belongs to. -/
def Phase.turn? : Phase H → Option Turn
  | turn t => some t
  | deliver _ t => some t
  | signal _ _ _ t => some t
  | _ => none

/-- The slot of the descriptor whose handlers are run in a phase. -/
def Phase.slot? : Phase H → Option Nat
  | timedOut slot _ _ _ => some slot
  | phase => phase.turn?.map (·.slot)

namespace Control

/-- The phase that the dispatcher is in, or goes on with. -/
def phase? : Control H → Option (Phase H)
  | idle => none
  | dispatching phase => some phase
  | running _ next => some next

/-- The turn that is under way. -/
def turn? (c : Control H) : Option Turn :=
  c.phase?.bind Phase.turn?

/-- The slot of the descriptor whose handlers are run. -/
def slot? (c : Control H) : Option Nat :=
  c.phase?.bind Phase.slot?

/-- Whether requests can be made: the dispatcher is not in control. -/
def isOpen : Control H → Bool
  | dispatching _ => false
  | _ => true

end Control

namespace Machine

/-- What the clock of the host shows. -/
def clock (m : Machine H) : Nat :=
  m.host.kernel.clock

theorem resume_eq
    {m : Machine H} {invocation : Invocation H} {next : Phase H}
    (hc : m.control = .running invocation next) :
    m.resume = m.goTo next := by
  rw [resume, hc]

/-- The events that a wait reports now. -/
def reports (m : Machine H) : List Event :=
  match m.loop.backend.wait m.host (m.loop.waitBound m.host.kernel.clock) with
  | (.ok events, _) => events
  | (.error _, _) => []

/-- The reaction that starts in a move of the dispatcher: a handler is called for
a direction, or signals are delivered. -/
def started? (m m' : Machine H) : Option (Int × Direction × Reaction H) :=
  match m.control, m'.control with
  | .dispatching (.turn _), .running (.ready handler fd a) _ => some (fd, a, .call handler)
  | .dispatching (.turn turn), .dispatching (.deliver _ _) =>
      turn.pending.first?.map fun a => (turn.fd, a, .deliver)
  | _, _ => none

/-- What happens in a move of the dispatcher. -/
def act (m m' : Machine H) : Act H :=
  match m.control with
  | .dispatching .wait => .wait m.reports
  | _ =>
      match m.started? m' with
      | some (fd, a, reaction) => .fire fd a reaction
      | none => .advance

theorem act_ne_wait
    {m m' : Machine H} {phase : Phase H} (hc : m.control = .dispatching phase) (hphase : phase ≠ .wait)
    (events : List Event) :
    m.act m' ≠ .wait events := by
  unfold act
  split
  next hwait =>
      cases hc.symm.trans hwait
      exact absurd rfl hphase
  next =>
      split <;> rintro ⟨⟩

/-- One move. -/
inductive Move : Machine H → Act H → Machine H → Prop
  | request {m m' : Machine H} {r : Request H} {reply : Reply} :
      m.control.isOpen = true →
      m.perform r = .ok (reply, m') →
      Move m (.request r reply) m'
  | resume {m : Machine H} {invocation : Invocation H} {next : Phase H} :
      m.control = .running invocation next →
      Move m .resume m.resume
  | step {m m' : Machine H} {phase : Phase H} :
      m.control = .dispatching phase →
      m.step = .ok m' →
      Move m (m.act m') m'
  | world {m : Machine H} (host : Host) :
      Move m .world { m with host }

/-- A request is made while other code is in control. -/
theorem request_of_move
    {m m' : Machine H} {r : Request H} {reply : Reply} (hmove : Move m (.request r reply) m') :
    m.control.isOpen = true ∧ m.perform r = .ok (reply, m') := by
  generalize hact : Act.request r reply = act at hmove
  cases hmove with
  | request hopen hperform =>
      cases hact
      exact ⟨hopen, hperform⟩
  | resume | world =>
      cases hact
  | step _ _ =>
      unfold Machine.act at hact
      split at hact
      · cases hact
      · split at hact <;> cases hact

/-- Moves one after the other. -/
inductive Run : Machine H → List (Act H) → Machine H → Prop
  | nil {m : Machine H} :
      Run m [] m
  | cons {m m' m'' : Machine H} {act : Act H} {log : List (Act H)} :
      Move m act m' →
      Run m' log m'' →
      Run m (act :: log) m''

/-- A machine whose loop was just built and that code outside of dispatch
controls. -/
inductive Built : Machine H → Prop
  | mk {options : LoopOptions} {host host' : Host} {loop : Loop H} :
      options.build H host = .ok (.ok loop, host') →
      Built { host := host', loop }

theorem Built.control
    {m : Machine H} (h : Built m) :
    m.control = .idle := by
  cases h
  rfl

/-- A loop on select that was just built, on a host whose waits follow a script. -/
def scripted (H : Type) (script : List WaitEntry) : Machine H :=
  { host := { kernel := { script } }
    loop := { backend := .select {}, hub := 0, tick := 10 * Time.milli } }

theorem built_scripted
    (H : Type) (script : List WaitEntry) :
    Built (scripted H script) :=
  .mk (show LoopOptions.build H { backend := .select } (scripted H script).host =
    .ok (.ok _, (scripted H script).host) from rfl)

/-- What can be done next, without what it leads to. -/
inductive Cue (H : Type) where
  | request (request : Request H)
  | resume
  | step
  | world (host : Host)

/-- Follows a cue, unless it cannot be followed or ends the program. -/
def heed (m : Machine H) : Cue H → Option (Act H × Machine H)
  | .request r =>
      match m.control.isOpen, m.perform r with
      | true, .ok (reply, m') => some (.request r reply, m')
      | _, _ => none
  | .resume =>
      match m.control with
      | .running _ _ => some (.resume, m.resume)
      | _ => none
  | .step =>
      match m.control, m.step with
      | .dispatching _, .ok m' => some (m.act m', m')
      | _, _ => none
  | .world host => some (.world, { m with host })

theorem move_of_heed
    {m m' : Machine H} {cue : Cue H} {act : Act H} (h : m.heed cue = some (act, m')) :
    Move m act m' := by
  cases cue with
  | request r =>
      simp only [heed] at h
      split at h
      next hopen hperform =>
          cases h
          exact .request hopen hperform
      next =>
          cases h
  | resume =>
      simp only [heed] at h
      split at h
      next hc =>
          cases h
          exact .resume hc
      next =>
          cases h
  | step =>
      simp only [heed] at h
      split at h
      next hc hstep =>
          cases h
          exact .step hc hstep
      next =>
          cases h
  | world host =>
      cases h
      exact .world host

/-- What every move keeps, a run keeps. -/
theorem Run.induction
    {P : Machine H → Prop} (hmove : ∀ {m act m'}, P m → Move m act m' → P m')
    {m m' : Machine H} {log : List (Act H)} (hrun : Run m log m') (h : P m) :
    P m' := by
  induction hrun with
  | nil =>
      exact h
  | cons hfirst _ ih =>
      exact ih (hmove h hfirst)

/-- A run is cut wherever its log is cut. -/
theorem Run.split
    {m m'' : Machine H} {log log' : List (Act H)} (hrun : Run m (log ++ log') m'') :
    ∃ m', Run m log m' ∧ Run m' log' m'' := by
  induction log generalizing m with
  | nil =>
      exact ⟨m, .nil, hrun⟩
  | cons act log ih =>
      cases hrun with
      | cons hfirst hrest =>
          obtain ⟨m', hrun, hrun'⟩ := ih hrest
          exact ⟨m', .cons hfirst hrun, hrun'⟩

theorem Run.split_last
    {m m'' : Machine H} {log : List (Act H)} {act : Act H} (hrun : Run m (log ++ [act]) m'') :
    ∃ m', Run m log m' ∧ Move m' act m'' := by
  obtain ⟨m', hrun, hone⟩ := hrun.split
  cases hone with
  | cons hmove hnil =>
      cases hnil
      exact ⟨m', hrun, hmove⟩

end Machine
end CallbackLoop
