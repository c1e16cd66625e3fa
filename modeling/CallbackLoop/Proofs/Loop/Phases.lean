import CallbackLoop.Proofs.Loop.Conservation

/-!
# From phase to phase

`Leads` says where a move of the dispatcher leads from each phase and which handler it
starts on the way.  What a move does to the descriptors and to the queues is the matter
of other modules; this one is about who is in control.
-/

namespace CallbackLoop

variable {H : Type}

/-- Whether dispatch returns from a phase once the loop is broken. -/
def Phase.returns : Phase H → Bool
  | start => true
  | called => true
  | settled => true
  | _ => false

namespace Machine

variable {m m' : Machine H} {act : Act H}

/-- Who is in control after a move of the dispatcher. -/
inductive Leads (m : Machine H) : Phase H → Control H → Prop
  | returns {phase : Phase H} :
      phase.returns = true →
      m.loop.broken = true →
      Leads m phase .idle
  | calls {handler : H} :
      m.loop.broken = false →
      Leads m .start (.running (.callback handler) .called)
  | skipsCallback :
      m.loop.broken = false →
      Leads m .start (.dispatching .called)
  | opens :
      m.loop.broken = false →
      Leads m .called (.dispatching (.timers .early m.clock))
  | fires {pass : TimerPass} {now : Nat} {handler : H} :
      m.loop.broken = false →
      Leads m (.timers pass now) (.running (.timer handler) (.timers pass now))
  | endsTimers {pass : TimerPass} {now : Nat} :
      Leads m (.timers pass now) (.dispatching pass.next)
  | begins {slot : Nat} {d : Descriptor (Reaction H) H} :
      m.loop.broken = false →
      m.loop.table.get? slot = some d →
      Leads m .ready (.dispatching (.turn ⟨slot, d.fd, d.clears, d.ready⟩))
  | endsReady :
      Leads m .ready (.dispatching (.timeouts m.clock []))
  | skipsDirection {turn : Turn} {a : Direction} :
      m.loop.broken = false →
      Leads m (.turn turn) (.dispatching (.turn { turn with pending := turn.pending.erase a }))
  | handles {turn : Turn} {a : Direction} {handler : H} :
      m.loop.broken = false →
      Leads m (.turn turn)
        (.running (.ready handler turn.fd a) (.turn { turn with pending := turn.pending.erase a }))
  | drains {turn : Turn} {a : Direction} {signos : List Int} :
      m.loop.broken = false →
      Leads m (.turn turn)
        (.dispatching (.deliver signos { turn with pending := turn.pending.erase a }))
  | endsTurn {turn : Turn} :
      Leads m (.turn turn) (.dispatching .ready)
  | endsDelivery {turn : Turn} :
      Leads m (.deliver [] turn) (.dispatching (.turn turn))
  | delivers {signo : Int} {signos : List Int} {turn : Turn} :
      Leads m (.deliver (signo :: signos) turn)
        (.dispatching (.signal signo (m.loop.signals.registeredFor signo) signos turn))
  | endsSignal {signo : Int} {signos : List Int} {turn : Turn} :
      Leads m (.signal signo [] signos turn) (.dispatching (.deliver signos turn))
  | signals {signo : Int} {r : Registration H} {left : List (Registration H)}
      {signos : List Int} {turn : Turn} :
      m.loop.signals.contains signo r.key = true →
      Leads m (.signal signo (r :: left) signos turn)
        (.running (.signal r.handler signo) (.signal signo left signos turn))
  | skipsSignal {signo : Int} {r : Registration H} {left : List (Registration H)}
      {signos : List Int} {turn : Turn} :
      m.loop.signals.contains signo r.key = false →
      Leads m (.signal signo (r :: left) signos turn)
        (.dispatching (.signal signo left signos turn))
  | passesOver {now : Nat} {fds fds' : List Int} :
      m.loop.broken = false →
      Leads m (.timeouts now fds) (.dispatching (.timeouts now fds'))
  | expires {now : Nat} {fds : List Int} {fd : Int} {slot : Nat}
      {d : Descriptor (Reaction H) H} {handler : H} :
      m.loop.broken = false →
      m.loop.table.slotOf? fd = some slot →
      m.loop.table.get? slot = some d →
      Leads m (.timeouts now fds) (.running (.timeout handler fd) (.timedOut slot d.clears now fds))
  | endsTimeouts {now : Nat} {fds : List Int} :
      Leads m (.timeouts now fds) (.dispatching (.timers .late m.clock))
  | settles {slot clears now : Nat} {fds : List Int} :
      Leads m (.timedOut slot clears now fds) (.dispatching (.timeouts now fds))
  | rests :
      m.loop.broken = false →
      Leads m .settled (.dispatching .wait)
  | wakes :
      Leads m .wait (.dispatching .start)

theorem leads_turn
    {turn : Turn} (hadvance : m.advanceTurn turn = .ok m') :
    Leads m (.turn turn) m'.control := by
  unfold advanceTurn at hadvance
  obtain ⟨d, -, hadvance⟩ := Except.bind_eq_ok_iff.1 hadvance
  have hend : m.endTurn turn = .ok m' → Leads m (.turn turn) m'.control := by
    intro hend
    obtain ⟨m₁, -, hend⟩ := Except.bind_eq_ok_iff.1 hend
    cases hend
    exact .endsTurn
  split at hadvance
  next =>
      exact hend hadvance
  next a _ =>
      split at hadvance
      next =>
          exact hend hadvance
      next hgo =>
          rw [Bool.or_eq_true, not_or, Bool.not_eq_true] at hgo
          dsimp only at hadvance
          split at hadvance
          next =>
              cases hadvance
              exact .skipsDirection hgo.1
          next =>
              split at hadvance <;> cases hadvance
              · exact .handles hgo.1
              · exact .drains hgo.1

theorem leads_expire
    {now : Nat} {fds : List Int} {fd : Int} {q : DeadlineQueue} (hbroken : m.loop.broken = false)
    (hexpire : { m with loop := { m.loop with timeouts := q } }.expire fd now fds = .ok m') :
    Leads m (.timeouts now fds) m'.control := by
  obtain ⟨slot, d, hslot, hd, hexpiry⟩ := expire_ok hexpire
  cases hexpiry with
  | deferred _ | dropped _ _ =>
      exact .passesOver hbroken
  | fired _ _ =>
      exact .expires hbroken hslot hd

/-- Where each move of the dispatcher leads. -/
theorem leads_advance
    {phase : Phase H} (hadvance : m.advance phase = .ok m') :
    Leads m phase m'.control := by
  cases phase with
  | start =>
      simp only [advance] at hadvance
      split at hadvance
      next hbroken =>
          cases hadvance
          exact .returns rfl hbroken
      next hbroken =>
          rw [Bool.not_eq_true] at hbroken
          split at hadvance <;> cases hadvance
          · exact .calls hbroken
          · exact .skipsCallback hbroken
  | called =>
      simp only [advance] at hadvance
      split at hadvance
      next hbroken =>
          cases hadvance
          exact .returns rfl hbroken
      next hbroken =>
          cases hadvance
          exact .opens (Bool.not_eq_true _ ▸ hbroken)
  | timers pass now =>
      simp only [advance] at hadvance
      split at hadvance
      next =>
          cases hadvance
          cases pass <;> exact .endsTimers
      next hbroken =>
          split at hadvance <;> cases hadvance
          · cases pass <;> exact .endsTimers
          · exact .fires (Bool.not_eq_true _ ▸ hbroken)
  | ready =>
      simp only [advance] at hadvance
      split at hadvance
      next =>
          cases hadvance
          exact .endsReady
      next hbroken =>
          unfold DescriptorTable.takeActive? at hadvance
          cases hactive : m.loop.table.active with
          | nil =>
              simp only [hactive] at hadvance
              cases hadvance
              exact .endsReady
          | cons slot active =>
              simp only [hactive] at hadvance
              obtain ⟨d, hd, rfl⟩ := beginTurn_ok hadvance
              exact .begins (Bool.not_eq_true _ ▸ hbroken) hd
  | turn turn =>
      exact leads_turn hadvance
  | deliver signos turn =>
      cases signos <;> cases hadvance
      · exact .endsDelivery
      · exact .delivers
  | signal signo left signos turn =>
      cases left with
      | nil =>
          cases hadvance
          exact .endsSignal
      | cons r left =>
          simp only [advance] at hadvance
          split at hadvance
          next hcontains =>
              cases hadvance
              exact .signals hcontains
          next hcontains =>
              cases hadvance
              exact .skipsSignal (Bool.not_eq_true _ ▸ hcontains)
  | timeouts now fds =>
      simp only [advance] at hadvance
      split at hadvance
      next =>
          cases hadvance
          exact .endsTimeouts
      next hbroken =>
          split at hadvance
          next =>
              cases hadvance
              exact .endsTimeouts
          next =>
              exact leads_expire (Bool.not_eq_true _ ▸ hbroken) hadvance
  | timedOut slot clears now fds =>
      obtain ⟨m₁, -, hadvance⟩ := Except.bind_eq_ok_iff.1 hadvance
      cases hadvance
      exact .settles
  | settled =>
      simp only [advance] at hadvance
      split at hadvance
      next hbroken =>
          cases hadvance
          exact .returns rfl hbroken
      next hbroken =>
          cases hadvance
          exact .rests (Bool.not_eq_true _ ▸ hbroken)
  | wait =>
      obtain ⟨m₁, -, hadvance⟩ := Except.bind_eq_ok_iff.1 hadvance
      cases hadvance
      exact .wakes

/-- A settled descriptor makes no difference to the break. -/
theorem broken_settle
    {slot clears : Nat} {pending : Directions} (hsettle : m.settle slot clears pending = .ok m') :
    m'.loop.broken = m.loop.broken := by
  obtain ⟨d, -, ⟨-, rfl⟩ | ⟨-, b, k, -, rfl⟩⟩ := settle_ok hsettle <;> rfl

/-- The dispatcher forgets a break only when dispatch returns. -/
theorem broken_advance
    {phase : Phase H} (h : m.Sound) (hc : m.control = .dispatching phase)
    (hadvance : m.advance phase = .ok m') :
    m' = m.finish ∨ m'.control.phase?.isSome = true ∧ m'.loop.broken = m.loop.broken := by
  have htable := h.table_of_dispatching hc
  cases phase with
  | start =>
      simp only [advance] at hadvance
      split at hadvance
      · cases hadvance
        exact .inl rfl
      · split at hadvance <;> cases hadvance <;> exact .inr ⟨rfl, rfl⟩
  | called | settled =>
      simp only [advance] at hadvance
      split at hadvance <;> cases hadvance
      · exact .inl rfl
      · exact .inr ⟨rfl, rfl⟩
  | timers pass now =>
      simp only [advance] at hadvance
      split at hadvance
      · cases hadvance
        exact .inr ⟨rfl, rfl⟩
      · split at hadvance <;> cases hadvance <;> exact .inr ⟨rfl, rfl⟩
  | ready =>
      simp only [advance] at hadvance
      split at hadvance
      · cases hadvance
        exact .inr ⟨rfl, rfl⟩
      · split at hadvance
        · cases hadvance
          exact .inr ⟨rfl, rfl⟩
        · obtain ⟨d, -, rfl⟩ := beginTurn_ok hadvance
          exact .inr ⟨rfl, rfl⟩
  | turn turn =>
      obtain ⟨d, -, hmove⟩ := advanceTurn_ok hadvance
      cases hmove with
      | ended _ hsettle =>
          have hbroken := broken_settle hsettle
          exact .inr ⟨rfl, hbroken⟩
      | unbound _ _ _ | called _ _ _ _ _ | delivered _ _ _ _ _ _ =>
          exact .inr ⟨rfl, rfl⟩
  | deliver signos turn =>
      cases signos <;> cases hadvance <;> exact .inr ⟨rfl, rfl⟩
  | signal signo left signos turn =>
      cases left with
      | nil =>
          cases hadvance
          exact .inr ⟨rfl, rfl⟩
      | cons r left =>
          simp only [advance] at hadvance
          split at hadvance <;> cases hadvance <;> exact .inr ⟨rfl, rfl⟩
  | timeouts now fds =>
      obtain ⟨t, q, hfold, -⟩ := follows_postpone now fds htable
      simp only [advance, hfold] at hadvance
      split at hadvance
      · cases hadvance
        exact .inr ⟨rfl, rfl⟩
      · split at hadvance
        · cases hadvance
          exact .inr ⟨rfl, rfl⟩
        · obtain ⟨slot, d, -, -, hexpiry⟩ := expire_ok hadvance
          cases hexpiry <;> exact .inr ⟨rfl, rfl⟩
  | timedOut slot clears now fds =>
      obtain ⟨m₁, hsettle, hadvance⟩ := Except.bind_eq_ok_iff.1 hadvance
      cases hadvance
      have hbroken := broken_settle hsettle
      exact .inr ⟨rfl, hbroken⟩
  | wait =>
      obtain ⟨m₁, hawait, hadvance⟩ := Except.bind_eq_ok_iff.1 hadvance
      cases hadvance
      obtain ⟨host, b, t, rfl, -⟩ := awaitEvents_sound htable hawait
      exact .inr ⟨rfl, rfl⟩

end Machine
end CallbackLoop
