import CallbackLoop.Proofs.Loop.Dispatcher
import CallbackLoop.Proofs.Signal.Upkeep

/-!
# The signal handlers of a machine

Requests to set and to unset a signal are the only moves that change the handlers of a
loop, and with them what its hub counts.  Everything else, a delivery included, leaves both
alone: `Machine.SignalChange` is the one inversion of a move for this.

From it follows what a log says about keys.  `Keyed` reads the handlers of a loop off the
requests that were granted: keys are issued in order and never twice, and what is
registered is what was set and not unset since.
-/

namespace CallbackLoop

variable {H : Type}

namespace Kernel

theorem upholds_applyMode
    (k : Kernel) (fd : Int) (flags : Flags) :
    k.Upholds (k.applyMode fd flags).2 := by
  unfold applyMode
  split
  · exact (modes_setNonblocking k fd _).upholds
  · exact .refl k

end Kernel

theorem BackendCall.upholds_apply
    (call : BackendCall) (b : Backend) (k : Kernel) (fd : Int) :
    k.Upholds (call.apply b k fd).2.2 := by
  cases b with
  | epoll e =>
      cases call with
      | register interest | modify interest =>
          exact k.upholds_epollControl e.number fd _
      | unregister =>
          have hupholds := k.upholds_epollControl e.number fd .delete
          unfold apply Backend.unregister EpollInstance.unregister
          dsimp only
          split
          next heq =>
              rw [heq] at hupholds
              exact hupholds
          next =>
              exact hupholds
  | select t =>
      cases call with
      | register interest =>
          unfold apply Backend.register
          dsimp only
          split <;> exact .refl k
      | modify interest =>
          unfold apply Backend.modify
          dsimp only
          split <;> exact .refl k
      | unregister =>
          exact .refl k

namespace Machine

variable {m m' m'' : Machine H} {act : Act H}

theorem upholds_call
    {call? : Option BackendCall} {fd : Int} {b : Backend} {k : Kernel}
    (hcall : m.call call? fd = (.ok (), b, k)) :
    m.host.kernel.Upholds k := by
  cases call? with
  | none =>
      cases hcall
      exact .refl _
  | some call =>
      have hupholds := call.upholds_apply m.loop.backend m.host.kernel fd
      have hcall' : call.apply m.loop.backend m.host.kernel fd = (.ok (), b, k) := hcall
      rw [hcall'] at hupholds
      exact hupholds

/-- The handlers of a loop, its hub and its pipe stay as they are, and so does what the host
keeps for all loops. -/
structure Aloof (m m' : Machine H) : Prop where
  signals : m'.loop.signals = m.loop.signals
  hub : m'.loop.hub = m.loop.hub
  pipe : m'.loop.pipe = m.loop.pipe
  host : m.host.Upholds m'.host

theorem Aloof.refl
    (m : Machine H) :
    m.Aloof m :=
  ⟨rfl, rfl, rfl, .refl _⟩

theorem Aloof.trans
    (h : m.Aloof m') (h' : m'.Aloof m'') :
    m.Aloof m'' where
  signals := h'.signals.trans h.signals
  hub := h'.hub.trans h.hub
  pipe := h'.pipe.trans h.pipe
  host := h.host.trans h'.host

/-- A move that does not touch the host either. -/
theorem Aloof.of_eq
    (hhost : m'.host = m.host) (hsignals : m'.loop.signals = m.loop.signals)
    (hhub : m'.loop.hub = m.loop.hub) (hpipe : m'.loop.pipe = m.loop.pipe) :
    m.Aloof m' :=
  ⟨hsignals, hhub, hpipe, hhost ▸ .refl _⟩

theorem aloof_patch
    {k : Kernel} (hkernel : m.host.kernel.Upholds k) (b : Backend)
    (t : DescriptorTable (Reaction H) H) (q : DeadlineQueue) :
    m.Aloof (m.patch k b t q) :=
  ⟨rfl, rfl, rfl, .of_kernel hkernel⟩

theorem aloof_clearFd
    {fd : Int} (hclear : m.clearFd fd = .ok m') :
    m.Aloof m' := by
  rcases clearFd_ok hclear with ⟨-, rfl⟩ | ⟨slot, d, b, k, -, -, hcall, rfl⟩
  · exact .refl m'
  · exact aloof_patch (upholds_call hcall) _ _ _

theorem Registers.aloof
    {fd : Int} {flags : Flags} {timeout : FdTimeout} {reaction : Reaction H}
    {d d' : Descriptor (Reaction H) H} {kernel : Kernel}
    (h : m.Registers fd flags timeout reaction m' d d' kernel) :
    m.Aloof m' := by
  obtain ⟨b, k, q, -, hcall, rfl⟩ := h.result
  have hmode := m.host.kernel.upholds_applyMode fd flags
  rw [h.mode] at hmode
  exact aloof_patch (hmode.trans (upholds_call hcall)) _ _ _

theorem aloof_settle
    {slot clears : Nat} {pending : Directions} (hsettle : m.settle slot clears pending = .ok m') :
    m.Aloof m' := by
  obtain ⟨d, -, ⟨-, rfl⟩ | ⟨-, b, k, hcall, rfl⟩⟩ := settle_ok hsettle
  · exact .of_eq rfl rfl rfl rfl
  · exact aloof_patch (upholds_call hcall) _ _ _

theorem TurnMove.aloof
    {turn : Turn} {d : Descriptor (Reaction H) H} (h : TurnMove m turn d m') :
    m.Aloof m' := by
  cases h with
  | ended _ hsettle =>
      exact (aloof_settle hsettle).trans (.of_eq rfl rfl rfl rfl)
  | unbound _ _ _ | called _ _ _ _ _ =>
      exact .of_eq rfl rfl rfl rfl
  | delivered _ _ _ _ _ hdrain =>
      have hupholds := m.host.kernel.upholds_drain turn.fd
      rw [hdrain] at hupholds
      exact ⟨rfl, rfl, rfl, .of_kernel hupholds⟩

theorem aloof_foldl_postpone
    (now : Nat) (fds : List Int) (m : Machine H) :
    m.Aloof (fds.foldl (postpone now) m) := by
  induction fds generalizing m with
  | nil =>
      exact .refl m
  | cons fd fds ih =>
      refine Aloof.trans ?_ (ih _)
      rcases postpone_cases now m fd with hsame | ⟨slot, d, -, -, -, -, heq⟩
      · rw [hsame]
        exact .refl m
      · rw [heq]
        exact .of_eq rfl rfl rfl rfl

theorem aloof_awaitEvents
    (hawait : m.awaitEvents = .ok m') :
    m.Aloof m' := by
  have hwait := m.loop.backend.upholds_wait m.host (m.loop.waitBound m.host.kernel.clock)
  unfold awaitEvents at hawait
  split at hawait
  next =>
      cases hawait
  next events host heq =>
      rw [heq] at hwait
      refine Except.foldlM_induction m.Aloof ?_ events (b := { m with host })
        ⟨rfl, rfl, rfl, hwait⟩ hawait
      intro m₁ event m₂ hm₁ henqueue
      rcases enqueue_ok henqueue with ⟨rfl, -⟩ | ⟨slot, d, b, k, -, -, -, -, hcall, rfl⟩
      · exact hm₁
      · exact hm₁.trans (aloof_patch (upholds_call hcall) _ _ _)

/-- The dispatcher changes no handler. -/
theorem aloof_advance
    {phase : Phase H} (hadvance : m.advance phase = .ok m') :
    m.Aloof m' := by
  cases phase with
  | start | called | settled =>
      simp only [advance] at hadvance
      repeat' split at hadvance
      all_goals
        cases hadvance
        exact .of_eq rfl rfl rfl rfl
  | timers pass now =>
      simp only [advance] at hadvance
      split at hadvance
      · cases hadvance
        exact .of_eq rfl rfl rfl rfl
      · split at hadvance <;> cases hadvance <;> exact .of_eq rfl rfl rfl rfl
  | ready =>
      simp only [advance] at hadvance
      split at hadvance
      · cases hadvance
        exact .of_eq rfl rfl rfl rfl
      · split at hadvance
        · cases hadvance
          exact .of_eq rfl rfl rfl rfl
        · obtain ⟨d, -, rfl⟩ := beginTurn_ok hadvance
          exact .of_eq rfl rfl rfl rfl
  | turn turn =>
      obtain ⟨d, -, hmove⟩ := advanceTurn_ok hadvance
      exact hmove.aloof
  | deliver signos turn =>
      cases signos <;> cases hadvance <;> exact .of_eq rfl rfl rfl rfl
  | signal signo left signos turn =>
      cases left with
      | nil =>
          cases hadvance
          exact .of_eq rfl rfl rfl rfl
      | cons r left =>
          simp only [advance] at hadvance
          split at hadvance <;> cases hadvance <;> exact .of_eq rfl rfl rfl rfl
  | timeouts now deferred =>
      have hended : m.Aloof
          ((deferred.foldl (postpone now) m).goTo (.timers .late m.host.kernel.clock)) :=
        (aloof_foldl_postpone now deferred m).trans (.of_eq rfl rfl rfl rfl)
      simp only [advance] at hadvance
      split at hadvance
      · cases hadvance
        exact hended
      · split at hadvance
        · cases hadvance
          exact hended
        · obtain ⟨slot, d, -, -, hexpiry⟩ := expire_ok hadvance
          cases hexpiry <;> exact .of_eq rfl rfl rfl rfl
  | timedOut slot clears now deferred =>
      obtain ⟨m₁, hsettle, hadvance⟩ := Except.bind_eq_ok_iff.1 hadvance
      cases hadvance
      exact (aloof_settle hsettle).trans (.of_eq rfl rfl rfl rfl)
  | wait =>
      obtain ⟨m₁, hawait, hadvance⟩ := Except.bind_eq_ok_iff.1 hadvance
      cases hadvance
      exact (aloof_awaitEvents hawait).trans (.of_eq rfl rfl rfl rfl)

end Machine

namespace Act

/-- The registration that an act makes. -/
def registers? : Act H → Option (Registration H)
  | request (.setSignal signo handler) (.key key) => some ⟨signo, key, handler⟩
  | _ => none

/-- The signal and the key under which an act removes a registration. -/
def unsets? : Act H → Option (Int × Nat)
  | request (.unsetSignal signo key) .done => some (signo, key)
  | _ => none

end Act

namespace Machine

variable {m m' m'' : Machine H} {act : Act H} {log : List (Act H)}

/-- What a move makes of the handlers of a loop and of what its hub counts. -/
inductive SignalChange (m : Machine H) : Act H → Machine H → Prop
  | still {act : Act H} {m' : Machine H} :
      act.registers? = none →
      act.unsets? = none →
      m.Aloof m' →
      SignalChange m act m'
  | registered {signo : Int} {handler : H} {host : Host} :
      m.loop.isPrimary = true →
      m.host.acquire m.loop.hub signo = (.ok (), host) →
      SignalChange m (.request (.setSignal signo handler) (.key m.loop.signals.nextKey))
        { m with
          host
          loop := { m.loop with signals := (m.loop.signals.insert signo handler).2 } }
  | refused {signo : Int} {handler : H} {refusal : Refusal} {host : Host} :
      m.host.acquire m.loop.hub signo = (.error refusal, host) →
      SignalChange m (.request (.setSignal signo handler) (.refused refusal)) { m with host }
  | removed {signo : Int} {key : Nat} {host : Host} :
      m.loop.isPrimary = true →
      m.loop.signals.contains signo key = true →
      m.host.release m.loop.hub signo = .ok host →
      SignalChange m (.request (.unsetSignal signo key) .done)
        { m with host, loop := { m.loop with signals := m.loop.signals.erase signo key } }
  | world {host : Host} :
      SignalChange m .world { m with host }

theorem signalChange_perform
    {r : Request H} {reply : Reply} (hperform : m.perform r = .ok (reply, m')) :
    SignalChange m (.request r reply) m' := by
  have hperformed := perform_ok hperform
  cases r with
  | setFd fd flags timeout handler =>
      refine .still rfl rfl ?_
      cases hperformed with
      | unset hclear =>
          exact aloof_clearFd hclear
      | refused _ =>
          exact .refl m
      | registered _ _ _ hreg =>
          exact hreg.aloof
      | aside haside =>
          cases haside.fd?
  | clearFd fd =>
      refine .still rfl rfl ?_
      cases hperformed with
      | cleared hclear =>
          exact aloof_clearFd hclear
      | aside haside =>
          cases haside.fd?
  | setTimeoutHandler fd handler =>
      refine .still rfl rfl ?_
      cases hperformed with
      | handled _ _ =>
          exact .of_eq rfl rfl rfl rfl
      | aside haside =>
          cases haside.fd?
  | setSignal signo handler =>
      simp only [perform, setSignal] at hperform
      by_cases hprimary : m.loop.isPrimary = true
      · simp only [hprimary, if_true] at hperform
        rcases hacquire : m.host.acquire m.loop.hub signo with ⟨result, host⟩
        cases result with
        | ok _ =>
            simp only [hacquire] at hperform
            cases hperform
            exact .registered hprimary hacquire
        | error refusal =>
            simp only [hacquire] at hperform
            cases hperform
            exact .refused hacquire
      · simp only [hprimary] at hperform
        cases hperform
        exact .still rfl rfl (.refl m)
  | unsetSignal signo key =>
      obtain ⟨⟨result, m₁⟩, hunset, heq⟩ := Except.bind_eq_ok_iff.1 hperform
      cases heq
      unfold unsetSignal at hunset
      split at hunset
      next =>
          cases hunset
          exact .still rfl rfl (.refl m)
      next hprimary =>
          split at hunset
          next =>
              cases hunset
              exact .still rfl rfl (.refl m)
          next hcontains =>
              rw [Bool.not_eq_true', Bool.not_eq_false] at hprimary hcontains
              obtain ⟨host, hrelease, hunset⟩ := Except.bind_eq_ok_iff.1 hunset
              cases hunset
              exact .removed hprimary hcontains hrelease
  | setTimer delay handler =>
      obtain ⟨⟨id, m₁⟩, hset, heq⟩ := Except.bind_eq_ok_iff.1 hperform
      cases heq
      unfold setTimer at hset
      split at hset <;> cases hset
      exact .still rfl rfl (.of_eq rfl rfl rfl rfl)
  | dispatch =>
      simp only [perform, dispatch] at hperform
      split at hperform
      next heq =>
          split at heq <;> cases heq
          cases hperform
          exact .still rfl rfl (.of_eq rfl rfl rfl rfl)
      next =>
          cases hperform
          exact .still rfl rfl (.refl m)
  | interest _ | cancelTimer _ | setBreak | setCallback _ | clearCallback =>
      cases hperform
      exact .still rfl rfl (.of_eq rfl rfl rfl rfl)

theorem signalChange_of_move
    (hmove : Move m act m') :
    SignalChange m act m' := by
  cases hmove with
  | request _ hperform =>
      exact signalChange_perform hperform
  | resume hc =>
      rw [resume_eq hc]
      exact .still rfl rfl (.of_eq rfl rfl rfl rfl)
  | step hc hstep =>
      simp only [step, hc] at hstep
      have haloof := aloof_advance hstep
      unfold Machine.act
      split
      · exact .still rfl rfl haloof
      · split <;> exact .still rfl rfl haloof
  | world host =>
      exact .world

/-- A loop stays with its hub. -/
theorem SignalChange.hub
    (h : SignalChange m act m') :
    m'.loop.hub = m.loop.hub := by
  cases h with
  | still _ _ haloof =>
      exact haloof.hub
  | registered _ _ | refused _ | removed _ _ _ | world =>
      rfl

theorem SignalChange.pipe
    (h : SignalChange m act m') :
    m'.loop.pipe = m.loop.pipe := by
  cases h with
  | still _ _ haloof =>
      exact haloof.pipe
  | registered _ _ | refused _ | removed _ _ _ | world =>
      rfl

end Machine

namespace SignalHandlers

theorem contains_iff
    {t : SignalHandlers H} {signo : Int} {key : Nat} :
    t.contains signo key = true ↔ ∃ r ∈ t.registrations, r.signo = signo ∧ r.key = key := by
  simp [contains]

end SignalHandlers

/-- Where at most one element satisfies a predicate, erasing the first such element is
leaving out all of them. -/
theorem List.eraseP_eq_filter_of_pairwise
    {α : Type} {p : α → Bool} {l : List α}
    (hone : l.Pairwise fun a b => ¬ (p a = true ∧ p b = true)) :
    l.eraseP p = l.filter fun a => !p a := by
  induction l with
  | nil =>
      rfl
  | cons a l ih =>
      obtain ⟨hfirst, hrest⟩ := List.pairwise_cons.1 hone
      cases ha : p a with
      | true =>
          rw [List.eraseP_cons_of_pos ha, List.filter_cons_of_neg (by simp [ha])]
          refine (List.filter_eq_self.2 fun b hb => ?_).symm
          rw [Bool.not_eq_true', ← Bool.not_eq_true]
          exact fun hpb => hfirst b hb ⟨ha, hpb⟩
      | false =>
          rw [List.eraseP_cons_of_neg (by simp [ha]), List.filter_cons_of_pos (by simp [ha]),
            ih hrest]

/-- What was registered in a log, in order. -/
def registered (log : List (Act H)) : List (Registration H) :=
  log.filterMap (·.registers?)

/-- The signals and keys under which registrations were removed in a log, in order. -/
def unset (log : List (Act H)) : List (Int × Nat) :=
  log.filterMap (·.unsets?)

/-- The handlers of a loop are what its log says. -/
structure Keyed (log : List (Act H)) (t : SignalHandlers H) : Prop where
  /-- Keys are issued in order, and none twice. -/
  issued : (registered log).map (·.key) = List.range t.nextKey
  /-- What was set and not unset is registered, in the order in which it was set. -/
  registrations : t.registrations =
    (registered log).filter fun r => !(unset log).contains (r.signo, r.key)
  /-- A key is accepted only for the signal that it was issued for. -/
  matched : ∀ signo key, (signo, key) ∈ unset log →
    ∃ r ∈ registered log, r.signo = signo ∧ r.key = key
  /-- A key is accepted once at most. -/
  once : ((unset log).map Prod.snd).Nodup

namespace Keyed

variable {log : List (Act H)} {t : SignalHandlers H} {act : Act H}

theorem nil :
    Keyed (H := H) [] {} :=
  ⟨rfl, rfl, fun _ _ h => (nomatch h), List.nodup_nil⟩

theorem nodup_keys
    (h : Keyed log t) :
    ((registered log).map (·.key)).Nodup := by
  rw [h.issued]
  exact List.nodup_range

/-- A key names one registration. -/
theorem eq_of_key_eq
    (h : Keyed log t) {r r' : Registration H} (hr : r ∈ registered log)
    (hr' : r' ∈ registered log) (hkey : r.key = r'.key) :
    r = r' :=
  List.inj_on_of_nodup_map h.nodup_keys hr hr' hkey

theorem key_lt
    (h : Keyed log t) {r : Registration H} (hr : r ∈ registered log) :
    r.key < t.nextKey := by
  rw [← List.mem_range, ← h.issued]
  exact List.mem_map_of_mem hr

theorem mem_registrations_iff
    (h : Keyed log t) {r : Registration H} :
    r ∈ t.registrations ↔ r ∈ registered log ∧ (r.signo, r.key) ∉ unset log := by
  rw [h.registrations, List.mem_filter, Bool.not_eq_true', ← Bool.not_eq_true,
    List.contains_iff_mem]

/-- A registration is found by its signal and its key as long as it is not unset. -/
theorem contains_iff
    (h : Keyed log t) {r : Registration H} (hr : r ∈ registered log) :
    t.contains r.signo r.key = true ↔ (r.signo, r.key) ∉ unset log := by
  rw [SignalHandlers.contains_iff]
  constructor
  · rintro ⟨r', hr', -, hkey⟩
    obtain ⟨hissued, hkept⟩ := h.mem_registrations_iff.1 hr'
    cases h.eq_of_key_eq hissued hr hkey
    exact hkept
  · exact fun hkept => ⟨r, h.mem_registrations_iff.2 ⟨hr, hkept⟩, rfl, rfl⟩

theorem erase_eq
    (h : Keyed log t) (signo : Int) (key : Nat) :
    (t.erase signo key).registrations =
      t.registrations.filter fun r => !(r.signo == signo && r.key == key) := by
  have hsublist : (t.registrations.map (·.key)).Nodup := by
    refine List.Sublist.nodup ?_ h.nodup_keys
    rw [h.registrations]
    exact List.filter_sublist.map _
  refine List.eraseP_eq_filter_of_pairwise ?_
  refine (List.pairwise_map.1 hsublist).imp ?_
  rintro r r' hne ⟨hr, hr'⟩
  simp only [Bool.and_eq_true, beq_iff_eq] at hr hr'
  exact hne (hr.2.trans hr'.2.symm)

theorem still
    (h : Keyed log t) (hregisters : act.registers? = none) (hunsets : act.unsets? = none) :
    Keyed (log ++ [act]) t := by
  have hregistered : registered (log ++ [act]) = registered log := by
    simp [registered, hregisters]
  have hunset : unset (log ++ [act]) = unset log := by
    simp [unset, hunsets]
  constructor
  · rw [hregistered]
    exact h.issued
  · rw [hregistered, hunset]
    exact h.registrations
  · rw [hregistered, hunset]
    exact h.matched
  · rw [hunset]
    exact h.once

theorem insert
    (h : Keyed log t) {signo : Int} {handler : H}
    (hregisters : act.registers? = some ⟨signo, t.nextKey, handler⟩)
    (hunsets : act.unsets? = none) :
    Keyed (log ++ [act]) (t.insert signo handler).2 := by
  have hregistered : registered (log ++ [act]) =
      registered log ++ [⟨signo, t.nextKey, handler⟩] := by
    simp [registered, hregisters]
  have hunset : unset (log ++ [act]) = unset log := by
    simp [unset, hunsets]
  have hnew : (signo, t.nextKey) ∉ unset log := by
    intro hmem
    obtain ⟨r, hr, -, hkey⟩ := h.matched _ _ hmem
    exact absurd (h.key_lt hr) (by omega)
  constructor
  · rw [hregistered, List.map_append, h.issued]
    exact List.range_succ.symm
  · rw [hregistered, hunset, List.filter_append, ← h.registrations, List.filter_cons_of_pos]
    · rfl
    · simpa using hnew
  · rw [hregistered, hunset]
    intro signo' key hmem
    obtain ⟨r, hr, hsame⟩ := h.matched _ _ hmem
    exact ⟨r, List.mem_append_left _ hr, hsame⟩
  · rw [hunset]
    exact h.once

theorem erase
    (h : Keyed log t) {signo : Int} {key : Nat} (hregisters : act.registers? = none)
    (hunsets : act.unsets? = some (signo, key)) (hcontains : t.contains signo key = true) :
    Keyed (log ++ [act]) (t.erase signo key) := by
  have hregistered : registered (log ++ [act]) = registered log := by
    simp [registered, hregisters]
  have hunset : unset (log ++ [act]) = unset log ++ [(signo, key)] := by
    simp [unset, hunsets]
  obtain ⟨r, hr, rfl, rfl⟩ := SignalHandlers.contains_iff.1 hcontains
  obtain ⟨hissued, hkept⟩ := h.mem_registrations_iff.1 hr
  constructor
  · rw [hregistered]
    exact h.issued
  · rw [h.erase_eq, h.registrations, hregistered, hunset, List.filter_filter]
    refine List.filter_congr fun r' _ => ?_
    rw [List.contains_append, List.contains_cons, List.contains_nil, Bool.or_false, Bool.not_or,
      Bool.and_comm]
    rfl
  · rw [hregistered, hunset]
    intro signo key hmem
    rcases List.mem_append.1 hmem with hmem | hmem
    · exact h.matched _ _ hmem
    · cases List.mem_singleton.1 hmem
      exact ⟨r, hissued, rfl, rfl⟩
  · rw [hunset, List.map_append]
    refine List.nodup_append.2 ⟨h.once, List.nodup_singleton _, ?_⟩
    intro key hkey key' hkey' hsame
    cases List.mem_singleton.1 hkey'
    obtain ⟨⟨signo, key''⟩, hmem, rfl⟩ := List.mem_map.1 hkey
    obtain ⟨r', hr', hsigno, hkey'⟩ := h.matched _ _ hmem
    cases h.eq_of_key_eq hr' hissued (hkey'.trans hsame)
    rw [hkey', hsigno] at hkept
    exact hkept hmem

end Keyed

namespace Machine

variable {m m' m'' : Machine H} {act : Act H} {log : List (Act H)}

theorem SignalChange.keyed
    (h : SignalChange m act m') (hkeyed : Keyed log m.loop.signals) :
    Keyed (log ++ [act]) m'.loop.signals := by
  cases h with
  | still hregisters hunsets haloof =>
      rw [haloof.signals]
      exact hkeyed.still hregisters hunsets
  | registered _ _ =>
      exact hkeyed.insert rfl rfl
  | refused _ | world =>
      exact hkeyed.still rfl rfl
  | removed _ hcontains _ =>
      exact hkeyed.erase rfl rfl hcontains

/-- A run keeps the handlers in line with the log. -/
theorem Run.keyed
    {early : List (Act H)} (hrun : Run m log m') (hkeyed : Keyed early m.loop.signals) :
    Keyed (early ++ log) m'.loop.signals := by
  induction hrun generalizing early with
  | nil =>
      rw [List.append_nil]
      exact hkeyed
  | cons hmove _ ih =>
      rw [List.append_cons]
      exact ih ((signalChange_of_move hmove).keyed hkeyed)

/-- A loop that was just built has no handlers. -/
theorem Built.signals
    (h : Built m) :
    m.loop.signals = {} := by
  cases h with
  | mk hbuild =>
      obtain ⟨backend, kernel, -, ⟨rfl, rfl⟩ | ⟨pipe, host₁, m, -, hset, rfl, rfl⟩⟩ :=
        build_ok hbuild
      · rfl
      · rcases setFd_ok hset with ⟨hflags, -⟩ | ⟨-, -, limit, -, hresult⟩ |
          ⟨-, -, -, -, d, d', kernel, hreg⟩
        · exact absurd hflags (by decide)
        · cases hresult
        · exact hreg.aloof.signals

theorem Built.keyed
    (h : Built m) :
    Keyed [] m.loop.signals :=
  h.signals ▸ .nil

end Machine
end CallbackLoop
