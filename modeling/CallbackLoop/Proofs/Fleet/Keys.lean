import CallbackLoop.Proofs.Fleet.Building

/-!
# The keys of several loops

The handlers of a loop are what its own log says, whatever the other loops do in between.
The log of a loop ends when the loop is dropped, so what it says of keys stays true.
-/

namespace CallbackLoop

variable {H : Type}

namespace Fleet

variable {F F' : Fleet H} {act : FleetAct H} {log : List (FleetAct H)} {number : Nat}
  {v : Vessel H} {host : Host} {loop : Loop H}

/-- What every run keeps of keys. -/
structure Logged (F : Fleet H) (log : List (FleetAct H)) : Prop where
  live : ∀ number v, F.vessel? number = some v → Keyed (acts number log) v.loop.signals
  gone : ∀ number, F.vessel? number = none → ∃ t, Keyed (acts number log) t
  unborn : ∀ number, F.loops.length ≤ number → acts number log = []
  secondary : ∀ number v, F.vessel? number = some v → v.loop.pipe = none →
    v.loop.signals.registrations = []

theorem Fresh.logged
    (hfresh : F.Fresh) :
    F.Logged [] where
  live number v hv := by
    rw [hfresh.vessel?] at hv
    cases hv
  gone _ _ := ⟨_, .nil⟩
  unborn _ _ := rfl
  secondary number v hv := by
    rw [hfresh.vessel?] at hv
    cases hv

theorem acts_concat
    (hact : ∀ number, acts number [act] = []) (number : Nat) (log : List (FleetAct H)) :
    acts number (log ++ [act]) = acts number log := by
  rw [acts_append, hact, List.append_nil]

/-- What is not a move of a loop leaves the logs of loops as they are. -/
theorem Logged.congr
    (h : F.Logged log) (hact : ∀ number, acts number [act] = [])
    (hloops : F'.loops = F.loops) :
    F'.Logged (log ++ [act]) := by
  have hvessel : F'.vessel? = F.vessel? := by
    funext number
    rw [vessel?, vessel?, hloops]
  constructor
  · simpa only [hvessel, acts_concat hact] using h.live
  · simpa only [hvessel, acts_concat hact] using h.gone
  · simpa only [hloops, acts_concat hact] using h.unborn
  · simpa only [hvessel] using h.secondary

theorem Logged.launch
    (h : F.Logged log) (hact : ∀ number, acts number [act] = [])
    (hsignals : loop.signals = {}) :
    (F.launch host loop).Logged (log ++ [act]) := by
  constructor
  · intro number v hv
    rw [acts_concat hact]
    rw [vessel?_launch] at hv
    split at hv
    next hnumber =>
        cases hv
        rw [h.unborn number (Nat.le_of_eq hnumber.symm), hsignals]
        exact .nil
    next =>
        exact h.live number v hv
  · intro number hnone
    rw [acts_concat hact]
    rw [vessel?_launch] at hnone
    split at hnone
    next =>
        cases hnone
    next =>
        exact h.gone number hnone
  · intro number hle
    rw [acts_concat hact]
    refine h.unborn number (Nat.le_trans ?_ hle)
    exact List.length_append ▸ Nat.le_add_right _ _
  · intro number v hv hpipe
    rw [vessel?_launch] at hv
    split at hv
    next =>
        cases hv
        rw [hsignals]
    next =>
        exact h.secondary number v hv hpipe

theorem Logged.drop
    (h : F.Logged log) (hv : F.vessel? number = some v) :
    (F.update host number none).Logged (log ++ [.dropped number]) := by
  have hact : ∀ other, acts other [FleetAct.dropped (H := H) number] = [] := fun _ => rfl
  constructor
  · intro other v' hv'
    rw [acts_concat hact]
    rw [vessel?_update hv] at hv'
    split at hv'
    next =>
        cases hv'
    next =>
        exact h.live other v' hv'
  · intro other hnone
    rw [acts_concat hact]
    rw [vessel?_update hv] at hnone
    split at hnone
    next hother =>
        exact ⟨_, hother ▸ h.live number v hv⟩
    next =>
        exact h.gone other hnone
  · intro other hle
    rw [acts_concat hact]
    exact h.unborn other (List.length_set ▸ hle)
  · intro other v' hv'
    rw [vessel?_update hv] at hv'
    split at hv'
    next =>
        cases hv'
    next =>
        exact h.secondary other v' hv'

theorem Logged.advance
    (h : F.Logged log) (hv : F.vessel? number = some v) {act : Act H} {m : Machine H}
    (hchange : (F.machine v).SignalChange act m) :
    (F.update m.host number (some ⟨m.loop, m.control⟩)).Logged (log ++ [.moved number act]) := by
  have hacts : ∀ other, acts other (log ++ [.moved number act]) =
      acts other log ++ if number = other then [act] else [] := by
    intro other
    rw [acts_append, acts_moved]
  constructor
  · intro other v' hv'
    rw [hacts]
    rw [vessel?_update hv] at hv'
    split at hv'
    next hother =>
        cases hv'
        subst hother
        rw [if_pos rfl]
        exact hchange.keyed (h.live other v hv)
    next hother =>
        rw [if_neg (Ne.symm hother), List.append_nil]
        exact h.live other v' hv'
  · intro other hnone
    rw [hacts]
    rw [vessel?_update hv] at hnone
    split at hnone
    next =>
        cases hnone
    next hother =>
        rw [if_neg (Ne.symm hother), List.append_nil]
        exact h.gone other hnone
  · intro other hle
    have hlt : F.loops.length ≤ other := List.length_set ▸ hle
    have hother : number ≠ other := Nat.ne_of_lt (Nat.lt_of_lt_of_le (lt_length_of_vessel? hv) hlt)
    rw [hacts, h.unborn other hlt, if_neg hother]
    rfl
  · intro other v' hv' hpipe
    rw [vessel?_update hv] at hv'
    split at hv'
    next =>
        cases hv'
        have hbefore : v.loop.pipe = none := hchange.pipe.symm.trans hpipe
        have hsecondary : (F.machine v).loop.isPrimary ≠ true := by
          show v.loop.pipe.isSome ≠ true
          rw [hbefore]
          nofun
        have hnone := h.secondary number v hv hbefore
        cases hchange with
        | still _ _ haloof =>
            exact (congrArg _ haloof.signals).trans hnone
        | refused _ | world =>
            exact hnone
        | registered hprimary _ | removed hprimary _ _ =>
            exact absurd hprimary hsecondary
    next =>
        exact h.secondary other v' hv' hpipe

theorem Logged.move
    (h : F.Logged log) (hroomy : F.host.Roomy) (hmove : Move F act F') :
    F'.Logged (log ++ [act]) := by
  cases hmove with
  | build hbuild =>
      cases LoopOptions.comes_of_build hroomy hbuild with
      | plain _ _ hsignals _ _ | berthed _ _ hsignals _ _ =>
          exact h.launch (fun _ => rfl) hsignals
  | refuse _ | world _ =>
      exact h.congr (fun _ => rfl) rfl
  | drop hv _ _ =>
      exact h.drop hv
  | move hv _ hmove =>
      exact h.advance hv (Machine.signalChange_of_move hmove)

end Fleet
end CallbackLoop
