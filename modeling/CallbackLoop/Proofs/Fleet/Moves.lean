import CallbackLoop.Proofs.Loop.Moves
import CallbackLoop.Proofs.Signal.Places

/-!
# Several loops in one process

Loops are built and dropped, and each of them runs as a machine on the host that it shares
with the others.  Their moves are interleaved in any way, so that the handlers of one loop
may use another one, build new loops and drop idle ones.

A loop keeps its number for life, and no number is given out again.  What happened to one
loop is therefore read off the log by its number.
-/

namespace CallbackLoop

variable {H : Type}

deriving instance DecidableEq for LoopOptions

/-- A loop, and who is in control of it. -/
structure Vessel (H : Type) where
  loop : Loop H
  control : Control H := .idle

/-- The loops of a process by number, and their host.  The number of a loop that was dropped
stays vacant. -/
structure Fleet (H : Type) where
  host : Host
  loops : List (Option (Vessel H)) := []

/-- What happens in a process. -/
inductive FleetAct (H : Type) where
  /-- A loop is built and gets a number, or building it is refused. -/
  | built (options : LoopOptions) (result : Except Refusal Nat)
  | dropped (number : Nat)
  | moved (number : Nat) (act : Act H)
  | world
deriving DecidableEq

/-- Hubs, owners and dispositions are left to the loops, and no pipe is taken away. -/
structure Host.Abides (h h' : Host) : Prop where
  hubs : h'.hubs = h.hubs
  owners : h'.owners = h.owners
  caught : h'.kernel.caught = h.kernel.caught
  pipes : h.kernel.pipes.size ≤ h'.kernel.pipes.size

theorem Host.Upholds.abides
    {h h' : Host} (hupholds : h.Upholds h') :
    h.Abides h' :=
  ⟨hupholds.hubs, hupholds.owners, hupholds.kernel.caught, hupholds.kernel.pipes⟩

namespace Fleet

variable {F F' F'' : Fleet H} {act : FleetAct H} {log log' : List (FleetAct H)}

/-- The live loop with a number. -/
def vessel? (F : Fleet H) (number : Nat) : Option (Vessel H) :=
  F.loops[number]?.join

/-- A loop on the host as a machine of its own. -/
def machine (F : Fleet H) (v : Vessel H) : Machine H :=
  ⟨F.host, v.loop, v.control⟩

/-- Changes the host and one loop, or takes the loop away. -/
def update (F : Fleet H) (host : Host) (number : Nat) (v? : Option (Vessel H)) : Fleet H :=
  ⟨host, F.loops.set number v?⟩

/-- Adds a loop. -/
def launch (F : Fleet H) (host : Host) (loop : Loop H) : Fleet H :=
  ⟨host, F.loops ++ [some ⟨loop, .idle⟩]⟩

/-- One move.  Only a loop that is idle can be dropped. -/
inductive Move : Fleet H → FleetAct H → Fleet H → Prop
  | build {F : Fleet H} {options : LoopOptions} {loop : Loop H} {host : Host} :
      options.build H F.host = .ok (.ok loop, host) →
      Move F (.built options (.ok F.loops.length)) (F.launch host loop)
  | refuse {F : Fleet H} {options : LoopOptions} {refusal : Refusal} {host : Host} :
      options.build H F.host = .ok (.error refusal, host) →
      Move F (.built options (.error refusal)) { F with host }
  | drop {F : Fleet H} {number : Nat} {v : Vessel H} {passed : List Host} {host : Host} :
      F.vessel? number = some v →
      v.control = .idle →
      v.loop.drop F.host = .ok (passed, host) →
      Move F (.dropped number) (F.update host number none)
  | move {F : Fleet H} {number : Nat} {v : Vessel H} {act : Act H} {m : Machine H} :
      F.vessel? number = some v →
      act ≠ .world →
      (F.machine v).Move act m →
      Move F (.moved number act) (F.update m.host number (some ⟨m.loop, m.control⟩))
  | world {F : Fleet H} {host : Host} :
      F.host.Abides host →
      Move F .world { F with host }

/-- Moves one after the other. -/
inductive Run : Fleet H → List (FleetAct H) → Fleet H → Prop
  | nil {F : Fleet H} :
      Run F [] F
  | snoc {F F' F'' : Fleet H} {act : FleetAct H} {log : List (FleetAct H)} :
      Run F log F' →
      Move F' act F'' →
      Run F (log ++ [act]) F''

/-- What every move keeps, a run keeps. -/
theorem Run.induction
    {P : Fleet H → Prop} (hmove : ∀ {F act F'}, P F → Move F act F' → P F')
    (hrun : Run F log F') (h : P F) :
    P F' := by
  induction hrun with
  | nil =>
      exact h
  | snoc _ hlast ih =>
      exact hmove ih hlast

theorem Run.trans
    (hrun : Run F log F') (hrun' : Run F' log' F'') :
    Run F (log ++ log') F'' := by
  induction hrun' with
  | nil =>
      rwa [List.append_nil]
  | snoc _ hlast ih =>
      rw [← List.append_assoc]
      exact .snoc ih hlast

/-- There are no loops yet, and nothing has been asked of the host. -/
structure Fresh (F : Fleet H) : Prop where
  host : F.host.Fresh
  loops : F.loops = []

theorem Fresh.vessel?
    (hfresh : F.Fresh) (number : Nat) :
    F.vessel? number = none := by
  rw [Fleet.vessel?, hfresh.loops]
  rfl

section Find

variable {number : Nat} {v : Vessel H}

theorem vessel?_eq_some_iff :
    F.vessel? number = some v ↔ F.loops[number]? = some (some v) :=
  Option.join_eq_some_iff

theorem lt_length_of_vessel?
    (hv : F.vessel? number = some v) :
    number < F.loops.length :=
  (List.getElem?_eq_some_iff.1 (vessel?_eq_some_iff.1 hv)).1

theorem vessel?_update
    (hv : F.vessel? number = some v) (host : Host) (v? : Option (Vessel H)) (other : Nat) :
    (F.update host number v?).vessel? other = if other = number then v? else F.vessel? other := by
  unfold Fleet.vessel? update
  rw [List.getElem?_set]
  by_cases hother : other = number
  · subst hother
    rw [if_pos rfl, if_pos (lt_length_of_vessel? hv), if_pos rfl]
    rfl
  · rw [if_neg (Ne.symm hother), if_neg hother]

theorem vessel?_launch
    (F : Fleet H) (host : Host) (loop : Loop H) (other : Nat) :
    (F.launch host loop).vessel? other =
      if other = F.loops.length then some ⟨loop, .idle⟩ else F.vessel? other := by
  unfold Fleet.vessel? launch
  split
  next hother =>
      subst hother
      rw [List.getElem?_concat_length]
      rfl
  next hother =>
      by_cases hlt : other < F.loops.length
      · rw [List.getElem?_append_left hlt]
      · rw [List.getElem?_eq_none (by rw [List.length_append, List.length_singleton]; omega),
          List.getElem?_eq_none (Nat.not_lt.1 hlt)]

theorem vessel?_length
    (F : Fleet H) :
    F.vessel? F.loops.length = none := by
  rw [Fleet.vessel?, List.getElem?_eq_none (Nat.le_refl _)]
  rfl

end Find

/-- The moves of the loop with a number. -/
def acts (number : Nat) (log : List (FleetAct H)) : List (Act H) :=
  log.filterMap fun
    | .moved other act => if other = number then some act else none
    | _ => none

theorem acts_append
    (number : Nat) (log log' : List (FleetAct H)) :
    acts number (log ++ log') = acts number log ++ acts number log' :=
  List.filterMap_append

theorem acts_moved
    (number other : Nat) (act : Act H) :
    acts number [.moved other act] = if other = number then [act] else [] := by
  unfold acts
  by_cases hother : other = number
  · simp [hother]
  · simp [hother]

/-- What can be done next, without what it leads to. -/
inductive Cue (H : Type) where
  | build (options : LoopOptions)
  | drop (number : Nat)
  | move (number : Nat) (cue : Machine.Cue H)

/-- Follows a cue, unless it cannot be followed or ends the program. -/
def heed (F : Fleet H) : Cue H → Option (FleetAct H × Fleet H)
  | .build options =>
      match options.build H F.host with
      | .ok (.ok loop, host) =>
          some (.built options (.ok F.loops.length), F.launch host loop)
      | .ok (.error refusal, host) => some (.built options (.error refusal), { F with host })
      | .error _ => none
  | .drop number =>
      match F.vessel? number with
      | some ⟨loop, .idle⟩ =>
          match loop.drop F.host with
          | .ok (_, host) => some (.dropped number, F.update host number none)
          | .error _ => none
      | _ => none
  | .move number cue =>
      match F.vessel? number with
      | some v =>
          match (F.machine v).heed cue with
          | none => none
          | some (.world, _) => none
          | some (act, m) =>
              some (.moved number act, F.update m.host number (some ⟨m.loop, m.control⟩))
      | none => none

theorem move_of_heed
    {cue : Cue H} (hheed : F.heed cue = some (act, F')) :
    Move F act F' := by
  cases cue with
  | build options =>
      simp only [heed] at hheed
      split at hheed <;> cases hheed
      next hbuild =>
          exact .build hbuild
      next hbuild =>
          exact .refuse hbuild
  | drop number =>
      simp only [heed] at hheed
      split at hheed
      next hv =>
          split at hheed <;> cases hheed
          next hdrop =>
              exact .drop hv rfl hdrop
      next =>
          cases hheed
  | move number cue =>
      simp only [heed] at hheed
      split at hheed
      next hv =>
          split at hheed
          next =>
              cases hheed
          next =>
              cases hheed
          next hother hmachine =>
              cases hheed
              refine .move hv ?_ (Machine.move_of_heed hmachine)
              rintro rfl
              exact hother rfl
      next =>
          cases hheed

theorem composes_run :
    Composes heed (Run (H := H)) where
  nil _ := .nil
  cons hheed hrun := Run.trans (.snoc .nil (move_of_heed hheed)) hrun

end Fleet
end CallbackLoop
