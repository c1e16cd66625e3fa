import Mathlib.Data.Option.Basic

/-!
# Following cues

A run of a system is a list of what happened, and which lists are runs is said by a
relation.  A run with given properties is found by computation: each cue says what is to be
done next, and heeding it shows what happens and which state comes of it.  What is followed
in this way is a run, whatever the system.
-/

namespace CallbackLoop

variable {σ κ α β : Type} {heed : σ → κ → Option (α × σ)} {Runs : σ → List α → σ → Prop}
  {s s' : σ} {cues : List κ} {log : List α}

/-- What happens when cues are followed one after the other, and the state in the end. -/
def follow (heed : σ → κ → Option (α × σ)) (s : σ) : List κ → Option (List α × σ)
  | [] => some ([], s)
  | cue :: cues =>
      match heed s cue with
      | some (act, s') => (follow heed s' cues).map fun (log, s'') => (act :: log, s'')
      | none => none

/-- Runs are put together from what happens when cues are heeded. -/
structure Composes (heed : σ → κ → Option (α × σ)) (Runs : σ → List α → σ → Prop) : Prop where
  nil : ∀ s, Runs s [] s
  cons : ∀ {s cue act s' log s''}, heed s cue = some (act, s') → Runs s' log s'' →
    Runs s (act :: log) s''

namespace Composes

theorem runs
    (h : Composes heed Runs) (hfollow : follow heed s cues = some (log, s')) :
    Runs s log s' := by
  induction cues generalizing s log with
  | nil =>
      cases hfollow
      exact h.nil _
  | cons cue cues ih =>
      unfold follow at hfollow
      split at hfollow
      next act s₁ hheed =>
          obtain ⟨⟨log', s₂⟩, hrest, heq⟩ := Option.map_eq_some_iff.1 hfollow
          cases heq
          exact h.cons hheed (ih hrest)
      next =>
          cases hfollow

/-- A run of which `view` shows `v`, if following cues shows that. -/
theorem exists_run
    (h : Composes heed Runs) (view : List α × σ → β) {v : β} (cues : List κ)
    (hfollow : (follow heed s cues).map view = some v) :
    ∃ log s', Runs s log s' ∧ view (log, s') = v := by
  obtain ⟨⟨log, s'⟩, hfollow, hview⟩ := Option.map_eq_some_iff.1 hfollow
  exact ⟨log, s', h.runs hfollow, hview⟩

end Composes

end CallbackLoop
