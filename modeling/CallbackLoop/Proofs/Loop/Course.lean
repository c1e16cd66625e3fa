import CallbackLoop.Proofs.Following
import CallbackLoop.Proofs.Loop.Moves
import Mathlib.Data.List.Induction

/-!
# Courses of a machine

A course is a run with the machines in between.  A log says what happened; a
course also says what the clock showed and which handlers were running when it
happened.
-/

namespace CallbackLoop

variable {H : Type}

deriving instance DecidableEq for Registration, Invocation, Phase, Control

/-- One move, with the machines before and after it. -/
structure Transition (H : Type) where
  before : Machine H
  act : Act H
  after : Machine H

namespace Machine

variable {m m' m'' : Machine H} {act : Act H} {steps steps' : List (Transition H)}

/-- Moves one after the other, with the machines in between. -/
inductive Course : Machine H → List (Transition H) → Machine H → Prop
  | nil {m : Machine H} :
      Course m [] m
  | snoc {m m' m'' : Machine H} {act : Act H} {steps : List (Transition H)} :
      Course m steps m' →
      Move m' act m'' →
      Course m (steps ++ [⟨m', act, m''⟩]) m''

/-- The clock does not go backwards. -/
def Timely (steps : List (Transition H)) : Prop :=
  ∀ s ∈ steps, s.before.clock ≤ s.after.clock

instance (steps : List (Transition H)) : Decidable (Timely steps) :=
  inferInstanceAs (Decidable (∀ s ∈ steps, s.before.clock ≤ s.after.clock))

theorem Timely.of_append_left
    (h : Timely (steps ++ steps')) :
    Timely steps :=
  fun s hs => h s (List.mem_append_left _ hs)

theorem Run.snoc
    {log : List (Act H)} (hrun : Run m log m') (hmove : Move m' act m'') :
    Run m (log ++ [act]) m'' := by
  induction hrun with
  | nil =>
      exact .cons hmove .nil
  | cons hfirst _ ih =>
      exact .cons hfirst (ih hmove)

namespace Course

/-- The log of a course. -/
theorem run
    (h : Course m steps m') :
    Run m (steps.map (·.act)) m' := by
  induction h with
  | nil =>
      exact .nil
  | snoc _ hmove ih =>
      rw [List.map_append]
      exact ih.snoc hmove

theorem append
    (h : Course m steps m') (h' : Course m' steps' m'') :
    Course m (steps ++ steps') m'' := by
  induction h' with
  | nil =>
      rwa [List.append_nil]
  | snoc _ hmove ih =>
      rw [← List.append_assoc]
      exact .snoc ih hmove

theorem cons
    (hmove : Move m act m') (h : Course m' steps m'') :
    Course m (⟨m, act, m'⟩ :: steps) m'' :=
  append (.snoc .nil hmove) h

theorem eq_of_nil
    (h : Course m [] m') :
    m' = m := by
  generalize heq : [] = all at h
  cases h with
  | nil =>
      rfl
  | snoc _ _ =>
      simp at heq

/-- The last transition of a course leads to its end. -/
theorem last
    {s : Transition H} (h : Course m (steps ++ [s]) m') :
    Course m steps s.before ∧ Move s.before s.act s.after ∧ s.after = m' := by
  generalize heq : steps ++ [s] = all at h
  cases h with
  | nil =>
      simp at heq
  | snoc hfirst hmove =>
      obtain ⟨rfl, hlast⟩ := List.append_inj' heq rfl
      cases hlast
      exact ⟨hfirst, hmove, rfl⟩

/-- A course is cut wherever its list of transitions is cut. -/
theorem split
    (h : Course m (steps ++ steps') m'') :
    ∃ m', Course m steps m' ∧ Course m' steps' m'' := by
  induction steps' using List.reverseRecOn generalizing m'' with
  | nil =>
      rw [List.append_nil] at h
      exact ⟨m'', h, .nil⟩
  | append_singleton steps' s ih =>
      rw [← List.append_assoc] at h
      obtain ⟨hfirst, hmove, rfl⟩ := h.last
      obtain ⟨m', hleft, hright⟩ := ih hfirst
      exact ⟨m', hleft, hright.snoc hmove⟩

/-- What comes before and after a transition. -/
theorem cut
    {s : Transition H} (h : Course m (steps ++ s :: steps') m') :
    Course m steps s.before ∧ Move s.before s.act s.after ∧ Course s.after steps' m' := by
  rw [List.append_cons] at h
  obtain ⟨m₁, hleft, hright⟩ := h.split
  obtain ⟨hfirst, hmove, rfl⟩ := hleft.last
  exact ⟨hfirst, hmove, hright⟩

/-- The first transition of a course starts where the course does. -/
theorem first
    {s : Transition H} (h : Course m (s :: steps) m') :
    s.before = m ∧ Move s.before s.act s.after ∧ Course s.after steps m' := by
  rw [← List.nil_append (s :: steps)] at h
  obtain ⟨hnil, hmove, hrest⟩ := h.cut
  exact ⟨hnil.eq_of_nil, hmove, hrest⟩

theorem clock_le
    (h : Course m steps m') (htimely : Timely steps) :
    m.clock ≤ m'.clock := by
  induction h with
  | nil =>
      exact Nat.le_refl _
  | snoc _ _ ih =>
      have hlast := htimely _ (List.mem_append_right _ (List.mem_singleton.2 rfl))
      exact Nat.le_trans (ih htimely.of_append_left) hlast

/-- The clock has reached what it showed before an earlier move. -/
theorem clock_le_of_mem
    {s : Transition H} (h : Course m steps m') (htimely : Timely steps) (hs : s ∈ steps) :
    s.before.clock ≤ m'.clock := by
  obtain ⟨early, late, rfl⟩ := List.append_of_mem hs
  obtain ⟨-, -, hlate⟩ := h.cut
  have htimely' : Timely late := fun t ht =>
    htimely t (List.mem_append_right _ (List.mem_cons_of_mem _ ht))
  exact Nat.le_trans (htimely s hs) (hlate.clock_le htimely')

end Course

/-- What happens when a cue is heeded, with the machines before and after it. -/
def traverse (m : Machine H) (cue : Cue H) : Option (Transition H × Machine H) :=
  (m.heed cue).map fun (act, m') => (⟨m, act, m'⟩, m')

theorem composes_course :
    Composes traverse (Course (H := H)) where
  nil _ := .nil
  cons htraverse hcourse := by
    obtain ⟨⟨act, m'⟩, hheed, heq⟩ := Option.map_eq_some_iff.1 htraverse
    cases heq
    exact .cons (move_of_heed hheed) hcourse

/-- The transitions that following cues leads through. -/
def trail (m : Machine H) (cues : List (Cue H)) : Option (List (Transition H)) :=
  (follow traverse m cues).map Prod.fst

theorem course_of_trail
    {cues : List (Cue H)} (h : m.trail cues = some steps) :
    ∃ m', Course m steps m' := by
  obtain ⟨⟨_, m'⟩, hfollow, rfl⟩ := Option.map_eq_some_iff.1 h
  exact ⟨m', composes_course.runs hfollow⟩

/-- A course of which `view` shows `v`, if following cues shows that. -/
theorem exists_course_of_trail
    {α : Type} (view : List (Transition H) → α) {v : α} (cues : List (Cue H))
    (h : (m.trail cues).map view = some v) :
    ∃ steps m', Course m steps m' ∧ view steps = v := by
  obtain ⟨steps, htrail, rfl⟩ := Option.map_eq_some_iff.1 h
  obtain ⟨m', hcourse⟩ := course_of_trail htrail
  exact ⟨steps, m', hcourse, rfl⟩

/-- A run with the given log, if following cues shows that. -/
theorem exists_run_of_trail
    {log : List (Act H)} (cues : List (Cue H))
    (h : (m.trail cues).map (fun steps => steps.map (·.act)) = some log) :
    ∃ m', Run m log m' := by
  obtain ⟨_, m', hcourse, rfl⟩ := exists_course_of_trail _ cues h
  exact ⟨m', hcourse.run⟩

/-- A course with the given log that leads to a machine of which `P` holds, and along
which the clock does not go backwards, if following cues shows that. -/
theorem exists_timely_course_of_trail
    (log : List (Act H)) (P : List (Transition H) → Machine H → Prop)
    [∀ steps m, Decidable (P steps m)] (cues : List (Cue H))
    (h : (m.trail cues).map (fun steps => (steps.map (·.act), decide (Timely steps),
      steps.getLast?.any fun s => decide (P steps s.after))) = some (log, true, true)) :
    ∃ steps m', Course m steps m' ∧ Timely steps ∧ steps.map (·.act) = log ∧ P steps m' := by
  obtain ⟨steps, m', hcourse, hview⟩ := exists_course_of_trail _ cues h
  obtain ⟨hlog, hview⟩ := Prod.mk.inj hview
  obtain ⟨htimely, hlast⟩ := Prod.mk.inj hview
  rw [Option.any_eq_true] at hlast
  obtain ⟨s, hs, hP⟩ := hlast
  obtain ⟨before, rfl⟩ := List.getLast?_eq_some_iff.1 hs
  obtain ⟨-, -, rfl⟩ := hcourse.last
  exact ⟨_, _, hcourse, of_decide_eq_true htimely, hlog, of_decide_eq_true hP⟩

/-- A run and one more move of which `P` holds, if following cues shows that. -/
theorem exists_move_of_trail
    (log : List (Act H)) (act : Act H) (P : Machine H → Machine H → Prop)
    [∀ m m', Decidable (P m m')] (cues : List (Cue H))
    (h : (m.trail cues).map (fun steps => (steps.map (·.act),
      steps.getLast?.any fun s => decide (P s.before s.after))) = some (log ++ [act], true)) :
    ∃ m' m'', Run m log m' ∧ Move m' act m'' ∧ P m' m'' := by
  obtain ⟨steps, m'', hcourse, hview⟩ := exists_course_of_trail _ cues h
  obtain ⟨hlog, hlast⟩ := Prod.mk.inj hview
  rw [Option.any_eq_true] at hlast
  obtain ⟨s, hs, hP⟩ := hlast
  obtain ⟨before, rfl⟩ := List.getLast?_eq_some_iff.1 hs
  rw [List.map_append, List.map_singleton] at hlog
  obtain ⟨rfl, hact⟩ := List.append_inj' hlog rfl
  cases hact
  obtain ⟨hfirst, hmove, -⟩ := hcourse.last
  exact ⟨s.before, s.after, hfirst.run, hmove, of_decide_eq_true hP⟩

end Machine
end CallbackLoop
