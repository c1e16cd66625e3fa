import CallbackLoop.Proofs.Loop.ExpiryPass

/-!
# Timeouts expire soundly and completely

Each expiry of a timeout is matched with an earlier move that armed it.  The move that
armed a timeout is passed on when the timeout is deferred and armed again, and an expiry
uses it up; so no move is matched twice, and none before the instant that it asked for.

`timeouts_expire_when_due` is the result for whole runs.
-/

namespace CallbackLoop

variable {H : Type}

namespace Transition

/-- The descriptor whose timeout a move arms, and the instant at which it is due. -/
def armed? (s : Transition H) : Option (Int × Nat) :=
  match s.act with
  | .request (.setFd fd flags (.after delay) _) .done =>
      if flags = .clear then none else some (fd, s.before.clock + delay)
  | _ => none

theorem armed?_of_setFd
    {s : Transition H} {fd : Int} {flags : Flags} {delay : Nat} {handler : H}
    (hact : s.act = .request (.setFd fd flags (.after delay) handler) .done)
    (hflags : flags ≠ .clear) :
    s.armed? = some (fd, s.before.clock + delay) := by
  rw [armed?, hact]
  exact if_neg hflags

end Transition

namespace Machine

variable {m m' : Machine H} {act : Act H} {steps : List (Transition H)} {fd : Int}
  {arming : Nat → Nat} {i j entry deferred instant : Nat} {s : Transition H}

/-- The timeout of a descriptor was armed in a move, to expire at an instant. -/
def ArmedAt (steps : List (Transition H)) (fd : Int) (i instant : Nat) : Prop :=
  ∃ s, steps[i]? = some s ∧ s.armed? = some (fd, instant)

/-- The expired timeout of a descriptor was handled after a move, when the clock showed
an instant. -/
def ExpiredAt (steps : List (Transition H)) (fd : Int) (i instant : Nat) : Prop :=
  ∃ s handler, steps[i]? = some s ∧ s.expired? = some (fd, handler) ∧ s.before.clock = instant

/-- Each expiry of the timeout of a descriptor has an arming of its own, which came
before and whose instant had come. -/
structure Matching (steps : List (Transition H)) (fd : Int) (arming : Nat → Nat) : Prop where
  armed : ∀ i instant, ExpiredAt steps fd i instant →
    arming i < i ∧ ∃ due ≤ instant, ArmedAt steps fd (arming i) due
  distinct : ∀ i j instant instant', ExpiredAt steps fd i instant →
    ExpiredAt steps fd j instant' → arming i = arming j → i = j

/-- A move armed the timeout of a descriptor for an instant that has come by `instant`,
and no expiry is matched with it. -/
structure Unused (steps : List (Transition H)) (fd : Int) (arming : Nat → Nat)
    (i instant : Nat) : Prop where
  armed : ∃ due ≤ instant, ArmedAt steps fd i due
  unmatched : ∀ j instant', ExpiredAt steps fd j instant' → arming j ≠ i

/-- The moves that armed what a descriptor has of timeouts: its entry in the queue, and
its place among those that are deferred. -/
structure Credited (steps : List (Transition H)) (m : Machine H) (fd : Int)
    (arming : Nat → Nat) (entry deferred : Nat) : Prop where
  entered : ∀ instant, m.timing.instant? fd = some instant → Unused steps fd arming entry instant
  postponed : ∀ now fds, m.control.pass? = some (now, fds) → fd ∈ fds →
    Unused steps fd arming deferred now
  apart : m.timing.instant? fd ≠ none → fd ∈ m.control.deferred → entry ≠ deferred

theorem getElem?_snoc
    {α : Type} {l : List α} {x y : α} (h : (l ++ [x])[i]? = some y) :
    l[i]? = some y ∨ i = l.length ∧ y = x := by
  rw [List.getElem?_append] at h
  split at h
  next =>
      exact .inl h
  next hle =>
      rw [List.getElem?_singleton] at h
      split at h <;> cases h
      exact .inr ⟨by omega, rfl⟩

theorem ArmedAt.lt
    (h : ArmedAt steps fd i instant) :
    i < steps.length := by
  obtain ⟨t, ht, -⟩ := h
  exact (List.getElem?_eq_some_iff.1 ht).1

theorem ArmedAt.snoc
    (h : ArmedAt steps fd i instant) (s : Transition H) :
    ArmedAt (steps ++ [s]) fd i instant := by
  have hlt := h.lt
  obtain ⟨t, ht, harmed⟩ := h
  exact ⟨t, (List.getElem?_append_left hlt).trans ht, harmed⟩

theorem ExpiredAt.lt
    (h : ExpiredAt steps fd i instant) :
    i < steps.length := by
  obtain ⟨t, handler, ht, -⟩ := h
  exact (List.getElem?_eq_some_iff.1 ht).1

theorem expiredAt_snoc
    (h : ExpiredAt (steps ++ [s]) fd i instant) :
    ExpiredAt steps fd i instant ∨
      i = steps.length ∧ (∃ handler, s.expired? = some (fd, handler)) ∧
        s.before.clock = instant := by
  obtain ⟨t, handler, ht, hexpired, hclock⟩ := h
  rcases getElem?_snoc ht with ht | ⟨rfl, rfl⟩
  · exact .inl ⟨t, handler, ht, hexpired, hclock⟩
  · exact .inr ⟨rfl, ⟨handler, hexpired⟩, hclock⟩

/-- After another move, what expired had expired before. -/
theorem ExpiredAt.of_snoc
    (h : ExpiredAt (steps ++ [s]) fd i instant) (hs : ∀ handler, s.expired? ≠ some (fd, handler)) :
    ExpiredAt steps fd i instant := by
  rcases expiredAt_snoc h with h | ⟨-, ⟨handler, hexpired⟩, -⟩
  · exact h
  · exact absurd hexpired (hs handler)

theorem Matching.snoc
    (h : Matching steps fd arming) (hs : ∀ handler, s.expired? ≠ some (fd, handler)) :
    Matching (steps ++ [s]) fd arming := by
  constructor
  · intro i instant hexpired
    obtain ⟨hlt, due, hle, harmed⟩ := h.armed i instant (hexpired.of_snoc hs)
    exact ⟨hlt, due, hle, harmed.snoc s⟩
  · intro i j instant instant' hi hj
    exact h.distinct i j instant instant' (hi.of_snoc hs) (hj.of_snoc hs)

theorem Unused.snoc
    (h : Unused steps fd arming i instant) (hs : ∀ handler, s.expired? ≠ some (fd, handler)) :
    Unused (steps ++ [s]) fd arming i instant := by
  obtain ⟨⟨due, hle, harmed⟩, hunmatched⟩ := h
  exact ⟨⟨due, hle, harmed.snoc s⟩, fun j instant' hj => hunmatched j instant' (hj.of_snoc hs)⟩

theorem Unused.mono
    {instant' : Nat} (h : Unused steps fd arming i instant) (hle : instant ≤ instant') :
    Unused steps fd arming i instant' := by
  obtain ⟨⟨due, hdue, harmed⟩, hunmatched⟩ := h
  exact ⟨⟨due, Nat.le_trans hdue hle, harmed⟩, hunmatched⟩

theorem Unused.lt
    (h : Unused steps fd arming i instant) :
    i < steps.length := by
  obtain ⟨⟨due, -, harmed⟩, -⟩ := h
  exact harmed.lt

/-- What a move arms is not matched with any expiry. -/
theorem Matching.unused_last
    (h : Matching steps fd arming) (harmed : s.armed? = some (fd, instant))
    (hs : ∀ handler, s.expired? ≠ some (fd, handler)) :
    Unused (steps ++ [s]) fd arming steps.length instant := by
  refine ⟨⟨instant, Nat.le_refl _, s, by simp, harmed⟩, fun j instant' hj heq => ?_⟩
  have hj' := hj.of_snoc hs
  have hlt := (h.armed j instant' hj').1
  have hlt' := hj'.lt
  omega

/-- An expiry is matched with an arming that was not used before. -/
theorem Matching.expires
    (h : Matching steps fd arming) (hunused : Unused steps fd arming entry instant)
    (hle : instant ≤ s.before.clock) :
    Matching (steps ++ [s]) fd (Function.update arming steps.length entry) := by
  have hold : ∀ {i instant}, ExpiredAt steps fd i instant →
      Function.update arming steps.length entry i = arming i := fun hi =>
    Function.update_of_ne (Nat.ne_of_lt hi.lt) ..
  constructor
  · intro i instant' hi
    rcases expiredAt_snoc hi with hi | ⟨rfl, -, rfl⟩
    · rw [hold hi]
      obtain ⟨hlt, due, hle, harmed⟩ := h.armed i instant' hi
      exact ⟨hlt, due, hle, harmed.snoc s⟩
    · rw [Function.update_self]
      obtain ⟨due, hdue, harmed⟩ := hunused.armed
      exact ⟨hunused.lt, due, Nat.le_trans hdue hle, harmed.snoc s⟩
  · intro i j instant₁ instant₂ hi hj heq
    rcases expiredAt_snoc hi with hi | ⟨rfl, -, -⟩ <;>
      rcases expiredAt_snoc hj with hj | ⟨rfl, -, -⟩
    · rw [hold hi, hold hj] at heq
      exact h.distinct i j instant₁ instant₂ hi hj heq
    · rw [hold hi, Function.update_self] at heq
      exact absurd heq (hunused.unmatched i instant₁ hi)
    · rw [hold hj, Function.update_self] at heq
      exact absurd heq.symm (hunused.unmatched j instant₂ hj)
    · rfl

/-- An arming that an expiry does not use up stays unused. -/
theorem Unused.expires
    {other : Nat} (h : Unused steps fd arming i instant) (hne : other ≠ i) :
    Unused (steps ++ [s]) fd (Function.update arming steps.length other) i instant := by
  obtain ⟨⟨due, hle, harmed⟩, hunmatched⟩ := h
  refine ⟨⟨due, hle, harmed.snoc s⟩, fun j instant' hj => ?_⟩
  rcases expiredAt_snoc hj with hj | ⟨rfl, -, -⟩
  · rw [Function.update_of_ne (Nat.ne_of_lt hj.lt)]
    exact hunmatched j instant' hj
  · rwa [Function.update_self]

/-- A descriptor that is deferred after a move was deferred before, or the pass took it
out just now. -/
theorem mem_deferred_move
    {now : Nat} {fds : List Int} (h : m.Sound) (hmove : Move m act m')
    (hpass : m'.control.pass? = some (now, fds)) (hfd : fd ∈ fds) :
    (∃ fds₀, m.control.pass? = some (now, fds₀) ∧ fd ∈ fds₀) ∨
      fd ∉ m.control.deferred ∧ m.now = now := by
  rcases pass?_move h hmove hpass with rfl | ⟨fds₀, hpass₀⟩
  · cases hfd
  have hdeferred := Control.deferred_of_pass? hpass₀
  by_cases hin : fd ∈ m.control.deferred
  · exact .inl ⟨fds₀, hpass₀, hdeferred ▸ hin⟩
  · refine .inr ⟨hin, ?_⟩
    have hne : m'.control.deferred ≠ m.control.deferred := by
      intro heq
      rw [← heq, Control.deferred_of_pass? hpass] at hin
      exact hin hfd
    obtain ⟨fds', hc⟩ := deferred_move h hmove hne
    rw [hc] at hpass₀
    cases hpass₀
    rfl

/-- An expiry uses up the arming of the entry. -/
theorem Credited.expires
    {handler : H} {now : Nat} {fds : List Int} {queue : DeadlineQueue}
    {d : Descriptor (Reaction H) H} (h : Credited steps m fd arming entry deferred)
    (hmatching : Matching steps fd arming) (hsound : m.Sound) (hlinked : m.timing.Linked)
    (hmove : Move m act m') (hexpires : m.Expires fd handler m' now fds queue d)
    (hclock : now ≤ m.clock) :
    Matching (steps ++ [⟨m, act, m'⟩]) fd (Function.update arming steps.length entry) ∧
      Credited (steps ++ [⟨m, act, m'⟩]) m' fd (Function.update arming steps.length entry)
        entry deferred := by
  obtain ⟨hgone, instant, hle, hinstant⟩ := hlinked.instant?_expire hexpires.due
  rw [← hexpires.timing] at hgone
  have hnone : m'.timing.instant? fd = none := by
    rw [hgone]
    exact Function.update_self ..
  have hdeferred : m'.control.deferred = m.control.deferred :=
    congrArg Timing.deferred hexpires.timing
  refine ⟨hmatching.expires (h.entered instant hinstant) (Nat.le_trans hle hclock), ?_, ?_, ?_⟩
  · intro instant' hinstant'
    cases hnone.symm.trans hinstant'
  · intro now' fds' hpass hfd
    have hin : fd ∈ m.control.deferred := by
      rwa [← hdeferred, Control.deferred_of_pass? hpass]
    rcases mem_deferred_move hsound hmove hpass hfd with ⟨fds₀, hpass₀, hfd₀⟩ | ⟨hnot, -⟩
    · refine (h.postponed now' fds₀ hpass₀ hfd₀).expires (h.apart ?_ hin)
      simp [hinstant]
    · exact absurd hin hnot
  · exact fun hsome => absurd hnone hsome

/-- Other moves pass on the armings of the entry and of the place among the deferred. -/
theorem Credited.move
    (h : Credited steps m fd arming entry deferred) (hmatching : Matching steps fd arming)
    (hsound : m.Sound) (hlinked : m.timing.Linked) (hmove : Move m act m')
    (hnot : ∀ handler, Transition.expired? ⟨m, act, m'⟩ ≠ some (fd, handler)) :
    ∃ entry' deferred', Credited (steps ++ [⟨m, act, m'⟩]) m' fd arming entry' deferred' := by
  have hchange := change_move hsound hmove
  have hstays : ∀ {now fds}, fd ∈ m.control.deferred → m'.control.pass? = some (now, fds) →
      fd ∈ fds → Unused (steps ++ [⟨m, act, m'⟩]) fd arming deferred now := by
    intro now fds hin hpass hfd
    rcases mem_deferred_move hsound hmove hpass hfd with ⟨fds₀, hpass₀, hfd₀⟩ | ⟨hout, -⟩
    · exact (h.postponed now fds₀ hpass₀ hfd₀).snoc hnot
    · exact absurd hin hout
  rcases hchange.instant?_cases hlinked fd with hkept |
    ⟨flags, delay, handler, rfl, hflags, hinstant, hdeferred⟩ |
    ⟨hin, hnone, hinstant, hdeferred⟩
  · have hentered : ∀ instant, m'.timing.instant? fd = some instant →
        Unused (steps ++ [⟨m, act, m'⟩]) fd arming entry instant := by
      intro instant hinstant
      rcases hkept with hsame | hnone
      · exact (h.entered instant (hsame ▸ hinstant)).snoc hnot
      · cases hnone.symm.trans hinstant
    by_cases hin : fd ∈ m.control.deferred
    · refine ⟨entry, deferred, hentered, fun now fds => hstays hin, fun hsome _ => ?_⟩
      rcases hkept with hsame | hnone
      · exact h.apart (hsame ▸ hsome) hin
      · exact absurd hnone hsome
    · have htaken : fd ∈ m'.control.deferred → m'.timing.instant? fd = none ∧
          ∃ instant ≤ m.now, m.timing.instant? fd = some instant := fun hin' =>
        (hchange.deferred_cases hlinked hin').resolve_left hin
      refine ⟨entry, entry, hentered, fun now fds hpass hfd => ?_, fun hsome hin' => ?_⟩
      · have hin' : fd ∈ m'.control.deferred := by
          rwa [Control.deferred_of_pass? hpass]
        obtain ⟨-, instant, hle, hinstant⟩ := htaken hin'
        rcases mem_deferred_move hsound hmove hpass hfd with ⟨fds₀, hpass₀, hfd₀⟩ | ⟨-, hnow⟩
        · rw [← Control.deferred_of_pass? hpass₀] at hfd₀
          exact absurd hfd₀ hin
        · exact ((h.entered instant hinstant).snoc hnot).mono (hnow ▸ hle)
      · exact absurd (htaken hin').1 hsome
  · obtain ⟨hopen, -⟩ := request_of_move hmove
    have harmed : Transition.armed?
        ⟨m, .request (.setFd fd flags (.after delay) handler) .done, m'⟩ =
          some (fd, m.now + delay) := by
      rw [now_of_isOpen hopen]
      exact Transition.armed?_of_setFd rfl hflags
    have hin : fd ∈ m'.control.deferred → fd ∈ m.control.deferred := fun hin =>
      (show m'.control.deferred = m.control.deferred from hdeferred) ▸ hin
    refine ⟨steps.length, deferred, fun instant hinstant' => ?_, fun now fds hpass hfd => ?_,
      fun _ hin' => ?_⟩
    · cases hinstant.symm.trans hinstant'
      exact hmatching.unused_last harmed hnot
    · exact hstays (hin (by rwa [Control.deferred_of_pass? hpass])) hpass hfd
    · obtain ⟨now, hpass⟩ := Control.pass?_of_mem_deferred (hin hin')
      exact Nat.ne_of_gt (h.postponed now _ hpass (hin hin')).lt
  · have hempty : m'.control.deferred = [] := hdeferred
    have hout : fd ∉ m'.control.deferred := by
      simp [hempty]
    refine ⟨deferred, deferred, fun instant hinstant' => ?_, fun now fds hpass hfd => ?_,
      fun _ hin' => absurd hin' hout⟩
    · cases hinstant.symm.trans hinstant'
      have hin' : fd ∈ m.control.deferred := hin
      have hne : m'.control.deferred ≠ m.control.deferred := by
        intro heq
        rw [heq] at hout
        exact hout hin'
      obtain ⟨fds, hc⟩ := deferred_move hsound hmove hne
      have hpass : m.control.pass? = some (m.now, fds) := by
        rw [hc, now, hc]
        rfl
      rw [Control.deferred_of_pass? hpass] at hin'
      exact (h.postponed m.now fds hpass hin').snoc hnot
    · rw [Control.deferred_of_pass? hpass] at hout
      exact absurd hfd hout

/-- A loop that was just built has no timeouts and no handlers for them. -/
theorem Built.timing
    (h : Built m) (fd : Int) :
    m.timing.entry fd = none ∧ m.timing.handler fd = none := by
  have hblank : ∀ {m₀ : Machine H} (fd : Int), m₀.Blank →
      m₀.timing.entry fd = none ∧ m₀.timing.handler fd = none := by
    intro m₀ fd hblank
    constructor <;>
      exact congrArg (Option.bind · _)
        ((congrArg (DescriptorTable.find? · fd) hblank.table).trans (find?_empty fd))
  rcases h.blank_or_registers with hm | ⟨m₀, other, d, d', kernel, hm, hreg⟩
  · exact hblank fd hm
  · obtain ⟨entry, queue, hrearm, htiming⟩ := timing_registers hm.sound hreg
    cases hrearm
    rw [htiming]
    refine ⟨?_, (hblank fd hm).2⟩
    show Function.update m₀.timing.entry other none fd = none
    rw [Function.update_apply, (hblank fd hm).1, ite_self]

end Machine
end CallbackLoop
