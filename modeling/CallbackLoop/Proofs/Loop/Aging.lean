import CallbackLoop.Proofs.Loop.Removal

/-!
# How deadlines age

As time goes on an entry of the queue of deadlines is lowered or leaves, and its handle
is not given out again.  The instant at which the timeout of a descriptor is due is a
function of the descriptor; each change of the timeouts updates it for one descriptor,
or arms deferred ones again.
-/

namespace CallbackLoop

variable {H : Type}

namespace DeadlineQueue

variable {q q' q'' : DeadlineQueue} {id : Handle}

/-- The entries of the first queue have left the second, or are not due later there. -/
structure Ages (q q' : DeadlineQueue) : Prop where
  nextSerial_le : q.nextSerial ≤ q'.nextSerial
  known : ∀ id deadline, id.serial < q.nextSerial → q'.deadline? id = some deadline →
    ∃ older, q.deadline? id = some older ∧ deadline.instant ≤ older.instant

theorem Ages.refl
    (q : DeadlineQueue) :
    q.Ages q :=
  ⟨Nat.le_refl _, fun _ deadline _ h => ⟨deadline, h, Nat.le_refl _⟩⟩

theorem Ages.trans
    (h : q.Ages q') (h' : q'.Ages q'') :
    q.Ages q'' := by
  refine ⟨Nat.le_trans h.nextSerial_le h'.nextSerial_le, fun id deadline hserial hid => ?_⟩
  obtain ⟨older, holder, hle⟩ :=
    h'.known id deadline (Nat.lt_of_lt_of_le hserial h.nextSerial_le) hid
  obtain ⟨oldest, holdest, hle'⟩ := h.known id older hserial holder
  exact ⟨oldest, holdest, Nat.le_trans hle hle'⟩

/-- An entry that has left does not come back. -/
theorem Ages.deadline?_eq_none
    (h : q.Ages q') (hserial : id.serial < q.nextSerial) (hnone : q.deadline? id = none) :
    q'.deadline? id = none := by
  rw [Option.eq_none_iff_forall_ne_some]
  intro deadline hid
  obtain ⟨older, holder, -⟩ := h.known id deadline hserial hid
  rw [hnone] at holder
  cases holder

theorem serial_lt
    {deadline : Deadline} (h : q.Settled) (hid : q.deadline? id = some deadline) :
    id.serial < q.nextSerial :=
  Heap.Sound.serial_lt h.toSound hid

theorem ages_of_left
    (hqueue : q'.deadline? = Function.update q.deadline? id none)
    (hnext : q'.nextSerial = q.nextSerial) :
    q.Ages q' := by
  refine ⟨hnext.ge, fun other deadline _ hother => ?_⟩
  rw [hqueue, Function.update_apply] at hother
  split at hother
  · cases hother
  · exact ⟨deadline, hother, Nat.le_refl _⟩

theorem ages_without
    (h : q.Settled) (existing : Option Handle) :
    q.Ages (q.without existing) := by
  cases existing with
  | none =>
      exact .refl q
  | some id =>
      obtain ⟨-, hqueue, hnext⟩ := disarm_spec h id
      exact ages_of_left hqueue hnext

/-- Arming lowers the entry, or replaces it by one that is new. -/
theorem ages_arm
    (h : q.Settled) (existing : Option Handle) (fd : Int) (instant : Nat) :
    q.Ages (q.arm existing fd instant).2 := by
  obtain ⟨-, hsame, -⟩ := without_spec h existing
  obtain ⟨-, hqueue, hcases⟩ := arm_cases h existing fd instant
  have hwithout := ages_without h existing
  constructor
  · rcases hcases with ⟨old, -, -, -, hnext⟩ | ⟨-, hnext⟩ <;> omega
  · intro id deadline hserial hid
    rw [hqueue, Function.update_apply] at hid
    split at hid
    next heq =>
        subst heq
        rcases hcases with ⟨old, -, hold, hlt, -⟩ | ⟨hnew, -⟩
        · cases hid
          exact ⟨old, hold, Deadline.instant_le (Ordering.isLE_of_eq_lt hlt)⟩
        · omega
    next =>
        exact hwithout.known id deadline (hsame ▸ hserial) hid

end DeadlineQueue

namespace Timing

variable {τ τ' : Timing H} {registered : Int → Prop} {now : Nat} {fd other : Int} {act : Act H}

theorem Postponed.ages
    {fds : List Int} (hpostponed : τ.Postponed registered now fds τ') (h : τ.Linked) :
    τ.queue.Ages τ'.queue := by
  induction hpostponed with
  | nil =>
      exact .refl _
  | passed _ ih =>
      exact ih h
  | @armed fd _ τ _ _ _ _ ih =>
      exact (DeadlineQueue.ages_arm h.settled (τ.entry fd) fd now).trans (ih (h.arm fd now))

/-- Whatever a move does to the timeouts, the entries of the queue age. -/
theorem Change.ages
    (hchange : τ.Change registered now act τ') (h : τ.Linked) :
    τ.queue.Ages τ'.queue := by
  cases hchange with
  | still _ | kept _ | handled =>
      exact .refl _
  | @cleared _ fd _ | @removed fd _ _ _ | @began _ fd _ | @dropped _ fd _ _ _ =>
      exact DeadlineQueue.ages_without h.settled (τ.entry fd)
  | @armed fd _ delay _ _ =>
      exact DeadlineQueue.ages_arm h.settled (τ.entry fd) fd (now + delay)
  | expired _ hdue _ =>
      rcases DeadlineQueue.takeDue?_cases h.settled now with ⟨hnone, -⟩ |
        ⟨id, instant, fd, q, hsome, -, -, -, hqueue, hnext⟩
      · rw [hnone] at hdue
        cases hdue
      · cases hsome.symm.trans hdue
        exact DeadlineQueue.ages_of_left hqueue hnext
  | postponed _ hpostponed =>
      exact hpostponed.ages h

theorem deadline?_disarm
    (h : τ.Linked) {id : Handle} {deadline : Deadline}
    (hid : (τ.disarm fd).queue.deadline? id = some deadline) :
    τ.queue.deadline? id = some deadline := by
  have hwithout := (DeadlineQueue.without_spec h.settled (τ.entry fd)).2.2 id
  rw [show (τ.disarm fd).queue = τ.queue.without (τ.entry fd) from rfl, hwithout] at hid
  split at hid
  · cases hid
  · exact hid

theorem deadline?_arm
    (h : τ.Linked) {id : Handle} {deadline : Deadline} {instant : Nat}
    (hid : (τ.arm fd instant).queue.deadline? id = some deadline) :
    deadline = ⟨instant, fd⟩ ∨ τ.queue.deadline? id = some deadline := by
  obtain ⟨-, hqueue, -⟩ := DeadlineQueue.arm_spec h.settled (τ.entry fd) fd instant
  rw [show (τ.arm fd instant).queue = (τ.queue.arm (τ.entry fd) fd instant).2 from rfl, hqueue,
    Function.update_apply] at hid
  split at hid
  · cases hid
    exact .inl rfl
  · exact .inr (deadline?_disarm h hid)

theorem Postponed.deadline?_cases
    {fds : List Int} (hpostponed : τ.Postponed registered now fds τ') (h : τ.Linked)
    {id : Handle} {deadline : Deadline} (hid : τ'.queue.deadline? id = some deadline) :
    τ.queue.deadline? id = some deadline ∨ deadline.fd ∈ fds := by
  induction hpostponed with
  | nil =>
      exact .inl hid
  | passed _ ih =>
      exact (ih h hid).imp_right (List.mem_cons_of_mem _)
  | @armed fd _ _ _ _ _ _ ih =>
      rcases ih (h.arm fd now) hid with hold | hin
      · rcases deadline?_arm h hold with rfl | hold
        · exact .inr List.mem_cons_self
        · exact .inl hold
      · exact .inr (List.mem_cons_of_mem _ hin)

/-- An entry was there before, or its descriptor was armed or had been deferred. -/
theorem Change.deadline?_cases
    (hchange : τ.Change registered now act τ') (h : τ.Linked) {id : Handle}
    {deadline : Deadline} (hid : τ'.queue.deadline? id = some deadline) :
    τ.queue.deadline? id = some deadline ∨ act.armsTimeout deadline.fd = true ∨
      deadline.fd ∈ τ.deferred := by
  cases hchange with
  | still _ | kept _ | handled =>
      exact .inl hid
  | cleared _ | removed _ | began _ | dropped _ _ _ =>
      exact .inl (deadline?_disarm h hid)
  | armed hflags =>
      rcases deadline?_arm h hid with rfl | hold
      · exact .inr (.inl (by simp [Act.armsTimeout, hflags]))
      · exact .inl hold
  | @expired _ _ queue _ _ hdue _ =>
      obtain ⟨old, -, -, hqueue⟩ := h.entry_of_takeDue? hdue
      change queue.deadline? id = some deadline at hid
      rw [hqueue, Function.update_apply] at hid
      split at hid
      · cases hid
      · exact .inl hid
  | postponed _ hpostponed =>
      exact (hpostponed.deadline?_cases h hid).imp_right .inr

/-- The instant at which the timeout of a descriptor is due. -/
def instant? (τ : Timing H) (fd : Int) : Option Nat :=
  (τ.entry fd).bind fun id => (τ.queue.deadline? id).map (·.instant)

theorem instant?_of_none
    (hentry : τ.entry fd = none) :
    τ.instant? fd = none := by
  rw [instant?, hentry, Option.bind_none]

theorem instant?_of_some
    {id : Handle} {deadline : Deadline} (hentry : τ.entry fd = some id)
    (hdeadline : τ.queue.deadline? id = some deadline) :
    τ.instant? fd = some deadline.instant := by
  rw [instant?, hentry, Option.bind_some, hdeadline, Option.map_some]

theorem Linked.deadline?_of_entry
    (h : τ.Linked) {id : Handle} (hentry : τ.entry fd = some id) :
    ∃ instant, τ.queue.deadline? id = some ⟨instant, fd⟩ := by
  obtain ⟨deadline, hdeadline, rfl⟩ := Option.map_eq_some_iff.1 ((h.entry_iff fd id).1 hentry)
  exact ⟨deadline.instant, hdeadline⟩

/-- What happens to the entry of a descriptor does not concern the others. -/
theorem instant?_eq
    (hentry : τ'.entry other = τ.entry other)
    (hqueue : ∀ id, τ.entry other = some id → τ'.queue.deadline? id = τ.queue.deadline? id) :
    τ'.instant? other = τ.instant? other := by
  unfold instant?
  rw [hentry]
  cases hid : τ.entry other with
  | none =>
      rfl
  | some id =>
      rw [Option.bind_some, Option.bind_some, hqueue id hid]

theorem Linked.entry_ne
    (h : τ.Linked) {id id' : Handle} (hne : other ≠ fd) (hother : τ.entry other = some id)
    (hentry : τ.entry fd = some id') :
    id ≠ id' := by
  rintro rfl
  rw [h.entry_iff] at hother hentry
  exact hne (Option.some.inj (hother.symm.trans hentry))

theorem Linked.instant?_disarm
    (h : τ.Linked) (fd : Int) :
    (τ.disarm fd).instant? = Function.update τ.instant? fd none := by
  funext other
  rw [Function.update_apply]
  split
  next heq =>
      rw [heq]
      exact instant?_of_none (Function.update_self ..)
  next hne =>
      refine instant?_eq (Function.update_of_ne hne ..) fun id hid => ?_
      rw [show (τ.disarm fd).queue = τ.queue.without (τ.entry fd) from rfl,
        (DeadlineQueue.without_spec h.settled (τ.entry fd)).2.2 id]
      exact if_neg fun hentry => h.entry_ne hne hid hentry rfl

theorem Linked.instant?_arm
    (h : τ.Linked) (fd : Int) (instant : Nat) :
    (τ.arm fd instant).instant? = Function.update τ.instant? fd (some instant) := by
  obtain ⟨-, hqueue, hfresh⟩ := DeadlineQueue.arm_spec h.settled (τ.entry fd) fd instant
  funext other
  rw [Function.update_apply]
  split
  next heq =>
      rw [heq]
      have hself : (τ.arm fd instant).queue.deadline? (τ.queue.arm (τ.entry fd) fd instant).1 =
          some ⟨instant, fd⟩ :=
        (congrFun hqueue _).trans (Function.update_self ..)
      exact instant?_of_some (Function.update_self ..) hself
  next hne =>
      have hdisarm := congrFun (h.instant?_disarm fd) other
      rw [Function.update_of_ne hne] at hdisarm
      rw [← hdisarm]
      refine instant?_eq ?_ fun id hid => ?_
      · exact (Function.update_of_ne hne ..).trans (Function.update_of_ne hne ..).symm
      · obtain ⟨instant', hdeadline⟩ := (h.disarm fd).deadline?_of_entry hid
        rw [show (τ.arm fd instant).queue = (τ.queue.arm (τ.entry fd) fd instant).2 from rfl,
          hqueue]
        refine Function.update_of_ne ?_ ..
        rintro rfl
        cases hdeadline.symm.trans hfresh

theorem Linked.instant?_expire
    (h : τ.Linked) {queue : DeadlineQueue} (hdue : τ.queue.takeDue? now = some (fd, queue)) :
    (τ.expire fd queue).instant? = Function.update τ.instant? fd none ∧
      ∃ instant ≤ now, τ.instant? fd = some instant := by
  rcases DeadlineQueue.takeDue?_cases h.settled now with ⟨hnone, -⟩ |
    ⟨id, instant, fd', q, hsome, -, hdeadline, hle, hqueue, -⟩
  · rw [hnone] at hdue
    cases hdue
  · cases hsome.symm.trans hdue
    have hentry : τ.entry fd = some id := by
      rw [h.entry_iff, DeadlineQueue.owner?, hdeadline, Option.map_some]
    constructor
    · funext other
      rw [Function.update_apply]
      split
      next heq =>
          rw [heq]
          exact instant?_of_none (Function.update_self ..)
      next hne =>
          refine instant?_eq (Function.update_of_ne hne ..) fun old hold => ?_
          rw [show (τ.expire fd queue).queue = queue from rfl, hqueue]
          exact Function.update_of_ne (h.entry_ne hne hold hentry) ..
    · exact ⟨instant, hle, instant?_of_some hentry hdeadline⟩

theorem Postponed.instant?_cases
    {fds : List Int} (hpostponed : τ.Postponed registered now fds τ') (h : τ.Linked) (fd : Int) :
    τ'.instant? fd = τ.instant? fd ∨
      fd ∈ fds ∧ τ.instant? fd = none ∧ τ'.instant? fd = some now := by
  induction hpostponed with
  | nil =>
      exact .inl rfl
  | passed _ ih =>
      exact (ih h).imp_right fun ⟨hin, hrest⟩ => ⟨List.mem_cons_of_mem _ hin, hrest⟩
  | @armed other _ τ _ _ hnone _ ih =>
      have harm := congrFun (h.instant?_arm other now) fd
      rw [Function.update_apply] at harm
      split at harm
      next heq =>
          subst heq
          refine .inr ⟨List.mem_cons_self, ?_, ?_⟩
          · exact instant?_of_none hnone
          · rcases ih (h.arm fd now) with hsame | ⟨-, hnone', -⟩
            · exact hsame.trans harm
            · cases hnone'.symm.trans harm
      next =>
          rw [harm] at ih
          exact (ih (h.arm other now)).imp_right
            fun ⟨hin, hrest⟩ => ⟨List.mem_cons_of_mem _ hin, hrest⟩

/-- What a move does to the timeout of one descriptor: nothing, or it ends it, or arms it,
or arms it again after it was deferred. -/
theorem Change.instant?_cases
    (hchange : τ.Change registered now act τ') (h : τ.Linked) (fd : Int) :
    (τ'.instant? fd = τ.instant? fd ∨ τ'.instant? fd = none) ∨
      (∃ flags delay handler, act = .request (.setFd fd flags (.after delay) handler) .done ∧
        flags ≠ .clear ∧ τ'.instant? fd = some (now + delay) ∧ τ'.deferred = τ.deferred) ∨
      (fd ∈ τ.deferred ∧ τ.instant? fd = none ∧ τ'.instant? fd = some now ∧
        τ'.deferred = []) := by
  have hwithout : ∀ other, Function.update τ.instant? other none fd = τ.instant? fd ∨
      Function.update τ.instant? other none fd = none := by
    intro other
    rw [Function.update_apply]
    split
    · exact .inr rfl
    · exact .inl rfl
  cases hchange with
  | still _ | kept _ | handled =>
      exact .inl (.inl rfl)
  | @cleared _ other _ | @removed other _ _ _ | @began _ other _ | @dropped _ other _ _ _ =>
      refine .inl ?_
      have hdisarm := congrFun (h.instant?_disarm other) fd
      exact hdisarm ▸ hwithout other
  | @armed other flags delay handler hflags =>
      have harm := congrFun (h.instant?_arm other (now + delay)) fd
      rw [Function.update_apply] at harm
      split at harm
      next heq =>
          subst heq
          exact .inr (.inl ⟨flags, delay, handler, rfl, hflags, harm, rfl⟩)
      next =>
          exact .inl (.inl harm)
  | @expired _ other queue _ _ hdue _ =>
      refine .inl ?_
      have hexpire := congrFun (h.instant?_expire hdue).1 fd
      exact hexpire ▸ hwithout other
  | postponed _ hpostponed =>
      rcases hpostponed.instant?_cases h fd with hsame | ⟨hin, hnone, hsome⟩
      · exact .inl (.inl hsame)
      · exact .inr (.inr ⟨hin, hnone, hsome, rfl⟩)

/-- A timeout is deferred only when it is due. -/
theorem Change.deferred_cases
    (hchange : τ.Change registered now act τ') (h : τ.Linked) (hin : fd ∈ τ'.deferred) :
    fd ∈ τ.deferred ∨ τ'.instant? fd = none ∧ ∃ instant ≤ now, τ.instant? fd = some instant := by
  cases hchange with
  | still _ | kept _ | handled | cleared _ | removed _ | began _ | dropped _ _ _ | armed _ =>
      exact .inl hin
  | @expired _ other queue _ _ hdue hdeferred =>
      obtain ⟨hexpire, hinstant⟩ := h.instant?_expire hdue
      rcases hdeferred with rfl | rfl
      · exact .inl hin
      · rcases List.mem_append.1 hin with hin | hin
        · exact .inl hin
        · obtain rfl := List.mem_singleton.1 hin
          exact .inr ⟨(congrFun hexpire fd).trans (Function.update_self ..), hinstant⟩
  | postponed _ _ =>
      cases hin

end Timing
end CallbackLoop
