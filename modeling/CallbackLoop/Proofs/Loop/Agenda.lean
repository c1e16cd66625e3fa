import CallbackLoop.Proofs.Loop.Conservation
import Mathlib.Data.List.Sort

/-!
# The agenda of a timer queue

The agenda are the due timers in the order in which they are to fire.  The timer that is
taken out is the head of the agenda, a timer that leaves the queue is struck out wherever
it stands, and one that is set for later does not enter it.  The shape of the heap shows
nowhere in this.

Timers of one deadline are told apart by the number that the queue gives to each, which is
the place of the timer among all those that were set.
-/

namespace CallbackLoop

variable {H : Type}

/-- A timer is to fire before another one. -/
def Item.Precedes (x y : Item (Timer H)) : Prop :=
  Timer.compare x.key y.key = .lt

theorem Item.precedes_iff
    {x y : Item (Timer H)} :
    x.Precedes y ↔ x.key.deadline < y.key.deadline ∨
      x.key.deadline = y.key.deadline ∧ x.key.order < y.key.order := by
  rw [Precedes, Timer.compare, Ordering.then_eq_lt, Nat.compare_eq_lt, Nat.compare_eq_eq,
    Nat.compare_eq_lt]

instance : Std.Irrefl (Item.Precedes (H := H)) where
  irrefl x h := by
    rw [Item.precedes_iff] at h
    omega

instance : Std.Antisymm (Item.Precedes (H := H)) where
  antisymm x y h h' := by
    rw [Item.precedes_iff] at h h'
    omega

theorem Item.ext_of_handle
    {x y : Item (Timer H)} (hhandle : x.handle = y.handle) (hkey : x.key = y.key) :
    x = y := by
  cases x
  cases y
  cases hkey
  cases hhandle
  rfl

/-- A timer that does not compare later is to fire first, unless both were set in the same
place. -/
theorem Item.precedes_of_isLE
    {x y : Item (Timer H)} (hle : (Timer.compare x.key y.key).isLE = true)
    (hne : x.key.order ≠ y.key.order) :
    x.Precedes y := by
  rcases Ordering.isLE_iff_eq_lt_or_eq_eq.1 hle with hlt | heq
  · exact hlt
  · rw [Timer.compare, Ordering.then_eq_eq, Nat.compare_eq_eq, Nat.compare_eq_eq] at heq
    exact absurd heq.2 hne

namespace TimerQueue

variable {q q' : TimerQueue H} {now : Nat} {id : Handle} {x : Item (Timer H)}

/-- The pending timers that are due at an instant, in the order in which they are to
fire. -/
def due (q : TimerQueue H) (now : Nat) : List (Item (Timer H)) :=
  sortBy (fun x y => (Timer.compare x.key y.key).isLE)
    (q.heap.items.filter fun x => x.key.deadline ≤ now)

/-- No two pending timers were set in the same place. -/
def Ranked (q : TimerQueue H) : Prop :=
  ∀ id id' timer timer', q.timer? id = some timer → q.timer? id' = some timer' →
    timer.order = timer'.order → id = id'

theorem mem_items_iff
    (h : q.Settled) :
    x ∈ q.heap.items ↔ q.timer? x.handle = some x.key := by
  rw [timer?, Heap.Sound.get?_eq_some_iff h.toSound]
  constructor
  · exact fun hx => ⟨x, hx, rfl, rfl⟩
  · rintro ⟨y, hy, hhandle, hkey⟩
    exact Item.ext_of_handle hhandle hkey ▸ hy

theorem mem_due_iff
    (h : q.Settled) :
    x ∈ q.due now ↔ q.timer? x.handle = some x.key ∧ x.key.deadline ≤ now := by
  rw [due, (sortBy_perm _ _).mem_iff, List.mem_filter, decide_eq_true_iff, mem_items_iff h]

theorem nodup_items
    (h : q.Settled) :
    q.heap.items.Nodup :=
  List.Nodup.of_map _ (Heap.Sound.nodup h.toSound)

theorem Ranked.order_ne
    {y : Item (Timer H)} (hranked : q.Ranked) (hx : q.timer? x.handle = some x.key)
    (hy : q.timer? y.handle = some y.key) (hne : x ≠ y) :
    x.key.order ≠ y.key.order := by
  intro horder
  have hhandle := hranked _ _ _ _ hx hy horder
  rw [hhandle, hy] at hx
  exact hne (Item.ext_of_handle hhandle (Option.some.inj hx).symm)

/-- The agenda is in the order of firing. -/
theorem pairwise_due
    (h : q.Settled) (hranked : q.Ranked) (now : Nat) :
    (q.due now).Pairwise Item.Precedes := by
  have htotal : ∀ x y : Item (Timer H),
      (Timer.compare x.key y.key).isLE = true ∨ (Timer.compare y.key x.key).isLE = true := by
    refine fun x y => or_iff_not_imp_left.2 fun hnot => ?_
    exact Ordering.isLE_of_eq_lt (Std.OrientedCmp.lt_of_not_isLE hnot)
  have hsorted : (q.due now).Pairwise fun x y => (Timer.compare x.key y.key).isLE = true :=
    pairwise_sortBy (fun _ _ _ => Std.TransCmp.isLE_trans) htotal _
  have hnodup : (q.due now).Nodup := (sortBy_perm _ _).nodup_iff.2 ((nodup_items h).filter _)
  refine (hsorted.and hnodup).imp_of_mem fun hx hy hboth => ?_
  exact Item.precedes_of_isLE hboth.1
    (hranked.order_ne ((mem_due_iff h).1 hx).1 ((mem_due_iff h).1 hy).1 hboth.2)

/-- A list in the order of firing that names the due timers is the agenda. -/
theorem due_eq
    (h : q.Settled) (hranked : q.Ranked) {xs : List (Item (Timer H))}
    (hpairwise : xs.Pairwise Item.Precedes)
    (hmem : ∀ x, x ∈ xs ↔ q.timer? x.handle = some x.key ∧ x.key.deadline ≤ now) :
    q.due now = xs :=
  (pairwise_due h hranked now).eq_of_mem_iff hpairwise fun x => by rw [mem_due_iff h, hmem]

theorem timer?_of_left
    {other : Handle} {timer : Timer H}
    (hleft : q'.timer? = Function.update q.timer? id none)
    (hother : q'.timer? other = some timer) :
    q.timer? other = some timer := by
  rw [hleft, Function.update_apply] at hother
  split at hother
  · cases hother
  · exact hother

theorem Ranked.of_left
    (hranked : q.Ranked) (hleft : q'.timer? = Function.update q.timer? id none) :
    q'.Ranked := by
  intro id₁ id₂ timer₁ timer₂ h₁ h₂
  exact hranked _ _ _ _ (timer?_of_left hleft h₁) (timer?_of_left hleft h₂)

/-- A timer that leaves the queue is struck out of the agenda. -/
theorem due_of_left
    (h : q.Settled) (hranked : q.Ranked) (h' : q'.Settled)
    (hleft : q'.timer? = Function.update q.timer? id none) :
    q'.due now = (q.due now).filter fun x => !decide (x.handle = id) := by
  refine due_eq h' (hranked.of_left hleft) ((pairwise_due h hranked now).filter _) fun x => ?_
  rw [List.mem_filter, mem_due_iff h, hleft, Function.update_apply]
  by_cases hx : x.handle = id <;> simp [hx]

/-- A timer that is set for later does not enter the agenda. -/
theorem due_schedule
    {deadline : Nat} {handler : H} (h : q.Settled) (hranked : q.Ranked)
    (hranked' : (q.schedule deadline handler).2.Ranked) (hlater : now < deadline) :
    (q.schedule deadline handler).2.due now = q.due now := by
  obtain ⟨h', hlookup, hserial, -⟩ := schedule_spec h deadline handler
  refine due_eq h' hranked' (pairwise_due h hranked now) fun x => ?_
  rw [mem_due_iff h, hlookup, Function.update_apply]
  split
  next heq =>
      constructor
      · rintro ⟨hx, -⟩
        have hlt := serial_lt h hx
        rw [heq, hserial] at hlt
        exact absurd hlt (Nat.lt_irrefl _)
      · rintro ⟨hnew, hle⟩
        rw [← Option.some.inj hnew] at hle
        exact absurd hle (Nat.not_le.2 hlater)
  next =>
      exact Iff.rfl

/-- A due timer that compares least heads the agenda. -/
theorem due_eq_cons
    (h : q.Settled) (hranked : q.Ranked) (h' : q'.Settled)
    (hleft : q'.timer? = Function.update q.timer? x.handle none)
    (hx : q.timer? x.handle = some x.key) (hle : x.key.deadline ≤ now)
    (hleast : ∀ id timer, q.timer? id = some timer → (Timer.compare x.key timer).isLE = true) :
    q.due now = x :: q'.due now := by
  have hrest : ∀ y, y ∈ q'.due now ↔
      y.handle ≠ x.handle ∧ q.timer? y.handle = some y.key ∧ y.key.deadline ≤ now := by
    intro y
    rw [mem_due_iff h', hleft, Function.update_apply]
    by_cases hy : y.handle = x.handle <;> simp [hy]
  refine due_eq h hranked (List.pairwise_cons.2 ⟨fun y hy => ?_, ?_⟩) fun y => ?_
  · obtain ⟨hne, hy, -⟩ := (hrest y).1 hy
    exact Item.precedes_of_isLE (hleast _ _ hy)
      (hranked.order_ne hx hy fun heq => hne (heq ▸ rfl))
  · exact pairwise_due h' (hranked.of_left hleft) now
  · rw [List.mem_cons, hrest]
    constructor
    · rintro (rfl | ⟨-, hy⟩)
      · exact ⟨hx, hle⟩
      · exact hy
    · intro hy
      refine or_iff_not_imp_left.2 fun hne => ⟨fun hhandle => hne ?_, hy⟩
      exact Item.ext_of_handle hhandle (Option.some.inj (hy.1.symm.trans (hhandle ▸ hx)))

/-- The timer that is taken out is the head of the agenda. -/
theorem due_of_takeDue?
    {timer : Timer H} (h : q.Settled) (hranked : q.Ranked)
    (hdue : q.takeDue? now = some (timer, q')) :
    ∃ x, x.key = timer ∧ q.timer? x.handle = some x.key ∧
      q'.timer? = Function.update q.timer? x.handle none ∧ q.due now = x :: q'.due now := by
  unfold takeDue? at hdue
  rcases Heap.Settled.minimum?_cases h with ⟨hnone, -⟩ |
    ⟨id, first, heap, hfirst, hget, hextract, hs, hleft, -, hleast⟩
  · simp [hnone] at hdue
  · simp only [hfirst, hextract] at hdue
    split at hdue
    next hle =>
        cases hdue
        obtain ⟨x, -, rfl, rfl⟩ := (Heap.Sound.get?_eq_some_iff h.toSound).1 hget
        exact ⟨x, rfl, hget, hleft, due_eq_cons h hranked hs hleft hget hle hleast⟩
    next =>
        cases hdue

theorem due_eq_nil
    (h : q.Settled) (hnone : q.takeDue? now = none) :
    q.due now = [] := by
  rcases takeDue?_cases h now with ⟨-, hlater⟩ | ⟨id, timer, q', hsome, -⟩
  · refine List.eq_nil_iff_forall_not_mem.2 fun x hx => ?_
    obtain ⟨htimer, hle⟩ := (mem_due_iff h).1 hx
    exact absurd hle (Nat.not_le.2 (hlater _ _ htimer))
  · rw [hnone] at hsome
    cases hsome

theorem scheduled_cancel
    (q : TimerQueue H) (id : Handle) :
    (q.cancel id).2.scheduled = q.scheduled := by
  unfold cancel
  split <;> rfl

theorem scheduled_takeDue?
    {timer : Timer H} (hdue : q.takeDue? now = some (timer, q')) :
    q'.scheduled = q.scheduled := by
  unfold takeDue? at hdue
  split at hdue
  · cases hdue
  · split at hdue
    · obtain ⟨⟨timer', heap⟩, -, heq⟩ := Option.map_eq_some_iff.1 hdue
      cases heq
      rfl
    · cases hdue

end TimerQueue

namespace Machine

variable {m m' : Machine H} {act : Act H} {steps : List (Transition H)}

/-- A pending timer knows how many timers were set before it. -/
structure Numbered (steps : List (Transition H)) (m : Machine H) : Prop where
  count : m.loop.timers.scheduled = (scheduled steps).length
  place : ∀ id timer, m.loop.timers.timer? id = some timer →
    (scheduled steps)[timer.order]? = some id

theorem Numbered.ranked
    (h : Numbered steps m) :
    m.loop.timers.Ranked := by
  intro id id' timer timer' hid hid' horder
  have hplace := h.place id timer hid
  rw [horder, h.place id' timer' hid'] at hplace
  exact (Option.some.inj hplace).symm

/-- Of two pending timers the one with the lower number was set first. -/
theorem Numbered.idxOf_lt
    {x y : Item (Timer H)} (h : Numbered steps m) (hdistinct : (scheduled steps).Nodup)
    (hx : m.loop.timers.timer? x.handle = some x.key)
    (hy : m.loop.timers.timer? y.handle = some y.key) (hlt : x.key.order < y.key.order) :
    (scheduled steps).idxOf x.handle < (scheduled steps).idxOf y.handle := by
  have hplace : ∀ id timer, m.loop.timers.timer? id = some timer →
      (scheduled steps).idxOf id = timer.order := by
    intro id timer hid
    obtain ⟨hbound, rfl⟩ := List.getElem?_eq_some_iff.1 (h.place id timer hid)
    exact hdistinct.idxOf_getElem _ _
  rwa [hplace _ _ hx, hplace _ _ hy]

/-- Timers that leave the queue do not change the numbers of the others. -/
theorem Numbered.of_subset
    {s : Transition H} (h : Numbered steps m) (hs : s.scheduled? = none)
    (hcount : m'.loop.timers.scheduled = m.loop.timers.scheduled)
    (hsubset : ∀ id timer, m'.loop.timers.timer? id = some timer →
      m.loop.timers.timer? id = some timer) :
    Numbered (steps ++ [s]) m' := by
  have hlist : scheduled (steps ++ [s]) = scheduled steps := by
    rw [scheduled_snoc, hs, Option.toList_none, List.append_nil]
  refine ⟨?_, fun id timer hid => ?_⟩
  · rw [hlist, hcount, h.count]
  · rw [hlist]
    exact h.place id timer (hsubset id timer hid)

theorem Numbered.move
    (h : Numbered steps m) (hsettled : m.loop.timers.Settled) (hchange : TimerChange m act m') :
    Numbered (steps ++ [⟨m, act, m'⟩]) m' := by
  cases hchange with
  | still hact hsame =>
      refine h.of_subset (scheduled?_eq_none hact) ?_ fun id timer hid => ?_
      · rw [hsame]
      · rwa [hsame] at hid
  | @scheduled delay handler id _ _ hschedule =>
      obtain ⟨-, hlookup, -, -⟩ :=
        TimerQueue.schedule_spec hsettled (m.clock + delay) handler
      have hcount : (m.loop.timers.schedule (m.clock + delay) handler).2.scheduled =
          m.loop.timers.scheduled + 1 := rfl
      rw [hschedule] at hlookup hcount
      have hlist : scheduled
          (steps ++ [⟨m, .request (.setTimer delay handler) (.timer id), m'⟩]) =
          scheduled steps ++ [id] :=
        scheduled_snoc steps _
      refine ⟨?_, fun other timer hother => ?_⟩
      · rw [hlist, List.length_append, ← h.count]
        exact hcount
      · rw [hlookup, Function.update_apply] at hother
        rw [hlist]
        split at hother
        next heq =>
            cases hother
            rw [heq, h.count, List.getElem?_concat_length]
        next =>
            have hold := h.place other timer hother
            exact (List.getElem?_append_left (List.getElem?_eq_some_iff.1 hold).1).trans hold
  | @cancelled id wasPending _ _ hcancel =>
      obtain ⟨-, -, hleft, -⟩ := TimerQueue.cancel_spec hsettled id
      have hcount := TimerQueue.scheduled_cancel m.loop.timers id
      rw [hcancel] at hleft hcount
      exact h.of_subset rfl hcount fun _ _ => TimerQueue.timer?_of_left hleft
  | fired _ hdue _ =>
      obtain ⟨x, -, -, hleft, -⟩ := TimerQueue.due_of_takeDue? hsettled h.ranked hdue
      exact h.of_subset rfl (TimerQueue.scheduled_takeDue? hdue)
        fun _ _ => TimerQueue.timer?_of_left hleft

theorem Course.numbered
    (hcourse : Course m steps m') (hbuilt : Built m) :
    Numbered steps m' := by
  induction hcourse with
  | nil =>
      refine ⟨?_, fun id timer hid => ?_⟩
      · rw [hbuilt.timers]
        rfl
      · rw [hbuilt.timers, TimerQueue.timer?_empty] at hid
        cases hid
  | snoc hfirst hmove ih =>
      exact ih.move (hfirst.accounted hbuilt).settled
        (timerChange_move (hfirst.run.sound hbuilt.sound) hmove)

end Machine
end CallbackLoop
