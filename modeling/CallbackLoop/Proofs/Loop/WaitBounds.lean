import CallbackLoop.Proofs.Loop.Conservation
import CallbackLoop.Proofs.Loop.Listening
import CallbackLoop.Proofs.Loop.Removal
import Mathlib.Order.Bounds.Basic

/-!
# How long a wait may take

A loop waits until its next instant, but no longer than a tick.  The host is given that
bound in words of its own: whole milliseconds, or seconds and whole microseconds.  What
the bound has beyond its whole microseconds is lost on the way; whole microseconds are
not, unless the time is too long for a word.

`waits_are_bounded` is the result for whole runs.
-/

namespace CallbackLoop

variable {H : Type}

namespace Time

/-- A time for a wait that stands for a bound, given to the host in words that can say at
least `cap`. -/
structure Rounds (bound cap time : Nat) : Prop where
  /-- It is not shorter than the whole microseconds of the bound. -/
  reaches : min (bound / micro * micro) cap ≤ time
  /-- It is longer than the bound by less than a millisecond. -/
  close : time < bound + milli
  /-- The wait is a mere look only for less than a microsecond. -/
  eq_zero_iff : time = 0 ↔ bound < micro

theorem rounds_millis
    (bound : Nat) :
    Rounds bound (wordCap * milli) (ceilMillis bound * milli) := by
  have hcap : wordCap = 2147483647 := rfl
  constructor <;> simp only [ceilMillis, hcap, micro, milli] <;> omega

theorem rounds_micros
    (bound : Nat) :
    Rounds bound (wordCap * second)
      (min (bound / second) wordCap * second + bound % second / micro * micro) := by
  have hcap : wordCap = 2147483647 := rfl
  constructor <;> simp only [hcap, micro, milli, second] <;> omega

/-- Rounding up needs no more than words of 128 bits. -/
theorem micros_lt
    {bound : Nat} (h : bound < 2 ^ 64 * second) :
    bound / micro + 999 < 2 ^ 128 := by
  simp only [second, milli, micro] at h ⊢
  omega

end Time

/-- A call that waits from `now` for at most `timeout`, in words that can say at least
`cap`. -/
inductive Call.Waits (now : Nat) : (timeout : Option Nat) → (cap : Nat) → Call → Prop
  | millis {millis capacity : Nat} :
      millis ≤ Time.wordCap →
      Waits now (some (millis * Time.milli)) (Time.wordCap * Time.milli)
        (.epollWait now millis capacity)
  | millisUnbounded {capacity : Nat} :
      Waits now none (Time.wordCap * Time.milli) (.epollWait now (-1) capacity)
  | micros {seconds micros : Nat} {width : Int} {read write except : List Int} :
      seconds ≤ Time.wordCap →
      micros < 1000000 →
      Waits now (some (seconds * Time.second + micros * Time.micro))
        (Time.wordCap * Time.second)
        (.select now (some (seconds * 1000000 + micros)) width read write except)
  | microsUnbounded {width : Int} {read write except : List Int} :
      Waits now none (Time.wordCap * Time.second) (.select now none width read write except)

/-- The call by which a backend waits. -/
def Backend.waitCall (b : Backend) (now : Nat) (bound : Option Nat) : Call :=
  match b with
  | epoll e => .epollWait now (Time.timeoutMillis bound) e.capacity
  | select t =>
      .select now (bound.map Time.cappedMicros) t.width t.sets.read t.sets.write t.sets.except

/-- The call waits without a bound exactly if there is none, and else rounds it. -/
theorem Backend.waits_waitCall
    (b : Backend) (now : Nat) (bound : Option Nat) :
    ∃ timeout cap, (b.waitCall now bound).Waits now timeout cap ∧
      (timeout = none ↔ bound = none) ∧
      ∀ delay, bound = some delay → ∃ time, timeout = some time ∧ Time.Rounds delay cap time := by
  cases b with
  | epoll e =>
      cases bound with
      | none =>
          exact ⟨_, _, .millisUnbounded, by simp, by simp⟩
      | some delay =>
          refine ⟨_, _, .millis (Nat.min_le_right _ _), by simp, ?_⟩
          rintro _ ⟨⟩
          exact ⟨_, rfl, Time.rounds_millis delay⟩
  | select t =>
      cases bound with
      | none =>
          exact ⟨_, _, .microsUnbounded, by simp, by simp⟩
      | some delay =>
          have hmicros : delay % Time.second / Time.micro < 1000000 := by
            simp only [Time.second, Time.milli, Time.micro]
            omega
          refine ⟨_, _, .micros (Nat.min_le_right _ _) hmicros, by simp, ?_⟩
          rintro _ ⟨⟩
          exact ⟨_, rfl, Time.rounds_micros delay⟩

/-- The least number of a set, if there is any. -/
def LeastOf (s : Set Nat) : Option Nat → Prop
  | none => s = ∅
  | some first => IsLeast s first

theorem LeastOf.eq_none_iff
    {s : Set Nat} {first? : Option Nat} (h : LeastOf s first?) :
    first? = none ↔ s = ∅ := by
  cases first? with
  | none =>
      exact ⟨fun _ => h, fun _ => rfl⟩
  | some first =>
      refine ⟨nofun, ?_⟩
      rintro rfl
      exact absurd h.1 (Set.notMem_empty first)

theorem LeastOf.eq_some
    {s : Set Nat} {first? : Option Nat} {first : Nat} (h : LeastOf s first?)
    (hfirst : IsLeast s first) :
    first? = some first := by
  cases first? with
  | none =>
      rw [show s = ∅ from h] at hfirst
      exact absurd hfirst.1 (Set.notMem_empty first)
  | some other =>
      exact congrArg some (h.unique hfirst)

/-- The least key of a settled heap has the least of any quantity that the order respects. -/
theorem Heap.Settled.leastOf_minimum?
    {κ : Type} {cmp : κ → κ → Ordering} [Std.TransCmp cmp] {h : Heap κ cmp} (hs : h.Settled)
    {instant : κ → Nat} (hle : ∀ {a b}, (cmp a b).isLE = true → instant a ≤ instant b) :
    LeastOf {n | ∃ id key, h.get? id = some key ∧ instant key = n} (h.minimum?.map instant) := by
  rcases hs.minimum?_cases with ⟨hnone, hempty⟩ |
    ⟨id, first, -, hfirst, hget, -, -, -, -, hleast⟩
  · rw [hnone]
    refine Set.eq_empty_iff_forall_notMem.2 ?_
    rintro n ⟨id, key, hkey, -⟩
    cases (hempty id).symm.trans hkey
  · rw [hfirst]
    refine ⟨⟨id, first, hget, rfl⟩, ?_⟩
    rintro n ⟨other, key, hkey, rfl⟩
    exact hle (hleast other key hkey)

/-- The deadlines of the pending timers. -/
def TimerQueue.deadlines (q : TimerQueue H) : Set Nat :=
  {instant | ∃ id timer, q.timer? id = some timer ∧ timer.deadline = instant}

/-- The instants of the armed deadlines. -/
def DeadlineQueue.instants (q : DeadlineQueue) : Set Nat :=
  {instant | ∃ id deadline, q.deadline? id = some deadline ∧ deadline.instant = instant}

theorem TimerQueue.leastOf_firstDeadline?
    {q : TimerQueue H} (h : q.Settled) :
    LeastOf q.deadlines q.firstDeadline? :=
  Heap.Settled.leastOf_minimum? h Timer.deadline_le

theorem DeadlineQueue.leastOf_firstInstant?
    {q : DeadlineQueue} (h : q.Settled) :
    LeastOf q.instants q.firstInstant? :=
  Heap.Settled.leastOf_minimum? h Deadline.instant_le

namespace Loop

/-- The instants at which timers and timeouts of a loop are due. -/
def instants (l : Loop H) : Set Nat :=
  l.timers.deadlines ∪ l.timeouts.instants

theorem leastOf_nextInstant?
    {l : Loop H} (h : l.timers.Settled) (h' : l.timeouts.Settled) :
    LeastOf l.instants l.nextInstant? := by
  have htimers := TimerQueue.leastOf_firstDeadline? h
  have htimeouts := DeadlineQueue.leastOf_firstInstant? h'
  unfold nextInstant? instants
  cases hfirst : l.timers.firstDeadline? with
  | none =>
      rw [hfirst] at htimers
      rw [show l.timers.deadlines = ∅ from htimers, Set.empty_union]
      exact htimeouts
  | some first =>
      rw [hfirst] at htimers
      cases hother : l.timeouts.firstInstant? with
      | none =>
          rw [hother] at htimeouts
          rw [show l.timeouts.instants = ∅ from htimeouts, Set.union_empty]
          exact htimers
      | some other =>
          rw [hother] at htimeouts
          exact htimers.union htimeouts

end Loop

namespace Kernel

theorem record_obstacle
    (k : Kernel) (name : CallName) (fd : Int) (variant : Option CallVariant) :
    (k.obstacle name fd variant).2.record = k.record := by
  unfold obstacle
  split <;> rfl

theorem record_write
    (k : Kernel) (fd : Int) (bytes : List UInt8) :
    k.record <:+ (k.write fd bytes).2.record := by
  have hobstacle := k.record_obstacle .write fd none
  unfold write
  split
  next heq =>
      rw [heq] at hobstacle
      exact hobstacle ▸ List.suffix_cons _ _
  next heq =>
      rw [heq] at hobstacle
      dsimp only at hobstacle ⊢
      split
      · exact hobstacle ▸ List.suffix_cons _ _
      · split <;> exact hobstacle ▸ List.suffix_cons _ _

theorem record_epollControl
    (k : Kernel) (number : Nat) (fd : Int) (change : EpollChange) :
    k.record <:+ (k.epollControl number fd change).2.record := by
  have hobstacle := k.record_obstacle .epollControl fd (some (changeVariant change))
  unfold epollControl
  split
  next heq =>
      rw [heq] at hobstacle
      exact hobstacle ▸ List.suffix_cons _ _
  next heq =>
      rw [heq] at hobstacle
      dsimp only at hobstacle ⊢
      split <;> exact hobstacle ▸ List.suffix_cons _ _

/-- What every step of a fold keeps of the record, the fold keeps. -/
theorem record_foldl
    {α : Type} {f : Kernel → α → Kernel} (hf : ∀ k a, k.record <:+ (f k a).record)
    (as : List α) (k : Kernel) :
    k.record <:+ (as.foldl f k).record := by
  induction as generalizing k with
  | nil =>
      exact List.suffix_refl _
  | cons a as ih =>
      exact (hf k a).trans (ih (f k a))

end Kernel

namespace Host

theorem record_raise
    (h : Host) (signo : Int) :
    h.kernel.record <:+ (h.raise signo).kernel.record := by
  unfold raise
  split
  · unfold catchSignal
    split
    · exact List.suffix_cons _ _
    next hub _ =>
        let noted := h.kernel.note (.signal signo .handler)
        have hbroadcast : noted.record <:+
            (broadcast noted signo.toNat.toUInt8 (h.hub hub).members).record :=
          Kernel.record_foldl (fun k fd => k.record_write fd _) _ _
        exact (List.suffix_cons _ _).trans hbroadcast
  · exact List.suffix_cons _ _

theorem record_happen
    (h : Host) (entry : WaitEntry) :
    h.kernel.record <:+ (h.happen entry).kernel.record := by
  have hraised : ∀ (signos : List Int) (h : Host),
      h.kernel.record <:+ (signos.foldl Host.raise h).kernel.record := by
    intro signos
    induction signos with
    | nil =>
        exact fun h => List.suffix_refl _
    | cons signo signos ih =>
        exact fun h => (record_raise h signo).trans (ih _)
  have hclosed : h.kernel.record <:+ (entry.closed.foldl Kernel.close h.kernel).record :=
    Kernel.record_foldl (f := Kernel.close) (fun _ _ => List.suffix_refl _) entry.closed h.kernel
  have hopened : (entry.closed.foldl Kernel.close h.kernel).record <:+
      (entry.opened.foldl Kernel.reopen (entry.closed.foldl Kernel.close h.kernel)).record :=
    Kernel.record_foldl (f := Kernel.reopen) (fun _ _ => List.suffix_refl _) entry.opened _
  exact (hclosed.trans hopened).trans
    (hraised entry.raised { h with kernel := entry.opened.foldl Kernel.reopen _ })

/-- A wait keeps the record, if what it collects does. -/
theorem record_await
    {β : Type} {h : Host} {timeout : Option Nat}
    {collect : Bool → List (Int × Conditions) → Kernel → Report β × Kernel}
    (hcollect : ∀ raw ready (k : Kernel), (collect raw ready k).2.record = k.record) :
    h.kernel.record <:+ (h.await timeout collect).2.kernel.record := by
  have hentry : h.kernel.nextEntry.2.record = h.kernel.record := by
    unfold Kernel.nextEntry
    dsimp only
    split <;> rfl
  unfold await
  split
  · exact List.suffix_refl _
  · generalize h.kernel.nextEntry = next at hentry
    obtain ⟨entry, kernel⟩ := next
    have hhappen : h.kernel.record <:+ ({ h with kernel }.happen entry).kernel.record := by
      have hrecord := record_happen { h with kernel } entry
      dsimp only at hentry hrecord
      rwa [hentry] at hrecord
    dsimp only at hhappen ⊢
    generalize { h with kernel }.happen entry = host at hhappen ⊢
    have hcollected := hcollect entry.raw
      (entry.events ++ host.kernel.readablePipes (entry.events.map Prod.fst)) host.kernel
    rw [← hcollected] at hhappen
    split
    · rwa [hcollected] at hhappen
    · split
      · exact hhappen
      · exact hhappen
      · split <;> exact hhappen

end Host

namespace Backend

/-- A wait begins with the call by which the backend waits. -/
theorem record_wait
    (b : Backend) (h : Host) (bound : Option Nat) :
    ⟨b.waitCall h.kernel.clock bound, none⟩ :: h.kernel.record <:+
      (b.wait h bound).2.kernel.record := by
  cases b with
  | epoll e =>
      have hwait : ⟨(epoll e).waitCall h.kernel.clock bound, none⟩ :: h.kernel.record <:+
          (h.epollWait e.number (Time.timeoutMillis bound) e.capacity).2.kernel.record := by
        refine Host.record_await (h := { h with kernel := h.kernel.note _ }) ?_
        intro raw ready k
        split
        · rfl
        · dsimp only
          split <;> rfl
      unfold wait EpollInstance.wait
      dsimp only
      split
      next heq =>
          rw [heq] at hwait
          exact hwait
      next heq =>
          rw [heq] at hwait
          exact hwait
  | select t =>
      have hwait : ⟨(select t).waitCall h.kernel.clock bound, none⟩ :: h.kernel.record <:+
          (h.select (bound.map Time.cappedMicros) t.width t.sets).2.kernel.record := by
        unfold Host.select
        dsimp only
        split
        · exact List.suffix_refl _
        · exact Host.record_await (h := { h with kernel := h.kernel.note _ }) fun _ _ _ => rfl
      unfold wait SelectTable.wait
      dsimp only
      split
      next heq =>
          rw [heq] at hwait
          exact hwait
      next heq =>
          rw [heq] at hwait
          exact hwait

theorem record_apply
    (call : BackendCall) (b : Backend) (k : Kernel) (fd : Int) :
    k.record <:+ (call.apply b k fd).2.2.record := by
  cases b with
  | epoll e =>
      cases call with
      | register interest | modify interest =>
          exact k.record_epollControl e.number fd _
      | unregister =>
          have hcontrol := k.record_epollControl e.number fd .delete
          show k.record <:+ (e.unregister k fd).2.record
          unfold EpollInstance.unregister
          split
          next heq =>
              rw [heq] at hcontrol
              exact hcontrol
          next =>
              exact hcontrol
  | select t =>
      cases call with
      | register interest =>
          unfold BackendCall.apply register
          dsimp only
          split <;> exact List.suffix_refl _
      | modify interest =>
          unfold BackendCall.apply modify
          dsimp only
          split <;> exact List.suffix_refl _
      | unregister =>
          exact List.suffix_refl _

end Backend

namespace Machine

variable {m m' : Machine H} {steps : List (Transition H)}

/-- The host after a move of the dispatcher, or when the program ended in it. -/
def hostAfter : Except Crash (Machine H) → Host
  | .ok m => m.host
  | .error crash => crash.host

theorem record_bind
    {record : List CallRecord} {x : Except Crash (Machine H)}
    {f : Machine H → Except Crash (Machine H)} (hx : record <:+ (hostAfter x).kernel.record)
    (hf : ∀ m, x = .ok m → m.host.kernel.record <:+ (hostAfter (f m)).kernel.record) :
    record <:+ (hostAfter (x >>= f)).kernel.record := by
  cases x with
  | error crash =>
      exact hx
  | ok m =>
      exact hx.trans (hf m rfl)

theorem record_bind_descriptor
    {slot : Nat} {f : Descriptor (Reaction H) H → Except Crash (Machine H)}
    (hf : ∀ d, m.host.kernel.record <:+ (hostAfter (f d)).kernel.record) :
    m.host.kernel.record <:+ (hostAfter (m.descriptor slot >>= f)).kernel.record := by
  unfold descriptor
  split
  next d _ =>
      exact hf d
  next =>
      exact List.suffix_refl _

theorem record_align
    (hhost : m'.host = m.host) (slot : Nat) (force : Bool) :
    m.host.kernel.record <:+ (hostAfter (m'.align slot force)).kernel.record := by
  rw [← hhost, align_eq]
  refine record_bind_descriptor fun d => record_bind ?_ fun _ _ => List.suffix_refl _
  have hcall : m'.host.kernel.record <:+ (m'.call (d.call? force) d.fd).2.2.record := by
    cases d.call? force with
    | none =>
        exact List.suffix_refl _
    | some call =>
        exact Backend.record_apply call _ _ _
  unfold adopt
  split
  next heq =>
      rw [heq] at hcall
      exact hcall
  next heq =>
      rw [heq] at hcall
      exact hcall

theorem record_enqueue
    (m : Machine H) (event : Event) :
    m.host.kernel.record <:+ (hostAfter (m.enqueue event)).kernel.record := by
  unfold enqueue
  split
  · exact List.suffix_refl _
  next slot _ =>
      refine record_bind_descriptor fun d => ?_
      split
      · exact List.suffix_refl _
      · dsimp only
        split
        · exact List.suffix_refl _
        · split
          · refine record_align ?_ slot true
            rfl
          · exact List.suffix_refl _

theorem record_foldlM
    (events : List Event) (m : Machine H) :
    m.host.kernel.record <:+ (hostAfter (events.foldlM enqueue m)).kernel.record := by
  induction events generalizing m with
  | nil =>
      exact List.suffix_refl _
  | cons event events ih =>
      rw [List.foldlM_cons]
      exact record_bind (record_enqueue m event) fun m' _ => ih m'

/-- The call by which a machine would wait. -/
def waitCall (m : Machine H) : Call :=
  m.loop.backend.waitCall m.clock (m.loop.waitBound m.clock)

/-- A machine that waits makes the call first, whatever comes of the wait. -/
theorem record_step_of_wait
    (hwait : m.control = .dispatching .wait) :
    ⟨m.waitCall, none⟩ :: m.host.kernel.record <:+ (hostAfter m.step).kernel.record := by
  have hrecord := m.loop.backend.record_wait m.host (m.loop.waitBound m.clock)
  have hstep : m.step = m.awaitEvents >>= fun m => .ok (m.goTo .start) := by
    rw [step, hwait]
    rfl
  rw [hstep]
  refine record_bind ?_ fun _ _ => List.suffix_refl _
  unfold awaitEvents
  split
  next heq =>
      rw [clock, heq] at hrecord
      exact hrecord
  next events host heq =>
      rw [clock, heq] at hrecord
      exact hrecord.trans (record_foldlM events { m with host })

/-- At every wait of a loop that was just built, whatever is done to it: the first call
that the host gets is to wait, and it is to wait without a bound exactly if no timer and
no timeout is pending.  Else it is to wait until the earliest instant, but no longer than a
tick: for the whole microseconds of that time, as far as words go, and for less than a
millisecond more.  A wait for at least a microsecond is no mere look. -/
theorem waits_are_bounded
    (hbuilt : Built m) (hcourse : Course m steps m') (hwait : m'.control = .dispatching .wait) :
    ∃ call timeout cap,
      ⟨call, none⟩ :: m'.host.kernel.record <:+ (hostAfter m'.step).kernel.record ∧
      call.Waits m'.clock timeout cap ∧
      (timeout = none ↔ m'.loop.instants = ∅) ∧
      ∀ first, IsLeast m'.loop.instants first →
        (∃ time, timeout = some time ∧
          Time.Rounds (min (first - m'.clock) m'.loop.tick) cap time) ∧
        (m'.loop.tick < 2 ^ 64 * Time.second →
          min (first - m'.clock) m'.loop.tick / Time.micro + 999 < 2 ^ 128) := by
  have hsettled := (hcourse.accounted hbuilt).settled
  have hlinked := hcourse.run.linked hbuilt.sound hbuilt.linked
  have hleast := Loop.leastOf_nextInstant? hsettled hlinked.settled
  obtain ⟨timeout, cap, hwaits, hnone, hrounds⟩ :=
    m'.loop.backend.waits_waitCall m'.clock (m'.loop.waitBound m'.clock)
  refine ⟨_, timeout, cap, record_step_of_wait hwait, hwaits, ?_, fun first hfirst => ⟨?_, ?_⟩⟩
  · rw [hnone, Loop.waitBound, Option.map_eq_none_iff, hleast.eq_none_iff]
  · refine hrounds _ ?_
    rw [Loop.waitBound, hleast.eq_some hfirst]
    rfl
  · exact fun htick => Time.micros_lt (Nat.lt_of_le_of_lt (Nat.min_le_right _ _) htick)

/-- A timer is set, and the first wait begins. -/
def timerAloneLog (delay : Nat) : List (Act Nat) :=
  [Act.request (.setTimer delay 1) (.timer ⟨0, 0⟩), .request .dispatch .done] ++
  List.replicate 7 Act.advance

/-- What leads to `timerAloneLog`. -/
def timerAloneCues (delay : Nat) : List (Cue Nat) :=
  [Cue.request (.setTimer delay 1), .request .dispatch] ++ List.replicate 7 Cue.step

theorem waits_are_bounded_timerAloneLog :
    ∃ (m m' : Machine Nat) (steps : List (Transition Nat)), Built m ∧ Course m steps m' ∧
      steps.map (·.act) = timerAloneLog 1500001 ∧ m'.control = .dispatching .wait ∧
      IsLeast m'.loop.instants 1500001 ∧
      ∃ call time cap,
        ⟨call, none⟩ :: m'.host.kernel.record <:+ (hostAfter m'.step).kernel.record ∧
        call.Waits 0 (some time) cap ∧ Time.Rounds 1500001 cap time := by
  have hbuilt := built_scriptedEpoll Nat []
  obtain ⟨steps, m', hcourse, -, hlog, hwait, hclock, htick, hnext⟩ :=
    exists_timely_course_of_trail (m := scriptedEpoll Nat []) (timerAloneLog 1500001)
      (fun _ m' => m'.control = .dispatching .wait ∧ m'.clock = 0 ∧
        m'.loop.tick = 10000000 ∧ m'.loop.nextInstant? = some 1500001)
      (timerAloneCues 1500001) (by decide +kernel)
  have hleast := Loop.leastOf_nextInstant? (hcourse.accounted hbuilt).settled
    (hcourse.run.linked hbuilt.sound hbuilt.linked).settled
  rw [hnext] at hleast
  obtain ⟨call, timeout, cap, hrecord, hwaits, -, hbounded⟩ :=
    waits_are_bounded hbuilt hcourse hwait
  obtain ⟨⟨time, rfl, hrounds⟩, -⟩ := hbounded 1500001 hleast
  rw [hclock] at hwaits
  rw [hclock, htick] at hrounds
  exact ⟨_, m', steps, hbuilt, hcourse, hlog, hwait, hleast, call, time, cap, hrecord, hwaits,
    hrounds⟩

/-- Half a microsecond before its next instant a loop does not wait, it only looks. -/
theorem look_before_timer :
    ∃ (m m' : Machine Nat) (steps : List (Transition Nat)), Built m ∧ Course m steps m' ∧
      steps.map (·.act) = timerAloneLog 500 ∧ m'.control = .dispatching .wait ∧
      IsLeast m'.loop.instants 500 ∧ m'.clock = 0 ∧ m'.loop.tick = 10 * Time.milli ∧
      ⟨.epollWait 0 0 64, none⟩ :: m'.host.kernel.record <:+
        (hostAfter m'.step).kernel.record := by
  have hbuilt := built_scriptedEpoll Nat []
  obtain ⟨steps, m', hcourse, -, hlog, hwait, hclock, htick, hcall, hnext⟩ :=
    exists_timely_course_of_trail (m := scriptedEpoll Nat []) (timerAloneLog 500)
      (fun _ m' => m'.control = .dispatching .wait ∧ m'.clock = 0 ∧
        m'.loop.tick = 10 * Time.milli ∧ m'.waitCall = .epollWait 0 0 64 ∧
        m'.loop.nextInstant? = some 500)
      (timerAloneCues 500) (by decide +kernel)
  have hleast := Loop.leastOf_nextInstant? (hcourse.accounted hbuilt).settled
    (hcourse.run.linked hbuilt.sound hbuilt.linked).settled
  rw [hnext] at hleast
  have hrecord := record_step_of_wait hwait
  rw [hcall] at hrecord
  exact ⟨_, m', steps, hbuilt, hcourse, hlog, hwait, hleast, hclock, htick, hrecord⟩

end Machine
end CallbackLoop
