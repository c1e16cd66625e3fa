import CallbackLoop.Proofs.Kernel
import Mathlib.Data.List.Pairwise
import Mathlib.Data.List.Sort

/-!
# Waits that find the same

A wait on epoll and a wait on select report readiness in two ways.  Epoll goes through
the conditions that it finds and compares each with the entry of its descriptor.
Select leaves its sets, and the loop goes through the descriptors that it registered.

If the conditions come in ascending order, none of them an error or a hang-up, and if
both backends watch for the same interests, then both waits come to the same events.
-/

namespace CallbackLoop

theorem Directions.isEmpty_eq_false_iff
    {s : Directions} :
    s.isEmpty = false ↔ ∃ a, s.contains a = true := by
  rw [Bool.eq_false_iff, Ne, isEmpty_iff, Directions.ext_iff, not_forall]
  simp only [contains_empty, Bool.not_eq_false]

namespace Conditions

/-- Readable, writable and exceptional at most. -/
def Plain (c : Conditions) : Prop :=
  c.error = false ∧ c.hangup = false ∧ c.oneshot = false

instance (c : Conditions) : Decidable c.Plain :=
  inferInstanceAs (Decidable (_ ∧ _))

/-- Of plain conditions epoll reports what select exposes, as far as it was asked
for. -/
theorem reported_of_plain
    {c : Conditions} (h : c.Plain) (i : Interest) :
    (ofInterest i).reported c =
      { input := c.input && i.directions.recv
        priority := c.priority && i.directions.error
        output := c.output && i.directions.send } := by
  obtain ⟨input, priority, output, error, hangup, oneshot⟩ := c
  obtain ⟨rfl, rfl, rfl⟩ : error = false ∧ hangup = false ∧ oneshot = false := h
  rfl

theorem exposed_of_plain
    {c : Conditions} (h : c.Plain) :
    c.exposed = ⟨c.input, c.output, c.priority⟩ := by
  obtain ⟨input, priority, output, error, hangup, oneshot⟩ := c
  obtain ⟨rfl, rfl, rfl⟩ : error = false ∧ hangup = false ∧ oneshot = false := h
  simp [exposed]

theorem directions_of_plain
    {c : Conditions} (h : c.Plain) (i : Interest) :
    ((ofInterest i).reported c).directions = c.exposed ∩ i.directions := by
  rw [reported_of_plain h, exposed_of_plain h]
  simp [directions, Inter.inter]

theorem isEmpty_of_plain
    {c : Conditions} (h : c.Plain) (i : Interest) :
    ((ofInterest i).reported c).isEmpty = (c.exposed ∩ i.directions).isEmpty := by
  rw [reported_of_plain h, exposed_of_plain h]
  obtain ⟨⟨recv, send, error⟩, oneshot⟩ := i
  simp only [isEmpty, Directions.isEmpty, Inter.inter]
  cases c.input && recv <;> cases c.priority && error <;> cases c.output && send <;> rfl

end Conditions

/-- The event that conditions of a descriptor come to if the given interests are
watched for. -/
def event? (held : Int → Option Interest) (found : Int × Conditions) : Option Event :=
  (held found.1).bind fun interest =>
    if (found.2.exposed ∩ interest.directions).isEmpty then none
    else some ⟨found.1, found.2.exposed ∩ interest.directions⟩

theorem event?_eq_some_iff
    {held : Int → Option Interest} {found : Int × Conditions} {event : Event} :
    event? held found = some event ↔
      ∃ interest, held found.1 = some interest ∧ event.fd = found.1 ∧
        event.ready = found.2.exposed ∩ interest.directions ∧ event.ready.isEmpty = false := by
  unfold event?
  rw [Option.bind_eq_some_iff]
  refine exists_congr fun interest => and_congr_right fun _ => ?_
  obtain ⟨fd, ready⟩ := event
  split
  next hempty =>
      constructor
      · intro h
        cases h
      · rintro ⟨-, rfl, hne⟩
        rw [hempty] at hne
        cases hne
  next hempty =>
      rw [Option.some_inj, Event.mk.injEq]
      constructor
      · rintro ⟨rfl, rfl⟩
        exact ⟨rfl, rfl, Bool.not_eq_true _ ▸ hempty⟩
      · rintro ⟨rfl, rfl, -⟩
        exact ⟨rfl, rfl⟩

/-- Events of descriptors in ascending order are settled by what is among them. -/
theorem events_eq_of_ascending
    {events events' : List Event} (h : events.Pairwise (·.fd < ·.fd))
    (h' : events'.Pairwise (·.fd < ·.fd)) (hmem : ∀ event, event ∈ events ↔ event ∈ events') :
    events = events' := by
  have hirrefl : Std.Irrefl fun a b : Event => a.fd < b.fd := ⟨fun a => lt_irrefl a.fd⟩
  have hantisymm : Std.Antisymm fun a b : Event => a.fd < b.fd :=
    ⟨fun a b hab hba => absurd hba (lt_asymm hab)⟩
  exact h.eq_of_mem_iff h' hmem

/-- Conditions in ascending order name a descriptor once. -/
theorem eq_of_ascending
    {ready : List (Int × Conditions)} (h : ready.Pairwise (·.1 < ·.1)) {fd : Int}
    {condition condition' : Conditions} (hmem : (fd, condition) ∈ ready)
    (hmem' : (fd, condition') ∈ ready) :
    condition = condition' := by
  by_contra hne
  have hsymm : Std.Symm fun p q : Int × Conditions => p.1 ≠ q.1 := ⟨fun _ _ => Ne.symm⟩
  have hdistinct : ready.Pairwise fun p q => p.1 ≠ q.1 := h.imp ne_of_lt
  exact hdistinct.forall hmem hmem' (fun heq => hne (Prod.mk.inj heq).2) rfl

namespace Kernel

/-- What epoll reports of the conditions of a descriptor. -/
def meet? (table : EpollTable) (found : Int × Conditions) : Option (Int × Conditions) :=
  match table[found.1]? with
  | none => none
  | some entry =>
      if entry.disarmed || (entry.mask.reported found.2).isEmpty then none
      else some (found.1, entry.mask.reported found.2)

/-- With room for all of them epoll reports every descriptor whose conditions meet its
entry. -/
theorem epollReport_eq
    {closed : Std.TreeSet Int} (hopen : ∀ fd, closed.contains fd = false) {capacity : Nat}
    {ready : List (Int × Conditions)} {table : EpollTable}
    (hdistinct : ready.Pairwise fun p q => p.1 ≠ q.1)
    (hroom : (ready.filterMap (meet? table)).length ≤ capacity) :
    (epollReport closed capacity ready table).1 = ready.filterMap (meet? table) := by
  induction ready generalizing capacity table with
  | nil =>
      cases capacity <;> rfl
  | cons found ready ih =>
      obtain ⟨fd, condition⟩ := found
      obtain ⟨hfd, hrest⟩ := List.pairwise_cons.1 hdistinct
      rw [List.filterMap_cons] at hroom ⊢
      cases capacity with
      | zero =>
          split at hroom
          next hmiss =>
              rw [List.length_eq_zero_iff.1 (Nat.le_zero.1 hroom)]
              rfl
          next =>
              exact absurd hroom (Nat.not_succ_le_zero _)
      | succ capacity =>
          unfold epollReport
          split
          next hentry =>
              have hmiss : meet? table (fd, condition) = none := by
                simp only [meet?, hentry]
              rw [hmiss] at hroom ⊢
              exact ih hrest hroom
          next entry hentry =>
              dsimp only
              rw [hopen fd, Bool.false_or]
              split
              next hidle =>
                  have hmiss : meet? table (fd, condition) = none := by
                    simp only [meet?, hentry, hidle, if_true]
                  rw [hmiss] at hroom ⊢
                  exact ih hrest hroom
              next hmeets =>
                  have hmeet : meet? table (fd, condition) =
                      some (fd, entry.mask.reported condition) := by
                    simp only [meet?, hentry, hmeets]
                    rfl
                  rw [hmeet] at hroom ⊢
                  -- Whether the entry is disarmed makes no difference to the others.
                  have hothers : ready.filterMap (meet? (if entry.mask.oneshot = true then
                      table.insert fd { entry with disarmed := true } else table)) =
                        ready.filterMap (meet? table) := by
                    refine List.filterMap_congr fun other hother => ?_
                    split
                    · have hne : compare fd other.1 ≠ .eq :=
                        fun hc => hfd other hother (Std.LawfulEqCmp.compare_eq_iff_eq.1 hc)
                      simp only [meet?, Std.TreeMap.getElem?_insert, if_neg hne]
                    · rfl
                  generalize (if entry.mask.oneshot = true then
                    table.insert fd { entry with disarmed := true } else table) = table' at hothers ⊢
                  rw [← hothers] at hroom ⊢
                  exact congrArg (_ :: ·) (ih hrest (Nat.le_of_succ_le_succ hroom))

/-- The events that armed entries for the given interests come to. -/
theorem filterMap_meet?
    {table : EpollTable} {held : Int → Option Interest} {ready : List (Int × Conditions)}
    (htable : ∀ fd, table[fd]? = (held fd).map fun interest => ⟨.ofInterest interest, false⟩)
    (hplain : ∀ found ∈ ready, found.2.Plain) :
    (ready.filterMap (meet? table)).map (fun report => ⟨report.1, report.2.directions⟩) =
      ready.filterMap (event? held) := by
  rw [List.map_filterMap]
  refine List.filterMap_congr fun found hfound => ?_
  have hc := hplain found hfound
  unfold meet? event?
  rw [htable]
  cases held found.1 with
  | none =>
      rfl
  | some interest =>
      show Option.map _ (if false || _ then none else some _) = if _ then none else some _
      rw [Bool.false_or, Conditions.isEmpty_of_plain hc]
      split
      · rfl
      · rw [Option.map_some, Conditions.directions_of_plain hc]

end Kernel

namespace SelectSets

theorem directions_add
    (s : SelectSets) (fd : Int) (directions : Directions) (other : Int) :
    (s.add fd directions).directions other =
      if other = fd then s.directions other ∪ directions else s.directions other := by
  have hset : ∀ (set : List Int) (b : Bool),
      (if b then fd :: set else set).contains other =
        if other = fd then set.contains other || b else set.contains other := by
    intro set b
    cases b <;> by_cases heq : other = fd <;> simp [heq]
  ext a
  split
  next heq =>
      have hset' := fun set b => (hset set b).trans (if_pos heq)
      cases a <;> exact hset' _ _
  next hne =>
      have hset' := fun set b => (hset set b).trans (if_neg hne)
      cases a <;> exact hset' _ _

theorem exists_contains
    {s : SelectSets} (h : s.isEmpty = false) :
    ∃ fd a, (s.directions fd).contains a = true := by
  obtain ⟨read, write, except⟩ := s
  cases read with
  | cons fd read =>
      exact ⟨fd, .recv, by simp [directions, Directions.contains]⟩
  | nil =>
      cases write with
      | cons fd write =>
          exact ⟨fd, .send, by simp [directions, Directions.contains]⟩
      | nil =>
          cases except with
          | cons fd except =>
              exact ⟨fd, .error, by simp [directions, Directions.contains]⟩
          | nil =>
              cases h

theorem report_cons
    (asked : SelectSets) (closed : Std.TreeSet Int) (fd : Int) (condition : Conditions)
    (ready : List (Int × Conditions)) :
    asked.report closed false ((fd, condition) :: ready) =
      if closed.contains fd || fd < 0 || (limit : Int) ≤ fd then asked.report closed false ready
      else
        (asked.report closed false ready).add fd (condition.exposed ∩ asked.directions fd) :=
  rfl

/-- Only what was asked for is reported. -/
theorem asked_of_report
    {asked : SelectSets} {closed : Std.TreeSet Int} {ready : List (Int × Conditions)} {fd : Int}
    {a : Direction} (h : ((asked.report closed false ready).directions fd).contains a = true) :
    (asked.directions fd).contains a = true ∧
      ∃ condition, (fd, condition) ∈ ready ∧ condition.exposed.contains a = true := by
  induction ready with
  | nil =>
      cases a <;> cases h
  | cons found ready ih =>
      have hrest : ((asked.report closed false ready).directions fd).contains a = true →
          (asked.directions fd).contains a = true ∧
            ∃ condition, (fd, condition) ∈ found :: ready ∧
              condition.exposed.contains a = true := by
        intro hin
        obtain ⟨hasked, condition, hmem, hexposed⟩ := ih hin
        exact ⟨hasked, condition, List.mem_cons_of_mem found hmem, hexposed⟩
      obtain ⟨other, condition⟩ := found
      rw [report_cons] at h
      split at h
      next =>
          exact hrest h
      next =>
          rw [directions_add] at h
          split at h
          next heq =>
              subst heq
              rw [Directions.contains_union, Bool.or_eq_true, Directions.contains_inter,
                Bool.and_eq_true] at h
              rcases h with hin | ⟨hexposed, hasked⟩
              · exact hrest hin
              · exact ⟨hasked, condition, List.mem_cons_self, hexposed⟩
          next =>
              exact hrest h

/-- All that was asked for is reported of open descriptors below the limit. -/
theorem report_of_asked
    {asked : SelectSets} {closed : Std.TreeSet Int} (hopen : ∀ fd, closed.contains fd = false)
    {ready : List (Int × Conditions)} {fd : Int} (hlow : 0 ≤ fd)
    (hhigh : fd < (limit : Int)) {a : Direction} {condition : Conditions}
    (hasked : (asked.directions fd).contains a = true) (hmem : (fd, condition) ∈ ready)
    (hexposed : condition.exposed.contains a = true) :
    ((asked.report closed false ready).directions fd).contains a = true := by
  induction ready with
  | nil =>
      cases hmem
  | cons found ready ih =>
      obtain ⟨other, found⟩ := found
      rw [report_cons]
      rcases List.mem_cons.1 hmem with heq | hmem
      · obtain ⟨rfl, rfl⟩ := Prod.mk.inj heq
        have hrange : (closed.contains fd || decide (fd < 0) || decide ((limit : Int) ≤ fd)) =
            false := by
          simp [hopen, hlow, hhigh]
        rw [hrange, if_neg Bool.false_ne_true, directions_add, if_pos rfl, Directions.contains_union, Directions.contains_inter,
          hexposed, hasked]
        simp
      · have hrest := ih hmem
        split
        · exact hrest
        · rw [directions_add]
          split
          · rw [Directions.contains_union, Bool.or_eq_true]
            exact .inl hrest
          · exact hrest

end SelectSets

namespace SelectTable

variable {t : SelectTable} {held : Int → Option Interest} {closed : Std.TreeSet Int}
  {ready : List (Int × Conditions)}

/-- A wait asks for what is registered. -/
theorem contains_sets
    (t : SelectTable) (fd : Int) (a : Direction) :
    (t.sets.directions fd).contains a = true ↔
      ∃ interest, t.registered[fd]? = some interest ∧ interest.directions.contains a = true := by
  have hwatching : (t.sets.directions fd).contains a = (t.watching a).contains fd := by
    cases a <;> rfl
  rw [hwatching, List.contains_iff_mem, watching, List.mem_map]
  constructor
  · rintro ⟨⟨other, interest⟩, hmem, rfl⟩
    rw [List.mem_filter, Std.TreeMap.mem_toList_iff_getElem?_eq_some] at hmem
    exact ⟨interest, hmem⟩
  · rintro ⟨interest, hmem⟩
    refine ⟨(fd, interest), ?_, rfl⟩
    rwa [List.mem_filter, Std.TreeMap.mem_toList_iff_getElem?_eq_some]

/-- What a report says of a registered descriptor. -/
theorem directions_report
    (hopen : ∀ fd, closed.contains fd = false) (hascending : ready.Pairwise (·.1 < ·.1))
    {fd : Int} (hlow : 0 ≤ fd) (hhigh : fd < (SelectSets.limit : Int)) {interest : Interest}
    (hfd : t.registered[fd]? = some interest) {condition : Conditions}
    (hmem : (fd, condition) ∈ ready) :
    (t.sets.report closed false ready).directions fd =
      condition.exposed ∩ interest.directions := by
  ext a
  rw [Bool.eq_iff_iff, Directions.contains_inter, Bool.and_eq_true]
  constructor
  · intro h
    obtain ⟨hasked, found, hfound, hexposed⟩ := SelectSets.asked_of_report h
    obtain ⟨interest', hfd', hwants⟩ := (contains_sets t fd a).1 hasked
    cases hfd.symm.trans hfd'
    rw [eq_of_ascending hascending hfound hmem] at hexposed
    exact ⟨hexposed, hwants⟩
  · rintro ⟨hexposed, hwants⟩
    exact SelectSets.report_of_asked hopen hlow hhigh
      ((contains_sets t fd a).2 ⟨interest, hfd, hwants⟩) hmem hexposed

/-- The events are those of the registered descriptors that are reported. -/
theorem mem_events
    {reported : SelectSets} {event : Event} :
    event ∈ t.events reported ↔
      event.fd ∈ t.registered ∧ event.ready = reported.directions event.fd ∧
        event.ready.isEmpty = false := by
  obtain ⟨fd, ready⟩ := event
  rw [events, List.mem_filterMap]
  constructor
  · rintro ⟨other, hother, hevent⟩
    dsimp only at hevent
    split at hevent
    next =>
        cases hevent
    next hne =>
        cases hevent
        exact ⟨Std.TreeMap.mem_keys.1 hother, rfl, Bool.not_eq_true _ ▸ hne⟩
  · rintro ⟨hfd, hready, hne⟩
    obtain rfl : ready = reported.directions fd := hready
    exact ⟨fd, Std.TreeMap.mem_keys.2 hfd, if_neg (Bool.not_eq_true _ ▸ hne)⟩

theorem ascending_events
    (t : SelectTable) (reported : SelectSets) :
    (t.events reported).Pairwise (·.fd < ·.fd) := by
  refine Std.TreeMap.ordered_keys.filterMap _ fun fd fd' hlt event hevent event' hevent' => ?_
  dsimp only at hevent hevent'
  split at hevent
  · cases hevent
  · split at hevent'
    · cases hevent'
    · cases hevent
      cases hevent'
      exact compare_lt_iff_lt.1 hlt

/-- The events that registered descriptors below the limit come to. -/
theorem events_report
    (hheld : ∀ fd, t.registered[fd]? = held fd)
    (hrange : ∀ fd, held fd ≠ none → 0 ≤ fd ∧ fd < (SelectSets.limit : Int))
    (hopen : ∀ fd, closed.contains fd = false) (hascending : ready.Pairwise (·.1 < ·.1)) :
    t.events (t.sets.report closed false ready) = ready.filterMap (event? held) := by
  refine events_eq_of_ascending (ascending_events t _) ?_ fun event => ?_
  · refine hascending.filterMap _ fun found found' hlt event hevent event' hevent' => ?_
    obtain ⟨-, -, hfd, -⟩ := event?_eq_some_iff.1 hevent
    obtain ⟨-, -, hfd', -⟩ := event?_eq_some_iff.1 hevent'
    rwa [hfd, hfd']
  · have hkey : ∀ {fd interest}, held fd = some interest →
        fd ∈ t.registered ∧ 0 ≤ fd ∧ fd < (SelectSets.limit : Int) ∧
          t.registered[fd]? = some interest := by
      intro fd interest hfd
      obtain ⟨hlow, hhigh⟩ := hrange fd (by rw [hfd]; exact Option.some_ne_none _)
      have hregistered := (hheld fd).trans hfd
      refine ⟨?_, hlow, hhigh, hregistered⟩
      rw [Std.TreeMap.mem_iff_isSome_getElem?, hregistered]
      rfl
    rw [mem_events, List.mem_filterMap]
    constructor
    · rintro ⟨hfd, hready, hne⟩
      obtain ⟨a, ha⟩ := Directions.isEmpty_eq_false_iff.1 hne
      rw [hready] at ha
      obtain ⟨-, condition, hmem, -⟩ := SelectSets.asked_of_report ha
      rw [Std.TreeMap.mem_iff_isSome_getElem?, hheld, Option.isSome_iff_exists] at hfd
      obtain ⟨interest, hfd⟩ := hfd
      obtain ⟨-, hlow, hhigh, hregistered⟩ := hkey hfd
      rw [directions_report hopen hascending hlow hhigh hregistered hmem] at hready
      exact ⟨(event.fd, condition), hmem,
        event?_eq_some_iff.2 ⟨interest, hfd, rfl, hready, hne⟩⟩
    · rintro ⟨⟨fd, condition⟩, hmem, hevent⟩
      obtain ⟨interest, hfd, rfl, hready, hne⟩ := event?_eq_some_iff.1 hevent
      obtain ⟨hin, hlow, hhigh, hregistered⟩ := hkey hfd
      refine ⟨hin, ?_, hne⟩
      rw [directions_report hopen hascending hlow hhigh hregistered hmem, hready]

/-- There is something in the sets exactly if there is an event. -/
theorem isEmpty_report
    (t : SelectTable) (closed : Std.TreeSet Int) (ready : List (Int × Conditions)) :
    (t.sets.report closed false ready).isEmpty =
      (t.events (t.sets.report closed false ready)).isEmpty := by
  generalize hreported : t.sets.report closed false ready = reported
  cases hnone : reported.isEmpty with
  | true =>
      symm
      rw [List.isEmpty_iff, events, List.filterMap_eq_nil_iff]
      intro fd _
      rw [if_pos]
      obtain ⟨read, write, except⟩ := reported
      simp only [SelectSets.isEmpty, Bool.and_eq_true, List.isEmpty_iff] at hnone
      obtain ⟨⟨rfl, rfl⟩, rfl⟩ := hnone
      rfl
  | false =>
      obtain ⟨fd, a, hin⟩ := SelectSets.exists_contains hnone
      have hne := Directions.isEmpty_eq_false_iff.2 ⟨a, hin⟩
      rw [← hreported] at hin
      obtain ⟨interest, hfd, -⟩ := (contains_sets t fd a).1 (SelectSets.asked_of_report hin).1
      have hkey : fd ∈ t.registered := by
        rw [Std.TreeMap.mem_iff_isSome_getElem?, hfd]
        rfl
      have hevent : (⟨fd, reported.directions fd⟩ : Event) ∈ t.events reported :=
        mem_events.2 ⟨hkey, rfl, hne⟩
      symm
      rw [List.isEmpty_eq_false_iff]
      exact List.ne_nil_of_mem hevent

end SelectTable

namespace Host

variable {h : Host}

/-- The host when everything has happened that the next wait brings. -/
def happened (h : Host) : Host :=
  { h with kernel := h.kernel.nextEntry.2 }.happen h.kernel.nextEntry.1

/-- The conditions that the next wait finds in the end. -/
def conditions (h : Host) : List (Int × Conditions) :=
  h.kernel.nextEntry.1.events ++
    h.happened.kernel.readablePipes (h.kernel.nextEntry.1.events.map Prod.fst)

/-- The next wait does not fail and closes nothing, and it finds plain conditions in
ascending order, each descriptor once. -/
structure Polls (h : Host) : Prop where
  left : h.kernel.waitsLeft ≠ 0
  failure : h.kernel.nextEntry.1.failure = none
  raw : h.kernel.nextEntry.1.raw = false
  closed : h.kernel.nextEntry.1.closed = []
  ascending : h.conditions.Pairwise (·.1 < ·.1)
  plain : ∀ found ∈ h.conditions, found.2.Plain

instance (h : Host) : Decidable h.Polls :=
  decidable_of_iff
    (h.kernel.waitsLeft ≠ 0 ∧ h.kernel.nextEntry.1.failure = none ∧
      h.kernel.nextEntry.1.raw = false ∧ h.kernel.nextEntry.1.closed = [] ∧
      h.conditions.Pairwise (·.1 < ·.1) ∧ ∀ found ∈ h.conditions, found.2.Plain)
    ⟨fun ⟨a, b, c, d, e, f⟩ => ⟨a, b, c, d, e, f⟩, fun ⟨a, b, c, d, e, f⟩ => ⟨a, b, c, d, e, f⟩⟩

/-- A wait that closes nothing leaves every entry and every descriptor open. -/
theorem Polls.loses
    (hpolls : h.Polls) :
    h.kernel.Loses (fun _ => False) h.happened.kernel := by
  have hnone : ∀ fd ∈ h.kernel.nextEntry.1.closed, False := by
    rw [hpolls.closed]
    exact fun fd hfd => absurd hfd List.not_mem_nil
  exact ((Kernel.leaves_nextEntry h.kernel).loses _).trans
    (loses_happen { h with kernel := h.kernel.nextEntry.2 } hnone)

/-- How a wait ends that reports the given events: if it lasts, whatever they are, and
else only with an event. -/
def waited {β : Type} (any lasts : Bool) (value : β) : Except Errno β :=
  if any || lasts then .ok value else .error .deadlock

theorem await_of_polls
    {β : Type} (hpolls : h.Polls) (timeout : Option Nat)
    (collect : Bool → List (Int × Conditions) → Kernel → Report β × Kernel) :
    (h.await timeout collect).1 =
      waited (collect false h.conditions h.happened.kernel).1.any
        (h.kernel.nextEntry.1.duration.isSome || timeout.isSome)
        (collect false h.conditions h.happened.kernel).1.value := by
  have hfailure := hpolls.failure
  have hraw := hpolls.raw
  unfold await
  rw [if_neg hpolls.left]
  unfold conditions happened
  generalize h.kernel.nextEntry = next at hfailure hraw ⊢
  obtain ⟨entry, kernel⟩ := next
  dsimp only at hfailure hraw ⊢
  rw [hfailure, hraw]
  dsimp only
  generalize collect false _ _ = collected
  cases entry.duration with
  | some duration =>
      simp [waited]
  | none =>
      cases timeout with
      | some timeout =>
          simp [waited]
      | none =>
          cases collected.1.any <;> simp [waited, failWait, Kernel.fail]

/-- Epoll reports what meets its entries. -/
theorem epollWait_of_polls
    {noted : Host} {number capacity : Nat} {millis : Int}
    (hnoted : { h with
      kernel := h.kernel.note (.epollWait h.kernel.clock millis capacity) } = noted)
    (hpolls : noted.Polls) (hopen : ∀ fd, h.kernel.closed.contains fd = false)
    (hroom : (noted.conditions.filterMap (Kernel.meet? (h.kernel.epollTable number))).length ≤
      capacity) :
    (h.epollWait number millis capacity).1 =
      (let reports := noted.conditions.filterMap (Kernel.meet? (h.kernel.epollTable number))
      waited (!reports.isEmpty)
        (noted.kernel.nextEntry.1.duration.isSome || decide (0 ≤ millis)) reports) := by
  have hloses : h.kernel.Loses (fun _ => False) noted.happened.kernel := by
    refine Kernel.Loses.trans ?_ hpolls.loses
    rw [← hnoted]
    exact (Kernel.leaves_note _ _ _).loses _
  have hsame : noted.conditions.filterMap
      (Kernel.meet? (noted.happened.kernel.epollTable number)) =
        noted.conditions.filterMap (Kernel.meet? (h.kernel.epollTable number)) := by
    refine List.filterMap_congr fun found _ => ?_
    have hrow : (noted.happened.kernel.epollTable number)[found.1]? =
        (h.kernel.epollTable number)[found.1]? := hloses.row? number found.1 False.elim
    unfold Kernel.meet?
    rw [hrow]
  have hreports : (Kernel.epollReport noted.happened.kernel.closed capacity noted.conditions
      (noted.happened.kernel.epollTable number)).1 =
        noted.conditions.filterMap (Kernel.meet? (h.kernel.epollTable number)) := by
    rw [← hsame] at hroom ⊢
    exact Kernel.epollReport_eq (fun fd => hloses.closed fd id (hopen fd))
      (hpolls.ascending.imp ne_of_lt) hroom
  have hbounded : (if millis < 0 then none else some (millis.toNat * Time.milli)).isSome =
      decide (0 ≤ millis) := by
    by_cases hneg : millis < 0
    · simp [hneg]
    · simp [hneg, Int.not_lt.1 hneg]
  unfold epollWait
  simp only [hnoted]
  rw [await_of_polls hpolls, hbounded]
  simp only [Bool.false_eq_true, if_false, hreports]

/-- Select leaves what it was asked for. -/
theorem select_of_polls
    {noted : Host} {timeoutMicros : Option Nat} {width : Int} {asked : SelectSets}
    (hnoted : { h with
      kernel := h.kernel.note (.select h.kernel.clock timeoutMicros width asked.read asked.write
        asked.except) } = noted)
    (hpolls : noted.Polls) (hopen : ∀ fd, h.kernel.closed.contains fd = false) :
    (h.select timeoutMicros width asked).1 =
      (let reported := asked.report noted.happened.kernel.closed false noted.conditions
      waited (!reported.isEmpty)
        (noted.kernel.nextEntry.1.duration.isSome || timeoutMicros.isSome) reported) := by
  have hnone : (asked.read ++ asked.write ++ asked.except).any
      (h.kernel.note (.select h.kernel.clock timeoutMicros width asked.read asked.write
        asked.except)).closed.contains = false :=
    List.any_eq_false.2 fun fd _ => Bool.not_eq_true _ ▸ hopen fd
  unfold select
  simp only [hnone, Bool.false_eq_true, if_false, hnoted]
  rw [await_of_polls hpolls, Option.isSome_map]

end Host

namespace Backend

variable {h : Host} {timeout : Option Nat} {held : Int → Option Interest}

/-- The host when the call is recorded by which the backend waits. -/
def noted (b : Backend) (h : Host) (timeout : Option Nat) : Host :=
  { h with
    kernel :=
      h.kernel.note
        (match b with
        | epoll e => .epollWait h.kernel.clock (Time.timeoutMillis timeout) e.capacity
        | select t =>
            .select h.kernel.clock (timeout.map Time.cappedMicros) t.width t.sets.read t.sets.write
              t.sets.except) }

/-- What a wait on epoll comes to, if armed entries ask for the given interests. -/
theorem wait_epoll
    {e : EpollInstance} (hpolls : ((epoll e).noted h timeout).Polls)
    (hopen : ∀ fd, h.kernel.closed.contains fd = false)
    (hrows : ∀ fd, h.kernel.row? e.number fd =
      (held fd).map fun interest => ⟨.ofInterest interest, false⟩)
    (hroom : (((epoll e).noted h timeout).conditions.filterMap
      (Kernel.meet? (h.kernel.epollTable e.number))).length ≤ e.capacity) :
    ((epoll e).wait h timeout).1 =
      (let events := ((epoll e).noted h timeout).conditions.filterMap (event? held)
      Host.waited (!events.isEmpty)
        (((epoll e).noted h timeout).kernel.nextEntry.1.duration.isSome || timeout.isSome)
        events) := by
  generalize hnoted : (epoll e).noted h timeout = noted at hpolls hroom ⊢
  have hwait := Host.epollWait_of_polls hnoted hpolls hopen hroom
  have hevents := Kernel.filterMap_meet? hrows hpolls.plain
  have hbounded : decide (0 ≤ Time.timeoutMillis timeout) = timeout.isSome := by
    cases timeout with
    | none =>
        rfl
    | some delay =>
        exact decide_eq_true (Int.natCast_nonneg (Time.ceilMillis delay))
  rw [hbounded] at hwait
  unfold wait EpollInstance.wait
  dsimp only at hwait ⊢
  rw [← hevents, List.isEmpty_map]
  rcases hresult : h.epollWait e.number (Time.timeoutMillis timeout) e.capacity with
    ⟨result, host⟩
  rw [hresult] at hwait
  dsimp only at hwait ⊢
  rw [hwait, Host.waited, Host.waited]
  generalize (!List.isEmpty _ || _) = ends
  cases ends <;> rfl

/-- What a wait on select comes to, if the given interests are registered. -/
theorem wait_select
    {t : SelectTable} (hpolls : ((select t).noted h timeout).Polls)
    (hopen : ∀ fd, h.kernel.closed.contains fd = false)
    (hheld : ∀ fd, t.registered[fd]? = held fd)
    (hrange : ∀ fd, held fd ≠ none → 0 ≤ fd ∧ fd < (SelectSets.limit : Int)) :
    ((select t).wait h timeout).1 =
      (let events := ((select t).noted h timeout).conditions.filterMap (event? held)
      Host.waited (!events.isEmpty)
        (((select t).noted h timeout).kernel.nextEntry.1.duration.isSome || timeout.isSome)
        events) := by
  generalize hnoted : (select t).noted h timeout = noted at hpolls ⊢
  have hwait := Host.select_of_polls hnoted hpolls hopen
  have hclosed : ∀ fd, noted.happened.kernel.closed.contains fd = false := by
    intro fd
    refine hpolls.loses.closed fd id ?_
    rw [← hnoted]
    exact hopen fd
  have hevents := SelectTable.events_report hheld hrange hclosed hpolls.ascending
  rw [Option.isSome_map] at hwait
  unfold wait SelectTable.wait
  dsimp only at hwait ⊢
  rw [← hevents, ← SelectTable.isEmpty_report]
  rcases hresult : h.select (timeout.map Time.cappedMicros) t.width t.sets with ⟨result, host⟩
  rw [hresult] at hwait
  dsimp only at hwait ⊢
  rw [hwait, Host.waited, Host.waited]
  generalize (!SelectSets.isEmpty _ || _) = ends
  cases ends <;> rfl

end Backend

end CallbackLoop
