import CallbackLoop.Proofs.Backend

/-!
# Entries of an epoll table

Epoll keeps one entry for a descriptor.  A call about a descriptor touches its entry
alone and arms it.  A wait disarms the oneshot entries that it reports, and each of
those reports is among the events that the wait returns.

A report names a direction that its entry asks for, with one exception: a hang-up is
reported to an entry that asks for sending alone, and it does not make a descriptor
ready to send.
-/

namespace CallbackLoop

namespace Conditions

/-- Only what is reported to an entry that asks for sending alone can name
directions without naming one that the entry asks for. -/
theorem directions_reported
    {i : Interest} {condition : Conditions} (hne : i.directions ≠ ∅)
    (hmiss : ((ofInterest i).reported condition).directions ∩ i.directions = ∅) :
    ((ofInterest i).reported condition).directions = ∅ ∨
      i.directions = Directions.single .send := by
  -- A matter of nine bits: those of the directions and those of the condition.
  obtain ⟨⟨recv, send, error⟩, oneshot⟩ := i
  simp only [reported, ofInterest, directions, Inter.inter, Directions.single,
    EmptyCollection.emptyCollection, Directions.mk.injEq, ne_eq] at *
  grind

end Conditions

namespace Host

variable {gone : Int → Prop}

theorem rows_of_epollWait
    {h h' : Host} {number capacity : Nat} {timeoutMillis : Int}
    {result : Except Errno (List (Int × Conditions))}
    (hwait : h.epollWait number timeoutMillis capacity = (result, h'))
    (hgone : ∀ fd ∈ h.kernel.nextEntry.1.closed, gone fd) {fd : Int} (hfd : ¬gone fd) :
    (∀ reports, result = .ok reports →
      EpollEntry.Reported reports fd (h.kernel.row? number fd) (h'.kernel.row? number fd)) ∧
    ∀ cause, result = .error cause →
      h'.kernel.row? number fd = h.kernel.row? number fd := by
  unfold epollWait at hwait
  rw [← Kernel.nextEntry_note] at hgone
  obtain ⟨k, hloses, hawaited⟩ := await_ok hwait hgone
  have hsame : k.row? number fd = h.kernel.row? number fd :=
    hloses.row? number fd fun hin => absurd hin hfd
  rw [← hsame]
  generalize h'.kernel = k' at hawaited ⊢
  cases hawaited with
  | failed hleaves =>
      exact ⟨(fun _ hok => nomatch hok), fun _ _ => hleaves.row? number fd⟩
  | @reported raw ready _ hleaves =>
      refine ⟨?_, fun _ herror => nomatch herror⟩
      intro reports hok
      cases hok
      rw [hleaves.row? number fd]
      dsimp only
      split
      next =>
          exact .kept _
      next =>
          have hreported := Kernel.reported_epollReport k.closed capacity ready
            (k.epollTable number) fd
          split
          next =>
              exact .kept _
          next =>
              rw [Kernel.row?_insert]
              exact hreported
  | @unanswered raw ready _ hleaves hany =>
      refine ⟨(fun _ hok => nomatch hok), fun _ _ => ?_⟩
      rw [hleaves.row? number fd]
      dsimp only at hany ⊢
      split
      next =>
          rfl
      next hraw =>
          rw [if_neg hraw] at hany
          rw [if_pos (by simpa using hany)]

end Host

namespace Backend

variable {e : EpollInstance} {k k' : Kernel} {b' : Backend} {fd : Int} {call : BackendCall}

theorem rows_of_apply
    (h : call.apply (epoll e) k fd = (.ok (), b', k')) :
    b' = epoll e ∧ (∀ other, other ≠ fd → k'.row? e.number other = k.row? e.number other) ∧
      ∀ interest, call.leaves = some interest →
        k'.row? e.number fd = some { mask := .ofInterest interest } := by
  have hmade : k.epollControl e.number fd call.change = (.ok (), k') →
      (∀ other, other ≠ fd → k'.row? e.number other = k.row? e.number other) ∧
        ∀ interest, call.leaves = some interest →
          k'.row? e.number fd = some { mask := .ofInterest interest } := by
    intro hcontrol
    obtain ⟨-, -, -, hrow⟩ := Kernel.epollControl_ok hcontrol
    refine ⟨fun other hother => (hrow other).trans (if_neg hother), fun interest hleaves => ?_⟩
    rw [hrow, if_pos rfl]
    cases call <;> cases hleaves <;> rfl
  cases call with
  | register interest =>
      obtain ⟨hcontrol, rfl⟩ := unchanged_eq h
      exact ⟨rfl, hmade hcontrol⟩
  | modify interest =>
      obtain ⟨hcontrol, rfl⟩ := unchanged_eq h
      exact ⟨rfl, hmade hcontrol⟩
  | unregister =>
      obtain ⟨hunregister, rfl⟩ := unchanged_eq h
      refine ⟨rfl, ?_⟩
      split at hunregister
      next hcontrol =>
          -- A descriptor that the kernel has forgotten already is no failure.
          obtain ⟨-, rfl⟩ := Prod.mk.inj hunregister
          have hleaves := Kernel.leaves_of_epollControl_error hcontrol
          exact ⟨fun other _ => hleaves.row? e.number other, (fun _ hnone => nomatch hnone)⟩
      next =>
          exact hmade hunregister

/-- The epoll instance of a backend, if it is one. -/
def instance? (b : Backend) : Option EpollInstance :=
  match b with
  | epoll e => some e
  | select _ => none

theorem instance?_eq_some_iff
    {b : Backend} :
    b.instance? = some e ↔ b = epoll e := by
  cases b <;> simp [instance?]

theorem instance?_eq_none_iff
    {b : Backend} :
    b.instance? = none ↔ ∃ t, b = select t := by
  cases b <;> simp [instance?]

/-- A call changes neither the mechanism nor the epoll instance. -/
theorem instance?_apply
    {b : Backend} {result : Except Errno Unit} (h : call.apply b k fd = (result, b', k')) :
    b'.instance? = b.instance? := by
  cases b with
  | epoll e =>
      cases call <;> cases h <;> rfl
  | select t =>
      cases call with
      | register interest =>
          simp only [BackendCall.apply, register] at h
          split at h <;> cases h <;> rfl
      | modify interest =>
          simp only [BackendCall.apply, modify] at h
          split at h <;> cases h <;> rfl
      | unregister =>
          cases h
          rfl

/-- What a wait that reports events does to an entry. -/
theorem rows_of_wait
    {gone : Int → Prop} {h h' : Host} {timeout : Option Nat} {events : List Event}
    (hwait : (epoll e).wait h timeout = (.ok events, h'))
    (hgone : ∀ fd ∈ h.kernel.nextEntry.1.closed, gone fd) (hfd : ¬gone fd) :
    ∃ reports : List (Int × Conditions),
      events = reports.map (fun report => ⟨report.1, report.2.directions⟩) ∧
        EpollEntry.Reported reports fd (h.kernel.row? e.number fd)
          (h'.kernel.row? e.number fd) := by
  simp only [wait, EpollInstance.wait] at hwait
  split at hwait
  next reports host heq =>
      obtain ⟨hreported, -⟩ := Host.rows_of_epollWait heq hgone hfd
      cases hwait
      exact ⟨reports, rfl, hreported reports rfl⟩
  next cause host heq =>
      obtain ⟨-, hkept⟩ := Host.rows_of_epollWait heq hgone hfd
      obtain ⟨hresult, rfl⟩ := Prod.mk.inj hwait
      split at hresult
      next =>
          cases hresult
          refine ⟨[], rfl, ?_⟩
          rw [hkept cause rfl]
          exact .kept _
      next =>
          cases hresult

end Backend
end CallbackLoop
