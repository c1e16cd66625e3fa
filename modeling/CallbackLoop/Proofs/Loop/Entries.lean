import CallbackLoop.Proofs.Loop.Blame
import CallbackLoop.Proofs.Loop.Course

/-!
# Descriptors and the entries of the queue

The queue of timeouts holds one entry for each descriptor that has a timeout, under the
number of that descriptor, and no other entry.  `Paired` says so of the nodes in the
heap, whatever its shape.

So an expired entry always leads to a descriptor, which is what the dispatcher relies
on when it takes one out.
-/

namespace CallbackLoop

variable {H : Type}

namespace DeadlineQueue

/-- An entry of a descriptor is a node of the heap whose key has its number. -/
theorem owner?_eq_some_iff
    {q : DeadlineQueue} (h : q.Settled) {id : Handle} {fd : Int} :
    q.owner? id = some fd ↔ ∃ item ∈ q.heap.items, item.handle = id ∧ item.key.fd = fd := by
  unfold owner? deadline?
  rw [Option.map_eq_some_iff]
  constructor
  · rintro ⟨deadline, hdeadline, rfl⟩
    obtain ⟨item, hitem, hid, rfl⟩ := Heap.Sound.get?_eq_some_iff h.toSound |>.1 hdeadline
    exact ⟨item, hitem, hid, rfl⟩
  · rintro ⟨item, hitem, hid, rfl⟩
    exact ⟨item.key, Heap.Sound.get?_eq_some_iff h.toSound |>.2 ⟨item, hitem, hid, rfl⟩, rfl⟩

end DeadlineQueue

namespace Machine

variable {m m' : Machine H}

/-- The descriptors with a timeout and the entries of the queue correspond one to
one. -/
structure Paired (m : Machine H) : Prop where
  /-- A descriptor names an entry exactly when that entry is there under its number. -/
  entry_iff : ∀ slot d, m.loop.table.get? slot = some d → ∀ id, d.timeout = some id ↔
    ∃ item ∈ m.loop.timeouts.heap.items, item.handle = id ∧ item.key.fd = d.fd
  /-- Two descriptors name two entries. -/
  inj : ∀ i j d e id, m.loop.table.get? i = some d → m.loop.table.get? j = some e →
    d.timeout = some id → e.timeout = some id → i = j
  /-- Every entry is named by a descriptor. -/
  owned : ∀ item ∈ m.loop.timeouts.heap.items, ∃ slot d, m.loop.table.get? slot = some d ∧
    d.timeout = some item.handle ∧ d.fd = item.key.fd
  /-- A cleared descriptor names none. -/
  cleared : ∀ slot d, m.loop.table.get? slot = some d → d.isClearing = true → d.timeout = none

/-- Descriptors and entries correspond because they are linked and no number is stored
twice. -/
theorem Sound.paired
    (h : m.Sound) (hlinked : m.timing.Linked) :
    m.Paired := by
  have howner : ∀ {slot d}, m.loop.table.get? slot = some d → ∀ id,
      d.timeout = some id ↔ m.loop.timeouts.owner? id = some d.fd := by
    intro slot d hd id
    rw [← h.table.part?_of_get? hd (·.timeout)]
    exact hlinked.entry_iff d.fd id
  have hsettled : m.loop.timeouts.Settled := hlinked.settled
  refine ⟨?_, ?_, ?_, ?_⟩
  · intro slot d hd id
    rw [howner hd, DeadlineQueue.owner?_eq_some_iff hsettled]
  · intro i j d e id hd he hid hid'
    have hfd := ((howner hd id).1 hid).symm.trans ((howner he id).1 hid')
    exact h.table.inj i j d e hd he (Option.some.inj hfd)
  · intro item hitem
    have hentry : m.timing.entry item.key.fd = some item.handle := by
      refine (hlinked.entry_iff _ _).2 ?_
      exact (DeadlineQueue.owner?_eq_some_iff hsettled).2 ⟨item, hitem, rfl, rfl⟩
    obtain ⟨d, hfind, hid⟩ := Option.bind_eq_some_iff.1 hentry
    obtain ⟨slot, hd, hfd⟩ := h.table.find?_eq_some_iff.1 hfind
    exact ⟨slot, d, hd, hid, hfd⟩
  · intro slot d hd hclearing
    exact ((h.table.fits slot d hd).idle_of_clearing hclearing).2

/-- Whatever is done to a loop that was just built, its descriptors with a timeout and the
nodes of its heap correspond one to one, and neither a request nor a move of the
dispatcher comes upon a timeout without a descriptor. -/
theorem timeouts_match_descriptors
    {log : List (Act H)} (hbuilt : Built m) (hrun : Run m log m') :
    m'.Paired ∧ ∀ fd host,
      m'.step ≠ .error ⟨.timeoutForUnregistered fd, host⟩ ∧
        ∀ r, m'.perform r ≠ .error ⟨.timeoutForUnregistered fd, host⟩ := by
  have hsound := hrun.sound hbuilt.sound
  have hlinked := hrun.linked hbuilt.sound hbuilt.linked
  refine ⟨hsound.paired hlinked, fun fd host => ⟨?_, ?_⟩⟩
  · intro hstep
    cases hsound.laidTo_step hlinked _ hstep
  · intro r hperform
    exact hsound.laidTo_perform r _ hperform rfl

/-- A handler gives another descriptor a timeout and moves it forward, clears its own and
registers it again with a timeout. -/
def movingLog : List (Act Nat) :=
  [Act.request (.setFd 5 .recv (.after 3) 1) .done, .request .dispatch .done] ++
  List.replicate 7 Act.advance ++ [Act.wait [⟨5, ⟨true, false, false⟩⟩]] ++
  List.replicate 4 Act.advance ++
  [Act.fire 5 .recv (.call 1), .request (.setFd 6 .recv (.after 9) 2) .done,
    .request (.setFd 6 ∅ (.after 4) 2) .done, .request (.clearFd 5) .done,
    .request (.setFd 5 .send (.after 7) 3) .done]

theorem timeouts_match_descriptors_movingLog :
    ∃ m m' : Machine Nat, Built m ∧ Run m movingLog m' ∧ m'.loop.timeouts.heap.size = 2 ∧
      m'.Paired ∧ ∀ fd host, m'.step ≠ .error ⟨.timeoutForUnregistered fd, host⟩ ∧
        ∀ r, m'.perform r ≠ .error ⟨.timeoutForUnregistered fd, host⟩ := by
  have hbuilt := built_scripted Nat [{ events := [(5, { input := true })] }]
  obtain ⟨steps, m', hcourse, -, hlog, hsize⟩ :=
    exists_timely_course_of_trail (m := scripted Nat [{ events := [(5, { input := true })] }])
      movingLog (fun _ m' => m'.loop.timeouts.heap.size = 2)
      (List.flatten [
        [.request (.setFd 5 .recv (.after 3) 1), .request .dispatch], List.replicate 13 .step,
        [.request (.setFd 6 .recv (.after 9) 2), .request (.setFd 6 ∅ (.after 4) 2),
          .request (.clearFd 5), .request (.setFd 5 .send (.after 7) 3)]])
      (by decide +kernel)
  have hrun : Run _ movingLog m' := hlog ▸ hcourse.run
  obtain ⟨hpaired, hnever⟩ := timeouts_match_descriptors hbuilt hrun
  exact ⟨_, m', hbuilt, hrun, hsize, hpaired, hnever⟩

end Machine
end CallbackLoop
