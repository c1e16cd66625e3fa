import CallbackLoop.Proofs.Signal.Upkeep

/-!
# Reading and writing pipes

A read takes bytes from the front of one pipe, and a write puts bytes at the end of one.
Every other pipe stays as it is.  `Kernel.Reads` and `Kernel.Writes` say what comes of one
call, `Kernel.Broadcasts` what comes of one write to each of several descriptors.
-/

namespace CallbackLoop

namespace Kernel

theorem readEnd_inj
    {n n' : Nat} :
    readEnd n = readEnd n' ↔ n = n' := by
  unfold readEnd
  omega

theorem writeEnd_inj
    {n n' : Nat} :
    writeEnd n = writeEnd n' ↔ n = n' := by
  unfold writeEnd
  omega

section Contents

variable {k k' : Kernel} {fd : Int} {n : Nat}

theorem lt_size_of_pipeReadAt?
    (h : k.pipeReadAt? fd = some n) :
    n < k.pipes.size ∧ fd = readEnd n := by
  have hfound := List.find?_some h
  have hmem := List.mem_of_find?_eq_some h
  exact ⟨List.mem_range.1 hmem, (beq_iff_eq.1 hfound).symm⟩

theorem lt_size_of_pipeWrittenAt?
    (h : k.pipeWrittenAt? fd = some n) :
    n < k.pipes.size ∧ fd = writeEnd n := by
  have hfound := List.find?_some h
  have hmem := List.mem_of_find?_eq_some h
  exact ⟨List.mem_range.1 hmem, (beq_iff_eq.1 hfound).symm⟩

theorem pipeWrittenAt?_writeEnd
    (h : n < k.pipes.size) :
    k.pipeWrittenAt? (writeEnd n) = some n := by
  cases hfound : k.pipeWrittenAt? (writeEnd n) with
  | none =>
      have hnone := List.find?_eq_none.1 hfound n (List.mem_range.2 h)
      simp at hnone
  | some n' =>
      obtain ⟨-, hsame⟩ := lt_size_of_pipeWrittenAt? hfound
      rw [writeEnd_inj.1 hsame]

theorem pipeContents_congr
    (h : k'.pipes = k.pipes) (n : Nat) :
    k'.pipeContents n = k.pipeContents n := by
  unfold pipeContents
  rw [h]

theorem pipeContents_setIfInBounds
    {bytes : List UInt8} (hn : n < k.pipes.size)
    (h : k'.pipes = k.pipes.setIfInBounds n bytes) (other : Nat) :
    k'.pipeContents other = if other = n then bytes else k.pipeContents other := by
  unfold pipeContents
  rw [h, Array.getElem?_setIfInBounds]
  by_cases hother : other = n
  · simp [hother, hn]
  · simp [hother, Ne.symm hother]

end Contents

/-- A check whether a call fails changes the faults at most.  An interruption uses one up. -/
theorem wears_obstacle
    (k : Kernel) (name : CallName) (fd : Int) (variant : Option CallVariant) :
    ∃ faults, (k.obstacle name fd variant).2 = { k with faults } ∧
      Fault.remaining faults ≤ Fault.remaining k.faults ∧
      ((k.obstacle name fd variant).1 = some .interrupted →
        Fault.remaining faults < Fault.remaining k.faults) := by
  unfold obstacle
  split
  · have hcause : Errno.badDescriptor ≠ .interrupted := by decide
    exact ⟨k.faults, rfl, Nat.le_refl _, fun hhit => absurd (Option.some.inj hhit) hcause⟩
  · have hremaining := Fault.remaining_strike ⟨name, some fd, variant⟩ k.faults
    refine ⟨_, rfl, by omega, fun hhit => ?_⟩
    have hhit' : (Fault.strike ⟨name, some fd, variant⟩ k.faults).1 = some .interrupted := hhit
    rw [hhit', Option.toList_some, List.length_singleton] at hremaining
    omega

/-- A call on an open descriptor goes through if no fault fits it. -/
theorem obstacle_eq_none_of_spared
    {k : Kernel} {name : CallName} {fd : Int} {variant : Option CallVariant}
    (hopen : k.closed.contains fd = false)
    (hspared : ∀ f ∈ k.faults, f.fits ⟨name, some fd, variant⟩ = false) :
    (k.obstacle name fd variant).1 = none := by
  unfold obstacle
  rw [hopen, if_neg Bool.false_ne_true, Option.eq_none_iff_forall_ne_some]
  intro cause hhit
  obtain ⟨f, hf, hfits, -⟩ := Fault.exists_fits_of_strike hhit
  rw [hspared f hf] at hfits
  cases hfits

/-- What comes of a read of at most `count` bytes.  An interruption uses up a fault. -/
inductive Reads (k : Kernel) (fd : Int) (count : Nat) :
    Except Errno (List UInt8) × Kernel → Prop
  | failed {cause : Errno} {k' : Kernel} :
      k'.pipes = k.pipes →
      (cause = .interrupted → Fault.remaining k'.faults < Fault.remaining k.faults) →
      Reads k fd count (.error cause, k')
  /-- The pipe is empty and its write end is closed. -/
  | ended {n : Nat} {k' : Kernel} :
      n < k.pipes.size →
      fd = readEnd n →
      k.pipeContents n = [] →
      k'.pipes = k.pipes →
      Reads k fd count (.ok [], k')
  | taken {n : Nat} {k' : Kernel} :
      n < k.pipes.size →
      fd = readEnd n →
      k.pipeContents n ≠ [] →
      k'.pipes = k.pipes.setIfInBounds n ((k.pipeContents n).drop count) →
      Fault.remaining k'.faults ≤ Fault.remaining k.faults →
      Reads k fd count (.ok ((k.pipeContents n).take count), k')

theorem reads_read
    (k : Kernel) (fd : Int) (count : Nat) :
    k.Reads fd count (k.read fd count) := by
  obtain ⟨faults, hobstacle, hremaining, hinterrupted⟩ := wears_obstacle k .read fd none
  unfold read
  split
  next cause k' heq =>
      rw [heq] at hobstacle hinterrupted
      subst hobstacle
      exact .failed rfl fun hcause => hinterrupted (congrArg some hcause)
  next k' heq =>
      rw [heq] at hobstacle
      subst hobstacle
      split
      next =>
          exact .failed rfl fun hcause => absurd hcause (by decide)
      next n hfound =>
          obtain ⟨hn, hfd⟩ := lt_size_of_pipeReadAt? hfound
          split
          next hempty =>
              split
              · exact .ended hn hfd hempty rfl
              · exact .failed rfl fun hcause => absurd hcause (by decide)
          next hsome =>
              exact .taken hn hfd hsome rfl hremaining

/-- What a read takes was at the front of its pipe. -/
theorem pipeContents_of_read
    {k k' : Kernel} {fd : Int} {count : Nat} {bytes : List UInt8}
    (hread : k.read fd count = (.ok bytes, k')) (n : Nat) :
    k.pipeContents n = (if fd = readEnd n then bytes else []) ++ k'.pipeContents n := by
  have hreads := k.reads_read fd count
  rw [hread] at hreads
  cases hreads with
  | ended _ _ _ hpipes =>
      rw [pipeContents_congr hpipes, ite_self, List.nil_append]
  | taken hn hfd _ hpipes _ =>
      subst hfd
      rw [pipeContents_setIfInBounds hn hpipes]
      simp only [readEnd_inj, @eq_comm Nat n]
      split
      next hsame =>
          rw [← hsame, List.take_append_drop]
      next =>
          rfl

/-- A write end takes one more byte: it is open, there is room in the pipe, and no fault
fits the write. -/
structure Accepts (k : Kernel) (n : Nat) : Prop where
  lt_size : n < k.pipes.size
  opened : k.closed.contains (writeEnd n) = false
  spared : ∀ f ∈ k.faults, f.fits ⟨.write, some (writeEnd n), none⟩ = false
  room : (k.pipeContents n).length < k.pipeCapacity

/-- What comes of a write: it is recorded with its failure, and if there is none the bytes
are at the end of their pipe. -/
structure Writes (k : Kernel) (fd : Int) (bytes : List UInt8) (failure : Option Errno)
    (k' : Kernel) : Prop where
  record : k'.record = ⟨.write fd bytes, failure⟩ :: k.record
  contents : ∀ n, k'.pipeContents n =
    k.pipeContents n ++ if fd = writeEnd n ∧ failure = none then bytes else []
  upholds : k.Upholds k'
  size : k'.pipes.size = k.pipes.size
  closed : k'.closed = k.closed
  capacity : k'.pipeCapacity = k.pipeCapacity

theorem exists_writes
    (k : Kernel) (fd : Int) (bytes : List UInt8) :
    ∃ failure, k.Writes fd bytes failure (k.write fd bytes).2 ∧
      (∀ n, fd = writeEnd n → bytes.length = 1 → k.Accepts n → failure = none) := by
  obtain ⟨faults, hobstacle, -⟩ := wears_obstacle k .write fd none
  have hupholds := k.upholds_write fd bytes
  unfold write at hupholds ⊢
  split
  next cause k' heq =>
      rw [heq] at hobstacle hupholds
      subst hobstacle
      refine ⟨some cause, ⟨rfl, fun n => ?_, hupholds, rfl, rfl, rfl⟩, ?_⟩
      · simp only [reduceCtorEq, and_false, if_false, List.append_nil]
        rfl
      · rintro n rfl - haccepts
        have hnone := obstacle_eq_none_of_spared haccepts.opened haccepts.spared
        rw [heq] at hnone
        cases hnone
  next k' heq =>
      rw [heq] at hobstacle hupholds
      subst hobstacle
      dsimp only at hupholds ⊢
      split
      next hnone =>
          rw [hnone] at hupholds
          refine ⟨some .badDescriptor, ⟨rfl, fun n => ?_, hupholds, rfl, rfl, rfl⟩, ?_⟩
          · simp only [reduceCtorEq, and_false, if_false, List.append_nil]
            rfl
          · rintro n rfl - haccepts
            cases hnone.symm.trans (pipeWrittenAt?_writeEnd haccepts.lt_size)
      next n hfound =>
          rw [hfound] at hupholds
          obtain ⟨hn, rfl⟩ := lt_size_of_pipeWrittenAt? hfound
          dsimp only at hupholds ⊢
          split
          next hroom =>
              rw [if_pos hroom] at hupholds
              refine ⟨none, ⟨rfl, fun other => ?_, hupholds, ?_, rfl, rfl⟩, fun _ _ _ _ => rfl⟩
              · rw [pipeContents_setIfInBounds (k := k) hn rfl]
                simp only [writeEnd_inj, and_true, @eq_comm Nat other]
                split
                next hsame =>
                    rw [← hsame]
                    rfl
                next =>
                    rw [List.append_nil]
              · exact Array.size_setIfInBounds
          next hroom =>
              rw [if_neg hroom] at hupholds
              refine ⟨some .wouldBlock, ⟨rfl, fun n => ?_, hupholds, rfl, rfl, rfl⟩, ?_⟩
              · simp only [reduceCtorEq, and_false, if_false, List.append_nil]
                rfl
              · intro other hother hlength haccepts
                cases writeEnd_inj.1 hother
                refine absurd ?_ hroom
                have hless : (k.pipeContents n).length < k.pipeCapacity := haccepts.room
                rw [List.length_append, hlength]
                exact hless

/-- Faults only wear off, so a write to another pipe does not make a write fail. -/
theorem Writes.accepts
    {k k' : Kernel} {fd : Int} {bytes : List UInt8} {failure : Option Errno} {n : Nat}
    (h : k.Writes fd bytes failure k') (hfd : fd ≠ writeEnd n) (haccepts : k.Accepts n) :
    k'.Accepts n where
  lt_size := h.size ▸ haccepts.lt_size
  opened := h.closed ▸ haccepts.opened
  spared f' hf' := by
    rw [← Bool.not_eq_true]
    intro hfits
    obtain ⟨f, hf, hfits', -⟩ := h.upholds.exists_fits hf' hfits
    rw [haccepts.spared f hf] at hfits'
    cases hfits'
  room := by
    rw [h.contents, if_neg fun h => hfd h.1, List.append_nil, h.capacity]
    exact haccepts.room

/-- What comes of writing one byte to each of several descriptors.  The calls are given in
the order in which they were made. -/
structure Broadcasts (k : Kernel) (byte : UInt8) (members : List Int)
    (calls : List CallRecord) (k' : Kernel) : Prop where
  made : calls.map (·.call) = members.map (.write · [byte])
  record : k'.record = calls.reverse ++ k.record
  contents : members.Nodup → ∀ n, k'.pipeContents n =
    k.pipeContents n ++ if ⟨.write (writeEnd n) [byte], none⟩ ∈ calls then [byte] else []
  accepted : members.Nodup → ∀ n, writeEnd n ∈ members → k.Accepts n →
    ⟨.write (writeEnd n) [byte], none⟩ ∈ calls

/-- Only members are written to. -/
theorem Broadcasts.mem_members
    {k k' : Kernel} {byte : UInt8} {members : List Int} {calls : List CallRecord}
    (h : k.Broadcasts byte members calls k') {fd : Int} {bytes : List UInt8}
    {failure : Option Errno} (hcall : ⟨.write fd bytes, failure⟩ ∈ calls) :
    fd ∈ members := by
  have hmem : Call.write fd bytes ∈ calls.map (·.call) :=
    List.mem_map_of_mem (f := fun record : CallRecord => record.call) hcall
  rw [h.made, List.mem_map] at hmem
  obtain ⟨fd', hfd', heq⟩ := hmem
  cases heq
  exact hfd'

theorem exists_broadcasts
    (byte : UInt8) (members : List Int) (k : Kernel) :
    ∃ calls, k.Broadcasts byte members calls (Host.broadcast k byte members) := by
  induction members generalizing k with
  | nil =>
      refine ⟨[], rfl, rfl, fun _ n => ?_, fun _ n hn => nomatch hn⟩
      rw [if_neg List.not_mem_nil, List.append_nil]
      rfl
  | cons fd members ih =>
      obtain ⟨failure, hwrites, haccepted⟩ := exists_writes k fd [byte]
      obtain ⟨calls, hrest⟩ := ih (k.write fd [byte]).2
      refine ⟨⟨.write fd [byte], failure⟩ :: calls, ?_, ?_, ?_, ?_⟩
      · rw [List.map_cons, List.map_cons, hrest.made]
      · rw [List.reverse_cons, List.append_assoc, List.singleton_append, ← hwrites.record]
        exact hrest.record
      · intro hnodup n
        obtain ⟨hout, hnodup'⟩ := List.nodup_cons.1 hnodup
        have hcontents := hrest.contents hnodup' n
        rw [hwrites.contents n, List.append_assoc] at hcontents
        refine hcontents.trans (congrArg _ ?_)
        by_cases hfd : fd = writeEnd n
        · subst hfd
          have hother : ⟨.write (writeEnd n) [byte], none⟩ ∉ calls :=
            fun hcall => hout (hrest.mem_members hcall)
          rw [if_neg hother, List.append_nil]
          simp only [true_and, List.mem_cons, hother, or_false, CallRecord.mk.injEq,
            @eq_comm _ none]
        · rw [if_neg fun h => hfd h.1, List.nil_append]
          have hfirst : ¬ (⟨.write (writeEnd n) [byte], none⟩ : CallRecord) =
              ⟨.write fd [byte], failure⟩ := by
            intro heq
            cases heq
            exact hfd rfl
          simp only [List.mem_cons, hfirst, false_or]
      · intro hnodup n hn haccepts
        obtain ⟨hout, hnodup'⟩ := List.nodup_cons.1 hnodup
        rcases List.mem_cons.1 hn with hfd | hn
        · rw [← haccepted n hfd.symm rfl haccepts, hfd]
          exact List.mem_cons_self
        · have hfd : fd ≠ writeEnd n := fun heq => hout (heq ▸ hn)
          exact List.mem_cons_of_mem _ (hrest.accepted hnodup' n hn (hwrites.accepts hfd haccepts))

end Kernel

end CallbackLoop
