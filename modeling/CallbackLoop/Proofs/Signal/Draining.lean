import CallbackLoop.Proofs.Signal.Pipes

/-!
# Draining a notification pipe

Draining reads a pipe chunk by chunk.  An interruption is passed over, and the end of the
data or another failure stops it.  `Kernel.Drains` says what was read on the way: the bytes
come from the front of the pipe, each once, and none stays behind unless a read failed.

The number of reads is bounded, since each of them takes a byte at least or uses up a fault,
except the last.  So draining never stops for having reached the bound.
-/

namespace CallbackLoop

namespace Kernel

variable {k k' : Kernel} {fd : Int}

/-- Whether another read follows: some bytes were read, or the read was interrupted. -/
def goesOn : Except Errno (List UInt8) → Bool
  | .ok bytes => !bytes.isEmpty
  | .error cause => cause = .interrupted

/-- The bytes that a read brought. -/
def bytesOf : Except Errno (List UInt8) → List UInt8
  | .ok bytes => bytes
  | .error _ => []

/-- Reads one after the other, up to the first that none follows. -/
inductive ReadsUp (fd : Int) : Kernel → List (Except Errno (List UInt8)) → Kernel → Prop
  | last {k k' : Kernel} {result : Except Errno (List UInt8)} :
      k.read fd drainChunk = (result, k') →
      goesOn result = false →
      ReadsUp fd k [result] k'
  | more {k k' k'' : Kernel} {result : Except Errno (List UInt8)}
      {results : List (Except Errno (List UInt8))} :
      k.read fd drainChunk = (result, k') →
      goesOn result = true →
      ReadsUp fd k' results k'' →
      ReadsUp fd k (result :: results) k''

/-- What draining a pipe comes to, with the results of its reads. -/
structure Drains (k : Kernel) (fd : Int) (results : List (Except Errno (List UInt8)))
    (signos : List Int) (k' : Kernel) : Prop where
  reads : ReadsUp fd k results k'
  signos : signos = (results.flatMap bytesOf).map fun byte => (byte.toNat : Int)
  /-- The bytes were at the front of the pipe, and the others are left there.  No other
  pipe is changed. -/
  contents : ∀ n, k.pipeContents n =
    (if fd = readEnd n then results.flatMap bytesOf else []) ++ k'.pipeContents n
  /-- Bytes are left only if a read failed, and not because it was interrupted. -/
  left : ∀ n, fd = readEnd n → k'.pipeContents n ≠ [] →
    ∃ cause, results.getLast? = some (.error cause) ∧ cause ≠ .interrupted

/-- The bytes in all pipes. -/
def unread (k : Kernel) : Nat :=
  (k.pipes.toList.map List.length).sum

theorem drainBound_eq
    (k : Kernel) :
    k.drainBound = k.unread + Fault.remaining k.faults + 1 := by
  have hsum : ∀ {α : Type} (f : α → Nat) (l : List α) (start : Nat),
      l.foldl (fun n a => n + f a) start = start + (l.map f).sum := by
    intro α f l
    induction l with
    | nil =>
        exact fun start => rfl
    | cons a l ih =>
        intro start
        rw [List.foldl_cons, ih, List.map_cons, List.sum_cons, Nat.add_assoc]
  unfold drainBound unread Fault.remaining
  rw [hsum List.length, hsum Fault.times, Nat.zero_add, Nat.zero_add]

theorem unread_setIfInBounds
    {n : Nat} {bytes : List UInt8} (hn : n < k.pipes.size)
    (hpipes : k'.pipes = k.pipes.setIfInBounds n bytes) :
    k'.unread + (k.pipeContents n).length = k.unread + bytes.length := by
  have hlt : n < (k.pipes.toList.map List.length).length := by
    rw [List.length_map, Array.length_toList]
    exact hn
  have hsum := List.sum_set_add hlt bytes.length
  unfold unread
  rw [hpipes, Array.toList_setIfInBounds, List.map_set]
  rw [List.getElem_map, Array.getElem_toList] at hsum
  rw [pipeContents, Array.getElem?_eq_getElem hn]
  exact hsum

/-- A read that another one follows has taken a byte or used up a fault. -/
theorem unread_add_remaining_lt
    {result : Except Errno (List UInt8)} (hread : k.read fd drainChunk = (result, k'))
    (hgoes : goesOn result = true) :
    k'.unread + Fault.remaining k'.faults < k.unread + Fault.remaining k.faults := by
  have hreads := k.reads_read fd drainChunk
  rw [hread] at hreads
  cases hreads with
  | failed hpipes hinterrupted =>
      have hless := hinterrupted (of_decide_eq_true hgoes)
      unfold unread
      rw [hpipes]
      omega
  | ended _ _ _ _ =>
      cases hgoes
  | @taken n _ hn _ hsome hpipes hfaults =>
      have hsum := unread_setIfInBounds hn hpipes
      have hpos := List.length_pos_iff.2 hsome
      rw [List.length_drop, drainChunk] at hsum
      omega

theorem drainFrom_eq
    (fd : Int) (n : Nat) (k : Kernel) :
    drainFrom fd (n + 1) k =
      match k.read fd drainChunk with
      | (result, k') =>
          if goesOn result then (bytesOf result ++ (drainFrom fd n k').1, (drainFrom fd n k').2)
          else ([], k') := by
  rw [drainFrom]
  rcases k.read fd drainChunk with ⟨_ | _, k'⟩
  next cause =>
      by_cases hcause : cause = .interrupted
      · simp [goesOn, bytesOf, hcause]
      · simp [goesOn, hcause]
  next bytes =>
      cases bytes <;> rfl

theorem exists_readsUp
    {n : Nat} (hbound : k.unread + Fault.remaining k.faults < n) :
    ∃ results, ReadsUp fd k results (drainFrom fd n k).2 ∧
      (drainFrom fd n k).1 = results.flatMap bytesOf := by
  induction n generalizing k with
  | zero =>
      exact absurd hbound (Nat.not_lt_zero _)
  | succ n ih =>
      rw [drainFrom_eq]
      rcases hread : k.read fd drainChunk with ⟨result, k'⟩
      dsimp only
      split
      next hgoes =>
          have hless := unread_add_remaining_lt hread hgoes
          obtain ⟨results, hreads, hbytes⟩ := ih (k := k') (by omega)
          refine ⟨result :: results, .more hread hgoes hreads, ?_⟩
          rw [List.flatMap_cons, ← hbytes]
      next hstops =>
          rw [Bool.not_eq_true] at hstops
          refine ⟨[result], .last hread hstops, ?_⟩
          rw [List.flatMap_singleton]
          cases result with
          | ok bytes =>
              exact (List.isEmpty_iff.1 (Bool.not_eq_false' _ ▸ hstops)).symm
          | error cause =>
              rfl

theorem pipeContents_of_read_result
    {result : Except Errno (List UInt8)} (hread : k.read fd drainChunk = (result, k')) (n : Nat) :
    k.pipeContents n = (if fd = readEnd n then bytesOf result else []) ++ k'.pipeContents n := by
  cases result with
  | ok bytes =>
      exact pipeContents_of_read hread n
  | error cause =>
      have hreads := k.reads_read fd drainChunk
      rw [hread] at hreads
      cases hreads with
      | failed hpipes _ =>
          rw [bytesOf, ite_self, List.nil_append, pipeContents_congr hpipes]

theorem ReadsUp.contents
    {results : List (Except Errno (List UInt8))} (h : ReadsUp fd k results k') (n : Nat) :
    k.pipeContents n =
      (if fd = readEnd n then results.flatMap bytesOf else []) ++ k'.pipeContents n := by
  induction h with
  | last hread _ =>
      rw [List.flatMap_singleton]
      exact pipeContents_of_read_result hread n
  | more hread _ _ ih =>
      rw [pipeContents_of_read_result hread n, ih]
      split
      · rw [List.flatMap_cons, List.append_assoc]
      · rfl

theorem ReadsUp.left
    {results : List (Except Errno (List UInt8))} (h : ReadsUp fd k results k') {n : Nat}
    (hfd : fd = readEnd n) (hleft : k'.pipeContents n ≠ []) :
    ∃ cause, results.getLast? = some (.error cause) ∧ cause ≠ .interrupted := by
  induction h with
  | @last k k' result hread hstops =>
      cases result with
      | error cause =>
          exact ⟨cause, rfl, of_decide_eq_false hstops⟩
      | ok bytes =>
          rw [goesOn, Bool.not_eq_false', List.isEmpty_iff] at hstops
          subst hstops
          have hreads := k.reads_read fd drainChunk
          rw [hread] at hreads
          generalize hresult : (.ok [] : Except Errno (List UInt8)) = result at hreads
          cases hreads with
          | failed _ _ =>
              cases hresult
          | ended _ hfd' hempty hpipes =>
              cases readEnd_inj.1 (hfd.symm.trans hfd')
              rw [pipeContents_congr hpipes] at hleft
              exact absurd hempty hleft
          | taken _ _ hsome _ _ =>
              have hnil : (k.pipeContents _).take drainChunk = [] := (Except.ok.inj hresult).symm
              rw [List.take_eq_nil_iff] at hnil
              exact absurd (hnil.resolve_left (by decide)) hsome
  | more _ _ hrest ih =>
      obtain ⟨cause, hlast, hcause⟩ := ih hleft
      exact ⟨cause, by rw [List.getLast?_cons, hlast]; rfl, hcause⟩

/-- Draining reads on until a read brings nothing, however long the pipe is and however
often reads are interrupted. -/
theorem exists_drains
    {signos : List Int} (hdrain : k.drain fd = (signos, k')) :
    ∃ results, k.Drains fd results signos k' := by
  have hbound : k.unread + Fault.remaining k.faults < k.drainBound := by
    rw [drainBound_eq]
    exact Nat.lt_succ_self _
  obtain ⟨results, hreads, hbytes⟩ : ∃ results,
      ReadsUp fd k results (drainFrom fd k.drainBound k).2 ∧
        (drainFrom fd k.drainBound k).1 = results.flatMap bytesOf :=
    exists_readsUp hbound
  have heq : k.drain fd = ((drainFrom fd k.drainBound k).1.map fun byte => (byte.toNat : Int),
      (drainFrom fd k.drainBound k).2) := rfl
  obtain ⟨rfl, rfl⟩ := Prod.mk.inj (heq.symm.trans hdrain)
  exact ⟨results, hreads, by rw [hbytes], hreads.contents, fun n => hreads.left⟩

end Kernel

end CallbackLoop
