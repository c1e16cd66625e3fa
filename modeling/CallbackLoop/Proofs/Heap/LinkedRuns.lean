import CallbackLoop.Proofs.Heap.Rekeying

/-!
# Runs of linked heaps

Every call on a linked heap that embodies a heap of trees goes well, gives the same answer
and keeps the two together.  So a linked heap that was empty at first never meets a
`Defect`, whatever is asked of it.
-/

namespace CallbackLoop

variable {κ : Type} {cmp : κ → κ → Ordering}

namespace LinkedHeap

/-- The answer to a call that takes a node out, and the heap that is left. -/
def taken
    (l : LinkedHeap κ cmp) :
    Option (Extraction κ cmp) → Heap.Answer κ × LinkedHeap κ cmp
  | some e => (.key (some e.key), e.heap)
  | none => (.key none, l)

/-- Performs one operation. -/
def perform
    (l : LinkedHeap κ cmp) :
    Heap.Call κ → Except Defect (Heap.Answer κ × LinkedHeap κ cmp)
  | .insert key => do
      let (id, l') ← l.insert key
      return (.handle id, l')
  | .extractMin => return l.taken (← l.extractMin?)
  | .decreaseKey id key => do
      match ← l.decreaseKey id key with
      | .ok l' => return (.decreased (.ok ()), l')
      | .error rejection => return (.decreased (.error rejection), l)
  | .delete id => return l.taken (← l.delete? id)
  | .get id => return (.key (l.get? id), l)
  | .contains id => return (.flag (l.contains id), l)
  | .minimum => return (.key (← l.minimum?), l)
  | .minHandle => return (.named (← l.minHandle?), l)
  | .size => return (.count l.size, l)

/-- Performs operations one after the other and returns them with their answers. -/
def run :
    List (Heap.Call κ) → LinkedHeap κ cmp →
      Except Defect (List (Heap.Call κ × Heap.Answer κ) × LinkedHeap κ cmp)
  | [], l => return ([], l)
  | call :: calls, l => do
      let (answer, l) ← l.perform call
      let (answers, l) ← run calls l
      return ((call, answer) :: answers, l)

variable {l : LinkedHeap κ cmp} {h : Heap κ cmp}

namespace Embodies

variable (he : Embodies none l h)
include he

theorem size_eq :
    l.size = h.size := by
  unfold LinkedHeap.size Heap.size Arena.size
  rw [he.planted.size_eq, he.planted.free_eq]

theorem get?_eq
    (hs : h.Sound) (id : Handle) :
    l.get? id = h.get? id := by
  unfold LinkedHeap.get?
  rcases he.resolve?_cases hs id with ⟨hget, hnone⟩ | ⟨m, -, -, hget, x, hx, hxm⟩
  · rw [hget, hnone]
    rfl
  · rw [hget, hx]
    exact congrArg some (congrArg Vertex.key hxm)

theorem contains_eq
    (hs : h.Sound) (id : Handle) :
    l.contains id = h.contains id := by
  have hiff : h.contains id = (h.get? id).isSome := by
    rw [Bool.eq_iff_iff, hs.contains_iff, Option.isSome_iff_exists]
    simp only [hs.get?_eq_some_iff]
    exact ⟨fun ⟨item, hitem, hid⟩ => ⟨item.key, item, hitem, hid, rfl⟩,
      fun ⟨_, item, hitem, hid, _⟩ => ⟨item, hitem, hid⟩⟩
  rw [hiff, ← he.get?_eq hs, LinkedHeap.contains, LinkedHeap.get?, Option.isSome_map]

theorem ensures_minimum? :
    Ensures l.minimum? (· = h.minimum?) := by
  unfold LinkedHeap.minimum? Heap.minimum?
  rw [he.min]
  cases hroots : h.roots with
  | nil =>
      exact .pure rfl
  | cons first others =>
      refine (Layout.ensures_node he.planted (m := first.root) (root_mem_ringMembers ?_)).bind
        fun x hx => .pure ?_
      · simp [hroots]
      · exact congrArg some (congrArg Vertex.key hx)

theorem ensures_minHandle? :
    Ensures l.minHandle? (· = h.minHandle?) := by
  unfold LinkedHeap.minHandle? Heap.minHandle?
  rw [he.min]
  cases hroots : h.roots with
  | nil =>
      exact .pure rfl
  | cons first others =>
      refine (Layout.ensures_node he.planted (m := first.root) (root_mem_ringMembers ?_)).bind
        fun x hx => .pure ?_
      · simp [hroots]
      · rw [congrArg Vertex.serial hx]
        rfl

variable [Std.TransCmp cmp]

/-- Every call gives the answer that the heap of trees gives. -/
theorem ensures_perform
    (hs : h.Settled) (call : Heap.Call κ) :
    Ensures (l.perform call) fun r =>
      r.1 = (h.perform call).1 ∧ Embodies none r.2 (h.perform call).2 := by
  cases call with
  | insert key =>
      refine (he.ensures_insert hs.toSound key).bind ?_
      rintro ⟨id, l'⟩ ⟨hid, hl'⟩
      exact .pure ⟨congrArg _ hid, hl'⟩
  | extractMin =>
      cases hroots : h.roots with
      | nil =>
          have hnone : h.extractMin? = none := by rw [Heap.extractMin?, hroots]
          have hmin : l.min = none := by rw [he.min, hroots]; rfl
          unfold perform Heap.perform
          simp only [LinkedHeap.extractMin?, hmin, hnone]
          exact .pure ⟨rfl, he⟩
      | cons first others =>
          refine (he.ensures_extractMin? hroots (by simp)).bind ?_
          rintro _ ⟨e, h', rfl, hextracted⟩
          unfold Heap.perform
          simp only [hextracted.extract]
          exact .pure ⟨rfl, hextracted.embodies⟩
  | decreaseKey id key =>
      refine (he.ensures_decreaseKey hs id key).bind ?_
      unfold Heap.perform
      rintro r (⟨rejection, rfl, hrejected⟩ | ⟨l', h', rfl, hdone, hl'⟩)
      · simp only [hrejected]
        exact .pure ⟨rfl, he⟩
      · simp only [hdone]
        exact .pure ⟨rfl, hl'⟩
  | delete id =>
      refine (he.ensures_delete? hs id).bind ?_
      unfold Heap.perform
      rintro r (⟨rfl, hnone⟩ | ⟨e, h', rfl, hdelete, hextracted⟩)
      · simp only [hnone]
        exact .pure ⟨rfl, he⟩
      · simp only [hdelete]
        exact .pure ⟨rfl, hextracted.embodies⟩
  | get id =>
      exact .pure ⟨congrArg _ (he.get?_eq hs.toSound id), he⟩
  | contains id =>
      exact .pure ⟨congrArg _ (he.contains_eq hs.toSound id), he⟩
  | minimum =>
      exact he.ensures_minimum?.bind fun key hkey => .pure ⟨congrArg _ hkey, he⟩
  | minHandle =>
      exact he.ensures_minHandle?.bind fun id hid => .pure ⟨congrArg _ hid, he⟩
  | size =>
      exact .pure ⟨congrArg _ he.size_eq, he⟩

end Embodies

theorem settled_perform
    [Std.TransCmp cmp] (hs : h.Settled) (call : Heap.Call κ) :
    (h.perform call).2.Settled :=
  Heap.settled_run [call] hs

/-- A run on a linked heap answers as the run on the heap of trees. -/
theorem Embodies.ensures_run
    [Std.TransCmp cmp] (he : Embodies none l h) (hs : h.Settled) (calls : List (Heap.Call κ)) :
    Ensures (run calls l) fun r =>
      r.1 = (Heap.run calls h).1 ∧ Embodies none r.2 (Heap.run calls h).2 := by
  induction calls generalizing l h with
  | nil =>
      exact .pure ⟨rfl, he⟩
  | cons call calls ih =>
      refine (he.ensures_perform hs call).bind ?_
      rintro ⟨answer, l'⟩ ⟨rfl, hl'⟩
      refine (ih hl' (settled_perform hs call)).bind ?_
      rintro ⟨answers, l''⟩ ⟨rfl, hl''⟩
      exact .pure ⟨rfl, hl''⟩

end LinkedHeap
end CallbackLoop
