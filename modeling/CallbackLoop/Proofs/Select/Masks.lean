import CallbackLoop.Backend.NativeSelect
import CallbackLoop.Proofs.Select.Ledger

/-!
# Masks of descriptors

A mask is seen through its test: whether the bit of a number is set.  Setting and testing
the bit of a descriptor that the host can represent goes well, and so does what is made of
it: filling masks with the interests of such descriptors (`fill_spec`), and collecting the
events that masks report of them (`collect_eq`).
-/

namespace CallbackLoop

namespace SelectDefect

variable {β γ : Type}

/-- A step that goes well is followed by the next one. -/
@[simp] theorem ok_bind
    (x : β) (f : β → Except SelectDefect γ) :
    (Except.ok x >>= f) = f x :=
  rfl

@[simp] theorem pure_eq
    (x : β) :
    (pure x : Except SelectDefect β) = .ok x :=
  rfl

/-- What goes well goes well in every step. -/
theorem bind_eq_ok
    {x : Except SelectDefect β} {f : β → Except SelectDefect γ} {y : γ} :
    (x >>= f) = .ok y ↔ ∃ b, x = .ok b ∧ f b = .ok y := by
  cases x with
  | ok b =>
      simp
  | error defect =>
      constructor
      · intro h
        cases h
      · rintro ⟨b, h, -⟩
        cases h

end SelectDefect

namespace FdMask

/-- Whether the bit of a number is set. -/
def test (m : FdMask) (fd : Int) : Bool :=
  decide (0 ≤ fd) && m.bits.getLsbD fd.toNat

@[simp] theorem test_empty
    (fd : Int) :
    ({} : FdMask).test fd = false := by
  simp [test]

/-- One more bit is set, if there is one. -/
theorem test_or_twoPow
    (m : FdMask) {fd : Int} (hfd : 0 ≤ fd) {other : Int} :
    test ⟨m.bits ||| BitVec.twoPow _ fd.toNat⟩ other = true ↔
      m.test other = true ∨ SelectSets.Representable fd ∧ other = fd := by
  simp only [test, BitVec.getLsbD_or, BitVec.getLsbD_twoPow, Bool.and_eq_true, Bool.or_eq_true,
    decide_eq_true_eq, SelectSets.Representable]
  have hsame : 0 ≤ other → (fd.toNat = other.toNat ↔ other = fd) := by omega
  have hrange : fd.toNat < SelectSets.limit ↔ fd < SelectSets.limit := by omega
  rw [hrange, and_or_left]
  refine or_congr_right ⟨?_, ?_⟩
  · rintro ⟨hother, hlt, heq⟩
    exact ⟨⟨hfd, hlt⟩, (hsame hother).1 heq⟩
  · rintro ⟨⟨-, hlt⟩, rfl⟩
    exact ⟨hfd, hlt, rfl⟩

/-- A list has the bits of those of its members that can be represented. -/
theorem test_ofList
    {fds : List Int} {other : Int} :
    (ofList fds).test other = true ↔ SelectSets.Representable other ∧ other ∈ fds := by
  induction fds with
  | nil =>
      rw [ofList, test_empty]
      simp
  | cons fd fds ih =>
      rw [ofList]
      split
      next hneg =>
          rw [ih, List.mem_cons]
          refine and_congr_right fun hother => (or_iff_right ?_).symm
          rintro rfl
          exact absurd hother.1 (by omega)
      next hneg =>
          rw [test_or_twoPow _ (by omega), ih, List.mem_cons]
          constructor
          · rintro (⟨hother, hmem⟩ | ⟨hfd, rfl⟩)
            · exact ⟨hother, .inr hmem⟩
            · exact ⟨hfd, .inl rfl⟩
          · rintro ⟨hother, rfl | hmem⟩
            · exact .inr ⟨hother, rfl⟩
            · exact .inl ⟨hother, hmem⟩

theorem mem_below
    {m : FdMask} {width : Int32} {fd : Int} :
    fd ∈ m.below width ↔ m.test fd = true ∧ fd < width.toInt := by
  simp only [below, List.mem_map, List.mem_filter, List.mem_range, test, Bool.and_eq_true,
    decide_eq_true_eq]
  constructor
  · rintro ⟨i, ⟨hi, hbit⟩, rfl⟩
    exact ⟨⟨Int.natCast_nonneg i, hbit⟩, Int.lt_toNat.1 hi⟩
  · rintro ⟨⟨hlow, hbit⟩, hlt⟩
    exact ⟨fd.toNat, ⟨by omega, hbit⟩, Int.toNat_of_nonneg hlow⟩

theorem ascending_below
    (m : FdMask) (width : Int32) :
    (m.below width).Pairwise (· < ·) := by
  refine List.Pairwise.map _ (fun i j hlt => ?_)
    (List.Pairwise.filter _ List.pairwise_lt_range)
  exact Int.ofNat_lt.2 hlt

section Access

variable (m : FdMask) {fd : Int32}

theorem place_eq
    (hfd : SelectSets.Representable fd.toInt) :
    place fd = .ok fd.toInt.toNat :=
  if_pos hfd

theorem insert_spec
    (hfd : SelectSets.Representable fd.toInt) :
    ∃ m', m.insert fd = .ok m' ∧
      ∀ other, m'.test other = true ↔ m.test other = true ∨ other = fd.toInt := by
  refine ⟨⟨m.bits ||| BitVec.twoPow _ fd.toInt.toNat⟩, ?_, fun other => ?_⟩
  · simp [insert, place_eq hfd]
  · rw [test_or_twoPow m hfd.1]
    exact or_congr_right (and_iff_right hfd)

theorem insertIf_spec
    (hfd : SelectSets.Representable fd.toInt) (condition : Bool) :
    ∃ m', m.insertIf condition fd = .ok m' ∧
      ∀ other, m'.test other = true ↔
        m.test other = true ∨ other = fd.toInt ∧ condition = true := by
  cases condition with
  | false =>
      exact ⟨m, rfl, by simp⟩
  | true =>
      simpa [insertIf] using insert_spec m hfd

theorem contains_eq
    (hfd : SelectSets.Representable fd.toInt) :
    m.contains fd = .ok (m.test fd.toInt) := by
  simp [contains, place_eq hfd, test, hfd.1]

end Access

end FdMask

namespace FdMasks

/-- The directions in whose masks the bit of a number is set. -/
def tests (m : FdMasks) (fd : Int) : Directions :=
  ⟨m.read.test fd, m.write.test fd, m.except.test fd⟩

/-- The host's report says the same of a descriptor in lists and in masks. -/
theorem tests_ofSets
    (s : SelectSets) {fd : Int} (hfd : SelectSets.Representable fd) :
    (ofSets s).tests fd = s.directions fd := by
  have htest : ∀ fds : List Int, (FdMask.ofList fds).test fd = fds.contains fd := by
    intro fds
    rw [Bool.eq_iff_iff, FdMask.test_ofList, List.contains_iff_mem]
    exact and_iff_right hfd
  simp only [tests, ofSets, SelectSets.directions, htest]

theorem tests_of_isEmpty
    {m : FdMasks} (h : m.isEmpty = true) (fd : Int) :
    m.tests fd = ∅ := by
  obtain ⟨⟨read⟩, ⟨write⟩, ⟨except⟩⟩ := m
  simp only [isEmpty, Bool.and_eq_true, beq_iff_eq] at h
  obtain ⟨⟨rfl, rfl⟩, rfl⟩ := h
  show (⟨FdMask.test {} fd, FdMask.test {} fd, FdMask.test {} fd⟩ : Directions) = ∅
  rw [FdMask.test_empty]
  rfl

variable {fd : Int32}

theorem insert_spec
    (m : FdMasks) (hfd : SelectSets.Representable fd.toInt) (directions : Directions) :
    ∃ m', m.insert fd directions = .ok m' ∧
      ∀ other a, (m'.mask a).test other = true ↔
        (m.mask a).test other = true ∨ other = fd.toInt ∧ directions.contains a = true := by
  obtain ⟨read, hread, hreads⟩ := m.read.insertIf_spec hfd directions.recv
  obtain ⟨write, hwrite, hwrites⟩ := m.write.insertIf_spec hfd directions.send
  obtain ⟨except, hexcept, hexcepts⟩ := m.except.insertIf_spec hfd directions.error
  refine ⟨⟨read, write, except⟩, ?_, fun other a => ?_⟩
  · simp only [insert, hread, hwrite, hexcept, SelectDefect.ok_bind, SelectDefect.pure_eq]
  · cases a with
    | recv =>
        exact hreads other
    | send =>
        exact hwrites other
    | error =>
        exact hexcepts other

theorem directions_eq
    (m : FdMasks) (hfd : SelectSets.Representable fd.toInt) :
    m.directions fd = .ok (m.tests fd.toInt) := by
  simp only [directions, FdMask.contains_eq _ hfd, SelectDefect.ok_bind, SelectDefect.pure_eq]
  rfl

end FdMasks

namespace NativeSelect

/-- Every bit that the interests name is set, and no other one is added. -/
theorem fill_spec
    {entries : List (Int32 × Interest)}
    (hrange : ∀ entry ∈ entries, SelectSets.Representable entry.1.toInt) (masks : FdMasks) :
    ∃ masks', fill entries masks = .ok masks' ∧
      ∀ fd a, (masks'.mask a).test fd = true ↔
        (masks.mask a).test fd = true ∨
          ∃ entry ∈ entries, entry.1.toInt = fd ∧ entry.2.directions.contains a = true := by
  induction entries generalizing masks with
  | nil =>
      exact ⟨masks, rfl, by simp⟩
  | cons entry entries ih =>
      obtain ⟨hentry, hentries⟩ := List.forall_mem_cons.1 hrange
      obtain ⟨masks₁, hinsert, htest₁⟩ := masks.insert_spec hentry entry.2.directions
      obtain ⟨masks₂, hfill, htest₂⟩ := ih hentries masks₁
      refine ⟨masks₂, ?_, fun fd a => ?_⟩
      · simp only [fill, hinsert, SelectDefect.ok_bind, hfill]
      · rw [htest₂, htest₁, List.exists_mem_cons_iff, or_assoc, eq_comm (a := fd)]

/-- What masks report of descriptors whose bits can be tested. -/
theorem collect_eq
    (reported : FdMasks) {fds : List Int32}
    (hrange : ∀ fd ∈ fds, SelectSets.Representable fd.toInt) :
    collect reported fds = .ok ((fds.map Int32.toInt).filterMap fun fd =>
      if (reported.tests fd).isEmpty then none else some ⟨fd, reported.tests fd⟩) := by
  induction fds with
  | nil =>
      rfl
  | cons fd fds ih =>
      obtain ⟨hfd, hfds⟩ := List.forall_mem_cons.1 hrange
      simp only [collect, reported.directions_eq hfd, ih hfds, SelectDefect.ok_bind,
        SelectDefect.pure_eq, List.map_cons, List.filterMap_cons]
      split <;> rfl

end NativeSelect
end CallbackLoop
