import CallbackLoop.Proofs.Select.Masks

/-!
# Runs of the select backend in words

A backend in words embodies a select table when both have the same entries and the same
width, once the words are read as numbers.  As long as the table represents a ledger,
every call on the words goes well, gives the same answer and keeps the two together: the
registered descriptors are below the limit, so each can be counted up and has a bit in
the masks, and the width reaches beyond every bit that is set.

So a backend that was empty at first never meets a `SelectDefect`, whatever is asked of
it, and it always covers what is registered.
-/

namespace CallbackLoop
namespace NativeSelect

/-- Performs one operation. -/
def perform (p : NativeSelect) :
    SelectCall Int32 → Except SelectDefect (SelectAnswer × NativeSelect)
  | .register fd interest => do
      let (result, p) ← p.register fd interest
      return (.changed result, p)
  | .modify fd interest =>
      return (.changed (p.modify fd interest).1, (p.modify fd interest).2)
  | .unregister fd => do
      let (result, p) ← p.unregister fd
      return (.changed result, p)
  | .wait h timeout => do
      let (result, h) ← p.wait h timeout
      return (.waited result h, p)

/-- Performs operations one after the other and returns their answers. -/
def run :
    List (SelectCall Int32) → NativeSelect →
      Except SelectDefect (List SelectAnswer × NativeSelect)
  | [], p => return ([], p)
  | call :: calls, p => do
      let (answer, p) ← p.perform call
      let (answers, p) ← run calls p
      return (answer :: answers, p)

theorem compare_toInt
    (a b : Int32) :
    compare a.toInt b.toInt = compare a b := by
  simp only [compare, compareOfLessAndEq, Int32.lt_iff_toInt_lt, Int32.toInt_inj]

theorem toInt_max
    (a b : Int32) :
    (max a b).toInt = max a.toInt b.toInt := by
  simp only [max, Int32.le_iff_toInt_le]
  split <;> omega

theorem toNat_unsigned
    (fd : Int32) :
    ((unsigned fd).toNat : Int) = fd.toInt % ((2 ^ 64 : Nat) : Int) := by
  rw [← Int32.toInt_toInt64]
  show (fd.toInt64.toBitVec.toNat : Int) = fd.toInt64.toBitVec.toInt % ((2 ^ 64 : Nat) : Int)
  have hlt := fd.toInt64.toBitVec.isLt
  rw [BitVec.toInt_eq_toNat_bmod, Int.bmod_emod]
  omega

/-- Read as unsigned words, the descriptors from the limit on are those that the host
cannot represent. -/
theorem limit_le_unsigned_iff
    (fd : Int32) :
    SelectSets.limit ≤ (unsigned fd).toNat ↔ ¬SelectSets.Representable fd.toInt := by
  have hlow := fd.le_toInt
  have hhigh := fd.toInt_lt
  have hunsigned := toNat_unsigned fd
  rw [SelectSets.Representable, SelectSets.limit]
  omega

/-- A descriptor that the host can represent can be counted up. -/
theorem after_eq
    {fd : Int32} (hfd : SelectSets.Representable fd.toInt) :
    ∃ next, after fd = .ok next ∧ next.toInt = fd.toInt + 1 := by
  obtain ⟨hlow, hhigh⟩ := hfd
  rw [SelectSets.limit] at hhigh
  refine ⟨fd + 1, if_neg fun heq => ?_, ?_⟩
  · rw [heq, Int32.toInt_maxValue] at hhigh
    omega
  · rw [Int32.toInt_add]
    show Int.bmod (fd.toInt + 1) (2 ^ 32) = fd.toInt + 1
    rw [Int.bmod_eq_of_le] <;> omega

/-- Read as numbers, the words hold the entries and the width of the table. -/
structure Embodies (p : NativeSelect) (t : SelectTable) : Prop where
  entries : ∀ (fd : Int) interest, t.registered[fd]? = some interest ↔
    ∃ word : Int32, word.toInt = fd ∧ p.registered[word]? = some interest
  width : p.width.toInt = t.width

variable {p : NativeSelect} {t : SelectTable} {L : SelectLedger}

namespace Embodies

theorem getElem?_eq
    (he : Embodies p t) (fd : Int32) :
    t.registered[fd.toInt]? = p.registered[fd]? := by
  ext interest
  rw [he.entries]
  constructor
  · rintro ⟨word, hword, hget⟩
    rwa [Int32.toInt_inj.1 hword] at hget
  · intro hget
    exact ⟨fd, rfl, hget⟩

theorem contains_eq
    (he : Embodies p t) (fd : Int32) :
    t.registered.contains fd.toInt = p.registered.contains fd := by
  rw [Std.TreeMap.contains_eq_isSome_getElem?, Std.TreeMap.contains_eq_isSome_getElem?,
    he.getElem?_eq]

theorem mem_iff
    (he : Embodies p t) {fd : Int32} :
    fd.toInt ∈ t.registered ↔ fd ∈ p.registered := by
  rw [← Std.TreeMap.contains_iff_mem, ← Std.TreeMap.contains_iff_mem, he.contains_eq]

/-- Both go through the descriptors in the same order. -/
theorem keys_eq
    (he : Embodies p t) :
    t.registered.keys = p.registered.keys.map Int32.toInt := by
  have hkeys : t.registered.keys.Pairwise (· < ·) :=
    Std.TreeMap.ordered_keys.imp compare_lt_iff_lt.1
  have hwords : (p.registered.keys.map Int32.toInt).Pairwise (· < ·) := by
    refine List.Pairwise.map _ (fun a b hlt => ?_) Std.TreeMap.ordered_keys
    rwa [← compare_lt_iff_lt, compare_toInt]
  refine hkeys.eq_of_mem_iff hwords fun fd => ?_
  rw [Std.TreeMap.mem_keys, Std.TreeMap.mem_iff_isSome_getElem?, Option.isSome_iff_exists,
    List.mem_map]
  constructor
  · rintro ⟨interest, hget⟩
    obtain ⟨word, rfl, -⟩ := (he.entries fd interest).1 hget
    refine ⟨word, Std.TreeMap.mem_keys.2 (he.mem_iff.1 ?_), rfl⟩
    rw [Std.TreeMap.mem_iff_isSome_getElem?, hget]
    rfl
  · rintro ⟨word, hword, rfl⟩
    rw [← Option.isSome_iff_exists, ← Std.TreeMap.mem_iff_isSome_getElem?, he.mem_iff]
    exact Std.TreeMap.mem_keys.1 hword

theorem maxKey?_eq
    (he : Embodies p t) :
    t.registered.maxKey? = p.registered.maxKey?.map Int32.toInt := by
  rw [Std.TreeMap.maxKey?_eq_getLast?_keys, Std.TreeMap.maxKey?_eq_getLast?_keys, he.keys_eq,
    List.getLast?_map]

/-- What is registered is below the limit. -/
theorem representable
    (he : Embodies p t) (hr : t.Represents L) {fd : Int32} (hfd : fd ∈ p.registered) :
    SelectSets.Representable fd.toInt :=
  hr.range _ (hr.mem_iff.1 (he.mem_iff.2 hfd))

/-- One entry changes in the same way in both. -/
theorem entries_update
    (he : Embodies p t) (fd : Int32) (entry : Option Interest) (other : Int)
    (interest : Interest) :
    (if fd.toInt = other then entry else t.registered[other]?) = some interest ↔
      ∃ word : Int32, word.toInt = other ∧
        (if fd = word then entry else p.registered[word]?) = some interest := by
  by_cases hother : fd.toInt = other
  · -- The changed word is the only one that is read as this number.
    subst hother
    simp [Int32.toInt_inj]
  · rw [if_neg hother, he.entries]
    refine exists_congr fun word => and_congr_right fun hword => ?_
    rw [if_neg fun heq : fd = word => hother (heq ▸ hword)]

theorem insert
    (he : Embodies p t) (fd : Int32) (interest : Interest) {width : Int32} {width' : Int}
    (hwidth : width.toInt = width') :
    Embodies ⟨p.registered.insert fd interest, width⟩
      ⟨t.registered.insert fd.toInt interest, width'⟩ := by
  refine ⟨fun other found => ?_, hwidth⟩
  simp only [Std.TreeMap.getElem?_insert, Std.compare_eq_iff_eq]
  exact he.entries_update fd (some interest) other found

theorem erase
    (he : Embodies p t) (fd : Int32) {width : Int32} {width' : Int}
    (hwidth : width.toInt = width') :
    Embodies ⟨p.registered.erase fd, width⟩ ⟨t.registered.erase fd.toInt, width'⟩ := by
  refine ⟨fun other found => ?_, hwidth⟩
  simp only [Std.TreeMap.getElem?_erase, Std.compare_eq_iff_eq]
  exact he.entries_update fd none other found

/-- The masks of a wait are filled with the interests of what is registered. -/
theorem exists_masks
    (he : Embodies p t) (hr : t.Represents L) :
    ∃ masks, p.masks = .ok masks ∧
      ∀ fd a, (masks.mask a).test fd = true ↔ L.Wants fd a := by
  have hrange : ∀ entry ∈ p.registered.toList, SelectSets.Representable entry.1.toInt := by
    rintro ⟨fd, interest⟩ hentry
    refine he.representable hr ?_
    rw [Std.TreeMap.mem_toList_iff_getElem?_eq_some] at hentry
    rw [Std.TreeMap.mem_iff_isSome_getElem?, hentry]
    rfl
  obtain ⟨masks, hmasks, htest⟩ := fill_spec hrange {}
  refine ⟨masks, hmasks, fun fd a => ?_⟩
  have hempty : (({} : FdMasks).mask a).test fd = false := by
    cases a <;> exact FdMask.test_empty fd
  rw [htest, hempty]
  constructor
  · rintro (hfalse | ⟨⟨word, interest⟩, hentry, rfl, hwants⟩)
    · cases hfalse
    · rw [Std.TreeMap.mem_toList_iff_getElem?_eq_some, ← he.getElem?_eq, hr.registered] at hentry
      exact ⟨interest, hentry, hwants⟩
  · rintro ⟨interest, hlookup, hwants⟩
    rw [← hr.registered, he.entries] at hlookup
    obtain ⟨word, hword, hget⟩ := hlookup
    exact .inr ⟨(word, interest), Std.TreeMap.mem_toList_iff_getElem?_eq_some.2 hget, hword,
      hwants⟩

/-- Below the width, the host sees every bit that is set. -/
theorem below_eq
    (he : Embodies p t) (hr : t.Represents L) {masks : FdMasks}
    (htest : ∀ fd a, (masks.mask a).test fd = true ↔ L.Wants fd a) :
    masks.below p.width = t.sets := by
  have hasks := hr.asks
  have hwatching : ∀ a, (t.watching a).Pairwise (· < ·) := by
    intro a
    refine hasks.ascending _ ?_
    cases a <;> simp [SelectTable.sets]
  have hset : ∀ a, (masks.mask a).below p.width = t.watching a := by
    intro a
    refine (FdMask.ascending_below _ _).eq_of_mem_iff (hwatching a) fun fd => ?_
    have hmem : fd ∈ t.watching a ↔ L.Wants fd a := by
      rw [← hasks.sets, ← List.contains_iff_mem]
      cases a <;> rfl
    rw [FdMask.mem_below, htest, hmem, he.width]
    refine and_iff_left_of_imp fun hwants => ?_
    exact (hasks.below fd a ((hasks.sets fd a).2 hwants)).2
  exact congr (congr (congrArg SelectSets.mk (hset .recv)) (hset .send)) (hset .error)

theorem collect_keys
    (he : Embodies p t) (hr : t.Represents L) (reported : SelectSets) :
    collect (.ofSets reported) p.registered.keys = .ok (t.events reported) := by
  rw [collect_eq _ fun fd hfd => he.representable hr (Std.TreeMap.mem_keys.1 hfd), ← he.keys_eq,
    SelectTable.events]
  refine congrArg _ (List.filterMap_congr fun fd hfd => ?_)
  have hfd' := hr.range fd (hr.mem_iff.1 (Std.TreeMap.mem_keys.1 hfd))
  rw [FdMasks.tests_ofSets reported hfd']

/-- Masks without a bit report no event. -/
theorem events_of_isEmpty
    (hr : t.Represents L) {reported : SelectSets}
    (hempty : (FdMasks.ofSets reported).isEmpty = true) :
    t.events reported = [] := by
  refine List.eq_nil_iff_forall_not_mem.2 fun event hevent => ?_
  obtain ⟨hfd, hready, hne⟩ := SelectTable.mem_events.1 hevent
  rw [hready, ← FdMasks.tests_ofSets reported (hr.range _ (hr.mem_iff.1 hfd)),
    FdMasks.tests_of_isEmpty hempty event.fd] at hne
  cases hne

theorem wait_eq
    (he : Embodies p t) (hr : t.Represents L) (h : Host) (timeout : Option Nat) :
    p.wait h timeout = .ok (t.wait h timeout) := by
  obtain ⟨masks, hmasks, htest⟩ := he.exists_masks hr
  unfold wait SelectTable.wait
  simp only [hmasks, SelectDefect.ok_bind, Host.selectMasks, he.width, he.below_eq hr htest]
  rcases h.select (timeout.map Time.cappedMicros) t.width t.sets with ⟨cause | reported, h'⟩
  · rfl
  · -- Where no bit is set, the descriptors are not gone through at all.
    dsimp only
    split
    next hempty =>
        rw [events_of_isEmpty hr hempty]
        rfl
    next =>
        rw [he.collect_keys hr]
        rfl

end Embodies

/-- The call on the words goes well, gives the answer that the table gives, and keeps the
two together. -/
def Agrees (p : NativeSelect) (t : SelectTable) (call : SelectCall Int32) : Prop :=
  ∃ p', p.perform call = .ok ((t.perform (call.map Int32.toInt)).1, p') ∧
    Embodies p' (t.perform (call.map Int32.toInt)).2

theorem agrees_register
    (he : Embodies p t) (fd : Int32) (interest : Interest) :
    Agrees p t (.register fd interest) := by
  unfold Agrees
  rw [SelectCall.map, perform, SelectTable.perform, register]
  by_cases hfd : SelectSets.Representable fd.toInt
  · obtain ⟨next, hnext, hvalue⟩ := after_eq hfd
    rw [if_neg fun hle => (limit_le_unsigned_iff fd).1 hle hfd, t.register_eq_ok hfd]
    simp only [hnext, SelectDefect.ok_bind, SelectDefect.pure_eq]
    refine ⟨_, rfl, he.insert fd interest ?_⟩
    rw [toInt_max, hvalue, he.width]
  · rw [if_pos ((limit_le_unsigned_iff fd).2 hfd), t.register_eq_error hfd]
    exact ⟨p, rfl, he⟩

theorem agrees_modify
    (he : Embodies p t) (fd : Int32) (interest : Interest) :
    Agrees p t (.modify fd interest) := by
  unfold Agrees
  rw [SelectCall.map, perform, SelectTable.perform, modify, SelectTable.modify, he.contains_eq,
    Std.TreeMap.contains_eq_isSome_getElem?]
  cases p.registered[fd]? with
  | none =>
      exact ⟨p, rfl, he⟩
  | some _ =>
      exact ⟨_, rfl, he.insert fd interest he.width⟩

theorem refreshWidth_spec
    (he : Embodies p t) (hrange : ∀ fd ∈ p.registered, SelectSets.Representable fd.toInt) :
    ∃ p', p.refreshWidth = .ok p' ∧
      Embodies p' { t with width := SelectTable.leastWidth t.registered } := by
  rw [refreshWidth, SelectTable.leastWidth, he.maxKey?_eq]
  cases hmax : p.registered.maxKey? with
  | none =>
      exact ⟨_, rfl, he.entries, rfl⟩
  | some greatest =>
      obtain ⟨hmem, -⟩ := Std.TreeMap.maxKey?_eq_some_iff_mem_and_forall.1 hmax
      obtain ⟨next, hnext, hvalue⟩ := after_eq (hrange greatest hmem)
      refine ⟨{ p with width := next }, ?_, he.entries, hvalue⟩
      simp only [hnext, SelectDefect.ok_bind, SelectDefect.pure_eq]

theorem agrees_unregister
    (he : Embodies p t) (hr : t.Represents L) (fd : Int32) :
    Agrees p t (.unregister fd) := by
  unfold Agrees
  rw [SelectCall.map, perform, SelectTable.perform, unregister, SelectTable.unregister,
    he.contains_eq]
  cases hcontains : p.registered.contains fd with
  | false =>
      exact ⟨p, rfl, he⟩
  | true =>
      have hrange : ∀ other ∈ p.registered, SelectSets.Representable other.toInt :=
        fun other hother => he.representable hr hother
      obtain ⟨next, hnext, hvalue⟩ := after_eq (hrange fd (Std.TreeMap.contains_iff_mem.1 hcontains))
      have hreaches : next = p.width ↔ fd.toInt + 1 = t.width := by
        rw [← Int32.toInt_inj, hvalue, he.width]
      have he' := he.erase fd he.width
      simp only [hnext, SelectDefect.ok_bind, SelectDefect.pure_eq, if_true, hreaches]
      split
      next =>
          obtain ⟨p', hrefresh, he''⟩ := refreshWidth_spec he' fun other hother =>
            hrange other (Std.TreeMap.mem_of_mem_erase hother)
          refine ⟨p', ?_, he''⟩
          simp only [hrefresh, SelectDefect.ok_bind]
      next =>
          exact ⟨_, rfl, he'⟩

theorem agrees_wait
    (he : Embodies p t) (hr : t.Represents L) (h : Host) (timeout : Option Nat) :
    Agrees p t (.wait h timeout) := by
  refine ⟨p, ?_, he⟩
  rw [perform, he.wait_eq hr]
  rfl

/-- Every call goes well and gives the answer that the table gives. -/
theorem agrees
    (he : Embodies p t) (hr : t.Represents L) (call : SelectCall Int32) :
    Agrees p t call := by
  cases call with
  | register fd interest =>
      exact agrees_register he fd interest
  | modify fd interest =>
      exact agrees_modify he fd interest
  | unregister fd =>
      exact agrees_unregister he hr fd
  | wait h timeout =>
      exact agrees_wait he hr h timeout

/-- Who is refused a registration finds everything as it was. -/
theorem eq_of_register_error
    {p p' : NativeSelect} {fd : Int32} {interest : Interest} {cause : Errno}
    (h : p.register fd interest = .ok (.error cause, p')) :
    p' = p := by
  unfold register at h
  split at h
  next =>
      cases h
      rfl
  next =>
      obtain ⟨next, -, hnext⟩ := SelectDefect.bind_eq_ok.1 h
      cases hnext

/-- A removal is never refused. -/
theorem eq_ok_of_unregister
    {p p' : NativeSelect} {fd : Int32} {result : Except Errno Unit}
    (h : p.unregister fd = .ok (result, p')) :
    result = .ok () := by
  unfold unregister at h
  split at h
  next =>
      obtain ⟨next, -, hnext⟩ := SelectDefect.bind_eq_ok.1 h
      dsimp only at hnext
      split at hnext
      next =>
          obtain ⟨q, -, hrefresh⟩ := SelectDefect.bind_eq_ok.1 hnext
          cases hrefresh
          rfl
      next =>
          cases hnext
          rfl
  next =>
      cases h
      rfl

/-- A call that returns an error changes nothing. -/
theorem eq_of_isError
    {p p' : NativeSelect} {call : SelectCall Int32} {answer : SelectAnswer}
    (h : p.perform call = .ok (answer, p')) (herror : answer.isError = true) :
    p' = p := by
  cases call with
  | register fd interest =>
      obtain ⟨⟨result, q⟩, hregister, hresult⟩ := SelectDefect.bind_eq_ok.1 h
      cases hresult
      cases result with
      | ok _ =>
          cases herror
      | error cause =>
          exact eq_of_register_error hregister
  | modify fd interest =>
      cases h
      unfold modify at herror ⊢
      cases hfd : p.registered[fd]? with
      | some _ =>
          rw [hfd] at herror
          cases herror
      | none =>
          rfl
  | unregister fd =>
      obtain ⟨⟨result, q⟩, hunregister, hresult⟩ := SelectDefect.bind_eq_ok.1 h
      cases hresult
      rw [eq_ok_of_unregister hunregister] at herror
      cases herror
  | wait host timeout =>
      obtain ⟨result, -, hresult⟩ := SelectDefect.bind_eq_ok.1 h
      cases hresult
      rfl

/-- The table's own run is followed call by call. -/
theorem run_embodies
    (calls : List (SelectCall Int32)) {p : NativeSelect} {t : SelectTable} {L : SelectLedger}
    (he : Embodies p t) (hr : t.Represents L) :
    ∃ p', run calls p =
        .ok ((SelectTable.run (calls.map (SelectCall.map Int32.toInt)) t).1, p') ∧
      Embodies p' (SelectTable.run (calls.map (SelectCall.map Int32.toInt)) t).2 := by
  induction calls generalizing p t L with
  | nil =>
      exact ⟨p, rfl, he⟩
  | cons call calls ih =>
      obtain ⟨L', -, hr'⟩ := SelectTable.perform_step hr (call.map Int32.toInt)
      obtain ⟨p₁, hperform, he₁⟩ := agrees he hr call
      obtain ⟨p₂, hrun, he₂⟩ := ih he₁ hr'
      refine ⟨p₂, ?_, he₂⟩
      simp only [run, hperform, SelectDefect.ok_bind, hrun, SelectDefect.pure_eq]
      rfl

theorem embodies_empty :
    Embodies {} {} where
  entries fd interest := by
    simp
  width := rfl

/-- The backend covers what is registered. -/
structure Covers (p : NativeSelect) (L : SelectLedger) : Prop where
  registered : ∀ fd : Int32, p.registered[fd]? = L.lookup fd.toInt
  range : ∀ fd ∈ L, 0 ≤ fd ∧ fd < (SelectSets.limit : Int)
  width : L.Width p.width.toInt
  /-- Bits of wanted descriptors are set in the masks of a wait, no others, and all of
  them are below the width. -/
  masks : ∃ masks, p.masks = .ok masks ∧
    (∀ fd a, (masks.mask a).test fd = true ↔ L.Wants fd a) ∧
    ∀ fd a, (masks.mask a).test fd = true → fd < p.width.toInt
  errors : ∀ call answer p', p.perform call = .ok (answer, p') → answer.isError = true → p' = p

theorem Embodies.covers
    (he : Embodies p t) (hr : t.Represents L) :
    Covers p L := by
  obtain ⟨masks, hmasks, htest⟩ := he.exists_masks hr
  refine ⟨fun fd => ?_, hr.range, he.width ▸ hr.width, ⟨masks, hmasks, htest, fun fd a ha => ?_⟩,
    fun _ _ _ => eq_of_isError⟩
  · rw [← he.getElem?_eq, hr.registered]
  · rw [he.width]
    exact (hr.asks.below fd a ((hr.asks.sets fd a).2 ((htest fd a).1 ha))).2

/-- Whatever is asked of a backend that was empty at first, with whatever descriptors, it
goes well: no word is counted past the greatest and no bit outside a mask is touched.  The
answers are those of a finite map from descriptors to interests, which gives every wait
the sets to pass to the host and the events to return, and in the end the backend covers
what is registered. -/
theorem run_covers_registered
    (calls : List (SelectCall Int32)) :
    ∃ (p : NativeSelect) (L : SelectLedger) (answers : List SelectAnswer),
      run calls {} = .ok (answers, p) ∧
      (SelectTable.run (calls.map (SelectCall.map Int32.toInt)) {}).1 = answers ∧
      SelectLedger.Run ∅ (calls.map (SelectCall.map Int32.toInt)) answers L ∧
      Covers p L := by
  obtain ⟨L, hrun, hr⟩ := SelectTable.run_represents (calls.map (SelectCall.map Int32.toInt))
    SelectTable.represents_empty
  obtain ⟨p, hwords, he⟩ := run_embodies calls embodies_empty SelectTable.represents_empty
  exact ⟨p, L, _, hwords, rfl, hrun, he.covers hr⟩

/-- The width goes down with the greatest descriptor, and refused calls leave it. -/
example :
    (run [.register 3 {}, .register 9 {}, .unregister 9, .register (-1) {}, .modify 9 {}]
      {}).map (fun r => r.2.width) = .ok 4 := by
  cbv

end NativeSelect
end CallbackLoop
