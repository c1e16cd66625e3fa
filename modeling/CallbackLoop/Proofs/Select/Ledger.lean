import CallbackLoop.Proofs.Arena.Ledger
import CallbackLoop.Proofs.Poll
import CallbackLoop.Proofs.Select
import Mathlib.Order.Bounds.Basic

/-!
# What the users of a select table see

The users of a select table see a ledger: the descriptors that are registered, each with
its interest.  A `SelectLedger.Step` says what a call may answer and what becomes of the
ledger.  A call that is refused leaves the ledger as it is, and so does a wait.  What a
wait passes to the host and what it makes of the host's report is settled by the ledger.

A select table represents its ledger after every call (`run_represents`).
-/

namespace CallbackLoop

/-- One operation on a select backend whose descriptors are numbers of type `N`.  A wait
meets the host in whatever state it is by then. -/
inductive SelectCall (N : Type) where
  | register (fd : N) (interest : Interest)
  | modify (fd : N) (interest : Interest)
  | unregister (fd : N)
  | wait (h : Host) (timeout : Option Nat)

/-- The same operation on other numbers. -/
def SelectCall.map {N M : Type} (f : N → M) : SelectCall N → SelectCall M
  | .register fd interest => .register (f fd) interest
  | .modify fd interest => .modify (f fd) interest
  | .unregister fd => .unregister (f fd)
  | .wait h timeout => .wait h timeout

/-- The answer to an operation. -/
inductive SelectAnswer where
  | changed (result : Except Errno Unit)
  /-- What a wait came to, and the host after it. -/
  | waited (result : Except Errno (List Event)) (h : Host)

/-- Whether the operation returned an error. -/
def SelectAnswer.isError : SelectAnswer → Bool
  | changed (.error _) | waited (.error _) _ => true
  | _ => false

namespace SelectTable

/-- Performs one operation. -/
def perform (t : SelectTable) :
    SelectCall Int → SelectAnswer × SelectTable
  | .register fd interest =>
      match t.register fd interest with
      | .ok t' => (.changed (.ok ()), t')
      | .error cause => (.changed (.error cause), t)
  | .modify fd interest =>
      match t.modify fd interest with
      | .ok t' => (.changed (.ok ()), t')
      | .error cause => (.changed (.error cause), t)
  | .unregister fd => (.changed (.ok ()), t.unregister fd)
  | .wait h timeout => (.waited (t.wait h timeout).1 (t.wait h timeout).2, t)

/-- Performs operations one after the other and returns their answers. -/
def run :
    List (SelectCall Int) → SelectTable → List SelectAnswer × SelectTable
  | [], t => ([], t)
  | call :: calls, t =>
      ((t.perform call).1 :: (run calls (t.perform call).2).1,
        (run calls (t.perform call).2).2)

end SelectTable

/-- The host can represent the descriptor. -/
def SelectSets.Representable (fd : Int) : Prop :=
  0 ≤ fd ∧ fd < (limit : Int)

/-- The registered descriptors with their interests. -/
abbrev SelectLedger : Type :=
  Finmap fun _ : Int => Interest

namespace SelectLedger

/-- One more than the greatest registered descriptor, or 0 if there is none. -/
inductive Width (L : SelectLedger) :
    Int → Prop
  | none :
      (∀ fd, fd ∉ L) →
      Width L 0
  | greatest {fd : Int} :
      IsGreatest {other | other ∈ L} fd →
      Width L (fd + 1)

theorem Width.lt
    {L : SelectLedger} {width fd : Int} (h : L.Width width) (hfd : fd ∈ L) :
    fd < width := by
  cases h with
  | none hnone =>
      exact absurd hfd (hnone fd)
  | greatest hgreatest =>
      exact Int.lt_add_one_of_le (hgreatest.2 hfd)

/-- The descriptor is registered with an interest that names the direction. -/
def Wants (L : SelectLedger) (fd : Int) (a : Direction) : Prop :=
  ∃ interest, L.lookup fd = some interest ∧ interest.directions.contains a = true

/-- What a wait passes to the host. -/
structure Asks (L : SelectLedger) (width : Int) (asked : SelectSets) : Prop where
  least : L.Width width
  sets : ∀ fd a, (asked.directions fd).contains a = true ↔ L.Wants fd a
  below : ∀ fd a, (asked.directions fd).contains a = true → 0 ≤ fd ∧ fd < width
  ascending : ∀ set ∈ [asked.read, asked.write, asked.except], set.Pairwise (· < ·)

/-- What a wait makes of the host's report. -/
structure Reports (L : SelectLedger) (reported : SelectSets) (events : List Event) :
    Prop where
  mem : ∀ event, event ∈ events ↔
    event.fd ∈ L ∧ event.ready = reported.directions event.fd ∧ event.ready ≠ ∅
  ascending : events.Pairwise (·.fd < ·.fd)

/-- What a wait comes to after the host's answer. -/
inductive Tells (L : SelectLedger) :
    Except Errno SelectSets → Except Errno (List Event) → Prop
  | reported {reported : SelectSets} {events : List Event} :
      L.Reports reported events →
      Tells L (.ok reported) (.ok events)
  | interrupted :
      Tells L (.error .interrupted) (.ok [])
  | failed {cause : Errno} :
      cause ≠ .interrupted →
      Tells L (.error cause) (.error cause)

/-- What a call may answer, and what becomes of the ledger. -/
inductive Step (L : SelectLedger) :
    SelectCall Int → SelectAnswer → SelectLedger → Prop
  | register {fd : Int} {interest : Interest} :
      SelectSets.Representable fd →
      Step L (.register fd interest) (.changed (.ok ())) (L.insert fd interest)
  | outOfRange {fd : Int} {interest : Interest} :
      ¬SelectSets.Representable fd →
      Step L (.register fd interest) (.changed (.error .invalidArgument)) L
  | modify {fd : Int} {interest : Interest} :
      fd ∈ L →
      Step L (.modify fd interest) (.changed (.ok ())) (L.insert fd interest)
  | unknown {fd : Int} {interest : Interest} :
      fd ∉ L →
      Step L (.modify fd interest) (.changed (.error .notFound)) L
  | unregister {fd : Int} :
      Step L (.unregister fd) (.changed (.ok ())) (L.erase fd)
  | wait {h h' : Host} {timeout : Option Nat} {width : Int} {asked : SelectSets}
      {answer : Except Errno SelectSets} {result : Except Errno (List Event)} :
      L.Asks width asked →
      h.select (timeout.map Time.cappedMicros) width asked = (answer, h') →
      L.Tells answer result →
      Step L (.wait h timeout) (.waited result h') L

/-- Steps one after the other. -/
inductive Run :
    SelectLedger → List (SelectCall Int) → List SelectAnswer → SelectLedger → Prop
  | nil {L : SelectLedger} :
      Run L [] [] L
  | cons {L L' L'' : SelectLedger} {call : SelectCall Int} {answer : SelectAnswer}
      {calls : List (SelectCall Int)} {answers : List SelectAnswer} :
      Step L call answer L' →
      Run L' calls answers L'' →
      Run L (call :: calls) (answer :: answers) L''

end SelectLedger

namespace SelectTable

theorem register_eq_ok
    (t : SelectTable) {fd : Int} (hfd : SelectSets.Representable fd) (interest : Interest) :
    t.register fd interest =
      .ok ⟨t.registered.insert fd interest, max t.width (fd + 1)⟩ := by
  refine if_neg ?_
  simp [hfd.1, hfd.2]

theorem register_eq_error
    (t : SelectTable) {fd : Int} (hfd : ¬SelectSets.Representable fd) (interest : Interest) :
    t.register fd interest = .error .invalidArgument := by
  refine if_pos ?_
  rw [Bool.or_eq_true, decide_eq_true_eq, decide_eq_true_eq]
  rw [SelectSets.Representable] at hfd
  omega

/-- The table holds the entries of the ledger, and its width is the least one that covers
them. -/
structure Represents (t : SelectTable) (L : SelectLedger) : Prop where
  registered : ∀ fd : Int, t.registered[fd]? = L.lookup fd
  tight : t.Tight
  range : ∀ fd ∈ L, SelectSets.Representable fd

variable {t : SelectTable} {L : SelectLedger}

namespace Represents

theorem mem_iff
    (hr : Represents t L) {fd : Int} :
    fd ∈ t.registered ↔ fd ∈ L := by
  rw [Std.TreeMap.mem_iff_isSome_getElem?, hr.registered, Finmap.lookup_isSome]

theorem contains_iff
    (hr : Represents t L) {fd : Int} :
    t.registered.contains fd = true ↔ fd ∈ L :=
  Std.TreeMap.contains_iff_mem.trans hr.mem_iff

theorem width
    (hr : Represents t L) :
    L.Width t.width := by
  rw [hr.tight]
  cases hmax : t.registered.maxKey? with
  | none =>
      rw [leastWidth, hmax]
      refine .none fun fd hfd => ?_
      have hmem := hr.mem_iff.2 hfd
      rw [Std.TreeMap.maxKey?_eq_none_iff] at hmax
      exact Std.TreeMap.not_mem_of_isEmpty hmax hmem
  | some greatest =>
      rw [leastWidth_of_maxKey? hmax]
      obtain ⟨hmem, hle⟩ := Std.TreeMap.maxKey?_eq_some_iff_mem_and_forall.1 hmax
      refine .greatest ⟨hr.mem_iff.1 hmem, fun fd hfd => ?_⟩
      exact Int.isLE_compare.1 (hle fd (hr.mem_iff.2 hfd))

/-- A wait asks for what is registered, and the width covers that. -/
theorem asks
    (hr : Represents t L) :
    L.Asks t.width t.sets := by
  have hsets : ∀ fd a, (t.sets.directions fd).contains a = true ↔ L.Wants fd a := by
    intro fd a
    rw [contains_sets, hr.registered]
    rfl
  have hascending : ∀ a, (t.watching a).Pairwise (· < ·) := by
    intro a
    refine List.Pairwise.map _ (fun _ _ hlt => hlt)
      (List.Pairwise.filter _ (Std.TreeMap.ordered_keys_toList.imp ?_))
    exact fun hlt => compare_lt_iff_lt.1 hlt
  refine ⟨hr.width, hsets, fun fd a ha => ?_, ?_⟩
  · obtain ⟨interest, hfd, -⟩ := (hsets fd a).1 ha
    have hmem : fd ∈ L := Finmap.lookup_isSome.1 (by rw [hfd]; rfl)
    exact ⟨(hr.range fd hmem).1, hr.width.lt hmem⟩
  · simp only [List.forall_mem_cons]
    exact ⟨hascending .recv, hascending .send, hascending .error, List.forall_mem_nil _⟩

/-- The events are those of the registered descriptors that the host reports. -/
theorem reports
    (hr : Represents t L) (reported : SelectSets) :
    L.Reports reported (t.events reported) := by
  refine ⟨fun event => ?_, ascending_events t reported⟩
  rw [mem_events, hr.mem_iff, Ne, ← Directions.isEmpty_iff, Bool.not_eq_true]

theorem insert
    (hr : Represents t L) {fd : Int} (hfd : SelectSets.Representable fd) (interest : Interest)
    {t' : SelectTable} (hinsert : t'.registered = t.registered.insert fd interest)
    (htight : t'.Tight) :
    Represents t' (L.insert fd interest) := by
  refine ⟨fun other => ?_, htight, fun other hother => ?_⟩
  · rw [hinsert, Backend.registered_insert hr.registered, Function.update_apply,
      lookup_insert_eq]
    simp only [eq_comm]
  · rcases Finmap.mem_insert.1 hother with rfl | hother
    · exact hfd
    · exact hr.range other hother

end Represents

/-- What a call answers, and what it leaves behind, is a step of the ledger. -/
def Steps (t : SelectTable) (L : SelectLedger) (call : SelectCall Int) : Prop :=
  ∃ L', L.Step call (t.perform call).1 L' ∧ Represents (t.perform call).2 L'

theorem steps_register
    (hr : Represents t L) (fd : Int) (interest : Interest) :
    Steps t L (.register fd interest) := by
  unfold Steps
  rw [perform]
  by_cases hfd : SelectSets.Representable fd
  · have hregister := t.register_eq_ok hfd interest
    rw [hregister]
    exact ⟨_, .register hfd, hr.insert hfd interest rfl (hr.tight.register hregister)⟩
  · rw [t.register_eq_error hfd interest]
    exact ⟨L, .outOfRange hfd, hr⟩

theorem steps_modify
    (hr : Represents t L) (fd : Int) (interest : Interest) :
    Steps t L (.modify fd interest) := by
  unfold Steps
  rw [perform]
  by_cases hfd : fd ∈ L
  · have hmodify : t.modify fd interest =
        .ok { t with registered := t.registered.insert fd interest } :=
      if_pos (hr.contains_iff.2 hfd)
    rw [hmodify]
    exact ⟨_, .modify hfd, hr.insert (hr.range fd hfd) interest rfl (hr.tight.modify hmodify)⟩
  · have hmodify : t.modify fd interest = .error .notFound :=
      if_neg fun hcontains => hfd (hr.contains_iff.1 hcontains)
    rw [hmodify]
    exact ⟨L, .unknown hfd, hr⟩

theorem steps_unregister
    (hr : Represents t L) (fd : Int) :
    Steps t L (.unregister fd) := by
  refine ⟨L.erase fd, .unregister, fun other => ?_, hr.tight.unregister fd, fun other hother => ?_⟩
  · rw [perform, Backend.registered_unregister hr.registered, Function.update_apply,
      lookup_erase_eq]
    simp only [eq_comm]
  · exact hr.range other (Finmap.mem_erase.1 hother).2

theorem steps_wait
    (hr : Represents t L) (h : Host) (timeout : Option Nat) :
    Steps t L (.wait h timeout) := by
  unfold Steps
  rw [perform, wait]
  rcases hselect : h.select (timeout.map Time.cappedMicros) t.width t.sets with
    ⟨cause | reported, h'⟩
  · refine ⟨L, .wait hr.asks hselect ?_, hr⟩
    dsimp only
    split
    next heq =>
        exact heq ▸ .interrupted
    next hne =>
        exact .failed hne
  · exact ⟨L, .wait hr.asks hselect (.reported (hr.reports reported)), hr⟩

/-- Every call is a step of the ledger that the table represents. -/
theorem perform_step
    (hr : Represents t L) (call : SelectCall Int) :
    Steps t L call := by
  cases call with
  | register fd interest =>
      exact steps_register hr fd interest
  | modify fd interest =>
      exact steps_modify hr fd interest
  | unregister fd =>
      exact steps_unregister hr fd
  | wait h timeout =>
      exact steps_wait hr h timeout

/-- The calls on a table are a run of its ledger. -/
theorem run_represents
    (calls : List (SelectCall Int)) {t : SelectTable} {L : SelectLedger} (hr : Represents t L) :
    ∃ L', SelectLedger.Run L calls (run calls t).1 L' ∧ Represents (run calls t).2 L' := by
  induction calls generalizing t L with
  | nil =>
      exact ⟨L, .nil, hr⟩
  | cons call calls ih =>
      obtain ⟨L', hstep, hr'⟩ := perform_step hr call
      obtain ⟨L'', hrun, hr''⟩ := ih hr'
      exact ⟨L'', .cons hstep hrun, hr''⟩

theorem represents_empty :
    Represents {} ∅ where
  registered fd := by
    rw [Finmap.lookup_empty]
    exact Std.TreeMap.getElem?_emptyc
  tight := tight_empty
  range fd hfd := absurd hfd Finmap.notMem_empty

end SelectTable
end CallbackLoop
