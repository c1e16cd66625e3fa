import CallbackLoop.Proofs.Loop.Course
import CallbackLoop.Proofs.Loop.Freshness
import CallbackLoop.Proofs.Loop.Listening

/-!
# Oneshot directions are independent

The kernel knows of one oneshot bit for the whole entry of a descriptor, and a report
disarms all of it.  The loop keeps one bit for every direction: the reaction to a oneshot
direction uses up the binding of that direction and no other, and by the next wait the
entry asks again for whatever is still bound.

An entry that is found disarmed at a wait is that of a descriptor to which no reaction
started since the wait before.
-/

namespace CallbackLoop

variable {H : Type}

/-- Whether a move binds a direction of a descriptor. -/
def Act.binds (act : Act H) (fd : Int) (a : Direction) : Bool :=
  match act with
  | .request (.setFd other flags _ _) .done => other = fd && flags.directions.contains a
  | _ => false

/-- Nothing is bound to a direction that is withdrawn but not bound anew, or that had no
binding and gets none. -/
theorem Act.rebound_bind_eq_none
    {act : Act H} {fd : Int} {a : Direction} (hbinds : act.binds fd a = false)
    {b? : Option (Bindings (Reaction H))}
    (h : act.withdraws fd a = true ∨ b?.bind (· a) = none) :
    (act.rebound fd b?).bind (· a) = none := by
  unfold Act.rebound
  split
  next other flags _ handler =>
      by_cases hne : other = fd
      · subst hne
        simp only [Act.binds, decide_true, Bool.true_and] at hbinds
        rw [if_neg (not_not_intro rfl)]
        by_cases hflags : flags = .clear
        · rw [if_pos hflags]
          rfl
        · rw [if_neg hflags, Option.bind_some, Bindings.rebind, hbinds,
            if_neg Bool.false_ne_true]
          split
          next hkeeps =>
              have hnone : b?.bind (· a) = none := h.resolve_left (by
                simp [Act.withdraws, hflags, hbinds, hkeeps])
              cases b? with
              | none =>
                  rfl
              | some b =>
                  exact hnone
          next =>
              rfl
      · rw [if_pos hne]
        exact h.resolve_left (by simp [Act.withdraws, hne])
  next other _ =>
      by_cases hne : other = fd
      · rw [if_neg (not_not_intro hne)]
        rfl
      · rw [if_pos hne]
        exact h.resolve_left (by simp [Act.withdraws, hne])
  next other a' reaction =>
      have hnone := h.resolve_left Bool.false_ne_true
      split
      next =>
          exact hnone
      next =>
          cases b? with
          | none =>
              rfl
          | some b =>
              show b.spend a' a = none
              unfold Bindings.spend
              split
              · rw [Function.update_apply]
                split
                · rfl
                · exact hnone
              · exact hnone
  next hset hclear hfire =>
      refine h.resolve_left ?_
      rw [Bool.not_eq_true]
      unfold Act.withdraws
      split
      · exact absurd rfl (hclear _ _)
      · exact absurd rfl (hset _ _ _ _)
      · rfl

/-- A reaction to some direction of a descriptor started since the last wait. -/
def Stirred (log : List (Act H)) (fd : Int) : Prop :=
  ∃ before a reaction after, log = before ++ .fire fd a reaction :: after ∧
    ∀ events, .wait events ∉ after

theorem Stirred.of_append
    {log : List (Act H)} {act : Act H} {fd : Int} (h : Stirred (log ++ [act]) fd) :
    (∃ a reaction, act = .fire fd a reaction) ∨
      Stirred log fd ∧ ∀ events, act ≠ .wait events := by
  obtain ⟨before, a, reaction, after, heq, hwait⟩ := h
  rcases List.eq_nil_or_concat after with rfl | ⟨after, act', rfl⟩
  · obtain ⟨-, hlast⟩ := List.append_inj' heq rfl
    cases hlast
    exact .inl ⟨a, reaction, rfl⟩
  · rw [List.concat_eq_append, ← List.cons_append, ← List.append_assoc] at heq
    obtain ⟨rfl, hlast⟩ := List.append_inj' heq rfl
    cases hlast
    rw [List.concat_eq_append] at hwait
    refine .inr ⟨⟨before, a, reaction, after, rfl, fun events hin => ?_⟩, ?_⟩
    · exact hwait events (List.mem_append_left _ hin)
    · rintro events rfl
      exact hwait events (List.mem_append_right _ List.mem_cons_self)

/-- The table of the backend asks for an interest in a descriptor, and the kernel has not
disarmed the entry. -/
def Backend.Arms (b : Backend) (k : Kernel) (fd : Int) (interest : Interest) : Prop :=
  match b with
  | epoll e => k.row? e.number fd = some ⟨.ofInterest interest, false⟩
  | select t => t.registered[fd]? = some interest

namespace Machine

variable {m m' : Machine H} {A : Registry H} {fd : Int} {a : Direction} {act : Act H}
  {log : List (Act H)} {reaction : Reaction H} {binding : Binding (Reaction H)}

/-- What is bound to a direction of a descriptor. -/
def binding? (m : Machine H) (fd : Int) (a : Direction) : Option (Binding (Reaction H)) :=
  (m.loop.table.bindings? fd).bind (· a)

/-- A descriptor's interest names the directions that are bound. -/
theorem contains_of_interest?
    {s : Directions} (h : m.loop.interest? fd = some s) (a : Direction) :
    s.contains a = (m.binding? fd a).isSome := by
  rw [interest?_eq, Option.map_eq_some_iff] at h
  obtain ⟨b, hb, rfl⟩ := h
  rw [binding?, hb]
  cases a <;> rfl

theorem Represents.binds_iff
    (hr : m.Represents A) :
    A.Binds fd a binding ↔ m.binding? fd a = some binding := by
  rw [Registry.Binds, ← Option.bind_eq_some_iff, hr fd]
  rfl

theorem binding?_move
    (h : m.Sound) (hr : m.Represents A) (hmove : Move m act m') (fd : Int) (a : Direction) :
    m'.binding? fd a = (act.rebound fd (m.loop.table.bindings? fd)).bind (· a) := by
  obtain ⟨hr', -⟩ := represents_move h hr hmove
  rw [binding?, ← hr' fd, Registry.lookup_after, hr fd]

theorem binding?_of_kept
    (h : m.Sound) (hr : m.Represents A) (hmove : Move m act m')
    (hwithdraws : act.withdraws fd a = false) (hfire : ∀ reaction, act ≠ .fire fd a reaction) :
    m'.binding? fd a = m.binding? fd a := by
  rw [binding?_move h hr hmove, Act.rebound_bind_of_kept hwithdraws hfire]
  rfl

/-- The reaction that starts is the one that is bound, and a oneshot binding is then used
up. -/
theorem binding?_of_fire
    (h : m.Sound) (hr : m.Represents A) (hmove : Move m (.fire fd a reaction) m') :
    ∃ binding, m.binding? fd a = some binding ∧ binding.reaction = reaction ∧
      m'.binding? fd a = if binding.oneshot then none else some binding := by
  obtain ⟨b, binding, hlookup, hb, hreaction⟩ :=
    (represents_move h hr hmove).2 fd a reaction rfl
  rw [hr fd] at hlookup
  refine ⟨binding, by rw [binding?, hlookup, Option.bind_some, hb], hreaction, ?_⟩
  rw [binding?_move h hr hmove, hlookup, Act.rebound, if_neg (not_not_intro rfl),
    Option.map_some, Option.bind_some, Bindings.spend, hb, Option.any_some]
  split
  · exact Function.update_self _ _ _
  · exact hb

/-- A direction without a binding has none until it is bound, and no reaction to it
starts. -/
theorem Run.unbound
    (hrun : Run m log m') (h : m.Sound) (hr : m.Represents A) (hnone : m.binding? fd a = none)
    (hbinds : ∀ act ∈ log, act.binds fd a = false) :
    m'.binding? fd a = none ∧ ∀ reaction, .fire fd a reaction ∉ log := by
  induction hrun generalizing A with
  | nil =>
      exact ⟨hnone, fun _ => List.not_mem_nil⟩
  | @cons m m₁ m' act log hmove _ ih =>
      have hnone' : m₁.binding? fd a = none := by
        rw [binding?_move h hr hmove]
        exact Act.rebound_bind_eq_none (hbinds act List.mem_cons_self) (.inr hnone)
      obtain ⟨hlast, hout⟩ := ih (h.move hmove) (represents_move h hr hmove).1 hnone'
        fun act' hin => hbinds act' (List.mem_cons_of_mem act hin)
      refine ⟨hlast, fun reaction => List.not_mem_cons_of_ne_of_not_mem ?_ (hout reaction)⟩
      rintro rfl
      obtain ⟨binding, hbinding, -⟩ := binding?_of_fire h hr hmove
      cases hnone.symm.trans hbinding

/-- Until its direction is bound anew a oneshot binding runs its reaction once at most, and
is gone then. -/
theorem Run.oneshot
    (hrun : Run m log m') (h : m.Sound) (hr : m.Represents A)
    (hbinding : m.binding? fd a = some ⟨reaction, true⟩)
    (hbinds : ∀ act ∈ log, act.binds fd a = false) :
    (∀ other, .fire fd a other ∉ log) ∨
      FiresOnce log fd a reaction ∧ m'.binding? fd a = none := by
  induction hrun generalizing A with
  | nil =>
      exact .inl fun _ => List.not_mem_nil
  | @cons m m₁ m' act log hmove hrest ih =>
      have hsound := h.move hmove
      have hr' := (represents_move h hr hmove).1
      have hlater : ∀ act' ∈ log, act'.binds fd a = false := fun act' hin =>
        hbinds act' (List.mem_cons_of_mem act hin)
      by_cases hfires : ∃ other, act = .fire fd a other
      · obtain ⟨other, rfl⟩ := hfires
        obtain ⟨binding, hbinding', rfl, hspent⟩ := binding?_of_fire h hr hmove
        cases hbinding.symm.trans hbinding'
        obtain ⟨hlast, hout⟩ := hrest.unbound hsound hr' hspent hlater
        exact .inr ⟨⟨[], log, rfl, fun other => ⟨List.not_mem_nil, hout other⟩⟩, hlast⟩
      · have hfire : ∀ other, act ≠ .fire fd a other := fun other heq => hfires ⟨other, heq⟩
        have hcons : (∀ other, .fire fd a other ∉ log) →
            ∀ other, .fire fd a other ∉ act :: log := fun hout other =>
          List.not_mem_cons_of_ne_of_not_mem (hfire other).symm (hout other)
        cases hwithdraws : act.withdraws fd a with
        | true =>
            have hnone : m₁.binding? fd a = none := by
              rw [binding?_move h hr hmove]
              exact Act.rebound_bind_eq_none (hbinds act List.mem_cons_self) (.inl hwithdraws)
            exact .inl (hcons (hrest.unbound hsound hr' hnone hlater).2)
        | false =>
            have hsame := binding?_of_kept h hr hmove hwithdraws hfire
            rcases ih hsound hr' (hsame.trans hbinding) hlater with hout | ⟨honce, hlast⟩
            · exact .inl (hcons hout)
            · exact .inr ⟨honce.cons hfire, hlast⟩

/-- A binding stays as it is until its direction is withdrawn or a reaction to it starts. -/
theorem Run.binding?_eq
    (hrun : Run m log m') (h : m.Sound) (hr : m.Represents A)
    (hkept : ∀ act ∈ log, act.withdraws fd a = false ∧ ∀ reaction, act ≠ .fire fd a reaction) :
    m'.binding? fd a = m.binding? fd a := by
  induction hrun generalizing A with
  | nil =>
      rfl
  | @cons _ _ _ act log hmove _ ih =>
      obtain ⟨hwithdraws, hfire⟩ := hkept act List.mem_cons_self
      rw [ih (h.move hmove) (represents_move h hr hmove).1 fun act' hin =>
        hkept act' (List.mem_cons_of_mem act hin), binding?_of_kept h hr hmove hwithdraws hfire]

/-- A persistent binding outlasts its own reactions. -/
theorem Run.persists
    (hrun : Run m log m') (h : m.Sound) (hr : m.Represents A)
    (hbinding : m.binding? fd a = some ⟨reaction, false⟩)
    (hwithdraws : ∀ act ∈ log, act.withdraws fd a = false) :
    m'.binding? fd a = some ⟨reaction, false⟩ := by
  induction hrun generalizing A with
  | nil =>
      exact hbinding
  | @cons m m₁ _ act log hmove _ ih =>
      refine ih (h.move hmove) (represents_move h hr hmove).1 ?_ fun act' hin =>
        hwithdraws act' (List.mem_cons_of_mem act hin)
      by_cases hfires : ∃ other, act = .fire fd a other
      · obtain ⟨other, rfl⟩ := hfires
        obtain ⟨binding, hbinding', -, hspent⟩ := binding?_of_fire h hr hmove
        cases hbinding.symm.trans hbinding'
        exact hspent
      · rw [binding?_of_kept h hr hmove (hwithdraws act List.mem_cons_self) fun other heq =>
          hfires ⟨other, heq⟩, hbinding]

theorem binding?_of_setFd
    (h : m.Sound) (hr : m.Represents A) {flags : Flags} {timeout : FdTimeout} {handler : H}
    (hmove : Move m (.request (.setFd fd flags timeout handler) .done) m')
    (hnames : flags.directions.contains a = true) :
    m'.binding? fd a = some ⟨.call handler, flags.contains .oneshot⟩ :=
  (represents_move h hr hmove).1.binds_iff.1
    (Registry.binds_after_setFd A fd hnames timeout handler)

section Entries

variable {e : EpollInstance} {interest : Interest} {events : List Event}

/-- Nothing is queued or pending for a descriptor with a oneshot direction, and no reaction
to it started since the last wait. -/
structure Dormant (m : Machine H) (log : List (Act H)) (fd : Int) (interest : Interest) :
    Prop where
  oneshot : interest.oneshot ≠ ∅
  paid : ∀ a, m.Paid fd a
  not_stirred : ¬Stirred log fd

theorem Dormant.move
    (hdormant : m.Dormant log fd interest) (h : m.Sound) (hmove : Move m act m')
    (hwait : ∀ events, act ≠ .wait events) :
    m'.Dormant (log ++ [act]) fd interest where
  oneshot := hdormant.oneshot
  paid a := ((hdormant.paid a).move h hmove hwait).1
  not_stirred hstirred := by
    rcases hstirred.of_append with ⟨a, reaction, rfl⟩ | ⟨hold, -⟩
    · exact ((hdormant.paid a).move h hmove hwait).2 reaction rfl
    · exact hdormant.not_stirred hold

/-- The excuses while events are still to be queued: nothing was queued for a descriptor
with a oneshot direction. -/
def Unqueued (m : Machine H) (fd : Int) (interest : Interest) : Prop :=
  interest.oneshot ≠ ∅ ∧ ∀ a, ¬m.loop.table.Queued fd a

theorem attended_foldlM_of_unqueued
    (h : m.loop.table.Sound none) (hm : m.Attended e m.Unqueued)
    (hfold : events.foldlM enqueue m = .ok m') :
    m'.Attended e m'.Unqueued := by
  induction events generalizing m with
  | nil =>
      cases hfold
      exact hm
  | cons event events ih =>
      obtain ⟨m₁, henqueue, hrest⟩ := Except.bind_eq_ok_iff.1 hfold
      obtain ⟨k, b, t, hm₁, ht⟩ := enqueue_sound h henqueue
      have hsound : m₁.loop.table.Sound none := by
        rw [hm₁]
        exact ht
      refine ih hsound ?_ hrest
      refine attended_enqueue_of_excuse h hm henqueue (fun _ _ hexcused => hexcused.1) ?_ ?_
      · rintro fd interest hne ⟨honeshot, hout⟩
        refine ⟨honeshot, fun a hqueued => ?_⟩
        rcases queued_of_enqueue h henqueue hqueued with hold | ⟨heq, -⟩
        · exact hout a hold
        · exact hne heq.symm
      · rintro rfl fd interest hexcused -
        exact hexcused

/-- An entry that a wait leaves disarmed is that of a descriptor for which nothing is queued
afterwards. -/
theorem attended_of_wait
    (h : m.Sound) (hm : m.Attended e (m.Dormant log)) (hcloses : m.ClosesNone)
    (hmove : Move m (.wait events) m') :
    m'.Attended e (m'.Dormant (log ++ [.wait events])) := by
  obtain ⟨hc, host, m₁, hwait, hfold, rfl⟩ := wait_of_move hmove
  have htable : m.loop.table.Sound none := h.table_of_dispatching hc
  have hreported := attended_reported htable hm
    (fun fd hfd => bindings?_eq_none_of_interest? (hcloses hc fd hfd)) hwait
  have hunqueued : Attended { m with host } e (Unqueued { m with host }) := by
    refine hreported.mono fun fd interest hexcused =>
      ⟨hexcused.elim (·.1.oneshot) (·.1), ?_⟩
    rintro a ⟨clears, hqueued⟩
    exact not_owes_of_wait h hc ⟨clears, true, hqueued, .inl rfl⟩
  have hqueued := attended_foldlM_of_unqueued (m := { m with host }) htable hunqueued hfold
  refine ⟨hqueued.backend, (hqueued.mono ?_).table⟩
  rintro fd interest ⟨honeshot, hout⟩
  refine ⟨honeshot, fun a => ⟨hout a, fun _ hturn => nomatch hturn⟩, fun hstirred => ?_⟩
  rcases hstirred.of_append with ⟨_, _, heq⟩ | ⟨-, hne⟩
  · cases heq
  · exact hne events rfl

/-- An entry is disarmed only while its descriptor is dormant. -/
theorem Attended.move_dormant
    (h : m.Sound) (hm : m.Attended e (m.Dormant log)) (hmove : Move m act m')
    (hundisturbed : Undisturbed e m act m') :
    m'.Attended e (m'.Dormant (log ++ [act])) := by
  by_cases hwaits : ∃ events, act = .wait events
  · obtain ⟨events, rfl⟩ := hwaits
    exact attended_of_wait h hm hundisturbed hmove
  · have hwait : ∀ events, act ≠ .wait events := fun events heq => hwaits ⟨events, heq⟩
    exact (hm.move_of_ne_wait h hmove hundisturbed hwait).mono fun _ _ hdormant =>
      hdormant.move h hmove hwait

theorem Attended.row_of_held?
    {excuse : Int → Interest → Prop} {current : Option Nat}
    (hm : m.Attended e excuse) (h : m.loop.table.Sound current)
    (hheld : m.loop.table.held? fd = some interest) :
    ∃ disarmed, m.host.kernel.row? e.number fd = some ⟨.ofInterest interest, disarmed⟩ ∧
      (disarmed = true → excuse fd interest) := by
  obtain ⟨d, hfind, hd⟩ := Option.bind_eq_some_iff.1 hheld
  obtain ⟨i, hi, rfl⟩ := h.find?_eq_some_iff.1 hfind
  exact hm.table.row i d hi interest hd

/-- When a wait begins the loop has asked for exactly what is bound. -/
theorem Mirrored.held?_of_wait
    (hm : m.Mirrored) (h : m.Sound) (hc : m.control = .dispatching .wait)
    (hbound : m.binding? fd a ≠ none) :
    ∃ interest, m.loop.table.held? fd = some interest ∧
      ∀ c, interest.directions.contains c = (m.binding? fd c).isSome ∧
        interest.oneshot.contains c = (m.binding? fd c).any (·.oneshot) := by
  obtain ⟨binding, hbinding⟩ := Option.ne_none_iff_exists'.1 hbound
  obtain ⟨b, hb, ha⟩ := Option.bind_eq_some_iff.1 hbinding
  obtain ⟨d, hfind, -, rfl⟩ := DescriptorTable.bindings?_eq_some_iff.1 hb
  have htable : m.loop.table.Sound none := h.table_of_dispatching hc
  obtain ⟨i, hi, -⟩ := htable.find?_eq_some_iff.1 hfind
  have hregistered : d.registered ≠ ∅ := by
    intro hempty
    have hin := d.contains_registered a
    rw [ha, hempty, Directions.contains_empty] at hin
    cases hin
  have hheld : d.held = some ⟨d.registered, d.oneshots⟩ := by
    rw [hm.table.due i d hi (htable.busy_eq_false hi),
      Descriptor.due_of_ready_eq_empty (h.ready_of_wait hc hi), if_neg hregistered]
  refine ⟨_, by rw [DescriptorTable.held?, hfind, Option.bind_some, hheld], fun c => ?_⟩
  have hc : m.binding? fd c = d.binding? c := by
    rw [binding?, hb, Option.bind_some]
  rw [hc]
  exact ⟨d.contains_registered c, d.contains_oneshots c⟩

/-- The backend has been asked for exactly what is bound to a descriptor, and it has the
entry for that, armed. -/
def Listens (m : Machine H) (fd : Int) : Prop :=
  ∃ interest, m.loop.table.held? fd = some interest ∧
    (∀ c, interest.directions.contains c = (m.binding? fd c).isSome ∧
      interest.oneshot.contains c = (m.binding? fd c).any (·.oneshot)) ∧
    m.loop.backend.Arms m.host.kernel fd interest

/-- At a wait the backend listens to a descriptor unless the kernel has disarmed its
entry. -/
theorem Mirrored.listens_or
    {excuse : Int → Interest → Prop} (hm : m.Mirrored) (h : m.Sound)
    (hc : m.control = .dispatching .wait)
    (hattended : ∀ e, m.loop.backend = .epoll e → m.Attended e excuse)
    (hbound : m.binding? fd a ≠ none) :
    m.Listens fd ∨ ∃ interest, excuse fd interest ∧
      ∀ c, interest.directions.contains c = (m.binding? fd c).isSome ∧
        interest.oneshot.contains c = (m.binding? fd c).any (·.oneshot) := by
  obtain ⟨interest, hheld, hasks⟩ := hm.held?_of_wait h hc hbound
  have hholds := hm.table.holds
  by_cases hexcused : excuse fd interest
  · exact .inr ⟨interest, hexcused, hasks⟩
  · refine .inl ⟨interest, hheld, hasks, ?_⟩
    generalize hb : m.loop.backend = b at hholds
    cases b with
    | select t =>
        exact (hholds fd).trans hheld
    | epoll e =>
        have htable : m.loop.table.Sound none := h.table_of_dispatching hc
        obtain ⟨disarmed, hrow, hwhy⟩ := (hattended e hb).row_of_held? htable hheld
        cases disarmed with
        | true =>
            exact absurd (hwhy rfl) hexcused
        | false =>
            exact hrow

end Entries

theorem instance?_clearFd
    (hclear : m.clearFd fd = .ok m') :
    m'.loop.backend.instance? = m.loop.backend.instance? := by
  rcases clearFd_ok hclear with ⟨-, rfl⟩ | ⟨slot, d, b, k, -, -, hcall, rfl⟩
  · rfl
  · exact instance?_call hcall

theorem instance?_perform
    {r : Request H} {reply : Reply} (hperform : Performed m r reply m') :
    m'.loop.backend.instance? = m.loop.backend.instance? := by
  cases hperform with
  | cleared hclear | unset hclear =>
      exact instance?_clearFd hclear
  | refused _ | handled _ _ =>
      rfl
  | registered _ _ _ hreg =>
      obtain ⟨b, k, q, -, hcall, rfl⟩ := hreg.result
      have hsame := instance?_call hcall
      exact hsame
  | aside haside =>
      rw [haside.backend]

theorem instance?_settle
    {slot clears : Nat} {pending : Directions} (hsettle : m.settle slot clears pending = .ok m') :
    m'.loop.backend.instance? = m.loop.backend.instance? := by
  obtain ⟨d, -, ⟨-, rfl⟩ | ⟨-, b, k, hcall, rfl⟩⟩ := settle_ok hsettle
  · rfl
  · exact instance?_call hcall

theorem instance?_awaitEvents
    (hawait : m.awaitEvents = .ok m') :
    m'.loop.backend.instance? = m.loop.backend.instance? := by
  unfold awaitEvents at hawait
  split at hawait
  next =>
      cases hawait
  next events host _ =>
      refine Except.foldlM_induction
        (fun m₁ : Machine H => m₁.loop.backend.instance? = m.loop.backend.instance?) ?_ events
        (b := { m with host }) rfl hawait
      intro m₁ event m₂ hsame henqueue
      rcases enqueue_ok henqueue with ⟨rfl, -⟩ | ⟨slot, d, b, k, -, -, -, -, hcall, rfl⟩
      · exact hsame
      · exact (instance?_call hcall).trans hsame

theorem instance?_advance
    (h : m.Sound) {phase : Phase H} (hc : m.control = .dispatching phase)
    (hadvance : Advance m phase m') :
    m'.loop.backend.instance? = m.loop.backend.instance? := by
  cases hadvance with
  | quiet hquiet =>
      rw [hquiet.backend]
  | turn _ hmove =>
      cases hmove with
      | ended _ hsettle =>
          have hsame := instance?_settle hsettle
          exact hsame
      | unbound | called | delivered =>
          rfl
  | postponed =>
      obtain ⟨t, q, hfold, -⟩ := follows_postpone _ _ (h.table_of_dispatching hc)
      rw [hfold]
      rfl
  | begins =>
      rfl
  | expires _ _ _ _ hexpiry =>
      cases hexpiry <;> rfl
  | settles hsettle =>
      have hsame := instance?_settle hsettle
      exact hsame
  | waits hawait =>
      have hsame := instance?_awaitEvents hawait
      exact hsame

/-- A loop keeps the mechanism that it was built on, and its epoll instance. -/
theorem instance?_move
    (h : m.Sound) (hmove : Move m act m') :
    m'.loop.backend.instance? = m.loop.backend.instance? := by
  cases hmove with
  | request _ hperform =>
      exact instance?_perform (perform_ok hperform)
  | resume hc =>
      rw [resume_eq hc]
      rfl
  | step hc hstep =>
      simp only [step, hc] at hstep
      exact instance?_advance h hc (advance_ok hstep)
  | world host =>
      rfl

variable {steps : List (Transition H)}

/-- In every move the world leaves the registered descriptors open and their entries as
they are, and it lays no faults. -/
def Peaceful (steps : List (Transition H)) : Prop :=
  ∀ s ∈ steps, Calm s.before s.act s.after ∧
    ∀ e, s.before.loop.backend = .epoll e → Undisturbed e s.before s.act s.after

theorem Peaceful.of_append_left
    {steps' : List (Transition H)} (h : Peaceful (steps ++ steps')) :
    Peaceful steps :=
  fun s hs => h s (List.mem_append_left _ hs)

theorem Course.mirrored
    (hcourse : Course m steps m') (h : m.Sound) (hm : m.Mirrored) (hpeaceful : Peaceful steps) :
    m'.Mirrored := by
  induction hcourse with
  | nil =>
      exact hm
  | snoc hfirst hmove ih =>
      have hlast := hpeaceful _ (List.mem_append_right _ List.mem_cons_self)
      exact (ih hpeaceful.of_append_left).move (hfirst.run.sound h) hmove hlast.1

/-- A disarmed entry was overlooked, and it is that of a dormant descriptor. -/
theorem Course.attended
    {e : EpollInstance} (hcourse : Course m steps m') (hbuilt : Built m)
    (hpeaceful : Peaceful steps) (he : m'.loop.backend = .epoll e) :
    m'.Attended e (Overlooked e steps) ∧
      m'.Attended e (m'.Dormant (steps.map (·.act))) := by
  induction hcourse with
  | nil =>
      exact ⟨hbuilt.attended he, hbuilt.attended he⟩
  | @snoc m₁ m' act steps hfirst hmove ih =>
      have hsound := hfirst.run.sound hbuilt.sound
      have hlast := hpeaceful _ (List.mem_append_right _ List.mem_cons_self)
      have he₁ : m₁.loop.backend = .epoll e := by
        rw [← Backend.instance?_eq_some_iff, ← instance?_move hsound hmove,
          Backend.instance?_eq_some_iff, he]
      obtain ⟨hover, hdormant⟩ := ih hpeaceful.of_append_left he₁
      refine ⟨hover.move hsound hmove (hlast.2 e he₁), ?_⟩
      rw [List.map_append]
      exact hdormant.move_dormant hsound hmove (hlast.2 e he₁)

/-- After the start of a reaction the backend listens to what is still bound to its
descriptor when the next wait begins. -/
theorem Course.listens
    (hcourse : Course m steps m') (hbuilt : Built m) (hspares : m.host.kernel.Spares)
    (hpeaceful : Peaceful steps) (hc : m'.control = .dispatching .wait)
    (hstirred : Stirred (steps.map (·.act)) fd) (hbound : m'.binding? fd a ≠ none) :
    m'.Listens fd := by
  have hsound := hcourse.run.sound hbuilt.sound
  have hm := hcourse.mirrored hbuilt.sound (hbuilt.mirrored hspares) hpeaceful
  refine (hm.listens_or hsound hc (fun e he => (hcourse.attended hbuilt hpeaceful he).2)
    hbound).resolve_right ?_
  rintro ⟨interest, hdormant, -⟩
  exact hdormant.not_stirred hstirred

/-- To a persistent direction the backend listens at every wait, unless the kernel has
reported its descriptor and no condition with it. -/
theorem Course.listens_persistently
    (hcourse : Course m steps m') (hbuilt : Built m) (hspares : m.host.kernel.Spares)
    (hpeaceful : Peaceful steps) (hc : m'.control = .dispatching .wait)
    (hbinding : m'.binding? fd a = some ⟨reaction, false⟩) :
    m'.Listens fd ∨ ∃ events, .wait events ∈ steps.map (·.act) ∧ ⟨fd, ∅⟩ ∈ events := by
  have hsound := hcourse.run.sound hbuilt.sound
  have hm := hcourse.mirrored hbuilt.sound (hbuilt.mirrored hspares) hpeaceful
  have hbound : m'.binding? fd a ≠ none := by
    rw [hbinding]
    exact Option.some_ne_none _
  have hattended : ∀ e, m'.loop.backend = .epoll e →
      m'.Attended e fun fd interest => ∃ e, Overlooked e steps fd interest := fun e he =>
    (hcourse.attended hbuilt hpeaceful he).1.mono fun _ _ hover => ⟨e, hover⟩
  refine (hm.listens_or hsound hc hattended hbound).imp_right ?_
  rintro ⟨interest, ⟨e, early, s, late, rfl, hover, -⟩, hasks⟩
  obtain ⟨events, ready, hact, hevent, rfl | hsend, -⟩ := hover.reported
  · refine ⟨events, ?_, hevent⟩
    rw [List.map_append, List.map_cons, hact]
    exact List.mem_append_right _ List.mem_cons_self
  · -- If sending alone is bound, and persistently, then nothing is oneshot.
    refine absurd (Directions.ext fun c => ?_) hover.oneshot
    obtain ⟨hin, -⟩ := hasks a
    obtain ⟨hc, hone⟩ := hasks c
    rw [hsend, hbinding] at hin
    rw [hsend] at hc
    rw [hone, Directions.contains_empty]
    by_cases hca : c = a
    · rw [hca, hbinding]
      rfl
    · have hnone : m'.binding? fd c = none := by
        rw [← Option.not_isSome_iff_eq_none, ← hc]
        cases a <;> cases c <;> simp_all [Directions.contains, Directions.single]
      rw [hnone]
      rfl

/-- A report of a bound direction runs its reaction before the next wait, once, unless the
direction is withdrawn before. -/
theorem served_of_wait
    {events : List Event} {ready : Directions} {log : List (Act H)} {m₁ m₂ : Machine H}
    (h : m.Sound) (hr : m.Represents A) (hbinding : m.binding? fd a = some binding)
    (hmove : Move m (.wait events) m₁) (hin : ⟨fd, ready⟩ ∈ events)
    (hready : ready.contains a = true) (hrun : Run m₁ log m₂)
    (hwait : ∀ events', .wait events' ∉ log) :
    Withdrawn log fd a ∨ FiresOnce log fd a binding.reaction ∨
      (∀ other, .fire fd a other ∉ log) ∧ m₂.control ≠ .dispatching .wait := by
  obtain ⟨b, hb, ha⟩ := Option.bind_eq_some_iff.1 hbinding
  have howes := owes_of_wait h hmove hin hready hb ha
  have hr' := (represents_move h hr hmove).1
  have hbinding' : m₁.binding? fd a = some binding :=
    (binding?_of_kept h hr hmove rfl nofun).trans hbinding
  refine (howes.run hrun (h.move hmove) hr' (hr'.binds_iff.2 hbinding')
    hwait).imp_right (Or.imp_right fun ⟨hout, howes'⟩ => ⟨hout, fun hc => ?_⟩)
  exact not_owes_of_wait (hrun.sound (h.move hmove)) hc howes'

/-- A persistent binding is in place, the backend listens to it, and its reaction runs
whenever it is reported. -/
structure GoesOn (m : Machine H) (log : List (Act H)) (fd : Int) (a : Direction)
    (reaction : Reaction H) : Prop where
  bound : m.binding? fd a = some ⟨reaction, false⟩
  listens : m.control = .dispatching .wait →
    m.Listens fd ∨ ∃ events, .wait events ∈ log ∧ ⟨fd, ∅⟩ ∈ events
  served : ∀ events ready m₁ later m₂, Move m (.wait events) m₁ → ⟨fd, ready⟩ ∈ events →
    ready.contains a = true → Run m₁ later m₂ → (∀ events', .wait events' ∉ later) →
      Withdrawn later fd a ∨ FiresOnce later fd a reaction ∨
        (∀ other, .fire fd a other ∉ later) ∧ m₂.control ≠ .dispatching .wait

/-- What the start of a reaction, in the move `s`, leaves of the other directions of its
descriptor. -/
structure Spared (early : List (Transition H)) (s : Transition H)
    (late : List (Transition H)) (m' : Machine H) (fd : Int) (a : Direction) : Prop where
  kept : ∀ c, c ≠ a →
    (∀ t ∈ late, t.act.withdraws fd c = false ∧ ∀ other, t.act ≠ .fire fd c other) →
      m'.binding? fd c = s.before.binding? fd c
  listens : m'.control = .dispatching .wait → (∀ t ∈ late, ∀ events, t.act ≠ .wait events) →
    ∀ c, m'.binding? fd c ≠ none → m'.Listens fd
  goes_on : ∀ c reaction, c ≠ a → s.before.binding? fd c = some ⟨reaction, false⟩ →
    (∀ t ∈ late, t.act.withdraws fd c = false) →
      m'.GoesOn ((early ++ s :: late).map (·.act)) fd c reaction

theorem Course.spared
    {early late : List (Transition H)} {s : Transition H}
    (hcourse : Course m (early ++ s :: late) m') (hbuilt : Built m)
    (hspares : m.host.kernel.Spares) (hpeaceful : Peaceful (early ++ s :: late))
    (hact : s.act = .fire fd a reaction) :
    Spared early s late m' fd a := by
  obtain ⟨hfirst, hmove, hrest⟩ := hcourse.cut
  have hbefore := hfirst.run.sound hbuilt.sound
  obtain ⟨hr, -⟩ := represents_run hfirst.run hbuilt.sound hbuilt.represents
  have hlate : Run s.before (s.act :: late.map (·.act)) m' := .cons hmove hrest.run
  -- The move itself concerns one direction only.
  have hother : ∀ c, c ≠ a →
      s.act.withdraws fd c = false ∧ ∀ other, s.act ≠ .fire fd c other := by
    intro c hne
    rw [hact]
    refine ⟨rfl, fun other heq => ?_⟩
    cases heq
    exact hne rfl
  refine ⟨fun c hne hkept => ?_, fun hc hwait c => ?_, fun c persistent hne hbinding hkept => ?_⟩
  · exact hlate.binding?_eq hbefore hr
      (List.forall_mem_cons.2 ⟨hother c hne, List.forall_mem_map.2 hkept⟩)
  · refine hcourse.listens hbuilt hspares hpeaceful hc ?_
    refine ⟨early.map (·.act), a, reaction, late.map (·.act), ?_, fun events hin => ?_⟩
    · rw [List.map_append, List.map_cons, hact]
    · obtain ⟨t, ht, heq⟩ := List.mem_map.1 hin
      exact hwait t ht events heq
  · have hbound : m'.binding? fd c = some ⟨persistent, false⟩ :=
      hlate.persists hbefore hr hbinding
        (List.forall_mem_cons.2 ⟨(hother c hne).1, List.forall_mem_map.2 hkept⟩)
    obtain ⟨hr', -⟩ := represents_run hcourse.run hbuilt.sound hbuilt.represents
    refine ⟨hbound, fun hc => ?_, fun events ready m₁ later m₂ hwait hin hready hrun hnone => ?_⟩
    · exact hcourse.listens_persistently hbuilt hspares hpeaceful hc hbound
    · exact served_of_wait (hcourse.run.sound hbuilt.sound) hr' hbound hwait hin hready hrun hnone

/-- In a run in which nobody else touches the registered descriptors and no call fails, a
oneshot binding runs its handler once at most, and then its direction is not in the
interest until it is bound anew.  Whenever a reaction starts, the other directions of its
descriptor keep their bindings, the next wait begins with the backend listening to
whatever is still bound, and a persistent direction goes on. -/
theorem oneshots_are_independent
    (hbuilt : Built m) (hspares : m.host.kernel.Spares) (hcourse : Course m steps m')
    (hpeaceful : Peaceful steps) :
    (∀ early s late fd flags timeout handler a, steps = early ++ s :: late →
      s.act = .request (.setFd fd flags timeout handler) .done →
      flags.directions.contains a = true → flags.contains .oneshot = true →
      (∀ t ∈ late, t.act.binds fd a = false) →
        (∀ other, .fire fd a other ∉ late.map (·.act)) ∨
          FiresOnce (late.map (·.act)) fd a (.call handler) ∧
            ∀ s, m'.loop.interest? fd = some s → s.contains a = false) ∧
    ∀ early s late fd a reaction, steps = early ++ s :: late → s.act = .fire fd a reaction →
      Spared early s late m' fd a := by
  refine ⟨?_, ?_⟩
  · rintro early s late fd flags timeout handler a rfl hact hnames honeshot hbinds
    obtain ⟨hfirst, hmove, hrest⟩ := hcourse.cut
    have hbefore := hfirst.run.sound hbuilt.sound
    obtain ⟨hr, -⟩ := represents_run hfirst.run hbuilt.sound hbuilt.represents
    have hbinding : s.after.binding? fd a = some ⟨.call handler, true⟩ :=
      honeshot ▸ binding?_of_setFd hbefore hr (hact ▸ hmove) hnames
    have hlater : ∀ act ∈ late.map (·.act), act.binds fd a = false :=
      List.forall_mem_map.2 hbinds
    refine (hrest.run.oneshot (hbefore.move hmove) (represents_move hbefore hr hmove).1 hbinding
      hlater).imp_right (And.imp_right fun hnone interest hinterest => ?_)
    rw [contains_of_interest? hinterest, hnone]
    rfl
  · rintro early s late fd a reaction rfl hact
    exact hcourse.spared hbuilt hspares hpeaceful hact

theorem peaceful_of_closed
    (hworld : .world ∉ steps.map (·.act))
    (hclosed : ∀ s ∈ steps, s.before.host.kernel.nextEntry.1.closed = []) :
    Peaceful steps :=
  fun s hs => ⟨calm_of_closed hworld hclosed s hs,
    fun _ _ => undisturbed_of_closed hworld hclosed s hs⟩

/-- A descriptor is registered for receiving once and for sending, and both are
reported. -/
def mixedLog : List (Act Nat) :=
  [.request (.setFd 5 (.recv ∪ .oneshot) .unlimited 1) .done,
    .request (.setFd 5 (.send ∪ .append) .unlimited 2) .done, .request .dispatch .done] ++
  List.replicate 7 Act.advance ++ [.wait [⟨5, ⟨true, true, false⟩⟩]] ++
  List.replicate 4 Act.advance

/-- Both handlers have run, and the next wait is reached. -/
def nextWaitLog : List (Act Nat) :=
  [Act.resume, .fire 5 .send (.call 2), .resume] ++ List.replicate 5 Act.advance

theorem oneshots_are_independent_mixedLog :
    ∃ (m m' : Machine Nat) (early late : List (Transition Nat)) (s : Transition Nat),
      Built m ∧ m.host.kernel.Spares ∧ Course m (early ++ s :: late) m' ∧
      Peaceful (early ++ s :: late) ∧ early.map (·.act) = mixedLog ∧
      s.act = .fire 5 .recv (.call 1) ∧ late.map (·.act) = nextWaitLog ∧
      FiresOnce ((early ++ s :: late).map (·.act)) 5 .recv (.call 1) ∧
      m'.loop.interest? 5 = some (.single .send) ∧ m'.control = .dispatching .wait ∧
      m'.Listens 5 ∧
      m'.GoesOn ((early ++ s :: late).map (·.act)) 5 .send (.call 2) := by
  have hbuilt := built_scriptedEpoll Nat [{ events := [(5, { input := true, output := true })] }]
  obtain ⟨steps, m', hcourse, -, hlog, hclosed, hc, hinterest⟩ :=
    exists_timely_course_of_trail
      (m := scriptedEpoll Nat [{ events := [(5, { input := true, output := true })] }])
      (mixedLog ++ .fire 5 .recv (.call 1) :: nextWaitLog)
      (fun steps m' => (∀ s ∈ steps, s.before.host.kernel.nextEntry.1.closed = []) ∧
        m'.control = .dispatching .wait ∧ m'.loop.interest? 5 = some (.single .send))
      (List.flatten [
        [.request (.setFd 5 (.recv ∪ .oneshot) .unlimited 1),
          .request (.setFd 5 (.send ∪ .append) .unlimited 2), .request .dispatch],
        List.replicate 13 .step, [.resume, .step, .resume], List.replicate 5 .step])
      (by decide +kernel)
  have hspares : (scriptedEpoll Nat
      [{ events := [(5, { input := true, output := true })] }]).host.kernel.Spares :=
    fun _ hf => nomatch hf
  have hworld : .world ∉ steps.map (·.act) := by
    rw [hlog]
    decide
  have hpeaceful := peaceful_of_closed hworld hclosed
  obtain ⟨honce, hspared⟩ := oneshots_are_independent hbuilt hspares hcourse hpeaceful
  obtain ⟨early, rest, rfl, hearly, hrest⟩ := List.map_eq_append_iff.1 hlog
  obtain ⟨s, late, rfl, hact, hlate⟩ := List.map_eq_cons_iff.1 hrest
  obtain ⟨s₀, early, rfl, hact₀, hearly₀⟩ := List.map_eq_cons_iff.1
    (show _ = .request (.setFd 5 (.recv ∪ .oneshot) .unlimited 1) .done :: mixedLog.tail
      from hearly)
  have hrest₀ : ∀ t ∈ early ++ s :: late,
      t.act ∈ mixedLog.tail ++ .fire 5 .recv (.call 1) :: nextWaitLog := by
    intro t ht
    rw [← hearly₀, ← hact, ← hlate, ← List.map_cons, ← List.map_append]
    exact List.mem_map_of_mem ht
  have hbinds : ∀ t ∈ early ++ s :: late, t.act.binds 5 .recv = false := fun t ht =>
    (by decide : ∀ act ∈ mixedLog.tail ++ .fire 5 .recv (.call 1) :: nextWaitLog,
      act.binds 5 .recv = false) t.act (hrest₀ t ht)
  have hfires := (honce [] s₀ (early ++ s :: late) 5 (.recv ∪ .oneshot) .unlimited 1 .recv rfl
    hact₀ rfl rfl hbinds).resolve_left fun hout =>
      hout (.call 1) (hact ▸ List.mem_map_of_mem (by simp))
  have hspare := hspared (s₀ :: early) s late 5 .recv (.call 1) rfl hact
  have hlater : ∀ t ∈ late, t.act ∈ nextWaitLog := fun t ht => hlate ▸ List.mem_map_of_mem ht
  have hwait : ∀ t ∈ late, ∀ events, t.act ≠ .wait events := by
    intro t ht events heq
    have hin := hlater t ht
    rw [heq] at hin
    simp [nextWaitLog] at hin
  have hkept : ∀ t ∈ late, t.act.withdraws 5 .send = false := fun t ht =>
    (by decide : ∀ act ∈ nextWaitLog, act.withdraws 5 .send = false) t.act (hlater t ht)
  have hbinding : s.before.binding? 5 .send = some ⟨.call 2, false⟩ := by
    obtain ⟨hr, -⟩ := represents_run hcourse.cut.1.run hbuilt.sound hbuilt.represents
    rw [binding?, ← hr 5, hearly]
    rfl
  have hgoes := hspare.goes_on .send (.call 2) (by decide) hbinding hkept
  have hbound : m'.binding? 5 .send ≠ none := by
    rw [hgoes.bound]
    exact Option.some_ne_none _
  have hfirst : ∀ other, s₀.act ≠ .fire 5 .recv other := by
    rw [hact₀]
    exact nofun
  exact ⟨_, m', s₀ :: early, late, s, hbuilt, hspares, hcourse, hpeaceful, hearly, hact, hlate,
    hfires.1.cons hfirst, hinterest, hc, hspare.listens hc hwait .send hbound, hgoes⟩

end Machine
end CallbackLoop
