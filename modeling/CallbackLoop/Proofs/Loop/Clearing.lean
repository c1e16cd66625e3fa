import CallbackLoop.Proofs.Loop.Freshness
import CallbackLoop.Proofs.Loop.Timing

/-!
# Clearing a descriptor is final

Nothing that was installed for a descriptor outlives a clear.  What runs for the
descriptor later was installed later, and if it reacts to a direction, a wait
reported the direction later too.  This holds wherever the clear is made: the
turn of the descriptor that is under way counts the clears and ends.

`clear_is_final` is the result for whole runs.
-/

namespace CallbackLoop

variable {H : Type}

/-- The last registration that concerned a direction gave it a binding. -/
def Assigned
    (log : List (Act H)) (fd : Int) (a : Direction) (binding : Binding (Reaction H)) : Prop :=
  ∃ before flags timeout handler after,
    log = before ++ .request (.setFd fd flags timeout handler) .done :: after ∧
    flags.directions.contains a = true ∧
    binding = ⟨.call handler, flags.contains .oneshot⟩ ∧
    ∀ act ∈ after, act.withdraws fd a = false

/-- The last move that concerned the timeout handler of a descriptor installed one. -/
def Installed (log : List (Act H)) (fd : Int) (handler : H) : Prop :=
  ∃ before after, log = before ++ .request (.setTimeoutHandler fd handler) .done :: after ∧
    ∀ act ∈ after, act.clears fd = false ∧
      ∀ other, act ≠ .request (.setTimeoutHandler fd other) .done

theorem Assigned.append
    {log : List (Act H)} {act : Act H} {fd : Int} {a : Direction}
    {binding : Binding (Reaction H)} (h : Assigned log fd a binding)
    (hwithdraws : act.withdraws fd a = false) :
    Assigned (log ++ [act]) fd a binding := by
  obtain ⟨before, flags, timeout, handler, after, rfl, hnames, hbinding, hafter⟩ := h
  refine ⟨before, flags, timeout, handler, after ++ [act], by simp, hnames, hbinding, ?_⟩
  intro act' hin
  rcases List.mem_append.1 hin with hin | hin
  · exact hafter act' hin
  · rw [List.mem_singleton.1 hin]
    exact hwithdraws

theorem Installed.append
    {log : List (Act H)} {act : Act H} {fd : Int} {handler : H} (h : Installed log fd handler)
    (hclears : act.clears fd = false)
    (hother : ∀ other, act ≠ .request (.setTimeoutHandler fd other) .done) :
    Installed (log ++ [act]) fd handler := by
  obtain ⟨before, after, rfl, hafter⟩ := h
  refine ⟨before, after ++ [act], by simp, ?_⟩
  intro act' hin
  rcases List.mem_append.1 hin with hin | hin
  · exact hafter act' hin
  · rw [List.mem_singleton.1 hin]
    exact ⟨hclears, hother⟩

/-- A move clears one descriptor at most. -/
theorem Act.clears_unique
    {act : Act H} {fd other : Int} (h : act.clears fd = true) (h' : act.clears other = true) :
    fd = other := by
  unfold Act.clears at h h'
  split at h
  · simp only [decide_eq_true_eq] at h h'
    exact h.symm.trans h'
  · simp only [Bool.and_eq_true, decide_eq_true_eq] at h h'
    exact h.1.symm.trans h'.1
  · cases h

/-- What is bound after a move was bound by it, or was bound before and is not
withdrawn. -/
theorem Registry.Binds.of_after
    {A : Registry H} {act : Act H} {fd : Int} {a : Direction} {binding : Binding (Reaction H)}
    (h : (A.after act).Binds fd a binding) :
    (∃ flags timeout handler, act = .request (.setFd fd flags timeout handler) .done ∧
      flags.directions.contains a = true ∧ binding = ⟨.call handler, flags.contains .oneshot⟩) ∨
    A.Binds fd a binding ∧ act.withdraws fd a = false := by
  obtain ⟨b, hlookup, hb⟩ := h
  rw [Registry.lookup_after] at hlookup
  unfold Act.rebound at hlookup
  split at hlookup
  next other flags timeout handler =>
      by_cases hne : other = fd
      · subst hne
        rw [if_neg (by simp)] at hlookup
        split at hlookup
        next =>
            cases hlookup
        next hflags =>
            cases hlookup
            unfold Bindings.rebind at hb
            split at hb
            next hnames =>
                cases hb
                exact .inl ⟨flags, timeout, handler, rfl, hnames, rfl⟩
            next hnames =>
                split at hb
                next hkeeps =>
                    refine .inr ⟨?_, by simp [Act.withdraws, hflags, hnames, hkeeps]⟩
                    cases hold : A.lookup other with
                    | none =>
                        rw [hold] at hb
                        cases hb
                    | some c =>
                        rw [hold] at hb
                        exact ⟨c, hold, hb⟩
                next =>
                    cases hb
      · rw [if_pos hne] at hlookup
        exact .inr ⟨⟨b, hlookup, hb⟩, by simp [Act.withdraws, hne]⟩
  next other reply =>
      split at hlookup
      next hne =>
          exact .inr ⟨⟨b, hlookup, hb⟩, by simp [Act.withdraws, hne]⟩
      next =>
          cases hlookup
  next other a' reaction =>
      refine .inr ⟨?_, rfl⟩
      split at hlookup
      next =>
          exact ⟨b, hlookup, hb⟩
      next =>
          obtain ⟨c, hold, rfl⟩ := Option.map_eq_some_iff.1 hlookup
          refine ⟨c, hold, ?_⟩
          unfold Bindings.spend at hb
          split at hb
          next =>
              rw [Function.update_apply] at hb
              split at hb
              · cases hb
              · exact hb
          next =>
              exact hb
  next hset hclear _ =>
      refine .inr ⟨⟨b, hlookup, hb⟩, ?_⟩
      unfold Act.withdraws
      split
      · exact absurd rfl (hclear _ _)
      · exact absurd rfl (hset _ _ _ _)
      · rfl

/-- What is bound in the end, but was not bound at first, was bound in between. -/
theorem assigned_of_binds
    {A : Registry H} {log : List (Act H)} {fd : Int} {a : Direction}
    {binding : Binding (Reaction H)} (hfirst : ∀ binding, ¬A.Binds fd a binding)
    (hlast : (log.foldl Registry.after A).Binds fd a binding) :
    Assigned log fd a binding := by
  induction log using List.reverseRecOn generalizing binding with
  | nil =>
      exact absurd hlast (hfirst binding)
  | append_singleton log act ih =>
      rw [List.foldl_append] at hlast
      rcases hlast.of_after with ⟨flags, timeout, handler, rfl, hnames, hbinding⟩ |
        ⟨hbinds, hwithdraws⟩
      · exact ⟨log, flags, timeout, handler, [], rfl, hnames, hbinding, by simp⟩
      · exact (ih hbinds).append hwithdraws

namespace Timing

variable {τ τ' : Timing H} {registered : Int → Prop} {now : Nat} {fd : Int} {act : Act H}
  {handler : H}

theorem Postponed.handler_eq
    {fds : List Int} (h : τ.Postponed registered now fds τ') :
    τ'.handler = τ.handler := by
  induction h with
  | nil =>
      rfl
  | passed _ ih =>
      exact ih
  | armed _ _ _ ih =>
      exact ih

/-- A handler that is installed after a move was installed by it, or before. -/
theorem Change.handler_cases
    (h : τ.Change registered now act τ') (hhandler : τ'.handler fd = some handler) :
    act = .request (.setTimeoutHandler fd handler) .done ∨
      τ.handler fd = some handler ∧ act.clears fd = false ∧
        ∀ other, act ≠ .request (.setTimeoutHandler fd other) .done := by
  -- Moves that are no such request leave every handler that stays.
  have huntimed : act.Untimed → τ.handler fd = some handler →
      act = .request (.setTimeoutHandler fd handler) .done ∨
        τ.handler fd = some handler ∧ act.clears fd = false ∧
          ∀ other, act ≠ .request (.setTimeoutHandler fd other) .done := by
    intro hact hsome
    refine .inr ⟨hsome, hact.clears fd, ?_⟩
    rintro other rfl
    exact hact
  have hkept : ∀ other, (τ.clear other).handler fd = some handler →
      fd ≠ other ∧ τ.handler fd = some handler := by
    intro other hsome
    change Function.update τ.handler other none fd = some handler at hsome
    rw [Function.update_apply] at hsome
    split at hsome
    next =>
        cases hsome
    next hne =>
        exact ⟨hne, hsome⟩
  cases h with
  | still hact =>
      exact huntimed hact hhandler
  | @cleared _ other hclears =>
      obtain ⟨hne, hsome⟩ := hkept other hhandler
      refine .inr ⟨hsome, ?_, ?_⟩
      · rw [← Bool.not_eq_true]
        exact fun htrue => hne (Act.clears_unique htrue hclears)
      · rintro h' rfl
        exact Bool.false_ne_true hclears
  | removed hflags | kept hflags | armed hflags =>
      exact .inr ⟨hhandler, by simp [Act.clears, hflags], by simp⟩
  | @handled other installed =>
      change Function.update τ.handler other (some installed) fd = some handler at hhandler
      rw [Function.update_apply] at hhandler
      split at hhandler
      next heq =>
          cases hhandler
          exact .inl (by rw [heq])
      next hne =>
          refine .inr ⟨hhandler, rfl, ?_⟩
          rintro h' heq
          cases heq
          exact hne rfl
  | began hact =>
      exact huntimed hact hhandler
  | expired hact _ _ =>
      exact huntimed hact hhandler
  | postponed hact hpostponed =>
      exact huntimed hact ((congrFun hpostponed.handler_eq fd).symm.trans hhandler)
  | @dropped _ other hact _ _ =>
      exact huntimed hact (hkept other hhandler).2

end Timing

namespace Machine

variable {m m' : Machine H} {fd : Int} {a : Direction} {act : Act H} {log : List (Act H)}

/-- A handler that is installed in the end, but was not at first, was installed in
between. -/
theorem Run.installed
    {handler : H} (hrun : Run m log m') (h : m.Sound) (hfirst : m.timing.handler fd = none)
    (hlast : m'.timing.handler fd = some handler) :
    Installed log fd handler := by
  induction log using List.reverseRecOn generalizing m' with
  | nil =>
      cases hrun
      cases hfirst.symm.trans hlast
  | append_singleton log act ih =>
      obtain ⟨m₁, hrun, hone⟩ := hrun.split
      cases hone with
      | cons hmove hnil =>
          cases hnil
          rcases (change_move (hrun.sound h) hmove).handler_cases hlast with rfl |
            ⟨hold, hclears, hother⟩
          · exact ⟨log, [], rfl, by simp⟩
          · exact (ih hrun hold).append hclears hother

theorem clearFd_of_clears
    (hmove : Move m act m') (hclears : act.clears fd = true) :
    m.clearFd fd = .ok m' := by
  unfold Act.clears at hclears
  split at hclears
  next other _ =>
      rw [decide_eq_true_eq] at hclears
      subst hclears
      cases performed_of_request hmove with
      | cleared hclear =>
          exact hclear
      | aside haside =>
          cases haside.fd?
  next other flags _ _ =>
      rw [Bool.and_eq_true, decide_eq_true_eq, decide_eq_true_eq] at hclears
      obtain ⟨rfl, rfl⟩ := hclears
      cases performed_of_request hmove with
      | unset hclear =>
          exact hclear
      | registered hflags =>
          cases hflags
      | aside haside =>
          cases haside.fd?
  next =>
      cases hclears

/-- After a clear nothing is owed for the descriptor: the queue is dropped, and a
turn that is under way began before the clear. -/
theorem not_owes_of_clearFd
    (h : m.Sound) (hdated : m.TurnDated) (hclear : m.clearFd fd = .ok m') :
    ¬m'.Owes fd a := by
  intro howes
  have hturn : m'.control.turn? = m.control.turn? := by
    obtain ⟨k, b, t, q, rfl, -⟩ := follows_clearFd h hclear
    rfl
  have hqueued : ¬m'.loop.table.Queued fd a := by
    rcases clearFd_ok hclear with ⟨hslot, heq⟩ | ⟨slot, d, b, k, hslot, hd, -, rfl⟩
    · rintro ⟨clears, hqueued⟩
      rw [heq, DescriptorTable.readiness?, DescriptorTable.find?, hslot] at hqueued
      cases hqueued
    · obtain ⟨e, he, rfl⟩ := h.table.slotOf?_eq_some_iff.1 hslot
      cases hd.symm.trans he
      exact h.table.not_queued_clear hd a
  obtain ⟨turn, hturn', rfl, hclears, -⟩ := howes.pending hqueued
  rw [hturn] at hturn'
  have hdate := hdated turn hturn'
  rw [clearsOf_clearFd h hturn' hclear, if_pos rfl] at hclears
  omega

/-- Whatever is done to a loop that was just built, a clear ends all that was
installed for its descriptor.  Every reaction that starts later was bound after
the clear, and so was the direction reported.  Every handler of an expired
timeout that starts later was installed after the clear. -/
theorem clear_is_final
    {before after : List (Act H)} (hbuilt : Built m) (hrun : Run m (before ++ act :: after) m')
    (hclears : act.clears fd = true) :
    (∀ a reaction m'', Move m' (.fire fd a reaction) m'' →
      Reported after fd a ∧
        ∃ binding, Assigned after fd a binding ∧ binding.reaction = reaction) ∧
    ∀ handler m'', TimesOut m' fd handler m'' → Installed after fd handler := by
  obtain ⟨m₁, hbefore, hrest⟩ := hrun.split
  cases hrest with
  | @cons _ m₂ _ _ _ hmove hafter =>
      have hsound := hbefore.sound hbuilt.sound
      have hdated := hbefore.turnDated hbuilt.sound hbuilt.turnDated
      have hclear := clearFd_of_clears hmove hclears
      obtain ⟨hr, -⟩ := represents_run hbefore hbuilt.sound hbuilt.represents
      have hr₂ := represents_clearFd hsound hr hclear
      refine ⟨?_, ?_⟩
      · intro a reaction m'' hfire
        obtain ⟨hr', -⟩ := represents_run hafter (hsound.move hmove) hr₂
        obtain ⟨-, hreacts⟩ := represents_move (hafter.sound (hsound.move hmove)) hr' hfire
        obtain ⟨b, binding, hlookup, hb, hreaction⟩ := hreacts fd a reaction rfl
        refine ⟨hafter.reported_of_fire (hsound.move hmove) (hdated.move hsound hmove)
          (not_owes_of_clearFd hsound hdated hclear) hfire, binding, ?_, hreaction⟩
        refine assigned_of_binds ?_ ⟨b, hlookup, hb⟩
        rintro other ⟨c, hnone, -⟩
        rw [Finmap.lookup_erase] at hnone
        cases hnone
      · intro handler m'' hout
        obtain ⟨hhandler, -⟩ := hout.due (hafter.sound (hsound.move hmove))
        refine hafter.installed (hsound.move hmove) ?_ hhandler
        rw [timing_clearFd hsound hclear]
        exact Function.update_self fd none m₁.timing.handler

/-- Both directions of a descriptor are reported, and the first of its handlers is
called. -/
def reportedLog : List (Act Nat) :=
  [Act.request (.setFd 5 (.recv ∪ .oneshot) .unlimited 1) .done,
    .request (.setFd 5 (.send ∪ .append) .unlimited 2) .done, .request .dispatch .done] ++
  List.replicate 7 Act.advance ++ [Act.wait [⟨5, ⟨true, true, false⟩⟩]] ++
  List.replicate 4 Act.advance ++ [Act.fire 5 .recv (.call 1)]

/-- After a clear the handler registers its descriptor again, and a later wait
reports it. -/
def reregisteredLog : List (Act Nat) :=
  [Act.request (.setFd 5 .send .unlimited 3) .done, .resume] ++ List.replicate 5 Act.advance ++
  [Act.wait [⟨5, ⟨false, true, false⟩⟩]] ++ List.replicate 4 Act.advance

theorem clear_is_final_reregisteredLog :
    ∃ m m' m'' : Machine Nat, Built m ∧
      Run m (reportedLog ++ .request (.clearFd 5) .done :: reregisteredLog) m' ∧
      Move m' (.fire 5 .send (.call 3)) m'' ∧ Reported reregisteredLog 5 .send ∧
      ∃ binding, Assigned reregisteredLog 5 .send binding ∧ binding.reaction = .call 3 := by
  have hbuilt := built_scripted Nat
    [{ events := [(5, { input := true, output := true })] }, { events := [(5, { output := true })] }]
  have hruns : ∃ m', Run (scripted Nat
      [{ events := [(5, { input := true, output := true })] },
        { events := [(5, { output := true })] }])
      ((reportedLog ++ .request (.clearFd 5) .done :: reregisteredLog) ++
        [.fire 5 .send (.call 3)]) m' :=
    exists_run_of_trail
      (List.flatten [
        [.request (.setFd 5 (.recv ∪ .oneshot) .unlimited 1),
          .request (.setFd 5 (.send ∪ .append) .unlimited 2), .request .dispatch],
        List.replicate 13 .step,
        [.request (.clearFd 5), .request (.setFd 5 .send .unlimited 3), .resume],
        List.replicate 11 .step])
      (by decide +kernel)
  obtain ⟨m'', hfollowed⟩ := hruns
  obtain ⟨m', hrun, hlast⟩ := hfollowed.split
  cases hlast with
  | @cons _ m₁ _ _ _ hfire _ =>
      have hclears : (Act.request (.clearFd 5) .done : Act Nat).clears 5 = true := rfl
      have hfinal := clear_is_final hbuilt hrun hclears
      obtain ⟨hreported, hassigned⟩ := hfinal.1 .send (.call 3) m₁ hfire
      exact ⟨_, m', m₁, hbuilt, hrun, hfire, hreported, hassigned⟩

end Machine
end CallbackLoop
