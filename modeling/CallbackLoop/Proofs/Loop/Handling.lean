import CallbackLoop.Proofs.Loop.Expiration
import CallbackLoop.Proofs.Loop.Occupancy

/-!
# Handlers for timeouts need a registration

A handler for an expired timeout can be installed for a registered descriptor.  A
descriptor that was cleared is not registered, but if its own running handler cleared it
then it is still in storage, and installing a handler finds it there.  Such a handler is
stray: it is there when the descriptor is registered again.  No other way leads to a
registration that begins with a handler.

`timeout_handlers_need_registration` is the result for whole runs.
-/

namespace CallbackLoop

variable {H : Type}

/-- Only a clear ends a registration, and only a registration begins one. -/
theorem Act.of_rebound_eq_none
    {act : Act H} {fd : Int} {b? : Option (Bindings (Reaction H))}
    (h : act.rebound fd b? = none) (hclears : act.clears fd = false) :
    b? = none ∧ act.registers fd = false := by
  unfold Act.rebound at h
  split at h
  next other flags _ handler =>
      by_cases hfd : other = fd
      · by_cases hflags : flags = .clear
        · simp [Act.clears, hfd, hflags] at hclears
        · simp [hfd, hflags] at h
      · rw [if_pos hfd] at h
        exact ⟨h, by simp [Act.registers, hfd]⟩
  next other _ =>
      by_cases hfd : other = fd
      · simp [Act.clears, hfd] at hclears
      · rw [if_pos hfd] at h
        exact ⟨h, rfl⟩
  next other a _ =>
      split at h
      · exact ⟨h, rfl⟩
      · exact ⟨Option.map_eq_none_iff.1 h, rfl⟩
  next hset _ _ =>
      refine ⟨h, ?_⟩
      unfold Act.registers
      split
      · exact absurd rfl (hset _ _ _ _)
      · rfl

namespace Machine

variable {m m' m'' : Machine H} {act : Act H} {log : List (Act H)}
  {steps early late : List (Transition H)} {s : Transition H} {fd : Int} {handler : H}

/-- A handler was installed for a descriptor that was not registered, while a handler of
the descriptor itself was running.  It was not registered or cleared since. -/
def Stray (steps : List (Transition H)) (fd : Int) (handler : H) : Prop :=
  ∃ early t late, steps = early ++ t :: late ∧
    t.act = .request (.setTimeoutHandler fd handler) .done ∧
    t.before.loop.interest? fd = none ∧
    t.before.control.served? = some fd ∧
    ∀ u ∈ late, u.act.registers fd = false ∧ u.act.clears fd = false

theorem Stray.snoc
    (h : Stray steps fd handler) (hregisters : s.act.registers fd = false)
    (hclears : s.act.clears fd = false) :
    Stray (steps ++ [s]) fd handler := by
  obtain ⟨early, t, late, rfl, hact, hnone, hserved, hlate⟩ := h
  refine ⟨early, t, late ++ [s], by simp, hact, hnone, hserved, ?_⟩
  intro u hu
  rcases List.mem_append.1 hu with hu | hu
  · exact hlate u hu
  · rw [List.mem_singleton.1 hu]
    exact ⟨hregisters, hclears⟩

/-- While requests can be made, the descriptors in storage are the registered ones and
that whose handler is running. -/
theorem Sound.slotOf?_eq_none_iff
    (h : m.Sound) (hattends : m.Attends) (hopen : m.control.isOpen = true) (fd : Int) :
    m.loop.table.slotOf? fd = none ↔
      m.loop.interest? fd = none ∧ m.control.served? ≠ some fd := by
  cases hslot : m.loop.table.slotOf? fd with
  | none =>
      refine ⟨fun _ => ⟨?_, fun hserved => ?_⟩, fun _ => rfl⟩
      · rw [Loop.interest?, DescriptorTable.find?, hslot]
        rfl
      · cases hc : m.control with
        | idle =>
            rw [hc] at hserved
            cases hserved
        | dispatching phase =>
            rw [hc] at hopen
            cases hopen
        | running invocation next =>
            rw [hattends invocation next hc] at hserved
            obtain ⟨d, hbind, hfd⟩ := Option.map_eq_some_iff.1 hserved
            obtain ⟨i, -, hd⟩ := Option.bind_eq_some_iff.1 hbind
            cases hslot.symm.trans (h.table.slotOf?_eq_some_iff.2 ⟨d, hd, hfd⟩)
  | some slot =>
      constructor
      · intro hstored
        cases hstored
      · rintro ⟨hnone, hserved⟩
        obtain ⟨d, hd, rfl⟩ := h.table.slotOf?_eq_some_iff.1 hslot
        rw [Loop.interest?, h.table.find?_eq_some_iff.2 ⟨slot, hd, rfl⟩] at hnone
        by_cases hclearing : d.isClearing = true
        · have hcurrent := (h.table.fits slot d hd).current_of_clearing hclearing
          exact absurd ((h.served?_eq_some_iff hattends hopen hd).2 hcurrent) hserved
        · simp [hclearing] at hnone

/-- Installing a handler ends the program if the descriptor is not in storage, and for no
other reason. -/
theorem Sound.perform_setTimeoutHandler_iff
    (h : m.Sound) (fd : Int) (handler : H) (crash : Crash) :
    m.perform (.setTimeoutHandler fd handler) = .error crash ↔
      m.loop.table.slotOf? fd = none ∧ crash = ⟨.handlerForUnregistered fd, m.host⟩ := by
  have hperform : m.perform (.setTimeoutHandler fd handler) =
      (m.setTimeoutHandler fd handler).bind fun m => .ok (.done, m) := rfl
  cases hslot : m.loop.table.slotOf? fd with
  | none =>
      have hset : m.setTimeoutHandler fd handler =
          .error ⟨.handlerForUnregistered fd, m.host⟩ := by
        rw [setTimeoutHandler, hslot]
        rfl
      rw [hperform, hset]
      exact ⟨fun heq => ⟨rfl, (Except.error.inj heq).symm⟩, fun ⟨_, heq⟩ => congrArg _ heq.symm⟩
  | some slot =>
      obtain ⟨d, hd, -⟩ := h.table.slotOf?_eq_some_iff.1 hslot
      have hset : m.setTimeoutHandler fd handler =
          .ok (m.setDescriptor slot { d with onTimeout := some handler }) := by
        rw [setTimeoutHandler, hslot]
        show (m.descriptor slot >>= _) = _
        rw [descriptor_eq_ok_iff.2 hd]
        rfl
      rw [hperform, hset]
      exact ⟨nofun, nofun⟩

theorem interest?_of_move
    (h : m.Sound) {A : Registry H} (hr : m.Represents A) (hmove : Move m act m')
    (hnone : m'.loop.interest? fd = none) (hclears : act.clears fd = false) :
    m.loop.interest? fd = none ∧ act.registers fd = false := by
  have hr' := (represents_move h hr hmove).1
  rw [interest?_eq, ← hr', Registry.lookup_after, Option.map_eq_none_iff] at hnone
  rw [interest?_eq, ← hr, Option.map_eq_none_iff]
  exact Act.of_rebound_eq_none hnone hclears

/-- The handler of a descriptor that is not registered is stray. -/
theorem Course.stray
    (hcourse : Course m steps m') (hbuilt : Built m) (hnone : m'.loop.interest? fd = none)
    (hhandler : m'.timing.handler fd = some handler) :
    Stray steps fd handler := by
  induction hcourse with
  | nil =>
      rw [(hbuilt.timing fd).2] at hhandler
      cases hhandler
  | @snoc m₁ m₂ act steps hfirst hmove ih =>
      have hsound := hfirst.sound hbuilt.sound
      obtain ⟨hr, -⟩ := represents_run hfirst.run hbuilt.sound hbuilt.represents
      rcases (change_move hsound hmove).handler_cases hhandler with rfl |
        ⟨hold, hclears, -⟩
      · obtain ⟨hnone₁, -⟩ := interest?_of_move hsound hr hmove hnone rfl
        refine ⟨steps, _, [], rfl, rfl, hnone₁, ?_, by simp⟩
        -- Else the request would have ended the program.
        obtain ⟨hopen, hperform⟩ := request_of_move hmove
        by_contra hserved
        have hslot := (hsound.slotOf?_eq_none_iff
          (hfirst.run.attends hbuilt.sound hbuilt.attends) hopen fd).2 ⟨hnone₁, hserved⟩
        cases hperform.symm.trans
          ((hsound.perform_setTimeoutHandler_iff fd handler _).2 ⟨hslot, rfl⟩)
      · obtain ⟨hnone₁, hregisters⟩ := interest?_of_move hsound hr hmove hnone hclears
        exact (ih hnone₁ hold).snoc hregisters hclears

/-- A handler that is installed in the end was installed in between, or at first. -/
theorem Run.installed_or
    (hrun : Run m log m') (h : m.Sound) (hlast : m'.timing.handler fd = some handler) :
    Installed log fd handler ∨ m.timing.handler fd = some handler := by
  induction log using List.reverseRecOn generalizing m' with
  | nil =>
      cases hrun
      exact .inr hlast
  | append_singleton log act ih =>
      obtain ⟨m₁, hfirst, hmove⟩ := hrun.split_last
      rcases (change_move (hfirst.sound h) hmove).handler_cases hlast with rfl |
        ⟨hold, hclears, hother⟩
      · exact .inl ⟨log, [], rfl, by simp⟩
      · exact (ih hfirst hold).imp_left fun hinstalled => hinstalled.append hclears hother

/-- Whatever is done to a loop that was just built, a handler for timeouts is refused, by
a panic, exactly if its descriptor is neither registered nor the one whose handler is
running; else it is installed.  A descriptor that gets registered has no handler until one
is installed for it, unless it has a stray one. -/
theorem timeout_handlers_need_registration
    (hbuilt : Built m) (hcourse : Course m steps m') :
    (m'.control.isOpen = true → ∀ fd handler,
      (∀ crash, m'.perform (.setTimeoutHandler fd handler) = .error crash ↔
        m'.loop.interest? fd = none ∧ m'.control.served? ≠ some fd ∧
          crash = ⟨.handlerForUnregistered fd, m'.host⟩) ∧
      ∀ reply m'', m'.perform (.setTimeoutHandler fd handler) = .ok (reply, m'') →
        reply = .done ∧ m''.timing = m'.timing.handle fd handler) ∧
    ∀ early s late fd handler, steps = early ++ s :: late → s.act.registers fd = true →
      s.before.loop.interest? fd = none →
      (m'.timing.handler fd = some handler ∨ ∃ m'', TimesOut m' fd handler m'') →
      Installed (late.map (·.act)) fd handler ∨ Stray early fd handler := by
  have hsound := hcourse.sound hbuilt.sound
  refine ⟨fun hopen fd handler => ⟨fun crash => ?_, fun reply m'' hperform => ?_⟩, ?_⟩
  · have hattends := hcourse.run.attends hbuilt.sound hbuilt.attends
    rw [hsound.perform_setTimeoutHandler_iff, hsound.slotOf?_eq_none_iff hattends hopen,
      and_assoc]
  · exact timing_setTimeoutHandler hsound (.request hopen hperform)
  · rintro early s late fd handler rfl hregisters hnone hhandler
    have hlast : m'.timing.handler fd = some handler := by
      rcases hhandler with hhandler | ⟨m'', hout⟩
      · exact hhandler
      · exact (hout.due hsound).1
    obtain ⟨hfirst, hmove, hrest⟩ := hcourse.cut
    have hbefore := hfirst.sound hbuilt.sound
    refine (hrest.run.installed_or (hbefore.move hmove) hlast).imp_right fun hafter => ?_
    -- Registering a descriptor leaves its handler alone.
    rcases (change_move hbefore hmove).handler_cases hafter with heq | ⟨hold, -⟩
    · rw [heq] at hregisters
      cases hregisters
    · exact hfirst.stray hbuilt hnone hold

/-- The handler of a descriptor returns.  The timeout that it armed is deferred to the next
iteration, which comes to the pass over expired timeouts. -/
def laterPassLog : List (Act Nat) :=
  [Act.resume] ++ List.replicate 6 Act.advance ++ [Act.wait []] ++ List.replicate 4 Act.advance

/-- A descriptor is reported.  Its handler clears it, registers it anew with a timeout that
expires at once, and installs a handler for that. -/
def anewLog : List (Act Nat) :=
  [Act.request (.setFd 5 .recv .unlimited 1) .done, .request (.setTimeoutHandler 5 2) .done,
    .request .dispatch .done] ++
  List.replicate 7 Act.advance ++ [Act.wait [⟨5, ⟨true, false, false⟩⟩]] ++
  List.replicate 4 Act.advance ++
  [Act.fire 5 .recv (.call 1), .request (.clearFd 5) .done,
    .request (.setFd 5 .recv (.after 0) 3) .done, .request (.setTimeoutHandler 5 4) .done] ++
  laterPassLog ++ [.advance]

theorem timeout_handlers_need_registration_anewLog :
    ∃ (m m' : Machine Nat) (early late : List (Transition Nat)) (s : Transition Nat),
      Built m ∧ Course m (early ++ s :: late) m' ∧ (early ++ s :: late).map (·.act) = anewLog ∧
      s.act = .request (.setFd 5 .recv (.after 0) 3) .done ∧
      s.before.loop.interest? 5 = none ∧ m'.control.isOpen = true ∧
      m'.loop.interest? 6 = none ∧ m'.control.served? = some 5 ∧
      m'.perform (.setTimeoutHandler 6 9) = .error ⟨.handlerForUnregistered 6, m'.host⟩ ∧
      m'.timing.handler 5 = some 4 ∧ (Installed (late.map (·.act)) 5 4 ∨ Stray early 5 4) := by
  have hbuilt := built_scripted Nat [{ events := [(5, { input := true })] }]
  obtain ⟨steps, m', hcourse, -, hlog, hopen, hnone, hserved, hhandler, s, hs, hact, hfresh⟩ :=
    exists_timely_course_of_trail (m := scripted Nat [{ events := [(5, { input := true })] }])
      anewLog
      (fun steps m' => m'.control.isOpen = true ∧ m'.loop.interest? 6 = none ∧
        m'.control.served? = some 5 ∧ m'.timing.handler 5 = some 4 ∧
        ∃ s ∈ steps, s.act = .request (.setFd 5 .recv (.after 0) 3) .done ∧
          s.before.loop.interest? 5 = none)
      (List.flatten [
        [.request (.setFd 5 .recv .unlimited 1), .request (.setTimeoutHandler 5 2),
          .request .dispatch],
        List.replicate 13 .step,
        [.request (.clearFd 5), .request (.setFd 5 .recv (.after 0) 3),
          .request (.setTimeoutHandler 5 4), .resume],
        List.replicate 12 .step])
      (by decide +kernel)
  obtain ⟨hinstall, hregistered⟩ := timeout_handlers_need_registration hbuilt hcourse
  obtain ⟨early, late, rfl⟩ := List.append_of_mem hs
  have hregisters : s.act.registers 5 = true := by
    rw [hact]
    rfl
  have hserved' : m'.control.served? ≠ some 6 := by
    rw [hserved]
    decide
  exact ⟨_, m', early, late, s, hbuilt, hcourse, hlog, hact, hfresh, hopen, hnone, hserved,
    ((hinstall hopen 6 9).1 _).2 ⟨hnone, hserved', rfl⟩, hhandler,
    hregistered early s late 5 4 rfl hregisters hfresh (.inl hhandler)⟩

/-- A descriptor is reported, and its handler clears it. -/
def selfClearedLog : List (Act Nat) :=
  [Act.request (.setFd 5 .recv .unlimited 1) .done, .request .dispatch .done] ++
  List.replicate 7 Act.advance ++ [Act.wait [⟨5, ⟨true, false, false⟩⟩]] ++
  List.replicate 4 Act.advance ++
  [Act.fire 5 .recv (.call 1), .request (.clearFd 5) .done]

/-- A handler can be installed for a descriptor that is not registered, and it runs when
the timeout of a later registration expires. -/
theorem stray_handler_runs :
    ∃ m m₁ m₂ m₃ m' m'' : Machine Nat, Built m ∧ Run m selfClearedLog m₁ ∧
      m₁.loop.interest? 5 = none ∧ Move m₁ (.request (.setTimeoutHandler 5 9) .done) m₂ ∧
      m₂.loop.interest? 5 = none ∧
      Move m₂ (.request (.setFd 5 .recv (.after 0) 3) .done) m₃ ∧ Run m₃ laterPassLog m' ∧
      TimesOut m' 5 9 m'' ∧
      ∀ handler, .request (.setTimeoutHandler 5 handler) .done ∉ laterPassLog := by
  obtain ⟨m₁, m₂, hrun, hinstall, hnone, hnone', hexpired⟩ :=
    exists_move_of_trail (m := scripted Nat [{ events := [(5, { input := true })] }])
      selfClearedLog (.request (.setTimeoutHandler 5 9) .done)
      (fun m₁ m₂ => m₁.loop.interest? 5 = none ∧ m₂.loop.interest? 5 = none ∧
        (m₂.trail
          (.request (.setFd 5 .recv (.after 0) 3) :: .resume :: List.replicate 12 .step)).map
            (fun steps => (steps.map (·.act),
              steps.getLast?.any fun s => decide (s.after.expired? = some (5, 9)))) =
          some (.request (.setFd 5 .recv (.after 0) 3) .done :: laterPassLog ++ [.advance], true))
      (List.flatten [
        [.request (.setFd 5 .recv .unlimited 1), .request .dispatch], List.replicate 13 .step,
        [.request (.clearFd 5), .request (.setTimeoutHandler 5 9)]])
      (by decide +kernel)
  obtain ⟨m', m'', hrest, hadvance, hexpired⟩ := exists_move_of_trail _ _
    (fun _ m'' => m''.expired? = some (5, 9)) _ hexpired
  cases hrest with
  | @cons _ m₃ _ _ _ hregister hpass =>
      exact ⟨_, m₁, m₂, m₃, m', m'', built_scripted Nat _, hrun, hnone, hinstall, hnone',
        hregister, hpass, timesOut_of_expired? hadvance hexpired, by simp [laterPassLog]⟩

end Machine
end CallbackLoop
