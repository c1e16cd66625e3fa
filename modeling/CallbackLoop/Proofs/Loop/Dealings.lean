import CallbackLoop.Proofs.Erosion
import CallbackLoop.Proofs.Loop.Calm
import CallbackLoop.Proofs.Loop.Course
import CallbackLoop.Proofs.Loop.Timing

/-!
# A loop and its backend while the world closes descriptors

Every move of a machine leads its dealings on: a registration, a clear, a settled
descriptor and a report each make one call at most and record what is held afterwards, a
wait erodes the table first, and all else leaves it.  So the table of the backend is in
order in every run in which the world lays no faults and makes no entries, whatever it
closes and opens.
-/

namespace CallbackLoop

variable {H R : Type}

namespace Machine

variable {m m' m'' : Machine H} {act : Act H} {steps steps' : List (Transition H)}
  {held : Int → Option Interest} {b : Backend} {k : Kernel}

/-- What lies between the loop of a machine and its backend. -/
def dealings (m : Machine H) : Dealings :=
  ⟨m.loop.backend, m.host.kernel, m.loop.table.held?⟩

/-- A move leads the dealings on. -/
def Deals (m m' : Machine H) : Prop :=
  m.dealings.Leads m'.dealings

theorem Deals.trans
    (h : m.Deals m') (h' : m'.Deals m'') :
    m.Deals m'' :=
  Relation.ReflTransGen.trans h h'

theorem Deals.of_eq
    (hkernel : m'.host.kernel = m.host.kernel) (hbackend : m'.loop.backend = m.loop.backend)
    (hheld : m'.loop.table.held? = m.loop.table.held?) :
    m.Deals m' := by
  have hsame : m'.dealings = m.dealings := by
    rw [dealings, hkernel, hbackend, hheld]
    rfl
  rw [Deals, hsame]
  exact .refl

theorem deals_of_erodes
    (herodes : m.loop.backend.Erodes m.host.kernel m'.host.kernel)
    (hbackend : m'.loop.backend = m.loop.backend)
    (hheld : m'.loop.table.held? = m.loop.table.held?) :
    m.Deals m' := by
  have hsame : m'.dealings = ⟨m.loop.backend, m'.host.kernel, m.loop.table.held?⟩ := by
    rw [dealings, hbackend, hheld]
  rw [Deals, hsame]
  exact .single (.eroded herodes)

/-- Alignment leaves what is due. -/
theorem leads_align
    {d : Descriptor (Reaction H) H} {force : Bool} (hsame : held d.fd = d.held)
    (hspares : d.held ≠ none → m.host.kernel.Spares)
    (hcall : m.call (d.call? force) d.fd = (.ok (), b, k)) :
    Dealings.Leads ⟨m.loop.backend, m.host.kernel, held⟩
      ⟨b, k, Function.update held d.fd d.due⟩ := by
  cases hneeded : d.call? force with
  | none =>
      rw [hneeded] at hcall
      cases hcall
      rw [← Descriptor.held_eq_due_of_call? hneeded, ← hsame, Function.update_eq_self]
      exact .refl
  | some call =>
      rw [hneeded] at hcall
      obtain ⟨hfits, hleaves⟩ := Descriptor.fits_of_call? hneeded
      rw [← hleaves]
      refine .single (.called ?_ hcall)
      rintro rfl
      exact hspares (Option.isSome_iff_ne_none.1 hfits)

theorem deals_clearFd
    (h : m.Sound) (hspares : m.host.kernel.Spares) {fd : Int} (hclear : m.clearFd fd = .ok m') :
    m.Deals m' := by
  rcases clearFd_ok hclear with ⟨-, rfl⟩ | ⟨slot, d, b, k, hslot, hd, hcall, rfl⟩
  · exact .of_eq rfl rfl rfl
  · obtain ⟨e, he, rfl⟩ := h.table.slotOf?_eq_some_iff.1 hslot
    cases hd.symm.trans he
    have hsame := h.table.held?_of_get? hd
    show Dealings.Leads _ ⟨b, k, (m.loop.table.clear slot d).held?⟩
    rw [h.table.held?_clear hd]
    rcases call_unregister_cases hcall with ⟨-, happly⟩ | ⟨hnone, rfl, rfl⟩
    · exact .single (Dealings.Step.called (a := m.dealings) (fun _ => hspares) happly)
    · rw [← hnone, ← hsame, Function.update_eq_self]
      exact .refl

theorem deals_registers
    (h : m.Sound) {fd : Int} {flags : Flags} {timeout : FdTimeout} {reaction : Reaction H}
    {d d' : Descriptor (Reaction H) H} {kernel : Kernel}
    (hspares : d.held ≠ none → m.host.kernel.Spares)
    (hreg : m.Registers fd flags timeout reaction m' d d' kernel) :
    m.Deals m' := by
  have hsound' := (h.registers hreg).table
  have hleaves := Kernel.leaves_applyMode m.host.kernel fd flags
  rw [hreg.mode] at hleaves
  obtain ⟨hfd, hheld⟩ := hreg.fd_held h
  obtain ⟨b, k, q, -, hcall, rfl⟩ := hreg.result
  have hmode : m.Deals { m with host := { m.host with kernel } } :=
    deals_of_erodes (m.loop.backend.erodes_of_leaves hleaves) rfl rfl
  refine hmode.trans ?_
  show Dealings.Leads _ ⟨b, k, (m.loop.table.register fd { d' with held := d'.due }).held?⟩
  rw [h.table.held?_register hsound' hfd, ← hfd]
  refine leads_align (m := { m with host := { m.host with kernel } }) ?_ ?_ hcall
  · rw [hfd, hheld, h.table.held?_ensure hreg.found]
  · rw [hheld]
    exact fun hne => hleaves.spares (hspares hne)

theorem deals_perform
    (h : m.Sound) (hspares : m.host.kernel.Spares) {r : Request H} {reply : Reply}
    (hperform : Performed m r reply m') :
    m.Deals m' := by
  have hsound := (h.perform hperform).table
  cases hperform with
  | cleared hclear | unset hclear =>
      exact deals_clearFd h hspares hclear
  | refused _ =>
      exact .of_eq rfl rfl rfl
  | registered _ _ _ hreg =>
      exact deals_registers h (fun _ => hspares) hreg
  | handled hslot hd =>
      exact .of_eq rfl rfl ((DescriptorTable.Retimed.set hd _ _).held? h.table hsound)
  | aside haside =>
      exact deals_of_erodes (m.loop.backend.erodes_of_leaves haside.leaves) haside.backend
        (by rw [haside.table])

theorem deals_settle
    {slot clears : Nat} {pending : Directions} (h : m.loop.table.Sound (some slot))
    (hspares : m.host.kernel.Spares) (hsettle : m.settle slot clears pending = .ok m') :
    m.Deals m' := by
  obtain ⟨d, hd, ⟨hclearing, rfl⟩ | ⟨hclearing, b, k, hcall, rfl⟩⟩ := settle_ok hsettle
  · refine .of_eq rfl rfl ?_
    have hnone := ((h.fits slot d hd).idle_of_clearing hclearing).1
    have hremoved := h.part?_remove (h.remove_current hd) hd (·.held)
    rw [← hnone, ← h.part?_of_get? hd (·.held), Function.update_eq_self] at hremoved
    exact hremoved
  · show Dealings.Leads _ ⟨b, k, (m.loop.table.settle slot d clears pending).held?⟩
    rw [h.held?_replace (h.settle hd hclearing clears pending)
      (DescriptorTable.onlyAt_settle _ slot d clears pending) hd
      (DescriptorTable.get?_settle_self hd clears pending) rfl]
    have hsame : m.loop.table.held? d.fd = d.held := h.held?_of_get? hd
    exact leads_align (d := d.settled clears pending) hsame (fun _ => hspares) hcall

theorem deals_enqueue
    {event : Event} (h : m.loop.table.Sound none) (hspares : m.host.kernel.Spares)
    (henqueue : m.enqueue event = .ok m') :
    m.Deals m' := by
  rcases enqueue_ok henqueue with ⟨rfl, -⟩ | ⟨slot, d, b, k, -, hd, hclearing, -, hcall, rfl⟩
  · exact .of_eq rfl rfl rfl
  · have hsound := h.notify hd hclearing event.ready
    have honly := DescriptorTable.onlyAt_notify m.loop.table slot d event.ready
    have hget := DescriptorTable.get?_notify_self hd event.ready
    by_cases hrearms : d.rearms = true
    · rw [if_pos hrearms] at hcall hget
      show Dealings.Leads _ ⟨b, k, (m.loop.table.notify slot d event.ready).held?⟩
      rw [h.held?_replace hsound honly hd hget rfl]
      have hsame : m.loop.table.held? d.fd = d.held := h.held?_of_get? hd
      exact leads_align (d := d.notified event.ready) hsame (fun _ => hspares) hcall
    · rw [if_neg hrearms] at hcall hget
      cases hcall
      exact .of_eq rfl rfl (h.part?_of_eq hsound honly hd hget rfl rfl)

theorem deals_foldlM
    {events : List Event} (h : m.loop.table.Sound none) (hspares : m.host.kernel.Spares)
    (hfold : events.foldlM enqueue m = .ok m') :
    m.Deals m' := by
  refine (Except.foldlM_induction
    (fun m₁ : Machine H => m₁.loop.table.Sound none ∧ m.Deals m₁) ?_ events
    ⟨h, .of_eq rfl rfl rfl⟩ hfold).2
  rintro m₁ event m₂ ⟨hsound, hdeals⟩ henqueue
  refine ⟨?_, hdeals.trans (deals_enqueue hsound (hdeals.spares hspares) henqueue)⟩
  obtain ⟨k, b, t, rfl, ht⟩ := enqueue_sound hsound henqueue
  exact ht

theorem deals_awaitEvents
    (h : m.loop.table.Sound none) (hspares : m.host.kernel.Spares)
    (hawait : m.awaitEvents = .ok m') :
    m.Deals m' := by
  unfold awaitEvents at hawait
  split at hawait
  next =>
      cases hawait
  next events host hwait =>
      have herodes := Backend.erodes_wait hwait
      have hwaited : m.Deals { m with host } := deals_of_erodes herodes rfl rfl
      have hsound : ({ m with host } : Machine H).loop.table.Sound none := h
      exact hwaited.trans (deals_foldlM hsound (herodes.spares hspares) hawait)

theorem deals_turnMove
    {turn : Turn} {d : Descriptor (Reaction H) H} (h : m.loop.table.Sound (some turn.slot))
    (hspares : m.host.kernel.Spares) (hd : m.loop.table.get? turn.slot = some d)
    (hmove : TurnMove m turn d m') :
    m.Deals m' := by
  have hspent : ∀ a, (m.loop.table.set turn.slot (d.spent a)).held? = m.loop.table.held? :=
    fun a => part?_spent h hd (d.held_spent a)
  cases hmove with
  | ended _ hsettle =>
      have hsettled := deals_settle h hspares hsettle
      exact hsettled
  | unbound _ _ _ =>
      exact .of_eq rfl rfl rfl
  | called _ _ _ _ _ =>
      exact .of_eq rfl rfl (hspent _)
  | @delivered a _ signos kernel _ _ _ _ _ hdrain =>
      have hleaves := Kernel.leaves_drain m.host.kernel turn.fd
      rw [hdrain] at hleaves
      exact deals_of_erodes (m.loop.backend.erodes_of_leaves hleaves) rfl (hspent a)

theorem deals_advance
    (h : m.Sound) (hspares : m.host.kernel.Spares) {phase : Phase H}
    (hc : m.control = .dispatching phase) (hadvance : Advance m phase m') :
    m.Deals m' := by
  have hsound := (h.advance hc hadvance).table
  have htable := h.table_of_dispatching hc
  cases hadvance with
  | quiet hquiet =>
      exact .of_eq (by rw [hquiet.host]) hquiet.backend (by rw [hquiet.table])
  | @begins slot active d _ hactive hd =>
      have honly := DescriptorTable.onlyAt_takeActive hactive
      have hget : DescriptorTable.get? { m.loop.table with active } slot = some d := hd
      exact .of_eq rfl rfl (htable.part?_of_eq hsound
        (honly.trans (DescriptorTable.onlyAt_set _ slot _)) hd
        (DescriptorTable.get?_set_self hget _) rfl rfl)
  | turn hd hmove =>
      exact deals_turnMove htable hspares hd hmove
  | @postponed now deferred =>
      obtain ⟨t, q, hfold, ht, hretimed⟩ := follows_postpone now deferred htable
      rw [hfold]
      exact .of_eq rfl rfl (hretimed.held? htable ht.sound)
  | @expires now deferred fd q slot d _ _ _ _ hd hexpiry =>
      cases hexpiry with
      | deferred _ | dropped _ _ =>
          exact .of_eq rfl rfl ((DescriptorTable.Retimed.set hd _ _).held? htable hsound)
      | fired _ _ =>
          exact .of_eq rfl rfl (htable.part?_of_eq hsound (DescriptorTable.onlyAt_set _ slot _) hd
            (DescriptorTable.get?_set_self hd _) rfl rfl)
  | settles hsettle =>
      have hsettled := deals_settle htable hspares hsettle
      exact hsettled
  | waits hawait =>
      have hwaited := deals_awaitEvents htable hspares hawait
      exact hwaited

/-- The world lays no faults and makes no entries, and what it closes loses its entry. -/
def Eroding (steps : List (Transition H)) : Prop :=
  ∀ s ∈ steps, s.act = .world →
    s.before.loop.backend.Erodes s.before.host.kernel s.after.host.kernel

theorem deals_move
    (h : m.Sound) (hspares : m.host.kernel.Spares) (hmove : Move m act m')
    (hworld : act = .world → m.loop.backend.Erodes m.host.kernel m'.host.kernel) :
    m.Deals m' := by
  cases hmove with
  | request _ hperform =>
      exact deals_perform h hspares (perform_ok hperform)
  | resume hc =>
      rw [resume_eq hc]
      exact .of_eq rfl rfl rfl
  | step hc hstep =>
      simp only [step, hc] at hstep
      exact deals_advance h hspares hc (advance_ok hstep)
  | world host =>
      exact deals_of_erodes (hworld rfl) rfl rfl

/-- The table of the backend is in order, and no faults are laid. -/
structure Tended (m : Machine H) : Prop where
  table : m.loop.backend.Tended m.host.kernel m.loop.table.held?
  spares : m.host.kernel.Spares

theorem Tended.deals
    (h : m.Tended) (hdeals : m.Deals m') :
    m'.Tended :=
  ⟨Dealings.Leads.tended hdeals h.table, Dealings.Leads.spares hdeals h.spares⟩

theorem Built.tended
    (h : Built m) (hspares : m.host.kernel.Spares) :
    m.Tended := by
  refine ⟨?_, hspares⟩
  cases h with
  | mk hbuild =>
      have hheld : ({} : DescriptorTable (Reaction H) H).held? = fun _ => none :=
        funext held?_empty
      obtain ⟨backend, kernel, hcreate, ⟨rfl, rfl⟩ | ⟨pipe, host₁, m, hacquire, hset, rfl, rfl⟩⟩ :=
        build_ok hbuild
      · show backend.Tended kernel ({} : DescriptorTable (Reaction H) H).held?
        rw [hheld]
        exact Backend.tended_of_create hcreate
      · have hempty := Backend.tended_of_create hcreate
        rw [← hheld] at hempty
        have hleaves := SelfPipe.leaves_acquire? hacquire
        have htable := hempty.erodes (backend.erodes_of_leaves hleaves)
        rcases setFd_ok hset with ⟨hflags, -⟩ | ⟨-, -, limit, -, hresult⟩ |
          ⟨-, -, -, -, d, d', kernel, hreg⟩
        · exact absurd hflags (by decide)
        · cases hresult
        · refine Dealings.Leads.tended
            (deals_registers (sound_of_table_empty rfl rfl rfl) ?_ hreg) htable
          intro hne
          have hnone := (sound_empty (H := H) none rfl).held?_ensure hreg.found
          rw [held?_empty] at hnone
          exact absurd hnone.symm hne

theorem Course.tended
    (hcourse : Course m steps m') (heroding : Eroding steps) (h : m.Sound) (hm : m.Tended) :
    m'.Sound ∧ m'.Tended := by
  induction hcourse with
  | nil =>
      exact ⟨h, hm⟩
  | snoc _ hmove ih =>
      obtain ⟨hsound, htended⟩ := ih fun s hs => heroding s (List.mem_append_left _ hs)
      have hlast := heroding _ (List.mem_append_right _ (List.mem_singleton.2 rfl))
      exact ⟨hsound.move hmove, htended.deals (deals_move hsound htended.spares hmove hlast)⟩

end Machine
end CallbackLoop
