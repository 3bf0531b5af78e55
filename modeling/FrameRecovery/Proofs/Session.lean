import FrameRecovery.Proofs.ControlFlow
import FrameRecovery.Proofs.Outermost
import FrameRecovery.Proofs.RegisterLinks
import FrameRecovery.Proofs.Restored
import FrameRecovery.Proofs.UseChains
import FrameRecovery.Session

namespace FrameRecovery

open Flow

namespace Phase

variable {p q : Phase}

theorem rank_injective (h : p.rank = q.rank) : p = q := by
  cases p <;> cases q <;> first | rfl | cases h

theorem exists_next? (h : p.rank < q.rank) : ∃ r, p.next? = some r ∧ r.rank = p.rank + 1 := by
  cases p <;> first | exact ⟨_, rfl, rfl⟩ | (cases q <;> simp [rank] at h)

end Phase

namespace Recovery

variable {α : Type} {t : Task} {s s' : Session} {phase : Phase}

theorem onFlow_succeeds {pass : Pass α} {Q : α → Flow → Prop} (h : Succeeds pass s.flow Q) :
    Succeeds (onFlow pass) s fun a s' => ∃ f, s' = { s with flow := f } ∧ Q a f := by
  obtain ⟨r, f, hrun, a, rfl, hQ⟩ := h
  refine ⟨.ok a, { s with flow := f }, ?_, a, rfl, f, rfl, hQ⟩
  change (pass.run s.flow >>= fun r => Except.ok (r.1, { s with flow := r.2 })) = _
  rw [hrun]
  rfl

theorem onEdit_succeeds {edit : Edit α} {Q : α → Flow → Prop} (h : Gives edit s.flow Q) :
    Succeeds (onEdit edit) s fun a s' => ∃ f, s' = { s with flow := f } ∧ Q a f :=
  onFlow_succeeds (Succeeds.of_lift h)

theorem onFrame_succeeds {change : Renaming Frame α} {Q : α → Frame → Flow → Prop}
    (h : Renaming.Succeeds change s.frame s.flow Q) :
    Succeeds (onFrame change) s fun a s' =>
      ∃ f frame, s' = { s with flow := f, frame := frame } ∧ Q a frame f := by
  obtain ⟨⟨r, frame⟩, f, hrun, a, hr, hQ⟩ := h
  cases hr
  refine ⟨.ok a, { s with flow := f, frame }, ?_, a, rfl, f, frame, rfl, hQ⟩
  change (change.run.run s.frame s.flow >>= fun r =>
    Except.ok (r.1.1, { s with flow := r.2, frame := r.1.2 })) = _
  rw [hrun]
  rfl

/-- A phase that was done is logged. -/
theorem run_reach (h : (perform t phase).run s = .ok (.ok (), s')) :
    (reach t phase).run s = .ok (.ok (), { s' with phases := s'.phases ++ [phase] }) := by
  change (((perform t phase).run s >>= _) >>= _) = _
  rw [h]
  rfl

/-- A phase that fails makes the recovery fail. -/
theorem run_reach_of_error {e : Error} (h : (perform t phase).run s = .ok (.error e, s')) :
    (reach t phase).run s = .ok (.error (.phaseFailed phase e), { s' with failed := some phase }) := by
  change (((perform t phase).run s >>= _) >>= _) = _
  rw [h]
  rfl

/-- A phase can be done, and the flow and the frame after it are as stated. -/
def Performs (t : Task) (phase : Phase) (s : Session) (R : Flow → Frame → Prop) : Prop :=
  Succeeds (perform t phase) s fun _ s' =>
    s'.phases = s.phases ∧ s'.failed = s.failed ∧ R s'.flow s'.frame

/-- A phase that can be done is reached. -/
theorem Performs.reach {R : Flow → Frame → Prop} (h : Performs t phase s R) :
    ∃ s', (Recovery.reach t phase).run s = .ok (.ok (), s') ∧ s'.phases = s.phases ++ [phase] ∧
      s'.failed = s.failed ∧ R s'.flow s'.frame := by
  obtain ⟨r, s', hrun, a, rfl, hphases, hfailed, hR⟩ := h
  exact ⟨_, run_reach hrun, by rw [hphases], hfailed, hR⟩

section Perform

variable {V : Locations}

theorem perform_registers (hf : s.flow.Sound V) (hrooted : s.flow.Rooted)
    (hconnected : s.flow.Connected) :
    Performs t .ssaRegisters s fun g _ => Tagging.Tagged V s.flow .registers g := by
  have htag := Tagging.tag_gives (LocationKind.permits_registers V) hf hrooted hconnected
  refine .of_bind ((onEdit_succeeds htag).mono ?_)
  rintro stats _ ⟨g, rfl, hg⟩
  exact .of_modify ⟨rfl, rfl, hg⟩

theorem perform_propagation (hf : s.flow.Sound V) :
    Performs t .stackPropagated s fun g _ => Propagation.Propagated (.stackPointer t.machine) V s.flow g := by
  have hpropagate := propagate_succeeds (PropagationPolicy.careful_stackPointer t.machine) hf
  refine .of_bind ((onFlow_succeeds hpropagate).mono ?_)
  rintro stats _ ⟨g, rfl, hg⟩
  exact .of_modify ⟨rfl, rfl, hg⟩

theorem perform_derefs_succeeds (hV : LocationKind.derefs.Permits V) (hf : s.flow.Sound V) (hrooted : s.flow.Rooted)
    (hconnected : s.flow.Connected) : Succeeds (perform t .ssaDerefs) s fun _ s' =>
      (s'.phases = s.phases ∧ s'.failed = s.failed ∧ Tagging.Tagged V s.flow .derefs s'.flow) ∧
        s'.flow.restoredRegisters t.machine.stackPointer = .ok s'.restored := by
  have htag := Tagging.tag_gives hV hf hrooted hconnected
  refine .of_bind ((onEdit_succeeds htag).mono ?_)
  rintro stats _ ⟨g, rfl, hg⟩
  obtain ⟨rs, hrs⟩ := Flow.exists_restoredRegisters hg.sound (hg.later.graph.connected hconnected)
    t.machine.stackPointer
  have hview : Gives (Edit.view (·.restoredRegisters t.machine.stackPointer) : Edit (List String)) g
      fun r h => r = rs ∧ h = g := .of_view hrs ⟨rfl, rfl⟩
  refine .of_bind (.of_modify (.of_bind ((onEdit_succeeds hview).mono ?_)))
  rintro _ _ ⟨_, rfl, rfl, rfl⟩
  exact .of_modify ⟨⟨rfl, rfl, hg⟩, hrs⟩

theorem perform_derefs (hV : LocationKind.derefs.Permits V) (hf : s.flow.Sound V) (hrooted : s.flow.Rooted)
    (hconnected : s.flow.Connected) :
    Performs t .ssaDerefs s fun g _ => Tagging.Tagged V s.flow .derefs g :=
  (perform_derefs_succeeds hV hf hrooted hconnected).mono fun _ _ h => h.1

theorem perform_prune (hf : s.flow.Sound V) :
    Performs t .pruned s fun g _ => Pruning.Pruned V s.flow g := by
  have hcheck : Succeeds (if t.options.verifyUseChains then onFlow verifyUseChains else pure ()) s
      fun _ s' => s' = s := by
    split
    · refine (onFlow_succeeds (verifyUseChains_succeeds hf)).mono ?_
      rintro _ _ ⟨f, rfl, rfl⟩
      rfl
    · exact .of_pure rfl
  have hprune : Gives (if t.options.pruneToFixedPoint then Pruning.pruneToFixedPoint else Pruning.prune)
      s.flow fun _ g => Pruning.Pruned V s.flow g := by
    split
    · exact Pruning.pruneToFixedPoint_gives (.refl hf)
    · exact Pruning.prune_gives (.refl hf)
  have hboth := Succeeds.of_bind (k := fun _ => do
      let pruned ← onEdit <|
        if t.options.pruneToFixedPoint then Pruning.pruneToFixedPoint else Pruning.prune
      record fun stats => { stats with pruned })
    (Q := fun _ s' => s'.phases = s.phases ∧ s'.failed = s.failed ∧ Pruning.Pruned V s.flow s'.flow)
    (hcheck.mono ?_)
  · change Succeeds (prune t) s _
    unfold prune
    cases h : t.options.verifyUseChains <;> simpa [h] using hboth
  rintro _ _ rfl
  refine .of_bind ((onEdit_succeeds hprune).mono ?_)
  rintro _ _ ⟨g, rfl, hg⟩
  exact .of_modify ⟨rfl, rfl, hg⟩

theorem perform_rename (hm : t.machine.Regular) (hf : s.flow.Sound V) (hrooted : s.flow.Rooted) :
    Performs t .stackRenamed s fun g frame =>
      StackRenaming.Renamed t.machine t.options.negateSubtractedOffsets s.flow g frame := by
  refine .of_bind ((onFrame_succeeds (StackRenaming.rename_succeeds hm hf.any hrooted)).mono ?_)
  rintro _ _ ⟨g, frame, rfl, hg⟩
  exact .of_modify ⟨rfl, rfl, hg⟩

theorem perform_lower (hl : t.listing.WellFormed) (hf : ControlFlow.Recovered t.listing s.flow) :
    Performs t .irForm s fun g _ => g.Plain ∧ s.flow.SameGraph g ∧
      (Lowering.lower t.listing).run s.flow = .ok (.ok (), g) := by
  obtain ⟨r, g, hrun, a, rfl, hg⟩ := Lowering.lower_gives hl hf
  have hlower : Succeeds (Lowering.lower t.listing) s.flow fun _ h => h = g :=
    ⟨.ok a, g, hrun, a, rfl, rfl⟩
  refine (onFlow_succeeds hlower).mono ?_
  rintro _ _ ⟨_, rfl, rfl⟩
  exact ⟨rfl, rfl, hg.1, hg.2.1, hrun⟩

end Perform

/-- The states of a recovery that reaches all phases, with what each phase did. -/
structure Course (t : Task) (entry : Address) (S : Phase → Session) : Prop where
  start : S .nothingDone = .start entry
  reach : ∀ p q, p.next? = some q → (Recovery.reach t q).run (S p) = .ok (.ok (), S q)
  phases : ∀ p, (S p).phases = Phase.all.take (p.rank + 1)
  failed : ∀ p, (S p).failed = none
  lowers : (do ControlFlow.recover t.listing; Lowering.lower t.listing : Pass Unit).run.run
    (.empty entry) = .ok (.ok (), (S .irForm).flow)
  plain : (S .irForm).flow.Plain
  connected : (S .irForm).flow.Connected
  registers : Tagging.Tagged .listed (S .irForm).flow .registers (S .ssaRegisters).flow
  propagated : Propagation.Propagated (.stackPointer t.machine) .listed (S .ssaRegisters).flow (S .stackPropagated).flow
  derefs : Tagging.Tagged .named (S .stackPropagated).flow .derefs (S .ssaDerefs).flow
  pruned : Pruning.Pruned .named (S .ssaDerefs).flow (S .pruned).flow
  renamed : StackRenaming.Renamed t.machine t.options.negateSubtractedOffsets (S .pruned).flow
    (S .stackRenamed).flow (S .stackRenamed).frame

/-- A recovery fails because control cannot be followed, or it reaches all phases. -/
theorem exists_course (hl : t.listing.WellFormed) (hm : t.machine.Regular) (entry : Address) :
    (∃ a fault s, (Recovery.reach t .basicBlocks).run (.start entry) =
      .ok (.error (.phaseFailed .basicBlocks (.controlFlow a fault)), s)) ∨ ∃ S, Course t entry S := by
  obtain ⟨r, f, hrun, hr⟩ := ControlFlow.recover_gives hl entry
  have hperform : (perform t .basicBlocks).run (.start entry) =
      .ok (r, { Session.start entry with flow := f }) := by
    change ((ControlFlow.recover t.listing).run (.empty entry) >>= fun r =>
      Except.ok (r.1, { Session.start entry with flow := r.2 })) = _
    rw [hrun]
    rfl
  obtain ⟨rfl, -, hf⟩ | ⟨a, fault, rfl⟩ := hr
  · refine .inr ?_
    obtain ⟨s₁, hs₁⟩ : ∃ s₁ : Session, s₁ = { Session.start entry with
        flow := f, phases := [.nothingDone, .basicBlocks] } := ⟨_, rfl⟩
    have hreach₁ : (Recovery.reach t .basicBlocks).run (.start entry) = .ok (.ok (), s₁) := by
      rw [run_reach hperform, hs₁]
      rfl
    have hflow₁ : s₁.flow = f := by rw [hs₁]
    obtain ⟨s₂, hreach₂, hphases₂, hfailed₂, hplain, hgraph, hlower⟩ :=
      (perform_lower (t := t) hl (s := s₁) (hflow₁ ▸ hf)).reach
    have hconnected := hgraph.connected (hflow₁ ▸ hf.connected)
    obtain ⟨s₃, hreach₃, hphases₃, hfailed₃, hregisters⟩ :=
      (perform_registers (t := t) hplain.sound hplain.rooted hconnected).reach
    obtain ⟨s₄, hreach₄, hphases₄, hfailed₄, hpropagated⟩ :=
      (perform_propagation (t := t) hregisters.sound).reach
    have hconnected₄ := (SameGraph.of_blocks_eq hpropagated.entry_eq hpropagated.blocks_eq).connected
      (hregisters.later.graph.connected hconnected)
    obtain ⟨s₅, hreach₅, hphases₅, hfailed₅, hderefs⟩ := (perform_derefs (t := t) (V := .named) (fun _ _ => trivial)
      (hpropagated.sound.mono fun _ => Locations.named_of_listed)
      (hpropagated.rooted hregisters.rooted) hconnected₄).reach
    obtain ⟨s₆, hreach₆, hphases₆, hfailed₆, hpruned⟩ := (perform_prune (t := t) hderefs.sound).reach
    obtain ⟨s₇, hreach₇, hphases₇, hfailed₇, hrenamed⟩ :=
      (perform_rename (t := t) hm hpruned.sound (hpruned.rooted hderefs.rooted)).reach
    refine ⟨fun p => p.casesOn (.start entry) s₁ s₂ s₃ s₄ s₅ s₆ s₇, rfl, fun p q hq => ?_, fun p => ?_, fun p => ?_, ?_,
      hplain, hconnected, hregisters, hpropagated, hderefs, hpruned, hrenamed⟩
    · cases p <;> cases hq <;> assumption
    · cases p <;> simp [*, Session.start, Phase.all, Phase.rank]
    · cases p <;> simp [*, Session.start]
    · change ((ControlFlow.recover t.listing).run (.empty entry) >>= _) = _
      rw [hrun]
      exact hflow₁ ▸ hlower
  · exact .inl ⟨a, fault, _, run_reach_of_error hperform⟩

section Advance

variable {entry : Address} {S : Phase → Session} {p q target : Phase}

theorem checkProgress_succeeds (h : s.failed = none) :
    Succeeds checkProgress s fun _ s' => s' = s := by
  refine .of_bind (.of_get ?_)
  rw [h]
  exact .of_pure rfl

namespace Course

variable (h : Course t entry S)
include h

theorem current (p : Phase) : (S p).current = p := by
  unfold Session.current
  rw [h.phases p]
  cases p <;> rfl

theorem step_succeeds (p : Phase) :
    Succeeds (step t) (S p) fun r s' => r = p.next? ∧ ∀ q, p.next? = some q → s' = S q := by
  refine .of_bind ((checkProgress_succeeds (h.failed p)).mono ?_)
  rintro _ _ rfl
  refine .of_bind (.of_get ?_)
  rw [h.current p]
  cases hq : p.next? with
  | none => exact .of_pure ⟨rfl, nofun⟩
  | some q =>
    have hreach : Succeeds (Recovery.reach t q) (S p) fun _ s' => s' = S q :=
      ⟨.ok (), S q, h.reach p q hq, (), rfl, rfl⟩
    refine .of_bind (hreach.mono ?_)
    rintro _ _ rfl
    refine .of_pure ⟨rfl, fun q' hq' => ?_⟩
    cases hq'
    rfl

/-- The steps of a recovery lead to a phase. -/
theorem advanceWithin_succeeds (n : Nat) (hle : p.rank ≤ target.rank)
    (hn : target.rank ≤ p.rank + n) :
    Succeeds (advanceWithin t target n) (S p) fun _ s' => s' = S target := by
  induction n generalizing p with
  | zero =>
    obtain rfl := Phase.rank_injective (show p.rank = target.rank by omega)
    exact .of_pure rfl
  | succ n ih =>
    refine .of_bind (.of_get ?_)
    rw [h.current p]
    by_cases hlt : p.rank < target.rank
    · rw [if_pos hlt]
      refine .of_bind ((h.step_succeeds p).mono ?_)
      rintro _ s' ⟨rfl, hs'⟩
      obtain ⟨q, hq, hqrank⟩ := Phase.exists_next? hlt
      obtain rfl := hs' q hq
      rw [hq]
      exact ih (by omega) (by omega)
    · rw [if_neg hlt]
      obtain rfl := Phase.rank_injective (show p.rank = target.rank by omega)
      exact .of_pure rfl

theorem advanceTo_succeeds (target : Phase) :
    Succeeds (advanceTo t target) (.start entry) fun _ s' => s' = S target := by
  refine .of_bind ((checkProgress_succeeds rfl).mono ?_)
  rintro _ _ rfl
  rw [← h.start]
  have hzero : Phase.nothingDone.rank = 0 := rfl
  have hlt : target.rank < Phase.all.length := by cases target <;> decide
  exact h.advanceWithin_succeeds _ (by omega) (by omega)

end Course

/-- If there is no way to follow control, no phase after the start is reached. -/
theorem run_advanceTo_of_error {e : Error} (htarget : target ≠ .nothingDone)
    (h : (Recovery.reach t .basicBlocks).run (.start entry) = .ok (.error e, s)) :
    (advanceTo t target).run (.start entry) = .ok (.error e, s) := by
  have hlt : Phase.nothingDone.rank < target.rank := by
    cases target <;> first | decide | exact absurd rfl htarget
  change (if Phase.nothingDone.rank < target.rank then _ else _ : Recovery Unit).run _ = _
  rw [if_pos hlt]
  change (((Recovery.reach t .basicBlocks).run (.start entry) >>= _) >>= _) = _
  rw [h]
  rfl

end Advance

end Recovery

/-- The session in which a recovery of the function at an address reaches a phase. -/
def Task.sessionAt? (t : Task) (entry : Address) (phase : Phase) : Option Session :=
  match (Recovery.advanceTo t phase).run (.start entry) with
  | .ok (.ok (), s) => some s
  | _ => none

/-- The session in which a recovery with the default options reaches a phase, for the function at
    an address of a listing. -/
def Session.ofText? (text name stackPointer : String) (entry : Address) (phase : Phase) :
    Option Session :=
  match Listing.parse text with
  | .error _ => none
  | .ok l => Task.sessionAt? ⟨l, { name, stackPointer }, {}⟩ entry phase

theorem Session.exists_parse_of_ofText? {text name stackPointer : String} {entry : Address} {phase : Phase}
    {s : Session} (hs : Session.ofText? text name stackPointer entry phase = some s) :
    ∃ l, Listing.parse text = .ok l ∧ Task.sessionAt? ⟨l, { name, stackPointer }, {}⟩ entry phase = some s := by
  unfold Session.ofText? at hs
  split at hs
  · cases hs
  next l hl => exact ⟨l, hl, hs⟩

namespace Recovery

variable {t : Task} {entry : Address} {S : Phase → Session} {phase : Phase} {s : Session}

theorem Course.sessionAt?_eq (h : Course t entry S) (phase : Phase) :
    t.sessionAt? entry phase = some (S phase) := by
  obtain ⟨r, s, hrun, a, rfl, rfl⟩ := h.advanceTo_succeeds phase
  unfold Task.sessionAt?
  rw [hrun]

/-- A recovery that has reached a phase reaches all of them. -/
theorem exists_course_of_sessionAt? (hl : t.listing.WellFormed) (hm : t.machine.Regular)
    (hphase : phase ≠ .nothingDone) (hs : t.sessionAt? entry phase = some s) :
    ∃ S, Course t entry S ∧ s = S phase := by
  obtain ⟨a, fault, s', hrun⟩ | ⟨S, h⟩ := exists_course hl hm entry
  · unfold Task.sessionAt? at hs
    rw [run_advanceTo_of_error hphase hrun] at hs
    cases hs
  · rw [h.sessionAt?_eq phase, Option.some.injEq] at hs
    exact ⟨S, h, hs.symm⟩

/-- A recovery of a text that has reached a phase reaches all of them. -/
theorem exists_course_of_ofText? {text name stackPointer : String} (hphase : phase ≠ .nothingDone)
    (hs : Session.ofText? text name stackPointer entry phase = some s) :
    ∃ l S, Course ⟨l, { name, stackPointer }, {}⟩ entry S ∧
      ∀ p, Session.ofText? text name stackPointer entry p = some (S p) := by
  obtain ⟨l, hl, hs⟩ := Session.exists_parse_of_ofText? hs
  obtain ⟨S, h, -⟩ := exists_course_of_sessionAt? (t := ⟨l, { name, stackPointer }, {}⟩)
    (Listing.wellFormed_of_parse hl) rfl hphase hs
  refine ⟨l, S, h, fun p => ?_⟩
  unfold Session.ofText?
  rw [hl]
  exact h.sessionAt?_eq p

theorem Course.isLowered {text : String} (h : Course t entry S) (hl : Listing.parse text = .ok t.listing) :
    (S .irForm).flow.IsLowered := by
  refine ⟨text, entry, ?_⟩
  unfold Flow.ofText?
  rw [hl]
  simp only [h.lowers]

end Recovery

end FrameRecovery
