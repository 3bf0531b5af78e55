import FrameRecovery.Proofs.Session

namespace FrameRecovery

namespace Phase

variable {p q : Phase} {n : Nat}

theorem rank_lt_length (p : Phase) : p.rank < all.length := by
  cases p <;> decide

theorem rank_of_getElem? (h : all[n]? = some p) : p.rank = n := by
  have hlt : n < all.length := (List.getElem?_eq_some_iff.1 h).1
  have hrank := getElem?_rank p
  refine (List.getElem?_inj (p.rank_lt_length) ?_).1 (hrank.trans h.symm)
  decide

theorem mem_take_iff : p ∈ all.take n ↔ p.rank < n := by
  constructor
  · intro h
    obtain ⟨i, hi, hget⟩ := List.mem_take_iff_getElem.1 h
    have hrank := rank_of_getElem? (List.getElem?_eq_some_iff.2 ⟨by omega, hget⟩)
    omega
  · intro h
    refine List.mem_iff_getElem?.2 ⟨p.rank, ?_⟩
    rw [List.getElem?_take_of_lt h]
    exact getElem?_rank p

end Phase

namespace Recovery

/-- A part of a recovery that logs neither phases nor failures. -/
def KeepsLog {α : Type} (x : Recovery α) : Prop :=
  ∀ s r s', x.run s = .ok (r, s') → s'.phases = s.phases ∧ s'.failed = s.failed

namespace KeepsLog

variable {α β : Type} {x : Recovery α}

theorem pure (a : α) : KeepsLog (Pure.pure a) := by
  rintro s r s' ⟨⟩
  exact ⟨rfl, rfl⟩

theorem bind {k : α → Recovery β} (hx : KeepsLog x) (hk : ∀ a, KeepsLog (k a)) : KeepsLog (x >>= k) := by
  intro s r s' hrun
  change (x.run s >>= _) = _ at hrun
  cases hresult : x.run s with
  | error fault =>
    rw [hresult] at hrun
    cases hrun
  | ok result =>
    rw [hresult] at hrun
    obtain ⟨_ | a, s₁⟩ := result
    · cases hrun
      exact hx _ _ _ hresult
    · obtain ⟨hphases₁, hfailed₁⟩ := hx _ _ _ hresult
      obtain ⟨hphases, hfailed⟩ := hk a _ _ _ hrun
      exact ⟨hphases.trans hphases₁, hfailed.trans hfailed₁⟩

theorem onFlow (pass : Pass α) : KeepsLog (Recovery.onFlow pass) := by
  intro s r s' hrun
  change (pass.run s.flow >>= fun r => Except.ok (r.1, { s with flow := r.2 })) = _ at hrun
  cases hresult : pass.run s.flow <;> rw [hresult] at hrun <;> cases hrun
  exact ⟨rfl, rfl⟩

theorem onFrame (change : Renaming Frame α) : KeepsLog (Recovery.onFrame change) := by
  intro s r s' hrun
  change (change.run.run s.frame s.flow >>= fun r =>
    Except.ok (r.1.1, { s with flow := r.2, frame := r.1.2 })) = _ at hrun
  cases hresult : change.run.run s.frame s.flow <;> rw [hresult] at hrun <;> cases hrun
  exact ⟨rfl, rfl⟩

theorem modify {change : Session → Session}
    (h : ∀ s, (change s).phases = s.phases ∧ (change s).failed = s.failed) :
    KeepsLog (modifyGet fun s => ((), change s) : Recovery Unit) := by
  rintro s r s' ⟨⟩
  exact h s

end KeepsLog

/-- Only the driver logs phases and failures. -/
theorem perform_keepsLog (t : Task) (phase : Phase) : KeepsLog (perform t phase) := by
  have hrecord : ∀ change, KeepsLog (record change) := fun change => .modify fun _ => ⟨rfl, rfl⟩
  cases phase with
  | nothingDone => exact .pure ()
  | basicBlocks | irForm => exact .onFlow _
  | ssaRegisters | stackPropagated => exact (KeepsLog.onFlow _).bind fun _ => hrecord _
  | ssaDerefs =>
    exact (KeepsLog.onFlow _).bind fun _ => (hrecord _).bind fun _ => (KeepsLog.onFlow _).bind fun _ =>
      .modify fun _ => ⟨rfl, rfl⟩
  | pruned =>
    have hprune := (KeepsLog.onFlow (ExceptT.lift <|
      if t.options.pruneToFixedPoint then Pruning.pruneToFixedPoint else Pruning.prune)).bind fun n =>
        hrecord fun stats => { stats with pruned := n }
    change KeepsLog (prune t)
    unfold prune
    cases t.options.verifyUseChains with
    | false => exact hprune
    | true => exact (KeepsLog.onFlow _).bind fun _ => hprune
  | stackRenamed => exact (KeepsLog.onFrame _).bind fun _ => hrecord _

/-- What is done in each phase. It is left to the driver to log phases and failures. -/
structure Plan where
  work : Phase → Recovery Unit
  keepsLog : ∀ phase, KeepsLog (work phase)

/-- What is done in each phase of a task. -/
def Plan.ofTask (t : Task) : Plan :=
  ⟨perform t, perform_keepsLog t⟩

/-- A way to drive a recovery on. -/
inductive Call where
  | step
  | advanceTo (phase : Phase)
  | complete
deriving DecidableEq, Repr

/-- Drives a recovery on. -/
def Call.run (plan : Plan) : Call → Recovery Unit
  | step => do let _ ← stepBy plan.work
  | advanceTo phase => advanceToBy plan.work phase
  | complete => advanceToBy plan.work Phase.last

/-- The session after calls, whether they fail or not. -/
def after (plan : Plan) : List Call → Session → Except Fault Session
  | [], s => .ok s
  | c :: cs, s => do
    let (_, s) ← (c.run plan).run s
    after plan cs s

/-- The session after single steps. -/
def stepped (plan : Plan) (entry : Address) (n : Nat) : Except Fault Session :=
  after plan (List.replicate n .step) (.start entry)

variable {plan : Plan} {entry : Address} {s s' : Session} {n : Nat} {phase : Phase} {c : Call}

theorem after_append {cs cs' : List Call} :
    after plan (cs ++ cs') s = after plan cs s >>= after plan cs' := by
  induction cs generalizing s with
  | nil => rfl
  | cons c cs ih =>
    change ((c.run plan).run s >>= fun r => after plan (cs ++ cs') r.2) =
      ((c.run plan).run s >>= fun r => after plan cs r.2) >>= after plan cs'
    cases (c.run plan).run s with
    | error fault => rfl
    | ok r => exact ih

theorem stepped_succ : stepped plan entry (n + 1) =
    stepped plan entry n >>= fun s => (Call.step.run plan).run s >>= fun r => .ok r.2 := by
  unfold stepped
  rw [List.replicate_succ', after_append]
  rfl

/-- A session is refused after a failure. -/
theorem run_of_failed {p : Phase} (h : s.failed = some p) (c : Call) :
    (c.run plan).run s = .ok (.error (.aborted p), s) := by
  have hcheck : checkProgress.run s = .ok (.error (.aborted p), s) := by
    obtain ⟨flow, phases, frame, restored, stats, failed⟩ := s
    obtain rfl : failed = some p := h
    rfl
  cases c with
  | step =>
    change ((checkProgress.run s >>= _) >>= _) = _
    rw [hcheck]
    rfl
  | advanceTo _ | complete =>
    change (checkProgress.run s >>= _) = _
    rw [hcheck]
    rfl

theorem run_checkProgress (h : s.failed = none) : checkProgress.run s = .ok (.ok (), s) := by
  obtain ⟨flow, phases, frame, restored, stats, failed⟩ := s
  obtain rfl : failed = none := h
  rfl

/-- What a step does when it is known which phase is next. -/
def Plan.stepTo (plan : Plan) : Option Phase → Recovery (Option Phase)
  | none => return none
  | some phase => do
    reachBy plan.work phase
    return some phase

/-- What a step does to a session that has not failed and has phases left. -/
theorem run_stepBy (hfailed : s.failed = none) (hnext : s.current.next? = some phase) :
    (stepBy plan.work).run s = (plan.work phase).run s >>= fun r => match r with
      | (.ok (), s') => .ok (.ok (some phase), { s' with phases := s'.phases ++ [phase] })
      | (.error e, s') => .ok (.error (.phaseFailed phase e), { s' with failed := some phase }) := by
  change (checkProgress.run s >>= _) = _
  rw [run_checkProgress hfailed]
  change (plan.stepTo s.current.next?).run s = _
  rw [hnext]
  change ((((plan.work phase).run s >>= _) >>= _) >>= _) = _
  cases (plan.work phase).run s with
  | error fault => rfl
  | ok r =>
    obtain ⟨_ | _, s'⟩ := r <;> rfl

/-- A session without phases left stays as it is. -/
theorem run_stepBy_of_done (hfailed : s.failed = none) (hnext : s.current.next? = none) :
    (stepBy plan.work).run s = .ok (.ok none, s) := by
  change (checkProgress.run s >>= _) = _
  rw [run_checkProgress hfailed]
  change (plan.stepTo s.current.next?).run s = _
  rw [hnext]
  rfl

/-- A session is where single steps lead to as well: it has logged the first phases, or in addition the phase after
    them has failed. -/
structure OnSchedule (plan : Plan) (entry : Address) (n : Nat) (s : Session) : Prop where
  lt : n < Phase.all.length
  phases_eq : s.phases = Phase.all.take (n + 1)
  stepped_eq : s.failed = none → stepped plan entry n = .ok s
  failed_eq : ∀ p, s.failed = some p → Phase.all[n + 1]? = some p ∧ stepped plan entry (n + 1) = .ok s ∧
    ∃ s₀ e, stepped plan entry n = .ok s₀ ∧ (stepBy plan.work).run s₀ = .ok (.error (.phaseFailed p e), s)

namespace OnSchedule

theorem start : OnSchedule plan entry 0 (.start entry) where
  lt := by decide
  phases_eq := rfl
  stepped_eq _ := rfl
  failed_eq := nofun

variable (h : OnSchedule plan entry n s)
include h

theorem current_rank : s.current.rank = n := by
  have hlast : s.phases.getLast? = Phase.all[n]? := by
    have hlt := h.lt
    rw [h.phases_eq, List.getLast?_take]
    simp [List.getElem?_eq_getElem hlt]
  obtain ⟨p, hp⟩ : ∃ p, Phase.all[n]? = some p := ⟨_, List.getElem?_eq_getElem h.lt⟩
  unfold Session.current
  rw [hlast, hp]
  exact Phase.rank_of_getElem? hp

theorem next?_eq : s.current.next? = Phase.all[n + 1]? := by
  unfold Phase.next?
  rw [h.current_rank]

theorem mem_phases_iff {p : Phase} : p ∈ s.phases ↔ p.rank ≤ n := by
  rw [h.phases_eq, Phase.mem_take_iff, Nat.lt_succ_iff]

end OnSchedule

/-- What a call leads to is on schedule, and `Q` holds of its result and of the number of steps to there. -/
inductive Follows (plan : Plan) (entry : Address) {α : Type} (Q : α → Nat → Prop) :
    Except Fault (Except Error α × Session) → Prop
  | done (n : Nat) (a : α) (s : Session) (hfailed : s.failed = none) (h : OnSchedule plan entry n s)
    (hQ : Q a n) : Follows plan entry Q (.ok (.ok a, s))
  | failed (n : Nat) (p : Phase) (e : Error) (s : Session) (hfailed : s.failed = some p)
    (h : OnSchedule plan entry n s) : Follows plan entry Q (.ok (.error (.phaseFailed p e), s))
  | stuck (n : Nat) (fault : Fault) (h : stepped plan entry n = .error fault) : Follows plan entry Q (.error fault)

theorem Follows.bind {α β : Type} {P : α → Nat → Prop} {Q : β → Nat → Prop} {x : Recovery α} {k : α → Recovery β}
    (h : Follows plan entry P (x.run s))
    (hk : ∀ n a s', s'.failed = none → OnSchedule plan entry n s' → P a n → Follows plan entry Q ((k a).run s')) :
    Follows plan entry Q ((x >>= k).run s) := by
  change Follows plan entry Q (x.run s >>= _)
  generalize x.run s = y at h
  cases h with
  | done n a s' hfailed h hP => exact hk n a s' hfailed h hP
  | failed n p e s' hfailed h => exact .failed n p e s' hfailed h
  | stuck n fault h => exact .stuck n fault h

/-- A step keeps to the schedule. -/
theorem follows_step (h : OnSchedule plan entry n s) (hfailed : s.failed = none) :
    Follows plan entry (fun a m => a = none ∧ m = n ∧ n + 1 = Phase.all.length ∨ a.isSome ∧ m = n + 1)
      ((stepBy plan.work).run s) := by
  have hlt := h.lt
  cases hnext : Phase.all[n + 1]? with
  | none =>
    have hlast : Phase.all.length ≤ n + 1 := List.getElem?_eq_none_iff.1 hnext
    rw [run_stepBy_of_done hfailed (h.next?_eq.trans hnext)]
    exact .done n _ s hfailed h (.inl ⟨rfl, rfl, by omega⟩)
  | some phase =>
    have hrun := @run_stepBy plan _ _ hfailed (h.next?_eq.trans hnext)
    have hstepped : stepped plan entry (n + 1) = (stepBy plan.work).run s >>= fun r => .ok r.2 := by
      rw [stepped_succ, h.stepped_eq hfailed]
      change ((((stepBy plan.work).run s) >>= _) >>= _) = _
      cases (stepBy plan.work).run s with
      | error fault => rfl
      | ok r =>
        obtain ⟨_ | _, s'⟩ := r <;> rfl
    cases hwork : (plan.work phase).run s with
    | error fault =>
      rw [hwork] at hrun
      rw [hrun] at hstepped ⊢
      exact .stuck (n + 1) fault hstepped
    | ok r =>
      obtain ⟨r, s'⟩ := r
      obtain ⟨hphases, hkept⟩ := plan.keepsLog _ _ _ _ hwork
      rw [hwork] at hrun
      cases r with
      | error e =>
        rw [hrun] at hstepped
        have hfails := hrun
        rw [hrun]
        refine .failed n phase e _ rfl ⟨h.lt, hphases.trans h.phases_eq, nofun, ?_⟩
        intro p hp
        obtain rfl := Option.some.inj hp
        exact ⟨hnext, hstepped, s, e, h.stepped_eq hfailed, hfails⟩
      | ok _ =>
        rw [hrun] at hstepped ⊢
        have hnone : s'.failed = none := hkept.trans hfailed
        refine .done (n + 1) _ _ hnone ⟨?_, ?_, fun _ => hstepped, fun p hp => ?_⟩ (.inr ⟨rfl, rfl⟩)
        · exact (List.getElem?_eq_some_iff.1 hnext).1
        · change s'.phases ++ [phase] = _
          rw [hphases, h.phases_eq, show Phase.all.take (n + 1 + 1) = _ from List.take_add_one, hnext]
          rfl
        · cases hnone.symm.trans hp

/-- Several steps keep to the schedule, and lead to the phase if there are enough of them. -/
theorem follows_advanceWithin (h : OnSchedule plan entry n s) (hfailed : s.failed = none) (phase : Phase) (k : Nat) :
    Follows plan entry (fun _ m => min phase.rank (n + k) ≤ m) ((advanceWithinBy plan.work phase k).run s) := by
  induction k generalizing n s with
  | zero => exact .done n () s hfailed h (by omega)
  | succ k ih =>
    have hrank := h.current_rank
    have hlt := phase.rank_lt_length
    change Follows plan entry _ ((if s.current.rank < phase.rank then do
        if (← stepBy plan.work).isSome then
          advanceWithinBy plan.work phase k
      else pure () : Recovery Unit).run s)
    split
    · refine (follows_step h hfailed).bind fun m a s' hfailed' h' hm => ?_
      obtain ⟨rfl, rfl, hlast⟩ | ⟨hsome, rfl⟩ := hm
      · omega
      · rw [if_pos hsome]
        have hrest := ih h' hfailed'
        rwa [Nat.add_right_comm, Nat.add_assoc] at hrest
    · exact .done n () s hfailed h (by omega)

/-- Phases that were reached are not done again. -/
theorem run_advanceToBy_of_mem (h : OnSchedule plan entry n s) (hfailed : s.failed = none) (hmem : phase ∈ s.phases) :
    (advanceToBy plan.work phase).run s = .ok (.ok (), s) := by
  have hrank := h.current_rank
  have hle := h.mem_phases_iff.1 hmem
  change (checkProgress.run s >>= _) = _
  rw [run_checkProgress hfailed]
  change (if s.current.rank < phase.rank then _ else pure () : Recovery Unit).run s = _
  rw [if_neg (by omega)]
  rfl

theorem follows_advanceTo (h : OnSchedule plan entry n s) (hfailed : s.failed = none) (phase : Phase) :
    Follows plan entry (fun _ m => phase.rank ≤ m) ((advanceToBy plan.work phase).run s) := by
  have hlt := phase.rank_lt_length
  change Follows plan entry _ (checkProgress.run s >>= _)
  rw [run_checkProgress hfailed]
  have hsteps := follows_advanceWithin h hfailed phase Phase.all.length
  rwa [show min phase.rank (n + Phase.all.length) = phase.rank by omega] at hsteps

/-- The phase that a call leads to, if nothing fails. -/
def Call.target : Call → Phase
  | step => .nothingDone
  | advanceTo phase => phase
  | complete => Phase.last

/-- A call keeps to the schedule. -/
theorem follows_call (h : OnSchedule plan entry n s) (hfailed : s.failed = none) (c : Call) :
    Follows plan entry (fun _ m => c.target.rank ≤ m) ((c.run plan).run s) := by
  cases c with
  | step => exact (follows_step h hfailed).bind fun m _ s' hfailed' h' _ => .done m () s' hfailed' h' (Nat.zero_le m)
  | advanceTo phase => exact follows_advanceTo h hfailed phase
  | complete => exact follows_advanceTo h hfailed Phase.last

/-- Calls keep to the schedule. -/
theorem after_onSchedule (cs : List Call) (h : OnSchedule plan entry n s) :
    (∃ m fault, after plan cs s = .error fault ∧ stepped plan entry m = .error fault) ∨
      ∃ m s', after plan cs s = .ok s' ∧ OnSchedule plan entry m s' := by
  induction cs generalizing n s with
  | nil => exact .inr ⟨n, s, rfl, h⟩
  | cons c cs ih =>
    change (∃ m fault, ((c.run plan).run s >>= fun r => after plan cs r.2) = _ ∧ _) ∨
      ∃ m s', ((c.run plan).run s >>= fun r => after plan cs r.2) = _ ∧ _
    cases hfailed : s.failed with
    | some p =>
      rw [run_of_failed hfailed c]
      exact ih h
    | none =>
      have hcall := follows_call h hfailed c
      generalize (c.run plan).run s = x at hcall
      cases hcall with
      | done m a s' _ h' _ => exact ih h'
      | failed m p e s' _ h' => exact ih h'
      | stuck m fault h' => exact .inl ⟨m, fault, rfl, h'⟩

/-- What a recovery leads to does not depend on how it is driven on: after any calls, the session is the one that
    single steps lead to as well. The phases that it has logged are the first ones, to go on to one of them changes
    nothing, and once a phase has failed, every call is refused on account of it and changes nothing. -/
theorem after_calls (plan : Plan) (entry : Address) (cs : List Call) :
    (∃ n fault, after plan cs (.start entry) = .error fault ∧ stepped plan entry n = .error fault) ∨
      ∃ n s, after plan cs (.start entry) = .ok s ∧ OnSchedule plan entry n s ∧
        (s.failed = none → ∀ p ∈ s.phases, ((Call.advanceTo p).run plan).run s = .ok (.ok (), s)) ∧
        ∀ p, s.failed = some p → ∀ c : Call, (c.run plan).run s = .ok (.error (.aborted p), s) := by
  have hstart : OnSchedule plan entry 0 (.start entry) := .start
  obtain ⟨n, fault, hafter, hstepped⟩ | ⟨n, s, hafter, h⟩ := after_onSchedule cs hstart
  · exact .inl ⟨n, fault, hafter, hstepped⟩
  · exact .inr ⟨n, s, hafter, h, fun hfailed p hp => run_advanceToBy_of_mem h hfailed hp,
      fun p hp c => run_of_failed hp c⟩

/-- A function that jumps out of its listing. -/
def strayText : String :=
  "0: goto 4"

/-- Its recovery fails in the first phase, and is refused from then on. -/
theorem after_calls_stray : ∃ l s, Listing.parse strayText = .ok l ∧
    after (.ofTask ⟨l, .x86, {}⟩) [.complete, .step, .advanceTo .irForm] (.start 0) = .ok s ∧
      s.phases = [.nothingDone] ∧ s.failed = some .basicBlocks ∧
      ∀ c : Call, (c.run (.ofTask ⟨l, .x86, {}⟩)).run s = .ok (.error (.aborted .basicBlocks), s) := by
  have hparse : (Listing.parse strayText).toOption.isSome = true := by decide +kernel
  have hcheck : ∀ l ∈ (Listing.parse strayText).toOption,
      ∃ s ∈ (after (.ofTask ⟨l, .x86, {}⟩) [.complete, .step, .advanceTo .irForm] (.start 0)).toOption,
        s.phases = [.nothingDone] ∧ s.failed = some .basicBlocks := by
    decide +kernel
  cases hl : Listing.parse strayText with
  | error e =>
    rw [hl] at hparse
    cases hparse
  | ok l =>
    obtain ⟨s, hs, hphases, hfailed⟩ := hcheck l (hl ▸ rfl)
    obtain ⟨n, fault, hafter, -⟩ | ⟨n, s', hafter, -, -, hrefused⟩ :=
      after_calls (.ofTask ⟨l, .x86, {}⟩) 0 [.complete, .step, .advanceTo .irForm]
    · rw [hafter] at hs
      cases hs
    · rw [hafter] at hs
      obtain rfl := Option.some.inj hs
      exact ⟨l, s', rfl, hafter, hphases, hfailed, hrefused _ hfailed⟩

end Recovery

end FrameRecovery
