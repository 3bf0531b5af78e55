import FrameRecovery.Proofs.Flow.Substitution

namespace FrameRecovery

open Flow

namespace PropagationPolicy

theorem isThetaInput_eq {f : Flow} {s : StatementId} {T : Term} {u : NodeId} (hT : f.Holds s T)
    (hu : u ∈ T.preorder) : ∃ b, isThetaInput f u = .ok b := by
  unfold isThetaInput
  rcases hT.parentExpr?_eq hu with h | ⟨i, e, -, -, -, -, h⟩
  · rw [h]
    exact ⟨_, rfl⟩
  · rw [h]
    exact ⟨_, rfl⟩

theorem isThetaInput_eq_false_iff {f : Flow} {s : StatementId} {T : Term} {u : NodeId} (hT : f.Holds s T)
    (hu : u ∈ T.preorder) : isThetaInput f u = .ok false ↔ ¬ f.IsInput u := by
  have hparent : ∃ o, f.parentExpr? u = .ok o := by
    obtain h | ⟨i, e, x, -, -, -, h⟩ := hT.parentExpr?_eq hu
    · exact ⟨_, h⟩
    · exact ⟨_, h⟩
  obtain ⟨o, ho⟩ := hparent
  unfold isThetaInput IsInput
  rw [ho, bind_ok]
  cases o with
  | none => exact iff_of_true rfl (by simp)
  | some e =>
    change Except.ok e.isTheta = .ok false ↔ _
    cases e <;> simp [Expr.isTheta]

/-- A policy can be asked about what is in statements, and agrees for registers alone. -/
def Careful (policy : PropagationPolicy) : Prop :=
  ∀ {f : Flow} {s s' : StatementId} {S T v : Term} {d u : NodeId}, f.Held d → f.Holds s S →
    Term.Within v S → f.Holds s' T → u ∈ T.preorder → ∃ b, policy f d v.id u = .ok b ∧
      (b = true → ∃ n k, f.exprAt d = some (.register n k))

theorem careful_never : never.Careful :=
  fun _ _ _ _ _ => ⟨false, rfl, nofun⟩

theorem careful_stackPointer (m : Machine) : (stackPointer m).Careful := by
  intro f s s' S T v d u hd hS hv hT hu
  obtain ⟨s₀, t₀, -, ht₀, hd⟩ := hd
  obtain ⟨td, htd, rfl⟩ := Term.exists_within_of_mem_preorder hd
  obtain ⟨q, hq⟩ := ht₀.stands.exists_of_within htd
  obtain ⟨b, hb⟩ := isThetaInput_eq hT hu
  unfold stackPointer
  rw [ht₀.term_eq htd, hb, hS.term_eq hv]
  by_cases hsp : m.isStackPointer td = true
  · have hregister : ∃ n k, f.exprAt td.id = some (.register n k) := by
      rw [exprAt_eq_some hq.shape_id]
      obtain ⟨i, e⟩ := td
      cases e <;> simp [Machine.isStackPointer, Term.register?] at hsp
      exact ⟨_, _, rfl⟩
    refine ⟨!b && v.isReplaceable, ?_, fun _ => hregister⟩
    change (if !m.isStackPointer td then _ else _) = _
    rw [hsp]
    cases b <;> rfl
  · refine ⟨false, ?_, nofun⟩
    change (if !m.isStackPointer td then _ else _) = _
    rw [Bool.eq_false_iff.2 hsp]
    rfl

end PropagationPolicy

namespace Propagation

variable {f f₀ g : Flow} {V : Locations} {policy : PropagationPolicy} {s : StatementId}
  {d r value : NodeId}

/-- A read of `a` has made way for the value that is assigned to `a`, which the policy allows, and the statement
    that it was in has been brought into a normal form. -/
inductive Step (policy : PropagationPolicy) (V : Locations) (f g : Flow) : Prop
  | intro {s around : StatementId} {r u : NodeId} {a v T T' : Term} (sound : f.Sound V)
      (source : f.Holds s (.node r (.assign a v))) (holds : f.Holds around T) (mem : u ∈ T.preorder)
      (link : f.linkOf u = .use (some a.id)) (approved : policy f a.id v.id u = .ok true)
      (substituted : Substituted V f g u) (inlined : Inlined f g around u v T T') (normal : Simplify.Normal T')

section Step

variable {s : StatementId} {t : Term} (h : Step policy V f g)
include h

theorem Step.live_iff : g.Live s ↔ f.Live s := by
  obtain ⟨hsound, -, -, -, -, -, hsubstituted, -⟩ := h
  have hstatements : g.liveStatements = f.liveStatements := by
    unfold liveStatements
    rw [hsubstituted.blocks_eq]
  rw [← hsound.forest.mem_liveStatements, ← hsubstituted.sound.forest.mem_liveStatements, hstatements]

/-- After a replacement a statement is what it was before, or in a normal form. -/
theorem Step.holds_or_normal (hs : g.Live s) (ht : g.Holds s t) : f.Holds s t ∨ Simplify.Normal t := by
  obtain ⟨st, hst, -⟩ := h.live_iff.1 hs
  obtain @⟨_, around, _, _, _, _, _, _, hsound, -, -, -, -, -, -, hinlined, hnormal⟩ := h
  by_cases hne : s = around
  · subst hne
    exact .inr (ht.unique hinlined.holds ▸ hnormal)
  · obtain ⟨t₀, ht₀⟩ := hsound.forest.holds s st hst
    exact .inl (ht.unique (hinlined.others s t₀ hne ht₀) ▸ ht₀)

end Step

/-- The outcome of propagation: the flow stays sound and computes nothing new, and its blocks
    have the statements they had, with the assignments where they were. -/
structure Propagated (policy : PropagationPolicy) (V : Locations) (f g : Flow) : Prop where
  sound : g.Sound V
  rooted : f.Rooted → g.Rooted
  refines : f.Refines g
  entry_eq : g.entry = f.entry
  blocks_eq : g.blocks = f.blocks
  steps : Relation.ReflTransGen (Step policy V) f g

theorem Propagated.refl (hf : f.Sound V) : Propagated policy V f f :=
  ⟨hf, id, .refl f, rfl, rfl, .refl⟩

theorem Substituted.rooted {u : NodeId} (hg : Substituted V f g u) (hf : f.Rooted) : g.Rooted :=
  hf.of_assigns hg.sound.forest (hg.noNewAssign hf) hg.assigns

theorem Propagated.substituted {u : NodeId} (hf : Propagated policy V f₀ f) (hg : Substituted V f g u)
    (hstep : Step policy V f g) : Propagated policy V f₀ g :=
  ⟨hg.sound, fun h => hg.rooted (hf.rooted h),
    hf.refines.trans hg.refines, hg.entry_eq.trans hf.entry_eq,
    hg.blocks_eq.trans hf.blocks_eq, hf.steps.tail hstep⟩

theorem Propagated.noNewDefinition (hf : f.Sound V) (hg : Propagated policy V f g) : f.NoNewDefinition g := by
  have hsteps := hg.steps
  clear hg
  induction hsteps with
  | refl => exact .refl hf.typed
  | tail _ hstep ih =>
    obtain ⟨-, -, -, -, -, -, -, hinlined, -⟩ := hstep
    exact ih.trans hinlined.definition

theorem Propagated.liveStatements_eq (hg : Propagated policy V f g) : g.liveStatements = f.liveStatements := by
  unfold liveStatements
  rw [hg.blocks_eq]

theorem Propagated.live_iff (hg : Propagated policy V f g) (hf : f.Forest) : g.Live s ↔ f.Live s := by
  rw [← hf.mem_liveStatements, ← hg.sound.forest.mem_liveStatements, hg.liveStatements_eq]

/-- Propagation leaves a statement as it was, or in a normal form. -/
theorem Propagated.holds_or_normal {t : Term} (hg : Propagated policy V f g) (hs : g.Live s) (ht : g.Holds s t) :
    f.Holds s t ∨ Simplify.Normal t := by
  have hsteps := hg.steps
  clear hg
  induction hsteps with
  | refl => exact .inl ht
  | tail _ hstep ih =>
    obtain hbefore | hnormal := hstep.holds_or_normal hs ht
    · exact ih (hstep.live_iff.1 hs) hbefore
    · exact .inr hnormal

/-- The reads of a definition that are still to be visited are reads of it. -/
structure Visits (policy : PropagationPolicy) (V : Locations) (f₀ f : Flow) (s : StatementId) (r d : NodeId)
    (uses : List NodeId) : Prop where
  propagated : Propagated policy V f₀ f
  reads : ∀ u ∈ uses, f.linkOf u = .use (some d)
  nodup : uses.Nodup
  assigns : f.Assigns s r d

/-- A read of a definition is left alone if the policy does not agree. If it does, the read makes way for the value
    that is assigned there, and the statement around it ends in a normal form. -/
theorem propagateUse_cases (value : NodeId) (stats : PropagationStats) (hpolicy : policy.Careful) {u : NodeId}
    {a v : Term} (hf : f.Sound V) (hS : f.Holds s (.node r (.assign a v))) (hlink : f.linkOf u = .use (some a.id)) :
    ∃ around T, f.Live around ∧ f.Holds around T ∧ u ∈ T.preorder ∧
      Succeeds (propagateUse policy s a.id value stats u) f fun stats' g =>
        policy f a.id v.id u = .ok false ∧ g = f ∧ stats'.substitutions = stats.substitutions ∨
        policy f a.id v.id u = .ok true ∧ Substituted V f g u ∧
          ∃ T', Inlined f g around u v T T' ∧ Simplify.Normal T' := by
  have hdlink := Link.eq_definition_of_mem_uses ((hf.mirrored.recorded u a.id).1 hlink)
  have hdheld := hf.held a.id (by rw [hdlink]; simp)
  obtain ⟨around, T, hlive, hT, hu⟩ := hf.held u (by simp [hlink])
  refine ⟨around, T, hlive, hT, hu, ?_⟩
  have hv : Term.Within v (.node r (.assign a v)) := .of_mem_children (by simp [Expr.children])
  obtain ⟨eu, pu, hushape⟩ := hT.exists_shape hu
  unfold propagateUse checkUse
  refine .of_bind (.of_bind (.of_view (Flow.link_eq hushape) ?_))
  rw [if_neg (by simp [hlink])]
  refine .of_pure (.of_bind (.of_view (a := some around) ?_ ?_))
  · obtain ⟨st, hst, hremoved⟩ := id hlive
    unfold liveStatementOf?
    rw [hT.statementOf?_eq hu]
    change (f.statement around >>= fun st => Except.ok (if st.removed then none else some around)) = _
    rw [statement_eq hst]
    change Except.ok (if st.removed then none else some around) = _
    rw [hremoved]
    rfl
  refine .of_bind (.of_view (a := v.id) ?_ ?_)
  · unfold valueOf
    rw [hS.rootExpr_eq]
    rfl
  obtain ⟨answer, hanswer, hregister⟩ := hpolicy hdheld hS hv hT hu
  refine .of_bind (.of_view hanswer ?_)
  cases answer with
  | false => exact .of_pure (.inl ⟨hanswer, rfl, rfl⟩)
  | true =>
    obtain ⟨n, k, hd⟩ := hregister rfl
    have hexpr := hf.register u a.id n k hlink hd
    have hr := exprAt_eq_some hS.stands.shape_id
    refine .of_bind (.of_lift ((substitute_gives hf hT hlive hS hv hu hexpr hlink hr).mono ?_))
    rintro _ g ⟨hg, hinlined⟩
    exact .of_pure (.inr ⟨hanswer, hg, hinlined⟩)

theorem Visits.skip {u : NodeId} {rest : List NodeId} (hf : Visits policy V f₀ f s r d (u :: rest)) :
    Visits policy V f₀ f s r d rest :=
  ⟨hf.propagated, fun x hx => hf.reads x (by simp [hx]), (List.nodup_cons.1 hf.nodup).2, hf.assigns⟩

theorem Visits.substituted {u : NodeId} {rest : List NodeId} (hf : Visits policy V f₀ f s r d (u :: rest))
    (hg : Substituted V f g u) (hstep : Step policy V f g) : Visits policy V f₀ g s r d rest := by
  have hmirrored := hf.propagated.sound.mirrored
  have hnodup := List.nodup_cons.1 hf.nodup
  have hne : d ≠ u := (hmirrored.ne_of_mem_uses ((hmirrored.recorded u d).1 (hf.reads u (by simp)))).symm
  refine ⟨hf.propagated.substituted hg hstep, fun x hx => ?_, hnodup.2, hg.assigns s r d hf.assigns⟩
  refine hg.reads x (some d) ?_ (by simpa using hne) (hf.reads x (by simp [hx]))
  rintro rfl
  exact hnodup.1 hx

theorem propagateUse_succeeds (hpolicy : policy.Careful) {u : NodeId} {rest : List NodeId}
    {stats : PropagationStats} (hf : Visits policy V f₀ f s r d (u :: rest)) :
    Succeeds (propagateUse policy s d value stats u) f fun _ g => Visits policy V f₀ g s r d rest := by
  have hsound := hf.propagated.sound
  have hlink := hf.reads u (by simp)
  obtain ⟨a, v, hS, rfl⟩ := hf.assigns.exists_holds hsound.forest
  obtain ⟨around, T, -, hT, hu, hcases⟩ := propagateUse_cases value stats hpolicy hsound hS hlink
  refine hcases.mono ?_
  rintro stats' g (⟨-, rfl, -⟩ | ⟨hanswer, hg, T', hinlined, hnormal⟩)
  · exact hf.skip
  · exact hf.substituted hg (.intro hsound hS hT hu hlink hanswer hg hinlined hnormal)

/-- What is true after a definition's reads were all visited is so after its statement was. -/
theorem propagateStatement_of_holds {stats : PropagationStats} {Q : PropagationStats → Flow → Prop}
    (hf : f.Sound V) (hs : s ∈ f.liveStatements)
    (hother : (∀ r a v, f.Holds s (.node r (.assign a v)) → a.expr.version? = none) → Q stats f)
    (hassign : ∀ r a v, f.Holds s (.node r (.assign a v)) →
      Succeeds ((f.linkOf a.id).uses.foldlM (propagateUse policy s a.id v.id) stats) f Q) :
    Succeeds (propagateStatement policy stats s) f Q := by
  obtain ⟨S, hS⟩ := hf.forest.holds_of_mem hs
  unfold propagateStatement
  refine .of_bind (.of_view hS.rootExpr_eq ?_)
  obtain ⟨r, e⟩ := S
  cases e with
  | assign a v =>
    have ha : Term.Within a (.node r (.assign a v)) := .of_mem_children (by simp [Expr.children])
    obtain ⟨q, hq⟩ := hS.stands.exists_of_within ha
    refine .of_bind (.of_view (expr_eq hq.shape_id) ?_)
    split
    next huntagged =>
      refine .of_pure (hother fun r' a' v' h => ?_)
      cases hS.unique h
      rw [← Expr.version?_eq_of_head_eq (Expr.head_map Term.id a.expr)]
      exact Option.isNone_iff_eq_none.1 huntagged
    next => exact .of_bind (.of_view (uses_eq hq.shape_id) (hassign r a v hS))
  | _ => exact .of_pure (hother fun r' a v h => by cases hS.unique h)

theorem propagateStatement_succeeds (hpolicy : policy.Careful) {stats : PropagationStats}
    (hf : Propagated policy V f₀ f) (hs : s ∈ f.liveStatements) :
    Succeeds (propagateStatement policy stats s) f fun _ g => Propagated policy V f₀ g := by
  refine propagateStatement_of_holds hf.sound hs (fun _ => hf) fun r a v hS => ?_
  refine (Succeeds.of_foldlM (I := fun uses _ g => Visits policy V f₀ g s r a.id uses) ?_ _ ?_).mono ?_
  · exact fun u rest stats g hg => propagateUse_succeeds hpolicy hg
  · obtain ⟨st, hst, hroot, hstands⟩ := hS
    exact ⟨hf, fun u hu => (hf.sound.mirrored.recorded u a.id).2 hu, hf.sound.mirrored.nodup _,
      ⟨st, hst, hroot⟩, v.id, exprAt_eq_some hstands.shape_id⟩
  · exact fun _ g hg => hg.propagated

end Propagation

open Propagation in
/-- Propagating registers succeeds on every sound flow and keeps it sound. -/
theorem propagate_succeeds {policy : PropagationPolicy} (hpolicy : policy.Careful) {f : Flow}
    {V : Locations} (hf : f.Sound V) :
    Succeeds (propagate policy) f fun _ g => Propagated policy V f g := by
  unfold propagate
  refine .of_bind (.of_get ?_)
  refine (Succeeds.of_foldlM (I := fun rest _ g => Propagated policy V f g ∧ rest ⊆ f.liveStatements) ?_ _
    ⟨.refl hf, fun _ h => h⟩).mono fun _ g hg => hg.1
  rintro s rest stats g ⟨hg, hrest⟩
  refine (propagateStatement_succeeds hpolicy hg (hg.liveStatements_eq ▸ hrest (by simp))).mono fun _ h hh => ⟨hh, ?_⟩
  exact fun x hx => hrest (by simp [hx])

end FrameRecovery
