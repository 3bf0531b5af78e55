import FrameRecovery.Proofs.Relabel.Edit
import FrameRecovery.Proofs.Relabel.Plan
import FrameRecovery.Proofs.Tagging.Retag

namespace FrameRecovery

namespace Tagging

open Flow (Relabels)

variable {ρ : String → String} {κ : Location → Location} {x d : NodeId} {block : Address}

theorem markDefinition_relabels (v : Nat) :
    Parallel (Relabels ρ) (fun _ _ => True) (markDefinition x v) (markDefinition x v) :=
  .bind (Edit.setVersion_relabels _) fun _ _ _ => Edit.setLink_relabels (.definition [])

theorem markRead_relabels (D : Option NodeId) :
    Parallel (Relabels ρ) (fun _ _ => True) (markRead x D) (markRead x D) := by
  have hmark : ∀ v, Parallel (Relabels ρ) (fun _ _ => True) (do Edit.setVersion x v; Edit.linkUse x D)
      (do Edit.setVersion x v; Edit.linkUse x D) := fun v =>
    .bind (Edit.setVersion_relabels v) fun _ _ _ => Edit.linkUse_relabels D
  unfold markRead
  cases D with
  | none => exact hmark (some 0)
  | some d =>
    refine .bind Edit.view_expr_relabels ?_
    rintro e _ rfl
    rw [Expr.version?_relabel]
    exact hmark e.version?

theorem freshLike_relabels : Parallel (Relabels ρ) Eq (freshLike x) (freshLike x) := by
  refine .bind Edit.view_expr_relabels ?_
  rintro e _ rfl
  cases e with
  | deref a v =>
    refine .bind Edit.copy_relabels ?_
    rintro y _ rfl
    exact Edit.alloc_relabels (.deref y none)
  | register n v => exact Edit.alloc_relabels (.register n none)
  | _ => exact Edit.alloc_relabels _

theorem thetaInput_relabels (p : Point) : Parallel (Relabels ρ) Eq (thetaInput x p) (thetaInput x p) := by
  refine .bind freshLike_relabels ?_
  rintro y _ rfl
  exact .bind (markRead_relabels _) fun _ _ _ => .of_pure rfl

theorem insertTheta_relabels (position : Nat) (points : List Point) (v : Nat) : Parallel (Relabels ρ) Eq
    (insertTheta block position x points v) (insertTheta block position x points v) := by
  refine .bind (.mapM_same fun p _ => thetaInput_relabels p) ?_
  rintro inputs _ rfl
  refine .bind (Edit.alloc_relabels (.theta inputs)) ?_
  rintro theta _ rfl
  refine .bind freshLike_relabels ?_
  rintro target _ rfl
  refine .bind (markDefinition_relabels v) fun _ _ _ => ?_
  refine .bind (Edit.alloc_relabels (.assign target theta)) ?_
  rintro root _ rfl
  exact .bind (Edit.insertStatement_relabels position root) fun _ _ _ => .of_pure rfl

/-- The same values are kept under other names. -/
def Relocates {α : Type} (κ : Location → Location) (m m' : SortedMap Location α) : Prop :=
  ∀ l, m'.find? (κ l) = m.find? l

theorem Relocates.insert {α : Type} {m m' : SortedMap Location α} (hκ : κ.Injective) (h : Relocates κ m m')
    (l : Location) (a : α) : Relocates κ (m.insert l a) (m'.insert (κ l) a) := by
  intro k
  by_cases hk : k = l
  · subst hk
    rw [SortedMap.find?_insert_self, SortedMap.find?_insert_self]
  · rw [SortedMap.find?_insert_of_ne hk, SortedMap.find?_insert_of_ne (hκ.ne hk), h k]

theorem Versions.next_relocates {vs vs' : Versions} (hκ : κ.Injective) (h : Relocates κ vs vs') (l : Location) :
    (vs'.next (κ l)).1 = (vs.next l).1 ∧ Relocates κ (vs.next l).2 (vs'.next (κ l)).2 := by
  have hv : (vs'.next (κ l)).1 = (vs.next l).1 := by
    unfold Versions.next
    rw [h l]
  refine ⟨hv, ?_⟩
  change Relocates κ (vs.insert l (vs.next l).1) (vs'.insert (κ l) (vs'.next (κ l)).1)
  rw [hv]
  exact h.insert hκ l _

/-- Tagging has come equally far in both flows. -/
structure InStep (κ : Location → Location) (p q : Progress) : Prop where
  versions : Relocates κ p.versions q.versions
  reach : p.reach.Relocates κ q.reach
  merges : Relocates κ p.merges q.merges
  length : q.merges.entries.length = p.merges.entries.length

variable {p q : Progress} {r : Read} (hκ : κ.Injective)
include hκ

theorem merge_relabels (hpq : InStep κ p q) (points : List Point) :
    Parallel (Relabels ρ) (fun a b => b.1 = a.1 ∧ InStep κ a.2 b.2) (merge block points p r)
      (merge block points q (r.relocate κ)) := by
  have hmerge : q.merges.find? (r.relocate κ).location = p.merges.find? r.location := hpq.merges r.location
  unfold merge
  rw [hmerge]
  cases hp : p.merges.find? r.location with
  | some d => exact .of_pure ⟨rfl, hpq⟩
  | none =>
    obtain ⟨hv, hversions⟩ := Versions.next_relocates hκ hpq.versions r.location
    change Parallel _ _ (insertTheta block p.merges.entries.length r.operand points (p.versions.next r.location).1 >>= _)
      (insertTheta block q.merges.entries.length r.operand points (q.versions.next (κ r.location)).1 >>= _)
    rw [hpq.length, hv]
    refine .bind (insertTheta_relabels _ points _) ?_
    rintro d _ rfl
    refine .of_pure ⟨rfl, hversions, hpq.reach, hpq.merges.insert hκ r.location d, ?_⟩
    rw [hp] at hmerge
    rw [SortedMap.length_entries_insert hp, SortedMap.length_entries_insert hmerge, hpq.length]

theorem tagRead_relabels (hpq : InStep κ p q) :
    Parallel (Relabels ρ) (InStep κ) (tagRead block p r) (tagRead block q (r.relocate κ)) := by
  have hmark : ∀ {p q : Progress} (D : Option NodeId), InStep κ p q → Parallel (Relabels ρ) (InStep κ)
      (do markRead r.operand D; return p) (do markRead r.operand D; return q) := fun D hpq =>
    .bind (markRead_relabels D) fun _ _ _ => .of_pure hpq
  have hpoints : q.reach.points (r.relocate κ).location = p.reach.points r.location := hpq.reach r.location
  unfold tagRead
  rw [hpoints]
  split
  · exact hmark none hpq
  · exact hmark none hpq
  next d _ => exact hmark (some d) hpq
  next =>
    refine .bind (merge_relabels hκ hpq _) ?_
    rintro ⟨_, p'⟩ ⟨d, q'⟩ ⟨rfl, hpq'⟩
    exact hmark (some d) hpq'

theorem tagVisit_relabels (hpq : InStep κ p q) (v : Visit) :
    Parallel (Relabels ρ) (InStep κ) (tagVisit block p v) (tagVisit block q (v.relocate κ)) := by
  refine .bind (.foldlM (R := fun r r' => r' = r.relocate κ) ?_ hpq ?_) fun p q hpq => ?_
  · rw [Visit.relocate, List.forall₂_map_right_iff]
    exact List.forall₂_same.2 fun _ _ => rfl
  · rintro p q r _ hpq rfl
    exact tagRead_relabels hκ hpq
  · unfold Visit.relocate
    cases v.definition with
    | none => exact .of_pure hpq
    | some d => exact .of_pure ⟨hpq.versions, hpq.reach.after hκ d, hpq.merges, hpq.length⟩

theorem tagBlock_relabels {versions versions' : Versions} {plan plan' : BlockPlan} (hversions : Relocates κ versions versions')
    (hplan : plan.Relocates κ plan') : Parallel (Relabels ρ) (fun a b => Relocates κ a.1 b.1 ∧ b.2 = a.2)
      (tagBlock versions plan) (tagBlock versions' plan') := by
  obtain ⟨hblock, hreach, hvisits⟩ := hplan
  unfold tagBlock
  rw [hvisits, hblock]
  refine .bind (.foldlM (R := fun v v' => v' = v.relocate κ) (Q := InStep κ) ?_
    ⟨hversions, hreach, fun _ => rfl, rfl⟩ ?_) fun p q hpq => .of_pure ⟨hpq.versions, hpq.length⟩
  · rw [List.forall₂_map_right_iff]
    exact List.forall₂_same.2 fun _ _ => rfl
  · rintro p q v _ hpq rfl
    exact tagVisit_relabels hκ hpq v

theorem tagDefinitions_relabels (ds : List Definition) : Parallel (Relabels ρ) (Relocates κ) (tagDefinitions ds)
    (tagDefinitions (ds.map (Definition.relocate κ))) := by
  refine .foldlM (R := fun d d' => d' = d.relocate κ) ?_ (fun _ => rfl) ?_
  · rw [List.forall₂_map_right_iff]
    exact List.forall₂_same.2 fun _ _ => rfl
  · rintro vs vs' d _ hvs rfl
    obtain ⟨hv, hvs⟩ := Versions.next_relocates hκ hvs d.location
    change Parallel _ _ (markDefinition d.site (Versions.next vs d.location).1 >>= _)
      (markDefinition d.site (Versions.next vs' (κ d.location)).1 >>= _)
    rw [hv]
    exact .bind (markDefinition_relabels _) fun _ _ _ => .of_pure hvs

theorem carryOut_relabels {ps qs : List BlockPlan} (h : List.Forall₂ (BlockPlan.Relocates κ) ps qs) :
    Parallel (Relabels ρ) Eq (carryOut ps) (carryOut qs) := by
  have hdefinitions : ∀ {p q : BlockPlan}, p.Relocates κ q →
      q.definitions = p.definitions.map (Definition.relocate κ) := by
    intro p q hpq
    unfold BlockPlan.definitions
    rw [hpq.visits, List.map_map, ← List.reduceOption_map, List.map_map]
    rfl
  have hall : qs.flatMap BlockPlan.definitions = (ps.flatMap BlockPlan.definitions).map (Definition.relocate κ) := by
    induction h with
    | nil => rfl
    | cons hpq _ ih => rw [List.flatMap_cons, List.flatMap_cons, List.map_append, ih, hdefinitions hpq]
  have huses : (qs.flatMap fun q => q.visits.flatMap Visit.reads).length =
      (ps.flatMap fun p => p.visits.flatMap Visit.reads).length := by
    clear hall
    induction h with
    | nil => rfl
    | cons hpq _ ih =>
      rw [List.flatMap_cons, List.flatMap_cons, List.length_append, List.length_append, ih, hpq.visits,
        List.flatMap_map]
      simp [Visit.relocate, List.length_flatMap]
  unfold carryOut
  rw [hall, huses]
  dsimp only
  rw [List.length_map]
  refine .bind (tagDefinitions_relabels hκ _) fun vs vs' hvs => ?_
  refine .bind (R := fun a b : Versions × Nat => Relocates κ a.1 b.1 ∧ b.2 = a.2) (.foldlM h ⟨hvs, rfl⟩ ?_) ?_
  · rintro ⟨vs, count⟩ ⟨vs', _⟩ plan plan' ⟨hvs, rfl⟩ hplan
    refine .bind (tagBlock_relabels hκ hvs hplan) ?_
    rintro ⟨vs, n⟩ ⟨vs', _⟩ ⟨hvs, rfl⟩
    exact .of_pure ⟨hvs, rfl⟩
  · rintro ⟨vs, count⟩ ⟨vs', _⟩ ⟨-, rfl⟩
    exact .of_pure rfl

/-- Tagging does the same in a flow and in the flow with other names for the registers, if locations that are
    different stay so. -/
theorem tag_relabels {f f' : Flow} {kind : LocationKind} {stats : TagStats} (hf : f.Forest) (hg : (f.relabel ρ).Forest)
    (hconnected : f.Connected) (hcarries : f.Carries ρ κ kind.locate) (hrun : tag kind f = .ok (stats, f')) :
    tag kind (f.relabel ρ) = .ok (stats, f'.relabel ρ) := by
  obtain ⟨ps, qs, hps, hqs, hplans⟩ := Flow.exists_plans_relabel hf hcarries hg hconnected hκ
  rw [tag_eq_carryOut hps] at hrun
  obtain ⟨_, g', hrun', rfl, rfl⟩ := carryOut_relabels hκ hplans f _ stats f' rfl hrun
  exact (tag_eq_carryOut hqs).trans hrun'

end Tagging

end FrameRecovery
