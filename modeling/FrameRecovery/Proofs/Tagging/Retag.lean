import FrameRecovery.Proofs.Flow.Parallel
import FrameRecovery.Proofs.Reaching
import Mathlib.Data.List.ReduceOption

namespace FrameRecovery

namespace Tagging

open Flow

variable {σ : Renumbering} {x : NodeId} {D : Option NodeId} {block : Address}

theorem markDefinition_parallel (v : Nat) :
    Parallel σ.Embeds (fun _ _ => True) (markDefinition x v) (markDefinition (σ.id x) v) :=
  .bind (Edit.setVersion_parallel _) fun _ _ _ => Edit.setLink_parallel (.definition [])

theorem markRead_parallel (D : Option NodeId) :
    Parallel σ.Embeds (fun _ _ => True) (markRead x D) (markRead (σ.id x) (D.map σ.id)) := by
  have hmark : ∀ v, Parallel σ.Embeds (fun _ _ => True)
      (do Edit.setVersion x v; Edit.linkUse x D)
      (do Edit.setVersion (σ.id x) v; Edit.linkUse (σ.id x) (D.map σ.id)) := fun v =>
    .bind (Edit.setVersion_parallel v) fun _ _ _ => Edit.linkUse_parallel x D
  unfold markRead
  cases D with
  | none => exact hmark (some 0)
  | some d =>
    refine .bind Edit.view_expr_parallel ?_
    rintro e _ rfl
    rw [Expr.version?_map]
    exact hmark e.version?

theorem freshLike_parallel : Parallel σ.Embeds (fun x y => y = σ.id x) (freshLike x) (freshLike (σ.id x)) := by
  refine .bind Edit.view_expr_parallel ?_
  rintro e _ rfl
  cases e with
  | deref a v =>
    refine .bind Edit.copy_parallel ?_
    rintro y _ rfl
    exact Edit.alloc_parallel (.deref y none)
  | register n v => exact Edit.alloc_parallel (.register n none)
  | _ => exact Edit.alloc_parallel _

/-- A point that has the same number in both flows. -/
def Fixed (σ : Renumbering) (p : Point) : Prop :=
  ∀ d, p = .definition d → d.index < σ.nodes

theorem Fixed.map_definitionAt {p : Point} (hp : Fixed σ p) : (definitionAt p).map σ.id = definitionAt p := by
  cases p with
  | entry => rfl
  | definition d => exact congrArg some (Renumbering.id_eq_self (hp d rfl))

theorem thetaInput_parallel {p : Point} (hp : Fixed σ p) :
    Parallel σ.Embeds (fun x y => y = σ.id x) (thetaInput x p) (thetaInput (σ.id x) p) := by
  refine .bind freshLike_parallel ?_
  rintro y _ rfl
  have hmark := markRead_parallel (σ := σ) (x := y) (definitionAt p)
  rw [hp.map_definitionAt] at hmark
  exact .bind hmark fun _ _ _ => .of_pure rfl

theorem insertTheta_parallel {points : List Point} (hpoints : ∀ p ∈ points, Fixed σ p) (position v : Nat) :
    Parallel σ.Embeds (fun x y => y = σ.id x) (insertTheta block position x points v)
      (insertTheta block position (σ.id x) points v) := by
  refine .bind (R := List.Forall₂ fun x y => y = σ.id x)
    (.mapM (R := fun p q => p = q ∧ Fixed σ p) (List.forall₂_same.2 fun p hp => ⟨rfl, hpoints p hp⟩) ?_) ?_
  · rintro p _ ⟨rfl, hp⟩
    exact thetaInput_parallel hp
  intro ys zs hids
  obtain rfl : zs = ys.map σ.id := by
    induction hids with
    | nil => rfl
    | cons h _ ih => rw [h, ih, List.map_cons]
  refine .bind (Edit.alloc_parallel (.theta ys)) ?_
  rintro theta _ rfl
  refine .bind freshLike_parallel ?_
  rintro target _ rfl
  refine .bind (markDefinition_parallel v) fun _ _ _ => ?_
  refine .bind (Edit.alloc_parallel (.assign target theta)) ?_
  rintro root _ rfl
  exact .bind (Edit.insertStatement_parallel block position block root) fun _ _ _ => .of_pure rfl

/-- Tagging has come equally far in both flows. -/
structure Abreast (σ : Renumbering) (p q : Progress) : Prop where
  versions : q.versions = p.versions
  reach : q.reach = p.reach
  merges : ∀ l, q.merges.find? l = (p.merges.find? l).map σ.id
  length : q.merges.entries.length = p.merges.entries.length
  fixed : ∀ l, ∀ c ∈ p.reach.points l, Fixed σ c

variable {p q : Progress} {r : Read}

theorem merge_parallel (hpq : Abreast σ p q) (hr : r.operand.index < σ.nodes) {points : List Point}
    (hpoints : ∀ c ∈ points, Fixed σ c) :
    Parallel σ.Embeds (fun a b => b.1 = σ.id a.1 ∧ Abreast σ a.2 b.2) (merge block points p r) (merge block points q r) := by
  unfold merge
  have hmerge := hpq.merges r.location
  cases hp : p.merges.find? r.location with
  | some d =>
    rw [hp] at hmerge
    rw [hmerge]
    exact .of_pure ⟨rfl, hpq⟩
  | none =>
    rw [hp] at hmerge
    rw [hmerge]
    dsimp only [Option.map_none]
    rw [hpq.versions, hpq.length]
    have htheta := @insertTheta_parallel σ r.operand block points hpoints p.merges.entries.length
      (p.versions.next r.location).1
    rw [Renumbering.id_eq_self hr] at htheta
    refine .bind htheta ?_
    rintro d _ rfl
    refine .of_pure ⟨rfl, rfl, hpq.reach, fun l => ?_, ?_, hpq.fixed⟩
    · by_cases hl : l = r.location
      · subst hl
        simp
      · rw [SortedMap.find?_insert_of_ne hl, SortedMap.find?_insert_of_ne hl, hpq.merges]
    · rw [SortedMap.length_entries_insert hp, SortedMap.length_entries_insert hmerge, hpq.length]

theorem tagRead_parallel (hpq : Abreast σ p q) (hr : r.operand.index < σ.nodes) :
    Parallel σ.Embeds (Abreast σ) (tagRead block p r) (tagRead block q r) := by
  have hmark : ∀ {p q : Progress} (D : Option NodeId), Abreast σ p q → Parallel σ.Embeds (Abreast σ)
      (do markRead r.operand D; return p) (do markRead r.operand (D.map σ.id); return q) := by
    intro p q D hpq
    have hmark := markRead_parallel (σ := σ) (x := r.operand) D
    rw [Renumbering.id_eq_self hr] at hmark
    exact .bind hmark fun _ _ _ => .of_pure hpq
  have hfixed := hpq.fixed r.location
  unfold tagRead
  rw [hpq.reach]
  split
  · exact hmark none hpq
  · exact hmark none hpq
  next d hd =>
    have hsame := hmark (some d) hpq
    rwa [Option.map_some, Renumbering.id_eq_self (hfixed (.definition d) (by simp [hd]) d rfl)] at hsame
  next hd =>
    refine .bind (merge_parallel hpq hr hfixed) ?_
    rintro ⟨d, p'⟩ ⟨_, q'⟩ ⟨rfl, hpq'⟩
    exact hmark (some d) hpq'

/-- What there is to tag has the same numbers in both flows. -/
structure FixedPlan (σ : Renumbering) (plan : BlockPlan) : Prop where
  reach : ∀ l, ∀ c ∈ plan.reach.points l, Fixed σ c
  read : ∀ v ∈ plan.visits, ∀ r ∈ v.reads, r.operand.index < σ.nodes
  definition : ∀ v ∈ plan.visits, ∀ d, v.definition = some d → d.site.index < σ.nodes

theorem tagVisit_parallel {v : Visit} (hpq : Abreast σ p q) (hreads : ∀ r ∈ v.reads, r.operand.index < σ.nodes)
    (hdefinition : ∀ d, v.definition = some d → d.site.index < σ.nodes) :
    Parallel σ.Embeds (Abreast σ) (tagVisit block p v) (tagVisit block q v) := by
  refine .bind (.foldlM (R := fun r r' => r = r' ∧ r ∈ v.reads) (List.forall₂_same.2 fun r hr => ⟨rfl, hr⟩) hpq ?_) ?_
  · rintro p q r _ hpq ⟨rfl, hr⟩
    exact tagRead_parallel hpq (hreads r hr)
  · intro p q hpq
    cases hd : v.definition with
    | none => exact .of_pure hpq
    | some d =>
      refine .of_pure ⟨hpq.versions, by rw [hpq.reach], hpq.merges, hpq.length, fun l c hc => ?_⟩
      have hpoints := @Reach.points_foldl_after p.reach l [d]
      rw [List.foldl_cons, List.foldl_nil] at hpoints
      rw [hpoints, Definition.lastSite?_singleton] at hc
      split at hc
      next y hy =>
        split at hy
        · cases hy
          obtain rfl := List.mem_singleton.1 hc
          rintro _ ⟨⟩
          exact hdefinition d hd
        · cases hy
      next => exact hpq.fixed l c hc

theorem tagBlock_parallel {versions : Versions} {plan : BlockPlan} (hplan : FixedPlan σ plan) :
    Parallel σ.Embeds Eq (tagBlock versions plan) (tagBlock versions plan) := by
  refine .bind (.foldlM (R := fun v v' => v = v' ∧ v ∈ plan.visits) (Q := Abreast σ)
    (List.forall₂_same.2 fun v hv => ⟨rfl, hv⟩) ⟨rfl, rfl, fun _ => rfl, rfl, hplan.reach⟩ ?_) ?_
  · rintro p q v _ hpq ⟨rfl, hv⟩
    exact tagVisit_parallel hpq (hplan.read v hv) (hplan.definition v hv)
  · intro p q hpq
    exact .of_pure (by rw [hpq.versions, hpq.length])

theorem tagDefinitions_parallel {ds : List Definition} (hds : ∀ d ∈ ds, d.site.index < σ.nodes) :
    Parallel σ.Embeds Eq (tagDefinitions ds) (tagDefinitions ds) := by
  refine .foldlM (R := fun d d' => d = d' ∧ d ∈ ds) (List.forall₂_same.2 fun d hd => ⟨rfl, hd⟩) rfl ?_
  rintro vs _ d _ rfl ⟨rfl, hd⟩
  have hmark := markDefinition_parallel (σ := σ) (x := d.site) (vs.next d.location).1
  rw [Renumbering.id_eq_self (hds d hd)] at hmark
  exact .bind hmark fun _ _ _ => .of_pure rfl

/-- Tags what there is to tag. -/
def carryOut (plans : List BlockPlan) : Edit TagStats := do
  let definitions := plans.flatMap BlockPlan.definitions
  let versions ← tagDefinitions definitions
  let (_, thetas) ← plans.foldlM (fun (versions, count) plan => do
    let (versions, merges) ← tagBlock versions plan
    return (versions, count + merges)) (versions, 0)
  return {
    definitions := definitions.length
    uses := (plans.flatMap fun p => p.visits.flatMap Visit.reads).length
    thetas := thetas }

theorem tag_eq_carryOut {f : Flow} {kind : LocationKind} {plans : List BlockPlan}
    (hf : BlockPlan.ofFlow f kind = .ok plans) : tag kind f = carryOut plans f := by
  change (BlockPlan.ofFlow f kind >>= fun plans => Except.ok (plans, f)) >>= (fun r => carryOut r.1 r.2) = _
  rw [hf]
  rfl

private theorem carryOut_parallel {plans : List BlockPlan} (hplans : ∀ plan ∈ plans, FixedPlan σ plan) :
    Parallel σ.Embeds Eq (carryOut plans) (carryOut plans) := by
  have hds : ∀ d ∈ plans.flatMap BlockPlan.definitions, d.site.index < σ.nodes := by
    intro d hd
    obtain ⟨plan, hplan, hd⟩ := List.mem_flatMap.1 hd
    obtain ⟨v, hv, hd⟩ := List.mem_map.1 (List.reduceOption_mem_iff.1 hd)
    exact (hplans plan hplan).definition v hv d hd
  refine .bind (tagDefinitions_parallel hds) ?_
  rintro versions _ rfl
  refine .bind (R := Eq) (.foldlM (R := fun plan plan' => plan = plan' ∧ plan ∈ plans)
    (List.forall₂_same.2 fun plan hplan => ⟨rfl, hplan⟩) rfl ?_) ?_
  · rintro ⟨versions, count⟩ _ plan _ rfl ⟨rfl, hplan⟩
    refine .bind (tagBlock_parallel (hplans plan hplan)) ?_
    rintro ⟨versions', merges⟩ _ rfl
    exact .of_pure rfl
  · rintro ⟨versions', thetas⟩ _ rfl
    exact .of_pure rfl

/-- Tagging does the same in a flow and in one in which that is found, if there is the same to tag. -/
theorem tag_parallel {f g f' : Flow} {kind : LocationKind} {plans : List BlockPlan} {stats : TagStats}
    (hfg : σ.Embeds f g) (hf : BlockPlan.ofFlow f kind = .ok plans) (hg : BlockPlan.ofFlow g kind = .ok plans)
    (hplans : ∀ plan ∈ plans, FixedPlan σ plan) (hrun : tag kind f = .ok (stats, f')) :
    ∃ g', tag kind g = .ok (stats, g') ∧ σ.Embeds f' g' := by
  rw [tag_eq_carryOut hf] at hrun
  obtain ⟨_, g', hrun', rfl, hfg'⟩ := carryOut_parallel hplans f g stats f' hfg hrun
  exact ⟨g', (tag_eq_carryOut hg).trans hrun', hfg'⟩

end Tagging

end FrameRecovery
