import FrameRecovery.Proofs.Relabel.Flow
import FrameRecovery.Proofs.Tagging.Plan

namespace FrameRecovery

/-- The definition under another name of its location. -/
def Definition.relocate (κ : Location → Location) (d : Definition) : Definition :=
  { d with location := κ d.location }

/-- The read under another name of its location. -/
def Read.relocate (κ : Location → Location) (r : Read) : Read :=
  { r with location := κ r.location }

/-- The visit under other names of the locations. -/
def Visit.relocate (κ : Location → Location) (v : Visit) : Visit :=
  ⟨v.statement, v.reads.map (Read.relocate κ), v.definition.map (Definition.relocate κ)⟩

/-- What reaches a location in one reach is what reaches it under its other name in the other. -/
def Reach.Relocates (κ : Location → Location) (r r' : Reach) : Prop :=
  ∀ l, r'.points (κ l) = r.points l

/-- What there is to tag in a block is the same under other names of the locations. -/
structure BlockPlan.Relocates (κ : Location → Location) (p q : BlockPlan) : Prop where
  block : q.block = p.block
  reach : p.reach.Relocates κ q.reach
  visits : q.visits = p.visits.map (Visit.relocate κ)

variable {κ : Location → Location} {l l' : Location}

theorem Definition.lastSite?_relocate (hκ : κ.Injective) (l : Location) (ds : List Definition) :
    lastSite? (κ l) (ds.map (relocate κ)) = lastSite? l ds := by
  unfold lastSite?
  rw [← List.map_reverse, List.find?_map, Option.map_map]
  have htest : ((fun d : Definition => d.location == κ l) ∘ relocate κ) = fun d => d.location == l := by
    funext d
    simp [relocate, hκ.eq_iff]
  rw [htest]
  rfl

namespace Reach

variable {r r' : Reach}

/-- The points of a location are known from what reaches it. -/
theorem Proper.points_congr (hr : r.Proper) (hr' : r'.Proper) (h : ∀ p, r'.Brings l' p ↔ r.Brings l p) :
    r'.points l' = r.points l := by
  have hsorted : ∀ (r : Reach) l, (r.points l).Pairwise fun p q => compare p q = .lt := by
    intro r l
    unfold points
    split
    next ps _ => exact ps.increasing
    next => exact List.pairwise_singleton _ _
  have hmem : ∀ {r : Reach} {l}, r.Proper → ∀ p, p ∈ r.points l ↔ r.Brings l p := by
    intro r l hr p
    refine (brings_of_points_ne_nil fun hnil => ?_).symm
    rcases hr.points_eq l with ⟨heq, -⟩ | ⟨⟨q, hq⟩, hiff⟩
    · simp [hnil] at heq
    · simpa [hnil] using (hiff q).2 hq
  have hperm : (r'.points l').Perm (r.points l) :=
    (List.perm_ext_iff_of_nodup (nodup_points _ _) (nodup_points _ _)).2 fun p => by rw [hmem hr, hmem hr', h]
  refine hperm.eq_of_pairwise (fun p q _ _ hpq hqp => ?_) (hsorted _ _) (hsorted _ _)
  rw [@Std.OrientedCmp.eq_swap _ compare, hpq] at hqp
  cases hqp

theorem Relocates.after (hκ : κ.Injective) (h : r.Relocates κ r') (d : Definition) :
    (r.after d).Relocates κ (r'.after (d.relocate κ)) := by
  intro l
  have hleft := @points_foldl_after r l [d]
  have hright := @points_foldl_after r' (κ l) [d.relocate κ]
  rw [List.foldl_cons, List.foldl_nil] at hleft hright
  have hlast := Definition.lastSite?_relocate hκ l [d]
  rw [List.map_cons, List.map_nil] at hlast
  rw [hleft, hright, hlast, h l]

end Reach

namespace Flow

variable {f : Flow} {ρ : String → String} {locate : Term → Option Location} {kind : LocationKind} {a : Address}
  {s : StatementId} {t : Term}

/-- Whatever operand is located in a flow is located under the other name of its location in the flow with other
    names for the registers. -/
def Carries (f : Flow) (ρ : String → String) (κ : Location → Location) (locate : Term → Option Location) : Prop :=
  ∀ s t u, f.Live s → f.Holds s t → Term.Within u t → locate (u.relabel ρ) = (locate u).map κ

theorem path_relabel {as : List Address} : (f.relabel ρ).Path as a ↔ f.Path as a := by
  have hgraph : f.SameGraph (f.relabel ρ) := .of_blocks_eq rfl rfl
  exact ⟨hgraph.symm.path, hgraph.path⟩

/-- The trees of a flow with other names are those of the flow, with the other names. -/
theorem Holds.relabel (ht : f.Holds s t) (hs : f.Live s) (hg : (f.relabel ρ).Forest) :
    (f.relabel ρ).Holds s (t.relabel ρ) := by
  obtain ⟨t', ht'⟩ := hg.holds_of_mem (hg.mem_liveStatements.2 hs)
  have hterm := ht'.statementTerm_eq
  rw [statementTerm_relabel, ht.statementTerm_eq] at hterm
  cases hterm
  exact ht'

section Forest

variable (hf : f.Forest) (hcarries : f.Carries ρ κ locate)
include hf hcarries

theorem definitionOf_relabel (hs : s ∈ f.statementsAt a) : Summary.definitionOf (f.relabel ρ) locate s =
    (Summary.definitionOf f locate s).map (Definition.relocate κ) := by
  obtain ⟨t, ht⟩ := hf.exists_holds hs
  rw [Summary.definitionOf_eq ht]
  unfold Summary.definitionOf
  rw [statementTerm_relabel, ht.statementTerm_eq]
  change Term.definition? locate s (t.relabel ρ) = _
  have hlocate := hcarries s t
  obtain ⟨i, e⟩ := t
  cases e with
  | assign x y =>
    have hx := hlocate x (hf.live hs) ht (.of_mem_children (by simp [Expr.children]))
    simp only [Term.relabel_node, Expr.map, Expr.relabel, Term.definition?, hx, Term.id_relabel, Option.map_map]
    rfl
  | _ => simp [Expr.map, Expr.relabel, Term.definition?]

theorem filterMap_definitionOf_relabel {ss : List StatementId} (hss : ∀ s ∈ ss, ∃ a, s ∈ f.statementsAt a) :
    ss.filterMap (Summary.definitionOf (f.relabel ρ) locate) =
      (ss.filterMap (Summary.definitionOf f locate)).map (Definition.relocate κ) := by
  rw [List.map_filterMap]
  refine List.filterMap_congr fun s hs => ?_
  obtain ⟨a, ha⟩ := hss s hs
  exact definitionOf_relabel hf hcarries ha

/-- What reaches the start of a block is found in both flows. -/
theorem reachIn_relocates (hg : (f.relabel ρ).Forest) (hconnected : f.Connected) (hκ : κ.Injective)
    (ha : f.block? a ≠ none) :
    ((Summary.summaryOf f locate).reachIn (Summary.summaryOf f locate).reachOut (Summary.blockAt f locate a)).Relocates κ
      ((Summary.summaryOf (f.relabel ρ) locate).reachIn (Summary.summaryOf (f.relabel ρ) locate).reachOut
        (Summary.blockAt (f.relabel ρ) locate a)) := by
  have hgraph : f.SameGraph (f.relabel ρ) := .of_blocks_eq rfl rfl
  have hconnected' := hgraph.connected hconnected
  have hproper : ∀ {h : Flow}, h.Forest → ∀ b, ((Summary.summaryOf h locate).reachIn
      (Summary.summaryOf h locate).reachOut b).Proper := fun hh b =>
    Summary.proper_reachIn (Summary.lawful hh).fair_analyze.1.proper
  intro l
  refine (hproper hf _).points_congr (hproper hg _) fun p => ?_
  rw [Summary.brings_iff hf hconnected ha, Summary.brings_iff hg hconnected' ha]
  refine exists_congr fun as => ?_
  rw [path_relabel]
  refine and_congr_right fun _ => ?_
  have hstatements : (f.relabel ρ).statementsAt = f.statementsAt := rfl
  rw [hstatements, filterMap_definitionOf_relabel hf hcarries fun s hs => ?_, Definition.lastSite?_relocate hκ]
  obtain ⟨a, -, hs⟩ := List.mem_flatMap.1 hs
  exact ⟨a, hs⟩

end Forest

section Kind

theorem isUnread_relabel (x : NodeId) (e : Expr NodeId) : kind.isUnread x (e.relabel ρ) = kind.isUnread x e := by
  cases e <;> rfl

variable (hf : f.Forest) (hcarries : f.Carries ρ κ kind.locate)
include hcarries

theorem readAt_relabel {x : NodeId} (hs : f.Live s) (ht : f.Holds s t) (hx : x ∈ t.preorder) :
    BlockPlan.readAt (f.relabel ρ) kind x = (BlockPlan.readAt f kind x).map (Read.relocate κ) := by
  obtain ⟨u, hu, rfl⟩ := Term.exists_within_of_mem_preorder hx
  have hlocate : kind.locateRead (f.relabel ρ) u.id = (kind.locateRead f u.id).map (Option.map κ) := by
    unfold LocationKind.locateRead
    rw [parentExpr?_relabel, term_relabel, ht.term_eq hu]
    refine map_bind fun e => ?_
    have hself : (Except.ok (u.relabel ρ) >>= fun t => Except.ok (kind.locate t) : Except Fault (Option Location)) =
        (Except.ok u >>= fun t => Except.ok (kind.locate t)).map (Option.map κ) :=
      congrArg Except.ok (hcarries s t u hs ht hu)
    cases e with
    | none => exact hself
    | some e =>
      change (if kind.isUnread u.id (e.relabel ρ) then _ else _) = Except.map _ (if kind.isUnread u.id e then _ else _)
      rw [isUnread_relabel]
      split
      · rfl
      · exact hself
  unfold BlockPlan.readAt
  rw [hlocate]
  cases kind.locateRead f u.id with
  | error e => rfl
  | ok l => cases l <;> rfl

include hf

theorem visitAt_relabel (hg : (f.relabel ρ).Forest) (hs : s ∈ f.statementsAt a) :
    BlockPlan.visitAt (f.relabel ρ) kind s = (BlockPlan.visitAt f kind s).relocate κ := by
  obtain ⟨t, ht⟩ := hf.exists_holds hs
  have ht' := ht.relabel (hf.live hs) hg
  have hreads : BlockPlan.readsAt (f.relabel ρ) kind s = (BlockPlan.readsAt f kind s).map (Read.relocate κ) := by
    rw [BlockPlan.readsAt_eq ht, BlockPlan.readsAt_eq ht', Term.preorder_relabel, List.map_filterMap]
    exact List.filterMap_congr fun x hx => readAt_relabel hcarries (hf.live hs) ht (List.mem_of_mem_tail hx)
  unfold BlockPlan.visitAt
  rw [hreads, definitionOf_relabel hf hcarries hs]
  rfl

theorem planAt_relocates (hg : (f.relabel ρ).Forest) (hconnected : f.Connected) (hκ : κ.Injective)
    (ha : f.block? a ≠ none) :
    (BlockPlan.planAt f kind a).Relocates κ (BlockPlan.planAt (f.relabel ρ) kind a) := by
  refine ⟨rfl, reachIn_relocates hf hcarries hg hconnected hκ ha, ?_⟩
  change (f.statementsAt a).map _ = ((f.statementsAt a).map _).map _
  rw [List.map_map]
  exact List.map_congr_left fun s hs => visitAt_relabel hf hcarries hg hs

/-- What there is to tag in a flow is there to tag in the flow with other names for the registers. -/
theorem exists_plans_relabel (hg : (f.relabel ρ).Forest) (hconnected : f.Connected) (hκ : κ.Injective) :
    ∃ ps qs, BlockPlan.ofFlow f kind = .ok ps ∧ BlockPlan.ofFlow (f.relabel ρ) kind = .ok qs ∧
      List.Forall₂ (BlockPlan.Relocates κ) ps qs := by
  refine ⟨_, _, BlockPlan.ofFlow_eq hf, BlockPlan.ofFlow_eq hg, ?_⟩
  rw [List.forall₂_map_left_iff, List.forall₂_map_right_iff]
  refine List.forall₂_same.2 fun a ha => planAt_relocates hf hcarries hg hconnected hκ ?_
  obtain ⟨b, hb⟩ := SortedMap.mem_keys.1 ha
  exact Option.ne_none_iff_exists'.2 ⟨b, hb⟩

end Kind

end Flow

end FrameRecovery
