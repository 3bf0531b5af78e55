import FrameRecovery.Proofs.Flow.Parallel
import FrameRecovery.Proofs.Relabel.Flow

namespace FrameRecovery

/-- A flow `g` is a flow `f` with other names for the registers. -/
def Flow.Relabels (ρ : String → String) (f g : Flow) : Prop :=
  g = f.relabel ρ

open Flow (Relabels)

variable {ρ : String → String} {α α' : Type}

namespace Parallel

theorem of_view_map {r : α → α'} {read : Flow → Except Fault α} {read' : Flow → Except Fault α'}
    (h : ∀ f, read' (f.relabel ρ) = (read f).map r) :
    Parallel (Relabels ρ) (fun a b => b = r a) (Edit.view read : Edit α) (Edit.view read') := by
  refine of_view fun f g a hfg ha => ⟨r a, ?_, rfl⟩
  rw [hfg, h, ha]
  rfl

theorem of_view_same {read read' : Flow → Except Fault α} (h : ∀ f, read' (f.relabel ρ) = read f) :
    Parallel (Relabels ρ) Eq (Edit.view read : Edit α) (Edit.view read') := by
  refine of_view fun f g a hfg ha => ⟨a, ?_, rfl⟩
  rw [hfg, h, ha]

end Parallel

namespace Edit

variable {x y d u : NodeId} {e : Expr NodeId} {s : StatementId} {block address : Address}

theorem modifyNode_relabels {change change' : Node → Node}
    (hchange : ∀ n, change' (n.relabel ρ) = (change n).relabel ρ) :
    Parallel (Relabels ρ) (fun _ _ => True) (modifyNode x change) (modifyNode x change') := by
  refine .of_edit fun f g a f' hfg hrun => ?_
  unfold modifyNode at hrun
  split at hrun
  next n hn =>
    cases hrun
    refine ⟨(), _, ?_, trivial, rfl⟩
    rw [hfg, modifyNode, Flow.getElem?_relabel, hn]
    simp [Flow.relabel, hchange]
  next => cases hrun

theorem setPlace_relabels (p : Place) :
    Parallel (Relabels ρ) (fun _ _ => True) (setPlace x p) (setPlace x p) :=
  modifyNode_relabels fun _ => rfl

theorem setExpr_relabels (e : Expr NodeId) :
    Parallel (Relabels ρ) (fun _ _ => True) (setExpr x e) (setExpr x (e.relabel ρ)) :=
  modifyNode_relabels fun _ => rfl

theorem setLink_relabels (l : Link) :
    Parallel (Relabels ρ) (fun _ _ => True) (setLink x l) (setLink x l) :=
  modifyNode_relabels fun _ => rfl

theorem view_expr_relabels :
    Parallel (Relabels ρ) (fun e e' => e' = e.relabel ρ) (view (·.expr x) : Edit _) (view (·.expr x)) :=
  .of_view_map fun f => f.expr_relabel x

theorem view_term_relabels :
    Parallel (Relabels ρ) (fun t t' => t' = t.relabel ρ) (view (·.term x) : Edit _) (view (·.term x)) :=
  .of_view_map fun f => f.term_relabel x

theorem view_link_relabels : Parallel (Relabels ρ) Eq (view (·.link x) : Edit _) (view (·.link x)) :=
  .of_view_same fun f => f.link_relabel x

theorem view_children_relabels : Parallel (Relabels ρ) Eq (view (·.children x) : Edit _) (view (·.children x)) :=
  .of_view_same fun f => f.children_relabel x

theorem setVersion_relabels (v : Option Nat) :
    Parallel (Relabels ρ) (fun _ _ => True) (setVersion x v) (setVersion x v) := by
  refine .bind view_expr_relabels ?_
  rintro e _ rfl
  rw [Expr.withVersion?_relabel]
  cases e.withVersion? v with
  | some e' => exact setExpr_relabels e'
  | none => exact .of_fault _ _

theorem setPlaces_relabels (xs : List NodeId) (p : Place) : Parallel (Relabels ρ) (fun _ _ => True)
    (xs.forM fun c => setPlace c p) (xs.forM fun c => setPlace c p) :=
  .forM_same fun _ _ => setPlace_relabels p

theorem alloc_relabels (e : Expr NodeId) :
    Parallel (Relabels ρ) Eq (alloc e) (alloc (e.relabel ρ)) := by
  refine .bind .of_get ?_
  rintro f _ rfl
  have hsize : (f.relabel ρ).nodes.size = f.nodes.size := Array.size_map ..
  rw [hsize, Expr.children_relabel]
  refine .bind (setPlaces_relabels _ _) fun _ _ _ => ?_
  refine .bind (.of_modify ?_) fun _ _ _ => .of_pure rfl
  rintro f _ rfl
  unfold Relabels Flow.relabel
  rw [Array.map_push]
  rfl

theorem replace_relabels (e : Expr NodeId) :
    Parallel (Relabels ρ) (fun _ _ => True) (replace x e) (replace x (e.relabel ρ)) := by
  refine .bind view_children_relabels ?_
  rintro xs _ rfl
  refine .bind (setPlaces_relabels _ _) fun _ _ _ => ?_
  rw [Expr.children_relabel]
  exact .bind (setPlaces_relabels _ _) fun _ _ _ => setExpr_relabels e

theorem modify_relabels {change : Flow → Flow} (hchange : ∀ f, change (f.relabel ρ) = (change f).relabel ρ) :
    Parallel (Relabels ρ) (fun _ _ => True) (modify change : Edit Unit) (modify change) := by
  refine .of_modify ?_
  rintro f _ rfl
  exact hchange f

theorem replaceInParent_relabels :
    Parallel (Relabels ρ) (fun _ _ => True) (replaceInParent x y) (replaceInParent x y) := by
  refine .bind (R := fun n n' => n' = n.relabel ρ) (.of_view_map fun f => f.node_relabel x) ?_
  rintro ⟨e, place, l⟩ _ rfl
  have hplaces : Parallel (Relabels ρ) (fun _ _ => True) (do setPlace y place; setPlace x .detached)
      (do setPlace y place; setPlace x .detached) :=
    .bind (setPlace_relabels place) fun _ _ _ => setPlace_relabels .detached
  cases place with
  | child p =>
    refine .bind view_expr_relabels ?_
    rintro e _ rfl
    rw [← Expr.relabel_map]
    exact .bind (setExpr_relabels _) fun _ _ _ => hplaces
  | root s => exact .bind (modify_relabels fun _ => rfl) fun _ _ _ => hplaces
  | detached => exact hplaces

theorem recordUse_relabels : Parallel (Relabels ρ) (fun _ _ => True) (recordUse d u) (recordUse d u) := by
  refine .bind view_link_relabels ?_
  rintro l _ rfl
  cases l with
  | definition us => exact setLink_relabels _
  | _ => exact .of_pure trivial

theorem strikeUse_relabels : Parallel (Relabels ρ) (fun _ _ => True) (strikeUse d u) (strikeUse d u) := by
  refine .bind view_link_relabels ?_
  rintro l _ rfl
  cases l with
  | definition us => exact setLink_relabels _
  | _ => exact .of_pure trivial

theorem linkUse_relabels (D : Option NodeId) :
    Parallel (Relabels ρ) (fun _ _ => True) (linkUse u D) (linkUse u D) := by
  refine .bind (setLink_relabels _) fun _ _ _ => ?_
  cases D with
  | none => exact .of_pure trivial
  | some d => exact recordUse_relabels

theorem unlink_relabels : Parallel (Relabels ρ) (fun _ _ => True) (unlink x) (unlink x) := by
  refine .bind view_link_relabels ?_
  rintro l _ rfl
  refine .bind (setLink_relabels _) fun _ _ _ => ?_
  cases l with
  | unlinked => exact .of_pure trivial
  | definition us => exact .forM_same fun _ _ => setLink_relabels _
  | use D =>
    cases D with
    | none => exact .of_pure trivial
    | some d => exact strikeUse_relabels

theorem unlinkSubtree_relabels :
    Parallel (Relabels ρ) (fun _ _ => True) (unlinkSubtree x) (unlinkSubtree x) := by
  refine .bind view_term_relabels ?_
  rintro t _ rfl
  rw [Term.postorder_relabel]
  exact .forM_same fun _ _ => unlink_relabels

theorem mapM_expr_relabels {k k' : α → Edit NodeId} {e : Expr α}
    (hk : ∀ c ∈ e.children, Parallel (Relabels ρ) Eq (k c) (k' c)) :
    Parallel (Relabels ρ) (fun e e' => e' = e.relabel ρ) (e.mapM k) ((e.relabel ρ).mapM k') := by
  rw [Expr.mapM_eq, Expr.mapM_eq, Expr.children_relabel, map_eq_pure_bind, map_eq_pure_bind]
  refine .bind (.mapM_same hk) ?_
  rintro ys _ rfl
  exact .of_pure (Expr.refill_relabel e ys)

/-- What is built from a tree, node by node, is built from the tree with other names in the same way. -/
theorem fold_relabels {k : NodeId → Expr NodeId → Edit NodeId}
    (hk : ∀ i e, Parallel (Relabels ρ) Eq (k i e) (k i (e.relabel ρ))) (t : Term) :
    Parallel (Relabels ρ) Eq (t.fold fun i e => do k i (← e.mapM fun child => child))
      ((t.relabel ρ).fold fun i e => do k i (← e.mapM fun child => child)) := by
  induction t using Term.induction with
  | step i e ih =>
    rw [Term.relabel_node, Expr.relabel_map, Term.fold_node, Term.fold_node, Expr.map_map, Expr.mapM_map, Expr.mapM_map]
    refine .bind (mapM_expr_relabels ih) ?_
    rintro e' _ rfl
    exact hk i e'

theorem copy_relabels : Parallel (Relabels ρ) Eq (copy x) (copy x) := by
  refine .bind view_term_relabels ?_
  rintro t _ rfl
  refine fold_relabels (fun i e => ?_) t
  refine .bind (alloc_relabels e) ?_
  rintro new _ rfl
  refine .bind view_link_relabels ?_
  rintro l _ rfl
  cases l with
  | use D => exact .bind (linkUse_relabels D) fun _ _ _ => .of_pure rfl
  | _ => exact .of_pure rfl

theorem snapshot_relabels : Parallel (Relabels ρ) Eq (snapshot x) (snapshot x) := by
  refine .bind view_term_relabels ?_
  rintro t _ rfl
  exact fold_relabels (fun _ e => alloc_relabels e) t

theorem insertStatement_relabels (position : Nat) (root : NodeId) : Parallel (Relabels ρ) Eq
    (insertStatement block position address root) (insertStatement block position address root) := by
  refine .bind .of_get ?_
  rintro f _ rfl
  refine .bind (modify_relabels fun _ => rfl) fun _ _ _ => ?_
  refine .bind (setPlace_relabels _) fun _ _ _ => ?_
  refine .bind .of_get ?_
  rintro g _ rfl
  rw [Flow.block?_relabel]
  cases g.block? block with
  | none => exact .of_fault _ _
  | some b =>
    refine .ite (fun _ => .bind (.of_fault (R := fun _ _ => True) _ _) fun _ _ h => ?_) fun _ => ?_
    all_goals exact .bind (modify_relabels fun _ => rfl) fun _ _ _ => .of_pure rfl

theorem pushStatement_relabels (root : NodeId) : Parallel (Relabels ρ) Eq
    (pushStatement block address root) (pushStatement block address root) := by
  refine .bind .of_get ?_
  rintro f _ rfl
  rw [Flow.block?_relabel]
  cases f.block? block with
  | none => exact .of_fault _ _
  | some b => exact insertStatement_relabels b.statements.length root

theorem removeStatement_relabels : Parallel (Relabels ρ) (fun _ _ => True) (removeStatement s) (removeStatement s) := by
  refine .bind (.of_view_same fun _ => rfl) ?_
  rintro st _ rfl
  split
  · exact .of_fault _ _
  · refine .of_modify ?_
    rintro f _ rfl
    rfl

end Edit

end FrameRecovery
