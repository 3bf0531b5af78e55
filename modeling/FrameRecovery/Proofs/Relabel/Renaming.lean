import FrameRecovery.Proofs.Relabel.Passes
import FrameRecovery.Proofs.Machine
import FrameRecovery.Renaming

namespace FrameRecovery

open Flow (Relabels)

variable {ρ : String → String} {α β : Type} {x : NodeId}

/-- The same state beside a flow and beside the flow with other names. -/
def Flow.RelabelsBeside {σ : Type} (ρ : String → String) (p q : σ × Flow) : Prop :=
  q.1 = p.1 ∧ p.2.Relabels ρ q.2

open Flow (RelabelsBeside)

namespace Parallel

variable {σ : Type} {R : α → β → Prop}

theorem of_edit_beside {x : Edit α} {y : Edit β} (h : Parallel (Relabels ρ) R x y) :
    Parallel (RelabelsBeside ρ) R (liftM x : Renaming σ α) (liftM y) := by
  rintro ⟨_, f⟩ ⟨s, g⟩ a ⟨t, f'⟩ ⟨rfl, hfg⟩ hrun
  have hlift : ∀ {α : Type} {x : Edit α} {f f' : Flow} {a : α}, x f = .ok (a, f') →
      (liftM x : Renaming σ α).run s f = .ok ((.ok a, s), f') := by
    intro α x f f' a hx
    change ((x f >>= _) >>= _) = _
    rw [hx]
    rfl
  cases hx : x f with
  | error e =>
    change ((x f >>= _) >>= _) = _ at hrun
    rw [hx] at hrun
    cases hrun
  | ok r =>
    have hrun : (liftM x : Renaming σ α).run s f = .ok ((.ok a, t), f') := hrun
    rw [hlift hx] at hrun
    cases hrun
    obtain ⟨b, g', hy, hR, hfg'⟩ := h f g _ _ hfg hx
    exact ⟨b, (s, g'), hlift hy, hR, rfl, hfg'⟩

theorem of_pass_beside {x : Pass α} {y : Pass β} (h : Parallel (Relabels ρ) R x y) :
    Parallel (RelabelsBeside ρ) R (ExceptT.mk (liftM x.run) : Renaming σ α) (ExceptT.mk (liftM y.run)) := by
  rintro ⟨_, f⟩ ⟨s, g⟩ a ⟨t, f'⟩ ⟨rfl, hfg⟩ hrun
  have hlift : ∀ {α : Type} {x : Pass α} {f f' : Flow} {r : Except Error α}, x.run f = .ok (r, f') →
      (ExceptT.mk (liftM x.run) : Renaming σ α).run s f = .ok ((r, s), f') := by
    intro α x f f' r hx
    change (x.run f >>= _) = _
    rw [hx]
    rfl
  have hrun : (ExceptT.mk (liftM x.run) : Renaming σ α).run s f = .ok ((.ok a, t), f') := hrun
  cases hx : x.run f with
  | error e =>
    change (x.run f >>= _) = _ at hrun
    rw [hx] at hrun
    cases hrun
  | ok r =>
    obtain ⟨r, f₁⟩ := r
    rw [hlift hx] at hrun
    cases hrun
    obtain ⟨b, g', hy, hR, hfg'⟩ := h f g _ _ hfg hx
    exact ⟨b, (s, g'), hlift hy, hR, rfl, hfg'⟩

theorem of_get_beside : Parallel (RelabelsBeside ρ) Eq (getThe σ : Renaming σ σ) (getThe σ) := by
  rintro ⟨_, f⟩ ⟨s, g⟩ a t ⟨rfl, hfg⟩ hrun
  cases hrun
  exact ⟨_, (_, g), rfl, rfl, rfl, hfg⟩

theorem of_set_beside (s : σ) :
    Parallel (RelabelsBeside ρ) (fun _ _ => True) (set s : Renaming σ Unit) (set s) := by
  rintro ⟨_, f⟩ ⟨_, g⟩ a t ⟨rfl, hfg⟩ hrun
  cases hrun
  exact ⟨(), (_, g), rfl, trivial, rfl, hfg⟩

end Parallel

namespace Renaming

variable {σ : Type} {policy policy' : RenamePolicy σ}

theorem put_relabels (e : Expr NodeId) :
    Parallel (Relabels ρ) (fun _ _ => True) (put x e) (put x (e.relabel ρ)) := by
  refine .bind Edit.view_children_relabels ?_
  rintro xs _ rfl
  refine .bind (.forM_same fun _ _ => Edit.unlinkSubtree_relabels) fun _ _ _ => ?_
  rw [Expr.isAssignable_relabel]
  refine .ite (fun _ => ?_) fun _ => Edit.replace_relabels e
  exact .bind Edit.unlink_relabels fun _ _ _ => Edit.replace_relabels e

section Policy

variable (hselects : ∀ f x, policy'.selects (f.relabel ρ) x = policy.selects f x)
  (hreplacement : ∀ x, Parallel (RelabelsBeside ρ) (fun e e' => e' = e.relabel ρ) (policy.replacement x)
    (policy'.replacement x))
include hselects hreplacement

theorem visit_relabels (depth : Nat) :
    Parallel (RelabelsBeside ρ) Eq (visit policy depth x) (visit policy' depth x) := by
  induction depth generalizing x with
  | zero =>
    intro p q a t _ hrun
    cases hrun
  | succ depth ih =>
    refine .bind (.of_edit_beside (.of_view_same fun f => hselects f x)) ?_
    rintro b _ rfl
    refine .ite (fun _ => ?_) fun _ => ?_
    · refine .bind (hreplacement x) ?_
      rintro e _ rfl
      exact .bind (.of_edit_beside (put_relabels e)) fun _ _ _ => .of_pure rfl
    · refine .bind (.of_edit_beside Edit.view_children_relabels) ?_
      rintro xs _ rfl
      exact .bind (.mapM_same fun _ _ => ih) fun _ _ h => .of_pure (by rw [h])

theorem visitStatement_relabels (s : StatementId) :
    Parallel (RelabelsBeside ρ) Eq (visitStatement policy s) (visitStatement policy' s) := by
  refine .bind (.of_edit_beside Edit.view_statement_relabels) ?_
  rintro st _ rfl
  have hbound : Parallel (Relabels ρ) Eq (Edit.view fun f => .ok f.depthBound : Edit Nat)
      (Edit.view fun f => .ok f.depthBound) := .of_view_same fun f => by rw [Flow.depthBound_relabel]
  refine .bind (.of_edit_beside hbound) ?_
  rintro bound _ rfl
  refine .bind (.of_edit_beside Edit.view_children_relabels) ?_
  rintro xs _ rfl
  exact .bind (.mapM_same fun _ _ => visit_relabels hselects hreplacement bound) fun _ _ h => .of_pure (by rw [h])

theorem rename_relabels : Parallel (RelabelsBeside ρ) Eq (rename policy) (rename policy') := by
  have hstatements : Parallel (Relabels ρ) Eq (Edit.view fun f => .ok f.liveStatements : Edit (List StatementId))
      (Edit.view fun f => .ok f.liveStatements) := .of_view_same fun _ => rfl
  refine .bind (.of_edit_beside hstatements) ?_
  rintro ss _ rfl
  exact .bind (.mapM_same fun s _ => visitStatement_relabels hselects hreplacement s) fun _ _ h =>
    .of_pure (by rw [h])

end Policy

end Renaming

namespace Machine

variable {m : Machine}

theorem isFrameAddress_relabel (hρ : ρ.Injective) (hm : m.Regular) (t : Term) :
    (m.relabel ρ).isFrameAddress (t.relabel ρ) = m.isFrameAddress t := by
  have hoffset : (m.relabel ρ).isOffset (t.relabel ρ) = m.isOffset t := by
    rw [hm]
    change Term.isOffsetFrom (ρ m.stackPointer) (t.relabel ρ) = _
    obtain ⟨i, e⟩ := t
    have hbeq : ∀ x : Term, ((x.relabel ρ).register? == some (ρ m.stackPointer)) =
        (x.register? == some m.stackPointer) := isStackPointer_relabel hρ m
    cases e with
    | binary op x y => cases op <;> simp [Expr.map, Expr.relabel, Term.isOffsetFrom, hbeq]
    | _ => simp [Expr.map, Expr.relabel, Term.isOffsetFrom]
  unfold isFrameAddress
  rw [isStackPointer_relabel hρ, hoffset]

theorem offset?_relabel (hρ : ρ.Injective) (negate : Bool) (t : Term) :
    (m.relabel ρ).offset? negate (t.relabel ρ) = m.offset? negate t := by
  obtain ⟨i, e⟩ := t
  have hpointer := isStackPointer_relabel hρ m
  cases e with
  | register n v => simp [Expr.map, Expr.relabel, offset?, relabel, hρ.eq_iff]
  | binary op x y => cases op <;> simp [Expr.map, Expr.relabel, offset?, hpointer]
  | _ => simp [Expr.map, Expr.relabel, offset?]

end Machine

namespace StackRenaming

variable {m : Machine}

theorem isAssigned_relabel (f : Flow) (x : NodeId) : isAssigned (f.relabel ρ) x = isAssigned f x := by
  unfold isAssigned
  rw [Flow.parentExpr?_relabel]
  cases f.parentExpr? x with
  | error e => rfl
  | ok e =>
    cases e with
    | none => rfl
    | some e => cases e <;> rfl

theorem addressOf_relabel (t : Term) : addressOf (t.relabel ρ) = (addressOf t).relabel ρ := by
  obtain ⟨i, e⟩ := t
  cases e <;> simp [Expr.map, Expr.relabel, addressOf]

variable (hρ : ρ.Injective)
include hρ

theorem selects_relabel (hm : m.Regular) (f : Flow) (x : NodeId) :
    selects (m.relabel ρ) (f.relabel ρ) x = selects m f x := by
  have hframe : ∀ y, (do return (m.relabel ρ).isFrameAddress (← (f.relabel ρ).term y) : Except Fault Bool) =
      (do return m.isFrameAddress (← f.term y)) := by
    intro y
    rw [Flow.term_relabel]
    cases f.term y with
    | error e => rfl
    | ok t => exact congrArg Except.ok (Machine.isFrameAddress_relabel hρ hm t)
  unfold selects
  rw [PropagationPolicy.isThetaInput_relabel, Flow.expr_relabel]
  refine bind_congr fun b => ?_
  split
  · rfl
  cases f.expr x with
  | error e => rfl
  | ok e =>
    cases e with
    | deref y v => exact hframe y
    | register n v =>
      change (isAssigned (f.relabel ρ) x >>= _) = (isAssigned f x >>= _)
      rw [isAssigned_relabel]
      refine bind_congr fun b => ?_
      cases b with
      | false => exact hframe x
      | true =>
        rw [Flow.term_relabel]
        cases f.term x <;> rfl
    | _ => exact hframe x

theorem locate_relabels (negate : Bool) :
    Parallel (Relabels ρ) Eq (locate m negate x) (locate (m.relabel ρ) negate x) := by
  refine .bind (.of_lift Edit.view_term_relabels) ?_
  rintro t _ rfl
  rw [addressOf_relabel, Machine.offset?_relabel hρ]
  cases m.offset? negate (addressOf t) with
  | some offset => exact .of_pure rfl
  | none =>
    refine .bind (R := Eq) (.of_lift (.of_view_same fun f => ?_)) fun _ _ _ => .of_throw _ _
    unfold instructionOf
    rw [Flow.statementOf?_relabel]
    rfl

theorem replacement_relabels (negate : Bool) (x : NodeId) :
    Parallel (RelabelsBeside ρ) (fun e e' => e' = e.relabel ρ) (replacement m negate x)
      (replacement (m.relabel ρ) negate x) := by
  refine .bind (.of_pass_beside (locate_relabels hρ negate)) ?_
  rintro offset _ rfl
  refine .bind .of_get_beside ?_
  rintro frame _ rfl
  refine .bind (.of_set_beside _) fun _ _ _ => ?_
  refine .bind (.of_edit_beside Edit.snapshot_relabels) ?_
  rintro origin _ rfl
  refine .bind (.of_edit_beside Edit.view_expr_relabels) ?_
  rintro e _ rfl
  have haddress : Parallel (RelabelsBeside ρ) (fun e e' => e' = e.relabel ρ)
      (do return .addressOf (← Edit.alloc (.var (Frame.variableName (frame.assign offset).1) none origin)) :
        Renaming Frame (Expr NodeId))
      (do return .addressOf (← Edit.alloc (.var (Frame.variableName (frame.assign offset).1) none origin))) := by
    refine .bind (.of_edit_beside (Edit.alloc_relabels _)) ?_
    rintro y _ rfl
    exact .of_pure rfl
  cases e with
  | deref y v =>
    refine .bind (.of_edit_beside Edit.view_link_relabels) ?_
    rintro l _ rfl
    cases l <;> exact .of_pure rfl
  | _ => exact haddress

theorem rename_relabels (hm : m.Regular) (negate : Bool) : Parallel (RelabelsBeside ρ) Eq
    (Renaming.rename (policy m negate)) (Renaming.rename (policy (m.relabel ρ) negate)) :=
  Renaming.rename_relabels (selects_relabel hρ hm) (replacement_relabels hρ negate)

end StackRenaming

end FrameRecovery
