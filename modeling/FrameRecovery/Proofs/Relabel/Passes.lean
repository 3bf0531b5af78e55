import FrameRecovery.Proofs.Relabel.Edit
import FrameRecovery.Propagation
import FrameRecovery.Pruning
import FrameRecovery.UseChains

namespace FrameRecovery

open Flow (Relabels)

variable {ρ : String → String} {x y u d : NodeId} {s : StatementId}

namespace Edit

theorem view_statement_relabels : Parallel (Relabels ρ) Eq (view (·.statement s) : Edit _) (view (·.statement s)) :=
  .of_view_same fun _ => rfl

theorem view_text_relabels :
    Parallel (Relabels ρ) (fun _ _ => True) (view (·.text x) : Edit _) (view (·.text x)) := by
  refine .of_view ?_
  rintro f _ a rfl ha
  unfold Flow.text at ha ⊢
  rw [Flow.term_relabel]
  cases h : f.term x with
  | error e => simp [h] at ha
  | ok t => exact ⟨_, rfl, trivial⟩

end Edit

namespace Simplify

theorem constant?_relabel (f : Flow) (x : NodeId) : constant? (f.relabel ρ) x = constant? f x := by
  unfold constant?
  rw [Flow.expr_relabel]
  cases f.expr x with
  | error e => rfl
  | ok e => cases e <;> rfl

theorem offset?_relabel (f : Flow) (x : NodeId) : offset? (f.relabel ρ) x = offset? f x := by
  have hconstant : constant? (f.relabel ρ) = constant? f := funext (constant?_relabel f)
  unfold offset?
  rw [Flow.expr_relabel, hconstant]
  cases f.expr x with
  | error e => rfl
  | ok e => cases e <;> rfl

theorem putOffset_relabels (o : Offset) : Parallel (Relabels ρ) Eq (putOffset x o) (putOffset x o) := by
  refine .ite (fun _ => .bind Edit.replaceInParent_relabels fun _ _ _ => .of_pure rfl) fun _ => ?_
  refine .bind (Edit.alloc_relabels (.constant (written o.amount).2)) ?_
  rintro right _ rfl
  exact .bind (Edit.replace_relabels (.binary (written o.amount).1 o.base right)) fun _ _ _ => .of_pure rfl

theorem joinOffset_relabels (o : Offset) (w : Word) :
    Parallel (Relabels ρ) Eq (joinOffset x o w) (joinOffset x o w) := by
  have hput : ∀ o, Parallel (Relabels ρ) Eq (do return some (← putOffset x o)) (do return some (← putOffset x o)) :=
    fun o => .bind (putOffset_relabels o) fun _ _ h => .of_pure (congrArg some h)
  refine .bind (.of_view_same fun f => offset?_relabel f o.base) ?_
  rintro inner _ rfl
  cases inner with
  | some inner => exact hput _
  | none => exact .ite (fun _ => hput o) fun _ => .of_pure rfl

theorem view_constant?_relabels :
    Parallel (Relabels ρ) Eq (Edit.view (constant? · x) : Edit _) (Edit.view (constant? · x)) :=
  .of_view_same fun f => constant?_relabel f x

theorem stepBinary_relabels (op : BinaryOp) (y z : NodeId) :
    Parallel (Relabels ρ) Eq (stepBinary x op y z) (stepBinary x op y z) := by
  refine .bind view_constant?_relabels ?_
  rintro a _ rfl
  refine .bind view_constant?_relabels ?_
  rintro b _ rfl
  cases a with
  | some a =>
    cases b with
    | some b => exact .bind (Edit.replace_relabels (.constant (op.eval a b))) fun _ _ _ => .of_pure rfl
    | none =>
      exact .ite (fun _ => .bind (Edit.replace_relabels (.binary op z y)) fun _ _ _ => .of_pure rfl)
        fun _ => .of_pure rfl
  | none =>
    cases b with
    | some b =>
      dsimp only
      cases signedAmount op b with
      | some amount => exact joinOffset_relabels _ b
      | none => exact .of_pure rfl
    | none => exact .of_pure rfl

theorem step_relabels : Parallel (Relabels ρ) Eq (step x) (step x) := by
  refine .bind Edit.view_expr_relabels ?_
  rintro e _ rfl
  cases e with
  | binary op y z => exact stepBinary_relabels op y z
  | unary op y =>
    refine .bind view_constant?_relabels ?_
    rintro a _ rfl
    cases a with
    | some a => exact .bind (Edit.replace_relabels (.constant (op.eval a))) fun _ _ _ => .of_pure rfl
    | none => exact .of_pure rfl
  | _ => exact .of_pure rfl

theorem steps_relabels (n : Nat) : Parallel (Relabels ρ) Eq (steps n x) (steps n x) := by
  induction n generalizing x with
  | zero => exact .of_fault _ _
  | succ n ih =>
    refine .bind step_relabels ?_
    rintro next _ rfl
    cases next with
    | some next => exact .bind ih fun _ _ h => .of_pure (by rw [h])
    | none => exact .of_pure rfl

theorem within_relabels (depth : Nat) : Parallel (Relabels ρ) Eq (within depth x) (within depth x) := by
  induction depth generalizing x with
  | zero => exact .of_fault _ _
  | succ depth ih =>
    refine .bind Edit.view_children_relabels ?_
    rintro xs _ rfl
    refine .bind (.mapM_same fun c _ => .bind ih fun _ _ h => .of_pure (congrArg Prod.snd h)) ?_
    rintro counts _ rfl
    refine .bind .of_get ?_
    rintro f _ rfl
    have hbound : stepBound (f.relabel ρ) = stepBound f := by
      unfold stepBound
      rw [Flow.depthBound_relabel]
    rw [hbound]
    exact .bind (steps_relabels _) fun _ _ h => .of_pure (by rw [h])

end Simplify

namespace Edit

theorem simplify_relabels : Parallel (Relabels ρ) Eq (simplify x) (simplify x) := by
  refine .bind .of_get ?_
  rintro f _ rfl
  rw [Flow.depthBound_relabel]
  exact Simplify.within_relabels _

theorem simplifyStatement_relabels : Parallel (Relabels ρ) Eq (simplifyStatement s) (simplifyStatement s) := by
  refine .bind view_statement_relabels ?_
  rintro st _ rfl
  exact .bind simplify_relabels fun _ _ h => .of_pure (congrArg Prod.snd h)

end Edit

/-- A machine whose stack pointer has another name. -/
def Machine.relabel (ρ : String → String) (m : Machine) : Machine :=
  { name := m.name, stackPointer := ρ m.stackPointer }

namespace Machine

theorem isStackPointer_relabel (hρ : ρ.Injective) (m : Machine) (t : Term) :
    (m.relabel ρ).isStackPointer (t.relabel ρ) = m.isStackPointer t := by
  unfold isStackPointer
  rw [Term.register?_relabel]
  cases t.register? with
  | none => rfl
  | some n => simp [relabel, hρ.eq_iff]

end Machine

namespace PropagationPolicy

theorem isThetaInput_relabel (f : Flow) (x : NodeId) : isThetaInput (f.relabel ρ) x = isThetaInput f x := by
  unfold isThetaInput
  rw [Flow.parentExpr?_relabel]
  cases f.parentExpr? x with
  | error e => rfl
  | ok e =>
    cases e with
    | none => rfl
    | some e => exact congrArg Except.ok e.isTheta_relabel

/-- The decision does not depend on the names, if that of the stack pointer is changed as well. -/
theorem stackPointer_relabel (hρ : ρ.Injective) (m : Machine) (f : Flow) (d x u : NodeId) :
    stackPointer (m.relabel ρ) (f.relabel ρ) d x u = stackPointer m f d x u := by
  unfold stackPointer
  rw [Flow.term_relabel, Flow.term_relabel, isThetaInput_relabel]
  cases f.term d with
  | error e => rfl
  | ok t =>
    change (if !(m.relabel ρ).isStackPointer (t.relabel ρ) then _ else _) = (if !m.isStackPointer t then _ else _)
    rw [m.isStackPointer_relabel hρ]
    split
    · rfl
    · refine bind_congr fun b => ?_
      split
      · rfl
      · cases f.term x with
        | error e => rfl
        | ok t => exact congrArg Except.ok t.isReplaceable_relabel

end PropagationPolicy

namespace Propagation

theorem valueOf_relabel (f : Flow) (s : StatementId) (x : NodeId) :
    valueOf (f.relabel ρ) s x = valueOf f s x := by
  unfold valueOf
  rw [Flow.rootExpr_relabel]
  cases f.rootExpr s with
  | error e => rfl
  | ok e => cases e <;> rfl

theorem liveStatementOf?_relabel (f : Flow) (x : NodeId) :
    liveStatementOf? (f.relabel ρ) x = liveStatementOf? f x := by
  unfold liveStatementOf?
  rw [Flow.statementOf?_relabel]
  rfl

theorem substitute_relabels : Parallel (Relabels ρ) (fun _ _ => True) (substitute x u s) (substitute x u s) := by
  refine .bind Edit.copy_relabels ?_
  rintro new _ rfl
  refine .bind Edit.unlink_relabels fun _ _ _ => ?_
  refine .bind Edit.replaceInParent_relabels fun _ _ _ => ?_
  exact .bind Edit.simplifyStatement_relabels fun _ _ _ => .of_pure trivial

theorem checkUse_relabels : Parallel (Relabels ρ) (fun _ _ => True) (checkUse d u) (checkUse d u) := by
  refine .bind (.of_lift Edit.view_link_relabels) ?_
  rintro l _ rfl
  refine .ite (fun _ => ?_) fun _ => .of_pure trivial
  refine .bind (.of_lift Edit.view_text_relabels) fun _ _ _ => ?_
  exact .bind (.of_lift Edit.view_text_relabels) fun _ _ _ => .of_throw _ _

variable {policy policy' : PropagationPolicy}

theorem propagateUse_relabels (hpolicy : ∀ f d x u, policy' (f.relabel ρ) d x u = policy f d x u)
    (stats : PropagationStats) : Parallel (Relabels ρ) Eq (propagateUse policy s d x stats u)
      (propagateUse policy' s d x stats u) := by
  refine .bind checkUse_relabels fun _ _ _ => ?_
  refine .bind (.of_lift (.of_view_same fun f => liveStatementOf?_relabel f u)) ?_
  rintro around _ rfl
  cases around with
  | none => exact .of_pure rfl
  | some around =>
    refine .bind (.of_lift (.of_view_same fun f => valueOf_relabel f s x)) ?_
    rintro value _ rfl
    refine .bind (.of_lift (.of_view_same fun f => hpolicy f d value u)) ?_
    rintro b _ rfl
    exact .ite (fun _ => .bind (.of_lift substitute_relabels) fun _ _ _ => .of_pure rfl) fun _ => .of_pure rfl

theorem propagateStatement_relabels (hpolicy : ∀ f d x u, policy' (f.relabel ρ) d x u = policy f d x u)
    (stats : PropagationStats) : Parallel (Relabels ρ) Eq (propagateStatement policy stats s)
      (propagateStatement policy' stats s) := by
  refine .bind (R := fun e e' => e' = e.relabel ρ) (.of_lift (.of_view_map fun f => f.rootExpr_relabel s)) ?_
  rintro e _ rfl
  cases e with
  | assign target value =>
    refine .bind (.of_lift Edit.view_expr_relabels) ?_
    rintro e _ rfl
    rw [Expr.version?_relabel]
    refine .ite (fun _ => .of_pure rfl) fun _ => ?_
    refine .bind (.of_lift (.of_view_same fun f => f.uses_relabel target)) ?_
    rintro us _ rfl
    exact .foldlM_same fun stats u _ => propagateUse_relabels hpolicy stats
  | _ => exact .of_pure rfl

end Propagation

theorem propagate_relabels {policy policy' : PropagationPolicy}
    (hpolicy : ∀ f d x u, policy' (f.relabel ρ) d x u = policy f d x u) :
    Parallel (Relabels ρ) Eq (propagate policy) (propagate policy') := by
  refine .bind (.of_lift .of_get) ?_
  rintro f _ rfl
  exact .foldlM_same fun stats s _ => Propagation.propagateStatement_relabels hpolicy stats

namespace UseChains

theorem disagree_relabels {α : Type} {R : α → α → Prop} (fault fault' : UseFault) :
    Parallel (Relabels ρ) R (disagree d fault) (disagree d fault') :=
  .bind (.of_lift Edit.view_text_relabels) fun _ _ _ => .of_throw _ _

theorem checkRead_relabels : Parallel (Relabels ρ) (fun _ _ => True) (checkRead x d) (checkRead x d) := by
  have hcontains : Parallel (Relabels ρ) (fun _ _ => True)
      (do
        if !(← Edit.view (·.uses d)).contains x then
          disagree d (.unrecorded (← Edit.view (·.text x))) : Pass Unit)
      (do
        if !(← Edit.view (·.uses d)).contains x then
          disagree d (.unrecorded (← Edit.view (·.text x)))) := by
    refine .bind (.of_lift (.of_view_same fun f => f.uses_relabel d)) ?_
    rintro us _ rfl
    exact .ite (fun _ => .bind (.of_lift Edit.view_text_relabels) fun _ _ _ => disagree_relabels _ _)
      fun _ => .of_pure trivial
  refine .bind (.of_lift (.of_view_same fun f => f.isLive_relabel d)) ?_
  rintro b _ rfl
  refine .ite (fun _ => ?_) fun _ => hcontains
  refine .bind (.of_lift Edit.view_text_relabels) fun _ _ _ => ?_
  exact .bind (R := fun _ _ => True) (disagree_relabels _ _) fun _ _ _ => hcontains

theorem checkRecord_relabels : Parallel (Relabels ρ) (fun _ _ => True) (checkRecord d u) (checkRecord d u) := by
  refine .bind (.of_lift Edit.view_link_relabels) ?_
  rintro l _ rfl
  refine .bind (.of_lift (.of_view_same fun f => f.isLive_relabel u)) ?_
  rintro b _ rfl
  exact .ite (fun _ => .bind (.of_lift Edit.view_text_relabels) fun _ _ _ => disagree_relabels _ _)
    fun _ => .of_pure trivial

theorem checkNode_relabels : Parallel (Relabels ρ) (fun _ _ => True) (checkNode x) (checkNode x) := by
  refine .bind (.of_lift Edit.view_link_relabels) ?_
  rintro l _ rfl
  cases l with
  | unlinked => exact .of_pure trivial
  | definition us => exact .forM_same fun _ _ => checkRecord_relabels
  | use D =>
    cases D with
    | none => exact .of_pure trivial
    | some d => exact checkRead_relabels

theorem checkStatement_relabels :
    Parallel (Relabels ρ) (fun _ _ => True) (checkStatement s) (checkStatement s) := by
  refine .bind (.of_lift (.of_view_same fun f => f.operands_relabel s)) ?_
  rintro xs _ rfl
  refine .bind (.forM_same fun _ _ => checkNode_relabels) fun _ _ _ => ?_
  refine .bind (.of_lift Edit.view_statement_relabels) ?_
  rintro st _ rfl
  exact checkNode_relabels

end UseChains

theorem verifyUseChains_relabels : Parallel (Relabels ρ) (fun _ _ => True) verifyUseChains verifyUseChains := by
  refine .bind (.of_lift .of_get) ?_
  rintro f _ rfl
  exact .forM_same fun _ _ => UseChains.checkStatement_relabels

namespace Pruning

theorem isPrunable_relabel (f : Flow) (s : StatementId) : isPrunable (f.relabel ρ) s = isPrunable f s := by
  unfold isPrunable
  rw [Flow.rootExpr_relabel]
  cases f.rootExpr s with
  | error e => rfl
  | ok e =>
    cases e with
    | assign target value =>
      change ((f.relabel ρ).term value >>= fun t => if t.containsCall then _ else
        (f.relabel ρ).expr target >>= fun e => _) = (f.term value >>= fun t => if t.containsCall then _ else
          f.expr target >>= fun e => _)
      rw [Flow.term_relabel, Flow.expr_relabel]
      cases f.term value with
      | error e => rfl
      | ok t =>
        change (if (t.relabel ρ).containsCall then _ else _) = (if t.containsCall then _ else _)
        rw [Term.containsCall_relabel]
        split
        · rfl
        · cases f.expr target with
          | error e => rfl
          | ok e =>
            cases e with
            | register n v =>
              cases v with
              | none => rfl
              | some v =>
                change ((f.relabel ρ).uses target >>= _) = (f.uses target >>= _)
                rw [Flow.uses_relabel]
            | _ => rfl
    | _ => rfl

theorem pruneStatement_relabels : Parallel (Relabels ρ) Eq (pruneStatement s) (pruneStatement s) := by
  refine .bind (.of_view_same fun f => isPrunable_relabel f s) ?_
  rintro b _ rfl
  refine .ite (fun _ => ?_) fun _ => .of_pure rfl
  refine .bind Edit.view_statement_relabels ?_
  rintro st _ rfl
  refine .bind Edit.unlinkSubtree_relabels fun _ _ _ => ?_
  exact .bind Edit.removeStatement_relabels fun _ _ _ => .of_pure rfl

theorem prune_relabels : Parallel (Relabels ρ) Eq prune prune := by
  refine .bind .of_get ?_
  rintro f _ rfl
  exact .bind (.mapM_same fun _ _ => pruneStatement_relabels) fun _ _ h => .of_pure (by rw [h])

theorem rounds_relabels (n : Nat) : Parallel (Relabels ρ) Eq (rounds n) (rounds n) := by
  induction n with
  | zero => exact .of_pure rfl
  | succ n ih =>
    refine .bind prune_relabels ?_
    rintro removed _ rfl
    exact .ite (fun _ => .of_pure rfl) fun _ => .bind ih fun _ _ h => .of_pure (by rw [h])

theorem pruneToFixedPoint_relabels : Parallel (Relabels ρ) Eq pruneToFixedPoint pruneToFixedPoint := by
  refine .bind .of_get ?_
  rintro f _ rfl
  exact rounds_relabels _

end Pruning

end FrameRecovery
