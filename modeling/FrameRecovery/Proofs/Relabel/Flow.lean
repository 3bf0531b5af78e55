import FrameRecovery.Proofs.Flow.Embedding
import FrameRecovery.Simplify

namespace FrameRecovery

section Except

variable {ε α α' β β' : Type} {r : α → α'} {q : β → β'}

theorem map_bind {x : Except ε α} {k : α → Except ε β} {k' : α' → Except ε β'} (h : ∀ a, k' (r a) = (k a).map q) :
    (x.map r >>= k') = (x >>= k).map q := by
  cases x with
  | error e => rfl
  | ok a => exact h a

/-- The same computation first, then one after the other. -/
theorem bind_map {x : Except ε α} {k : α → Except ε β} {k' : α → Except ε β'} (h : ∀ a, k' a = (k a).map q) :
    (x >>= k') = (x >>= k).map q := by
  cases x with
  | error e => rfl
  | ok a => exact h a

theorem mapM_map_map {k : α → Except ε β} {k' : α' → Except ε β'} {xs : List α} (h : ∀ x ∈ xs, k' (r x) = (k x).map q) :
    (xs.map r).mapM k' = (xs.mapM k).map (List.map q) := by
  induction xs with
  | nil => rfl
  | cons x rest ih =>
    rw [List.map_cons, List.mapM_cons, List.mapM_cons, h x (by simp), ih fun y hy => h y (by simp [hy])]
    exact map_bind fun y => map_bind fun ys => rfl

theorem mapM_map_right {k : α → Except ε β} {k' : α → Except ε β'} {xs : List α} (h : ∀ x ∈ xs, k' x = (k x).map q) :
    xs.mapM k' = (xs.mapM k).map (List.map q) := by
  have hmap := mapM_map_map (r := id) h
  rwa [List.map_id] at hmap

end Except

variable {ρ σ : String → String}

namespace Expr

variable {α β : Type}

/-- The expression with another name for the register, if it is one. -/
def relabel (ρ : String → String) : Expr α → Expr α
  | register n v => register (ρ n) v
  | e => e

@[simp] theorem children_relabel (e : Expr α) : (e.relabel ρ).children = e.children := by
  cases e <;> rfl

theorem relabel_map (f : α → β) (e : Expr α) : (e.map f).relabel ρ = (e.relabel ρ).map f := by
  cases e <;> rfl

theorem refill_relabel (e : Expr α) (ys : List β) : (e.relabel ρ).refill ys = (e.refill ys).relabel ρ := by
  cases e with
  | ret x => cases x <;> rcases ys with _ | ⟨y, _ | ⟨y', ys⟩⟩ <;> rfl
  | _ => rcases ys with _ | ⟨y, _ | ⟨y', ys⟩⟩ <;> rfl

theorem withVersion?_relabel (v : Option Nat) (e : Expr α) :
    (e.relabel ρ).withVersion? v = (e.withVersion? v).map (relabel ρ) := by
  cases e <;> rfl

@[simp] theorem version?_relabel (e : Expr α) : (e.relabel ρ).version? = e.version? := by
  cases e <;> rfl

@[simp] theorem isAssignable_relabel (e : Expr α) : (e.relabel ρ).isAssignable = e.isAssignable := by
  cases e <;> rfl

@[simp] theorem isTheta_relabel (e : Expr α) : (e.relabel ρ).isTheta = e.isTheta := by
  cases e <;> rfl

@[simp] theorem isReturn_relabel (e : Expr α) : (e.relabel ρ).isReturn = e.isReturn := by
  cases e <;> rfl

@[simp] theorem isCall_relabel (e : Expr α) : (e.relabel ρ).isCall = e.isCall := by
  cases e <;> rfl

end Expr

namespace Term

/-- The tree with other names for the registers. -/
def relabel (ρ : String → String) (t : Term) : Term :=
  t.fold fun i e => .node i (e.relabel ρ)

@[simp] theorem relabel_node (i : NodeId) (e : Expr Term) :
    (node i e).relabel ρ = node i ((e.map (relabel ρ)).relabel ρ) := by
  unfold relabel
  rw [fold_node]

@[simp] theorem id_relabel (t : Term) : (t.relabel ρ).id = t.id := by
  obtain ⟨i, e⟩ := t
  rw [relabel_node]
  rfl

@[simp] theorem preorder_relabel (t : Term) : (t.relabel ρ).preorder = t.preorder := by
  induction t using Term.induction with
  | step i e ih =>
    rw [relabel_node, preorder_node, preorder_node, Expr.children_relabel, Expr.children_map, List.flatMap_map]
    exact congrArg (i :: ·) (List.flatMap_congr ih)

@[simp] theorem postorder_relabel (t : Term) : (t.relabel ρ).postorder = t.postorder := by
  induction t using Term.induction with
  | step i e ih =>
    rw [relabel_node, postorder_node, postorder_node, Expr.children_relabel, Expr.children_map, List.flatMap_map]
    exact congrArg (· ++ [i]) (List.flatMap_congr ih)

/-- What is computed from the nodes of a tree without regard to names is the same. -/
theorem fold_relabel {β : Type} {f : NodeId → Expr β → β} (hf : ∀ i e, f i (e.relabel ρ) = f i e) (t : Term) :
    (t.relabel ρ).fold f = t.fold f := by
  induction t using Term.induction with
  | step i e ih =>
    rw [relabel_node, fold_node, fold_node, ← Expr.relabel_map, Expr.map_map, hf]
    congr 1
    exact Expr.map_congr ih

@[simp] theorem containsCall_relabel (t : Term) : (t.relabel ρ).containsCall = t.containsCall :=
  fold_relabel (fun _ e => by simp) t

@[simp] theorem isReplaceable_relabel (t : Term) : (t.relabel ρ).isReplaceable = t.isReplaceable :=
  fold_relabel (fun _ e => by cases e <;> rfl) t

theorem register?_relabel (t : Term) : (t.relabel ρ).register? = t.register?.map ρ := by
  obtain ⟨i, e⟩ := t
  cases e <;> simp [Expr.map, Expr.relabel, register?]

@[simp] theorem constant?_relabel (t : Term) : (t.relabel ρ).constant? = t.constant? := by
  obtain ⟨i, e⟩ := t
  cases e <;> simp [Expr.map, Expr.relabel, constant?]

end Term

/-- The node with other names for the registers. -/
def Node.relabel (ρ : String → String) (n : Node) : Node :=
  { n with expr := n.expr.relabel ρ }

namespace Flow

/-- The flow with other names for the registers. -/
def relabel (ρ : String → String) (f : Flow) : Flow :=
  { f with nodes := f.nodes.map (Node.relabel ρ) }

variable {f : Flow} {x : NodeId} {s : StatementId}

theorem getElem?_relabel (f : Flow) (i : Nat) : (f.relabel ρ).nodes[i]? = f.nodes[i]?.map (Node.relabel ρ) :=
  Array.getElem?_map ..

theorem exprAt_relabel (f : Flow) (x : NodeId) : (f.relabel ρ).exprAt x = (f.exprAt x).map (Expr.relabel ρ) := by
  unfold exprAt shapeAt
  rw [getElem?_relabel]
  cases f.nodes[x.index]? <;> rfl

/-- The names that a flow gets are those of its registers. -/
theorem relabel_congr (h : ∀ x n v, f.exprAt x = some (.register n v) → ρ n = σ n) : f.relabel ρ = f.relabel σ := by
  refine congrArg (fun nodes => { f with nodes }) (Array.ext_getElem? fun i => ?_)
  rw [Array.getElem?_map, Array.getElem?_map]
  cases hi : f.nodes[i]? with
  | none => rfl
  | some m =>
    obtain ⟨e, place, l⟩ := m
    cases e with
    | register n v =>
      have hn := h ⟨i⟩ n v (by simp [exprAt, shapeAt, hi])
      simp [Node.relabel, Expr.relabel, hn]
    | _ => rfl

theorem relabel_of_nodes_eq (hf : f.nodes = #[]) : f.relabel ρ = f := by
  unfold relabel
  rw [hf, Array.map_empty, ← hf]

theorem node_relabel (f : Flow) (x : NodeId) : (f.relabel ρ).node x = (f.node x).map (Node.relabel ρ) := by
  unfold node
  rw [getElem?_relabel]
  cases f.nodes[x.index]? <;> rfl

theorem expr_relabel (f : Flow) (x : NodeId) : (f.relabel ρ).expr x = (f.expr x).map (Expr.relabel ρ) := by
  unfold expr
  rw [node_relabel]
  exact map_bind fun _ => rfl

theorem link_relabel (f : Flow) (x : NodeId) : (f.relabel ρ).link x = f.link x := by
  unfold link
  rw [node_relabel]
  cases f.node x <;> rfl

theorem children_relabel (f : Flow) (x : NodeId) : (f.relabel ρ).children x = f.children x := by
  unfold children
  rw [expr_relabel]
  cases f.expr x with
  | error e => rfl
  | ok e => exact congrArg Except.ok e.children_relabel

theorem parentExpr?_relabel (f : Flow) (x : NodeId) :
    (f.relabel ρ).parentExpr? x = (f.parentExpr? x).map (Option.map (Expr.relabel ρ)) := by
  unfold parentExpr?
  rw [node_relabel]
  refine map_bind fun n => ?_
  obtain ⟨e, place, l⟩ := n
  cases place with
  | child p =>
    change ((f.relabel ρ).expr p >>= fun e => pure (some e)) = _
    rw [expr_relabel]
    exact map_bind fun _ => rfl
  | _ => rfl

theorem rootExpr_relabel (f : Flow) (s : StatementId) :
    (f.relabel ρ).rootExpr s = (f.rootExpr s).map (Expr.relabel ρ) :=
  bind_map fun st => expr_relabel f st.root

@[simp] theorem depthBound_relabel (f : Flow) : (f.relabel ρ).depthBound = f.depthBound := by
  simp [depthBound, relabel]

theorem climb_relabel (f : Flow) (n : Nat) (x : NodeId) : (f.relabel ρ).climb n x = f.climb n x := by
  induction n generalizing x with
  | zero => rfl
  | succ n ih =>
    unfold climb
    rw [node_relabel]
    cases f.node x with
    | error e => rfl
    | ok m =>
      obtain ⟨e, place, l⟩ := m
      cases place with
      | child p => exact ih p
      | _ => rfl

theorem statementOf?_relabel (f : Flow) (x : NodeId) : (f.relabel ρ).statementOf? x = f.statementOf? x := by
  unfold statementOf?
  rw [depthBound_relabel, climb_relabel]

theorem isLive_relabel (f : Flow) (x : NodeId) : (f.relabel ρ).isLive x = f.isLive x := by
  unfold isLive
  rw [statementOf?_relabel]
  rfl

theorem unfold_relabel (f : Flow) (n : Nat) (x : NodeId) :
    (f.relabel ρ).unfold n x = (f.unfold n x).map (Term.relabel ρ) := by
  induction n generalizing x with
  | zero => rfl
  | succ n ih =>
    unfold Flow.unfold
    rw [expr_relabel]
    refine map_bind fun e => ?_
    rw [Expr.mapM_eq, Expr.mapM_eq, Expr.children_relabel, mapM_map_right fun c _ => ih c]
    cases e.children.mapM (f.unfold n) with
    | error e => rfl
    | ok ts =>
      change Except.ok (Term.node x ((e.relabel ρ).refill (ts.map (Term.relabel ρ)))) =
        Except.ok ((Term.node x (e.refill ts)).relabel ρ)
      rw [Term.relabel_node, Expr.refill_relabel, ← Expr.refill_map]

theorem term_relabel (f : Flow) (x : NodeId) : (f.relabel ρ).term x = (f.term x).map (Term.relabel ρ) := by
  unfold term
  rw [depthBound_relabel, unfold_relabel]

theorem statementTerm_relabel (f : Flow) (s : StatementId) :
    (f.relabel ρ).statementTerm s = (f.statementTerm s).map (Term.relabel ρ) :=
  bind_map fun st => term_relabel f st.root

theorem operands_relabel (f : Flow) (s : StatementId) : (f.relabel ρ).operands s = f.operands s := by
  unfold operands
  rw [statementTerm_relabel]
  cases f.statementTerm s with
  | error e => rfl
  | ok t => exact congrArg (fun xs => Except.ok xs.tail) t.preorder_relabel

theorem block?_relabel (f : Flow) (a : Address) : (f.relabel ρ).block? a = f.block? a :=
  rfl

theorem uses_relabel (f : Flow) (x : NodeId) : (f.relabel ρ).uses x = f.uses x := by
  unfold uses
  rw [link_relabel]

end Flow

end FrameRecovery
