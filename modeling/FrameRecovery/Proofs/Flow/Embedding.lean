import FrameRecovery.Proofs.Flow.Paths

namespace FrameRecovery

namespace Expr

variable {α β γ : Type}

theorem refill_map (r : β → γ) (e : Expr α) (ys : List β) : (e.refill ys).map r = e.refill (ys.map r) := by
  cases e with
  | ret x => cases x <;> rcases ys with _ | ⟨y, _ | ⟨y', ys⟩⟩ <;> rfl
  | _ => rcases ys with _ | ⟨y, _ | ⟨y', ys⟩⟩ <;> simp [refill, map]

theorem refill_of_map (f : α → β) (e : Expr α) (ys : List γ) : (e.map f).refill ys = e.refill ys := by
  cases e with
  | ret x => cases x <;> rcases ys with _ | ⟨y, _ | ⟨y', ys⟩⟩ <;> rfl
  | _ => rcases ys with _ | ⟨y, _ | ⟨y', ys⟩⟩ <;> rfl

theorem withVersion?_map (f : α → β) (v : Option Nat) (e : Expr α) :
    (e.map f).withVersion? v = (e.withVersion? v).map fun e' => e'.map f := by
  cases e <;> rfl

@[simp] theorem version?_map (f : α → β) (e : Expr α) : (e.map f).version? = e.version? := by
  cases e <;> rfl

end Expr

namespace Term

/-- The text of a tree does not show the numbers of its nodes. -/
theorem text_form (t : Term) : t.form.text = t.text := by
  have hrendering : t.form.rendering = t.rendering := by
    induction t using Term.induction with
    | step i e ih =>
      have hmap : e.map (rendering ∘ form) = e.map rendering := Expr.map_congr ih
      rw [form_node]
      unfold rendering at hmap ⊢
      rw [fold_node, fold_node, Expr.map_map, ← hmap]
  exact congrArg Rendering.plain hrendering

end Term

/-- How the parts of one flow are numbered in another one: so many nodes and statements keep their
    numbers, and those after them follow behind a gap. -/
structure Renumbering where
  nodes : Nat
  nodeGap : Nat
  statements : Nat
  statementGap : Nat

namespace Renumbering

variable (σ : Renumbering)

def id (x : NodeId) : NodeId :=
  if x.index < σ.nodes then x else ⟨x.index + σ.nodeGap⟩

def statementId (s : StatementId) : StatementId :=
  if s.index < σ.statements then s else ⟨s.index + σ.statementGap⟩

def place : Place → Place
  | .detached => .detached
  | .child q => .child (σ.id q)
  | .root s => .root (σ.statementId s)

def link : Link → Link
  | .unlinked => .unlinked
  | .definition us => .definition (us.map σ.id)
  | .use d => .use (d.map σ.id)

def node (n : Node) : Node :=
  ⟨n.expr.map σ.id, σ.place n.place, σ.link n.link⟩

def term (t : Term) : Term :=
  t.fold fun i e => .node (σ.id i) e

@[simp] theorem term_node (i : NodeId) (e : Expr Term) : σ.term (.node i e) = .node (σ.id i) (e.map σ.term) := by
  unfold term
  rw [Term.fold_node]

variable {σ} {x y : NodeId} {s s' : StatementId}

theorem id_eq_self (h : x.index < σ.nodes) : σ.id x = x :=
  if_pos h

theorem statementId_eq_self (h : s.index < σ.statements) : σ.statementId s = s :=
  if_pos h

theorem id_injective (h : σ.id x = σ.id y) : x = y := by
  cases x
  cases y
  unfold id at h
  split at h <;> split at h <;> simp_all <;> omega

theorem statementId_injective (h : σ.statementId s = σ.statementId s') : s = s' := by
  cases s
  cases s'
  unfold statementId at h
  split at h <;> split at h <;> simp_all <;> omega

@[simp] theorem form_term (t : Term) : (σ.term t).form = t.form := by
  induction t using Term.induction with
  | step i e ih =>
    rw [term_node, Term.form_node, Term.form_node, Expr.map_map]
    congr 1
    exact Expr.map_congr ih

theorem text_term (t : Term) : (σ.term t).text = t.text := by
  rw [← Term.text_form, form_term, Term.text_form]

/-- A flow `f` is found in a flow `g`, under other numbers, and the next node and the next statement
    have corresponding numbers too. -/
structure Embeds (σ : Renumbering) (f g : Flow) : Prop where
  nodes_le : σ.nodes ≤ f.nodes.size
  nodes_size : g.nodes.size = f.nodes.size + σ.nodeGap
  statements_le : σ.statements ≤ f.statements.size
  statements_size : g.statements.size = f.statements.size + σ.statementGap
  node : ∀ x n, f.nodes[x.index]? = some n → g.nodes[(σ.id x).index]? = some (σ.node n)
  statement : ∀ s st, f.statementAt s = some st →
    g.statementAt (σ.statementId s) = some { st with root := σ.id st.root }
  block : ∀ a, (g.block? a).map Block.statements =
    (f.block? a).map fun b => b.statements.map σ.statementId

namespace Embeds

variable {f g : Flow} (h : σ.Embeds f g)
include h

theorem nextNode : σ.id f.nextNode = g.nextNode := by
  have hle := h.nodes_le
  simp [id, Flow.nextNode, h.nodes_size, Nat.not_lt.2 hle]

theorem nextStatement : σ.statementId f.nextStatement = g.nextStatement := by
  have hle := h.statements_le
  simp [statementId, Flow.nextStatement, h.statements_size, Nat.not_lt.2 hle]

theorem statementsAt_eq (a : Address) : g.statementsAt a = (f.statementsAt a).map σ.statementId := by
  have hblock := h.block a
  unfold Flow.statementsAt
  cases hf : f.block? a with
  | none =>
    rw [hf, Option.map_none, Option.map_eq_none_iff] at hblock
    simp [hblock]
  | some b =>
    rw [hf, Option.map_some, Option.map_eq_some_iff] at hblock
    obtain ⟨b', hb', heq⟩ := hblock
    simp [hb', heq]

theorem expr_eq {e : Expr NodeId} (hx : f.expr x = .ok e) : g.expr (σ.id x) = .ok (e.map σ.id) := by
  obtain ⟨n, hn, heq⟩ := exists_of_except_bind hx
  cases heq
  unfold Flow.expr Flow.node
  rw [h.node x n (Flow.getElem?_of_node hn)]
  rfl

theorem link_eq {l : Link} (hx : f.link x = .ok l) : g.link (σ.id x) = .ok (σ.link l) := by
  obtain ⟨n, hn, heq⟩ := exists_of_except_bind hx
  cases heq
  unfold Flow.link Flow.node
  rw [h.node x n (Flow.getElem?_of_node hn)]
  rfl

end Embeds

end Renumbering

theorem mapM_ok_map {α β α' β' : Type} {k : α → Except Fault β} {k' : α' → Except Fault β'} {r : α → α'} {r' : β → β'}
    {xs : List α} {ys : List β} (h : xs.mapM k = .ok ys) (hk : ∀ x ∈ xs, ∀ y, k x = .ok y → k' (r x) = .ok (r' y)) :
    (xs.map r).mapM k' = .ok (ys.map r') := by
  induction xs generalizing ys with
  | nil =>
    cases h
    rfl
  | cons x rest ih =>
    rw [List.mapM_cons] at h
    obtain ⟨y, hy, h⟩ := exists_of_except_bind h
    obtain ⟨ys', hys', h⟩ := exists_of_except_bind h
    cases h
    rw [List.map_cons, List.mapM_cons, hk x (by simp) y hy, ih hys' fun z hz => hk z (by simp [hz])]
    rfl

namespace Renumbering

variable {σ : Renumbering} {f g : Flow} {x : NodeId} {s : StatementId} {t : Term}

namespace Embeds

variable (h : σ.Embeds f g)
include h

theorem unfold_eq {depth depth' : Nat} (hdepth : depth ≤ depth') (hx : f.unfold depth x = .ok t) :
    g.unfold depth' (σ.id x) = .ok (σ.term t) := by
  induction depth generalizing x t depth' with
  | zero => cases hx
  | succ depth ih =>
    obtain ⟨depth', rfl⟩ := Nat.exists_eq_add_of_le' (Nat.le_trans (Nat.le_add_left 1 depth) hdepth)
    obtain ⟨e, he, hx⟩ := exists_of_except_bind hx
    obtain ⟨E, hE, hx⟩ := exists_of_except_bind hx
    cases hx
    rw [Expr.mapM_eq] at hE
    cases hchildren : e.children.mapM (f.unfold depth) with
    | error _ =>
      rw [hchildren] at hE
      cases hE
    | ok ts =>
      rw [hchildren] at hE
      cases hE
      have hmapped : (e.children.map σ.id).mapM (g.unfold depth') = .ok (ts.map σ.term) :=
        mapM_ok_map hchildren fun c _ u hu => ih (Nat.le_of_succ_le_succ hdepth) hu
      simp only [Flow.unfold, h.expr_eq he]
      change ((e.map σ.id).mapM (g.unfold depth') >>= fun E => Except.ok (Term.node (σ.id x) E)) = _
      rw [Expr.mapM_eq, Expr.children_map, hmapped]
      change Except.ok (Term.node (σ.id x) ((e.map σ.id).refill (ts.map σ.term))) = _
      rw [Expr.refill_of_map, ← Expr.refill_map, term_node]

theorem term_eq (hx : f.term x = .ok t) : g.term (σ.id x) = .ok (σ.term t) := by
  refine h.unfold_eq ?_ hx
  have := h.nodes_size
  unfold Flow.depthBound
  omega

theorem statementText_eq {text : String} (hs : f.statementText s = .ok text) :
    g.statementText (σ.statementId s) = .ok text := by
  obtain ⟨t, ht, htext⟩ := exists_of_except_bind hs
  obtain ⟨st, hst, ht⟩ := exists_of_except_bind ht
  cases htext
  unfold Flow.statementText Flow.statementTerm
  rw [Flow.statement_eq (h.statement s st (Flow.statementAt_of_statement hst))]
  change (g.term (σ.id st.root) >>= fun t => Except.ok t.text) = _
  rw [h.term_eq ht]
  exact congrArg Except.ok (text_term t)

end Embeds

end Renumbering

end FrameRecovery
