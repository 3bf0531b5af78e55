import FrameRecovery.Flow.Edit
import FrameRecovery.Proofs.Flow.Expr
import FrameRecovery.Proofs.Outcome
import Mathlib.Logic.Function.Basic

namespace FrameRecovery

namespace Flow

/-- The expression at a node and the place where the node stands. -/
def shapeAt (f : Flow) (x : NodeId) : Option (Expr NodeId × Place) :=
  f.nodes[x.index]?.map fun n => (n.expr, n.place)

/-- The expression at a node. -/
def exprAt (f : Flow) (x : NodeId) : Option (Expr NodeId) :=
  (f.shapeAt x).map Prod.fst

/-- The link of a node; what is no node is unlinked. -/
def linkOf (f : Flow) (x : NodeId) : Link :=
  (f.nodes[x.index]?.map Node.link).getD .unlinked

/-- The statement of a number. -/
def statementAt (f : Flow) (s : StatementId) : Option Statement :=
  f.statements[s.index]?

/-- The number that the next node gets. -/
def nextNode (f : Flow) : NodeId :=
  ⟨f.nodes.size⟩

/-- The number that the next statement gets. -/
def nextStatement (f : Flow) : StatementId :=
  ⟨f.statements.size⟩

/-- A flow `g` is a flow `f` with other shapes and links of its nodes. -/
structure Becomes (f g : Flow) (shape : NodeId → Option (Expr NodeId × Place))
    (link : NodeId → Link) : Prop where
  shape_eq : g.shapeAt = shape
  link_eq : g.linkOf = link
  entry_eq : g.entry = f.entry
  statements_eq : g.statements = f.statements
  blocks_eq : g.blocks = f.blocks

variable {f g : Flow} {x : NodeId} {e : Expr NodeId} {p : Place}

theorem exists_node_of_shapeAt (h : f.shapeAt x = some (e, p)) :
    f.nodes[x.index]? = some ⟨e, p, f.linkOf x⟩ := by
  obtain ⟨n, hn, hshape⟩ := Option.map_eq_some_iff.1 h
  obtain ⟨rfl, rfl⟩ := Prod.mk.injEq .. ▸ hshape
  simp [linkOf, hn]

theorem getElem?_of_node {n : Node} (h : f.node x = .ok n) : f.nodes[x.index]? = some n := by
  unfold node at h
  split at h
  next hn =>
    cases h
    exact hn
  next => cases h

theorem node_eq (h : f.shapeAt x = some (e, p)) : f.node x = .ok ⟨e, p, f.linkOf x⟩ := by
  simp [node, exists_node_of_shapeAt h]

theorem expr_eq (h : f.shapeAt x = some (e, p)) : f.expr x = .ok e := by
  unfold expr
  rw [node_eq h]
  rfl

theorem children_eq (h : f.shapeAt x = some (e, p)) : f.children x = .ok e.children := by
  unfold children
  rw [expr_eq h]
  rfl

theorem link_eq (h : f.shapeAt x = some (e, p)) : f.link x = .ok (f.linkOf x) := by
  unfold link
  rw [node_eq h]
  rfl

theorem exprAt_of_expr (h : f.expr x = .ok e) : f.exprAt x = some e := by
  obtain ⟨n, hn, heq⟩ := exists_of_except_bind h
  cases heq
  simp [exprAt, shapeAt, getElem?_of_node hn]

theorem linkOf_of_link {l : Link} (h : f.link x = .ok l) : f.linkOf x = l := by
  obtain ⟨n, hn, heq⟩ := exists_of_except_bind h
  cases heq
  simp [linkOf, getElem?_of_node hn]

theorem uses_eq (h : f.shapeAt x = some (e, p)) : f.uses x = .ok (f.linkOf x).uses := by
  unfold uses
  rw [link_eq h]
  rfl

theorem parentExpr?_eq_some {q : NodeId} {e' : Expr NodeId} {p' : Place}
    (h : f.shapeAt x = some (e, .child q)) (hq : f.shapeAt q = some (e', p')) :
    f.parentExpr? x = .ok (some e') := by
  unfold parentExpr?
  rw [node_eq h]
  change (f.expr q >>= fun e => Except.ok (some e)) = _
  rw [expr_eq hq]
  rfl

theorem exists_of_parentExpr? {e' : Expr NodeId} (h : f.parentExpr? x = .ok (some e')) :
    ∃ e q p', f.shapeAt x = some (e, .child q) ∧ f.shapeAt q = some (e', p') := by
  have hnode : ∀ {y n}, f.node y = .ok n → f.shapeAt y = some (n.expr, n.place) := fun hn => by
    simp [shapeAt, getElem?_of_node hn]
  obtain ⟨n, hn, h⟩ := exists_of_except_bind h
  split at h
  next q hplace =>
    obtain ⟨e, he, heq⟩ := exists_of_except_bind h
    obtain ⟨m, hm, he⟩ := exists_of_except_bind he
    cases heq
    cases he
    exact ⟨n.expr, q, m.place, hplace ▸ hnode hn, hnode hm⟩
  next => cases h

theorem statement_eq {s : StatementId} {st : Statement} (h : f.statementAt s = some st) :
    f.statement s = .ok st := by
  unfold statementAt at h
  simp [statement, h]

theorem statementAt_of_statement {s : StatementId} {st : Statement} (h : f.statement s = .ok st) :
    f.statementAt s = some st := by
  unfold statement at h
  split at h
  next hst =>
    cases h
    exact hst
  next => cases h

theorem rootExpr_eq {s : StatementId} {st : Statement} (h : f.statementAt s = some st)
    (hroot : f.shapeAt st.root = some (e, p)) : f.rootExpr s = .ok e := by
  unfold rootExpr
  rw [statement_eq h]
  exact expr_eq hroot

theorem exprAt_eq_some (h : f.shapeAt x = some (e, p)) :
    f.exprAt x = some e := by
  simp [exprAt, h]

theorem exists_shapeAt_of_exprAt (h : f.exprAt x = some e) :
    ∃ p, f.shapeAt x = some (e, p) := by
  obtain ⟨⟨e', p⟩, hshape, rfl⟩ := Option.map_eq_some_iff.1 h
  exact ⟨p, hshape⟩

theorem exprAt_ne_none : f.exprAt x ≠ none ↔ f.shapeAt x ≠ none := by
  simp [exprAt]

theorem lt_size_of_shapeAt (h : f.shapeAt x = some (e, p)) : x.index < f.nodes.size := by
  have h := exists_node_of_shapeAt h
  exact (Array.getElem?_eq_some_iff.1 h).1

theorem shapeAt_eq_none_iff : f.shapeAt x = none ↔ f.nodes.size ≤ x.index := by
  simp [shapeAt]

/-- Flows with the same nodes give the next node the same number. -/
theorem nextNode_eq_of_shapeAt (h : ∀ x, f.shapeAt x = none ↔ g.shapeAt x = none) :
    f.nextNode = g.nextNode := by
  have hf := h f.nextNode
  have hg := h g.nextNode
  simp only [shapeAt_eq_none_iff, nextNode] at hf hg
  unfold nextNode
  congr 1
  omega

theorem shapeAt_nextNode (f : Flow) : f.shapeAt f.nextNode = none := by
  simp [shapeAt, nextNode]

theorem linkOf_eq_unlinked (h : f.shapeAt x = none) : f.linkOf x = .unlinked := by
  have h : f.nodes[x.index]? = none := by simpa [shapeAt] using h
  simp [linkOf, h]

/-- A flow is determined by what is at its nodes and its statements and by its blocks. -/
theorem eq_of_shapeAt (hshape : g.shapeAt = f.shapeAt) (hlink : g.linkOf = f.linkOf) (hentry : g.entry = f.entry)
    (hstatement : g.statementAt = f.statementAt) (hblocks : g.blocks = f.blocks) : g = f := by
  have hnodes : g.nodes = f.nodes := Array.ext_getElem? fun i => by
    have hshape := congrFun hshape ⟨i⟩
    have hlink := congrFun hlink ⟨i⟩
    simp only [shapeAt, linkOf] at hshape hlink
    rcases hg : g.nodes[i]? with _ | ⟨e, p, l⟩ <;> rcases hf : f.nodes[i]? with _ | ⟨e', p', l'⟩ <;>
      rw [hg, hf] at hshape hlink <;> simp_all
  have hstatements : g.statements = f.statements := Array.ext_getElem? fun i => congrFun hstatement ⟨i⟩
  obtain ⟨entry, nodes, statements, blocks⟩ := g
  obtain rfl : entry = _ := hentry
  obtain rfl : nodes = _ := hnodes
  obtain rfl : statements = _ := hstatements
  obtain rfl : blocks = _ := hblocks
  rfl

end Flow

namespace Edit

variable {f : Flow} {x : NodeId} {e : Expr NodeId} {p : Place}

open Flow in
private theorem modifyNode_gives {change : Node → Node} (h : f.shapeAt x = some (e, p)) :
    Gives (modifyNode x change) f fun _ g =>
      f.Becomes g
        (Function.update f.shapeAt x
          (some ((change ⟨e, p, f.linkOf x⟩).expr, (change ⟨e, p, f.linkOf x⟩).place)))
        (Function.update f.linkOf x (change ⟨e, p, f.linkOf x⟩).link) := by
  have hnode := exists_node_of_shapeAt h
  have hlt := lt_size_of_shapeAt h
  refine ⟨(), { f with nodes := f.nodes.setIfInBounds x.index (change ⟨e, p, f.linkOf x⟩) },
    by simp only [modifyNode, hnode], ?_, ?_, rfl, rfl, rfl⟩
  · funext y
    by_cases hy : y = x
    · subst hy
      simp [shapeAt, hlt]
    · have hne : x.index ≠ y.index := fun h => hy (by cases x; cases y; simp_all)
      simp [shapeAt, hy, Array.getElem?_setIfInBounds_ne hne]
  · funext y
    by_cases hy : y = x
    · subst hy
      simp [linkOf, hlt]
    · have hne : x.index ≠ y.index := fun h => hy (by cases x; cases y; simp_all)
      simp [linkOf, hy, Array.getElem?_setIfInBounds_ne hne]

theorem setPlace_gives (h : f.shapeAt x = some (e, p)) (q : Place) :
    Gives (setPlace x q) f fun _ g =>
      f.Becomes g (Function.update f.shapeAt x (some (e, q))) f.linkOf :=
  (modifyNode_gives h).mono fun _ _ h => by simpa using h

theorem setExpr_gives (h : f.shapeAt x = some (e, p)) (e' : Expr NodeId) :
    Gives (setExpr x e') f fun _ g =>
      f.Becomes g (Function.update f.shapeAt x (some (e', p))) f.linkOf :=
  (modifyNode_gives h).mono fun _ _ h => by simpa using h

theorem setLink_gives (h : f.shapeAt x = some (e, p)) (l : Link) :
    Gives (setLink x l) f fun _ g =>
      f.Becomes g f.shapeAt (Function.update f.linkOf x l) :=
  (modifyNode_gives h).mono fun _ _ hg => by simpa [← h] using hg

theorem setVersion_gives {e' : Expr NodeId} {v : Option Nat} (h : f.shapeAt x = some (e, p))
    (hv : e.withVersion? v = some e') :
    Gives (setVersion x v) f fun _ g =>
      f.Becomes g (Function.update f.shapeAt x (some (e', p))) f.linkOf := by
  unfold setVersion
  refine .of_bind (.of_view (Flow.expr_eq h) ?_)
  rw [hv]
  exact setExpr_gives h e'

end Edit

end FrameRecovery
