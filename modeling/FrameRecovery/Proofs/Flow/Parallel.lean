import FrameRecovery.Proofs.Flow.Embedding
import FrameRecovery.Proofs.Parallel

namespace FrameRecovery

namespace Parallel

variable {α α' : Type} {E : Flow → Flow → Prop} {R : α → α' → Prop} {x : Edit α} {y : Edit α'}

theorem of_edit (h : ∀ f g a f', E f g → x f = .ok (a, f') → ∃ b g', y g = .ok (b, g') ∧ R a b ∧ E f' g') :
    Parallel E R x y :=
  h

/-- What is read from the one flow is read from the other. -/
theorem of_view {read : Flow → Except Fault α} {read' : Flow → Except Fault α'}
    (h : ∀ f g a, E f g → read f = .ok a → ∃ a', read' g = .ok a' ∧ R a a') :
    Parallel E R (Edit.view read : Edit α) (Edit.view read') := by
  refine of_edit fun f g a f' hfg hrun => ?_
  have hrun : (read f >>= fun a => Except.ok (a, f)) = .ok (a, f') := hrun
  obtain ⟨a, ha, heq⟩ := exists_of_except_bind hrun
  cases heq
  obtain ⟨a', ha', hR⟩ := h f g a hfg ha
  refine ⟨a', g, ?_, hR, hfg⟩
  change (read' g >>= fun a => Except.ok (a, g)) = _
  rw [ha']
  rfl

theorem of_get : Parallel E E (get : Edit Flow) get := by
  refine of_edit fun f g a f' hfg hrun => ?_
  cases hrun
  exact ⟨g, g, rfl, hfg, hfg⟩

theorem of_modify {change change' : Flow → Flow} (h : ∀ f g, E f g → E (change f) (change' g)) :
    Parallel E (fun _ _ => True) (modify change : Edit Unit) (modify change') := by
  refine of_edit fun f g a f' hfg hrun => ?_
  cases hrun
  exact ⟨(), change' g, rfl, trivial, h f g hfg⟩

/-- A misuse is no success. -/
theorem of_fault (fault : Fault) (y : Edit α') : Parallel E R (throw fault : Edit α) y := by
  refine of_edit fun f g a f' _ hrun => ?_
  cases hrun

end Parallel

theorem NodeId.index_injective {x y : NodeId} (h : x.index = y.index) : x = y := by
  cases x
  cases y
  exact congrArg NodeId.mk h

namespace Renumbering

variable {σ : Renumbering} {f g : Flow}

theorem Embeds.modify {x : NodeId} {n : Node} {change change' : Node → Node} (h : σ.Embeds f g)
    (hn : f.nodes[x.index]? = some n) (hchange : change' (σ.node n) = σ.node (change n)) :
    σ.Embeds { f with nodes := f.nodes.setIfInBounds x.index (change n) }
      { g with nodes := g.nodes.setIfInBounds (σ.id x).index (change' (σ.node n)) } := by
  refine ⟨by simpa using h.nodes_le, by simpa using h.nodes_size, h.statements_le, h.statements_size,
    fun y m hm => ?_, h.statement, h.block⟩
  by_cases hy : y = x
  · subst hy
    have hlt := (Array.getElem?_eq_some_iff.1 hn).1
    have hlt' := (Array.getElem?_eq_some_iff.1 (h.node y n hn)).1
    simp only [Array.getElem?_setIfInBounds_self_of_lt hlt, Option.some.injEq] at hm
    simp only [Array.getElem?_setIfInBounds_self_of_lt hlt', hchange, hm]
  · have hne : ∀ {a b : NodeId}, a ≠ b → b.index ≠ a.index := fun hab heq =>
      hab (NodeId.index_injective heq.symm)
    simp only [Array.getElem?_setIfInBounds_ne (hne hy)] at hm
    simp only [Array.getElem?_setIfInBounds_ne (hne fun h => hy (id_injective h))]
    exact h.node y m hm

theorem Embeds.push {n : Node} (h : σ.Embeds f g) :
    σ.Embeds { f with nodes := f.nodes.push n } { g with nodes := g.nodes.push (σ.node n) } := by
  have hle := h.nodes_le
  have hsize := h.nodes_size
  refine ⟨by simp; omega, by simp; omega, h.statements_le, h.statements_size, fun y m hm => ?_, h.statement, h.block⟩
  simp only [Array.getElem?_push] at hm ⊢
  split at hm
  next hy =>
    cases hm
    rw [Flow.eq_nextNode_iff.2 hy, h.nextNode]
    exact if_pos rfl
  next hy =>
    rw [if_neg, h.node y m hm]
    intro heq
    have hid : σ.id y = σ.id f.nextNode := h.nextNode.symm ▸ Flow.eq_nextNode_iff.2 heq
    exact hy (Flow.eq_nextNode_iff.1 (id_injective hid))

theorem Embeds.pushStatement {address block : Address} {root : NodeId} (h : σ.Embeds f g) :
    σ.Embeds { f with statements := f.statements.push ⟨address, root, block, false⟩ }
      { g with statements := g.statements.push ⟨address, σ.id root, block, false⟩ } := by
  have hle := h.statements_le
  have hsize := h.statements_size
  refine ⟨h.nodes_le, h.nodes_size, by simp; omega, by simp; omega, h.node, fun s st hst => ?_, h.block⟩
  rw [Flow.statementAt_push] at hst ⊢
  by_cases hs : s = f.nextStatement
  · subst hs
    rw [Function.update_self, Option.some.injEq] at hst
    rw [h.nextStatement, Function.update_self, ← hst]
  · rw [Function.update_of_ne hs] at hst
    rw [← h.nextStatement, Function.update_of_ne fun heq => hs (statementId_injective heq)]
    exact h.statement s st hst

theorem Embeds.insert {block : Address} {position : Nat} {s : StatementId} (h : σ.Embeds f g) :
    σ.Embeds
      { f with blocks := f.blocks.modify block fun b =>
        { b with statements := b.statements.insertIdx position s } }
      { g with blocks := g.blocks.modify block fun b =>
        { b with statements := b.statements.insertIdx position (σ.statementId s) } } := by
  refine ⟨h.nodes_le, h.nodes_size, h.statements_le, h.statements_size, h.node, h.statement, fun a => ?_⟩
  have hblock := h.block a
  unfold Flow.block? at hblock ⊢
  by_cases ha : a = block
  · subst ha
    rw [SortedMap.find?_modify_self, SortedMap.find?_modify_self, Option.map_map, Option.map_map]
    cases hf : f.blocks.find? a with
    | none =>
      rw [hf, Option.map_none, Option.map_eq_none_iff] at hblock
      rw [hblock]
      rfl
    | some b =>
      rw [hf, Option.map_some, Option.map_eq_some_iff] at hblock
      obtain ⟨b', hb', heq⟩ := hblock
      simp [hb', heq, List.map_insertIdx]
  · rw [SortedMap.find?_modify_of_ne ha, SortedMap.find?_modify_of_ne ha]
    exact hblock

end Renumbering

namespace Edit

open Renumbering

variable {σ : Renumbering} {x : NodeId}

theorem modifyNode_parallel {change change' : Node → Node} (hchange : ∀ n, change' (σ.node n) = σ.node (change n)) :
    Parallel σ.Embeds (fun _ _ => True) (modifyNode x change) (modifyNode (σ.id x) change') := by
  refine .of_edit fun f g a f' hfg hrun => ?_
  unfold modifyNode at hrun
  split at hrun
  next n hn =>
    cases hrun
    refine ⟨(), _, ?_, trivial, hfg.modify hn (hchange n)⟩
    simp only [modifyNode, hfg.node x n hn]
  next => cases hrun

theorem setPlace_parallel (p : Place) :
    Parallel σ.Embeds (fun _ _ => True) (setPlace x p) (setPlace (σ.id x) (σ.place p)) :=
  modifyNode_parallel fun _ => rfl

theorem setExpr_parallel (e : Expr NodeId) :
    Parallel σ.Embeds (fun _ _ => True) (setExpr x e) (setExpr (σ.id x) (e.map σ.id)) :=
  modifyNode_parallel fun _ => rfl

theorem setLink_parallel (l : Link) :
    Parallel σ.Embeds (fun _ _ => True) (setLink x l) (setLink (σ.id x) (σ.link l)) :=
  modifyNode_parallel fun _ => rfl

theorem view_expr_parallel : Parallel σ.Embeds (fun e e' => e' = e.map σ.id) (view (·.expr x) : Edit _)
    (view (·.expr (σ.id x))) :=
  .of_view fun _ _ e hfg he => ⟨e.map σ.id, hfg.expr_eq he, rfl⟩

theorem view_link_parallel : Parallel σ.Embeds (fun l l' => l' = σ.link l) (view (·.link x) : Edit _)
    (view (·.link (σ.id x))) :=
  .of_view fun _ _ l hfg hl => ⟨σ.link l, hfg.link_eq hl, rfl⟩

theorem setVersion_parallel (v : Option Nat) :
    Parallel σ.Embeds (fun _ _ => True) (setVersion x v) (setVersion (σ.id x) v) := by
  refine .bind view_expr_parallel ?_
  rintro e _ rfl
  rw [Expr.withVersion?_map]
  cases e.withVersion? v with
  | some e' => exact setExpr_parallel e'
  | none => exact .of_fault _ _

theorem alloc_parallel (e : Expr NodeId) :
    Parallel σ.Embeds (fun x y => y = σ.id x) (alloc e) (alloc (e.map σ.id)) := by
  refine .of_edit fun f g a f' hfg hrun => ?_
  have hchildren : List.Forall₂ (fun x y => y = σ.id x) e.children (e.map σ.id).children := by
    rw [Expr.children_map, List.forall₂_map_right_iff, List.forall₂_same]
    exact fun _ _ => rfl
  have hplaces : Parallel σ.Embeds (fun _ _ => True) (e.children.forM fun c => setPlace c (.child f.nextNode))
      ((e.map σ.id).children.forM fun c => setPlace c (.child g.nextNode)) := by
    refine .forM hchildren ?_
    rintro c _ rfl
    have hplace := setPlace_parallel (σ := σ) (x := c) (.child f.nextNode)
    rwa [Renumbering.place, hfg.nextNode] at hplace
  have hsplit : ∀ (h : Flow) (e : Expr NodeId), alloc e h =
      (e.children.forM (fun c => setPlace c (.child h.nextNode)) >>= fun _ => do
        modify fun h' => { h' with nodes := h'.nodes.push ⟨e, .detached, .unlinked⟩ }
        return h.nextNode) h := fun _ _ => rfl
  rw [hsplit] at hrun ⊢
  obtain ⟨_, f₁, hf₁, hrun⟩ := exists_of_bind_eq_ok hrun
  cases hrun
  obtain ⟨_, g₁, hg₁, -, hfg₁⟩ := hplaces f g _ f₁ hfg hf₁
  refine ⟨g.nextNode, _, ?_, hfg.nextNode.symm, hfg₁.push⟩
  change ((e.map σ.id).children.forM (fun c => setPlace c (.child g.nextNode)) g >>= fun r =>
    Except.ok (g.nextNode, { r.2 with nodes := r.2.nodes.push ⟨e.map σ.id, .detached, .unlinked⟩ })) = _
  rw [hg₁]
  rfl

theorem recordUse_parallel (d u : NodeId) :
    Parallel σ.Embeds (fun _ _ => True) (recordUse d u) (recordUse (σ.id d) (σ.id u)) := by
  refine .bind view_link_parallel ?_
  rintro l _ rfl
  cases l with
  | definition us => simpa [Renumbering.link] using setLink_parallel (σ := σ) (x := d) (.definition (us ++ [u]))
  | _ => exact .of_pure trivial

theorem linkUse_parallel (u : NodeId) (d : Option NodeId) :
    Parallel σ.Embeds (fun _ _ => True) (linkUse u d) (linkUse (σ.id u) (d.map σ.id)) := by
  refine .bind (setLink_parallel (.use d)) fun _ _ _ => ?_
  cases d with
  | none => exact .of_pure trivial
  | some d => exact recordUse_parallel d u

/-- A tree that is found under other numbers is copied in the same way. -/
theorem copy_parallel : Parallel σ.Embeds (fun x y => y = σ.id x) (copy x) (copy (σ.id x)) := by
  refine .bind (R := fun t t' => t' = σ.term t) (.of_view fun _ _ t hfg ht => ⟨σ.term t, hfg.term_eq ht, rfl⟩) ?_
  rintro t _ rfl
  induction t using Term.induction with
  | step i e ih =>
    rw [Renumbering.term_node, Term.fold_node, Term.fold_node, Expr.map_map]
    refine .bind (R := fun e e' => e' = e.map σ.id) ?_ ?_
    · rw [Expr.mapM_map, Expr.mapM_map, Expr.mapM_eq, Expr.mapM_eq, map_eq_pure_bind, map_eq_pure_bind]
      refine .bind (R := List.Forall₂ fun x y => y = σ.id x) (.mapM (R := fun t t' => t = t' ∧ t ∈ e.children) ?_ ?_) ?_
      · rw [List.forall₂_same]
        exact fun t ht => ⟨rfl, ht⟩
      · rintro u _ ⟨rfl, hu⟩
        exact ih u hu
      · intro ys zs hids
        refine .of_pure ?_
        rw [Expr.refill_map]
        congr 1
        induction hids with
        | nil => rfl
        | cons h _ ih => rw [h, ih, List.map_cons]
    · rintro E _ rfl
      refine .bind (alloc_parallel E) ?_
      rintro y _ rfl
      refine .bind view_link_parallel ?_
      rintro l _ rfl
      cases l with
      | use d => exact .bind (linkUse_parallel y d) fun _ _ _ => .of_pure rfl
      | _ => exact .of_pure rfl

/-- Puts a statement that is there into a block. -/
private def list (block : Address) (position : Nat) (s : StatementId) : Edit StatementId := do
  match (← get).block? block with
  | none => throw (.noBlock block)
  | some b =>
    if b.statements.length < position then throw (.noPosition block position)
    modify fun f => { f with blocks := f.blocks.modify block fun b =>
      { b with statements := b.statements.insertIdx position s } }
    return s

private theorem list_parallel (block : Address) (position : Nat) (s : StatementId) :
    Parallel σ.Embeds (fun s s' => s' = σ.statementId s) (list block position s) (list block position (σ.statementId s)) := by
  refine .of_edit fun f g s' f' hfg hrun => ?_
  obtain ⟨_, _, hget, hrun⟩ := exists_of_bind_eq_ok hrun
  cases hget
  cases hb : f.block? block with
  | none =>
    simp only [hb] at hrun
    cases hrun
  | some b =>
    have hblock := hfg.block block
    rw [hb, Option.map_some, Option.map_eq_some_iff] at hblock
    obtain ⟨b', hb', heq⟩ := hblock
    simp only [hb] at hrun
    by_cases hposition : b.statements.length < position
    · rw [if_pos hposition] at hrun
      cases hrun
    · have hposition' : ¬ b'.statements.length < position := by simpa [heq] using hposition
      rw [if_neg hposition] at hrun
      cases hrun
      have hgives : Gives (list block position (σ.statementId s)) g fun s' g' => s' = σ.statementId s ∧
          g' = { g with blocks := g.blocks.modify block fun b =>
            { b with statements := b.statements.insertIdx position (σ.statementId s) } } := by
        refine .of_bind (.of_get ?_)
        rw [hb']
        dsimp only
        rw [if_neg hposition']
        exact .of_bind (.of_modify (.of_pure ⟨rfl, rfl⟩))
      obtain ⟨s', g', hrun', rfl, rfl⟩ := hgives
      exact ⟨_, _, hrun', rfl, hfg.insert⟩

/-- A statement is inserted at the same position. -/
theorem insertStatement_parallel (block : Address) (position : Nat) (address : Address) (root : NodeId) :
    Parallel σ.Embeds (fun s s' => s' = σ.statementId s) (insertStatement block position address root)
      (insertStatement block position address (σ.id root)) := by
  refine .of_edit fun f g s f' hfg hrun => ?_
  have hsplit : ∀ (h : Flow) (root : NodeId), insertStatement block position address root h =
      (setPlace root (.root h.nextStatement) >>= fun _ => list block position h.nextStatement)
        { h with statements := h.statements.push ⟨address, root, block, false⟩ } := fun _ _ => rfl
  have hplace := setPlace_parallel (σ := σ) (x := root) (.root f.nextStatement)
  rw [hsplit] at hrun ⊢
  rw [← hfg.nextStatement]
  exact Parallel.bind hplace (fun _ _ _ => list_parallel block position f.nextStatement) _ _ s f'
    hfg.pushStatement hrun

end Edit

end FrameRecovery
