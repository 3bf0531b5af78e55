import FrameRecovery.Proofs.Orderly
import FrameRecovery.Proofs.RegisterLinks
import FrameRecovery.Proofs.Tagging.Orderly

namespace FrameRecovery

/-- The nodes that a place is about. -/
def Place.mentions : Place → List NodeId
  | child p => [p]
  | _ => []

/-- The nodes that a node is about: those below it, the record that a variable keeps, the node above it
    and those that it is linked to. -/
def Node.mentions (n : Node) : List NodeId :=
  n.expr.children ++ n.expr.origin?.toList ++ n.place.mentions ++ n.link.mentions

namespace Flow

variable {f : Flow} {s : StatementId} {t : Term} {x : NodeId}

/-- The nodes of a flow are in their places: every statement that is not removed has its own tree, whose
    topmost node is placed at the statement and whose other nodes are placed below the nodes that they
    are children of, and is listed once by its block; all numbers belong to nodes and statements, and
    the way up from a node ends. -/
structure Arranged (f : Flow) : Prop where
  root : ∀ s ∈ f.liveStatements, ∃ st n, f.statement s = .ok st ∧ f.node st.root = .ok n ∧ n.place = .root s
  child : ∀ s ∈ f.liveStatements, ∀ t, f.statementTerm s = .ok t → ∀ x ∈ t.preorder, ∃ n, f.node x = .ok n ∧
    ∀ c ∈ n.expr.children, ∃ m, f.node c = .ok m ∧ m.place = .child x
  nodup : ∃ ts, f.liveStatements.mapM f.statementTerm = .ok ts ∧ (ts.flatMap Term.preorder).Nodup
  node : ∀ x n, f.node x = .ok n → (∀ y ∈ n.mentions, y.index < f.nodes.size) ∧
    ∀ s, n.place = .root s → s.index < f.statements.size
  statement : ∀ s st, f.statement s = .ok st → st.root.index < f.nodes.size ∧ ∃ b, f.block? st.block = some b
  block : ∀ a b, f.block? a = some b → b.statements.Nodup ∧
    ∀ s, s ∈ b.statements ↔ ∃ st, f.statement s = .ok st ∧ st.removed = false ∧ st.block = a
  ends : ∀ x, x.index < f.nodes.size → ∃ s, f.statementOf? x = .ok s

theorem statement_eq_ok_iff {st : Statement} : f.statement s = .ok st ↔ f.statementAt s = some st :=
  ⟨statementAt_of_statement, statement_eq⟩

/-- The trees of several statements lie apart. -/
theorem Forest.exists_trees (hf : f.Forest) {ss : List StatementId} (hlive : ∀ s ∈ ss, s ∈ f.liveStatements)
    (hnodup : ss.Nodup) : ∃ ts, ss.mapM f.statementTerm = .ok ts ∧ (ts.flatMap Term.preorder).Nodup ∧
      ∀ t ∈ ts, ∃ s ∈ ss, f.Holds s t := by
  induction ss with
  | nil => exact ⟨[], rfl, .nil, nofun⟩
  | cons s ss ih =>
    obtain ⟨hs, hnodup⟩ := List.nodup_cons.1 hnodup
    obtain ⟨t, ht⟩ := hf.holds_of_mem (hlive s (by simp))
    obtain ⟨ts, hts, hapart, hholds⟩ := ih (fun s' hs' => hlive s' (by simp [hs'])) hnodup
    refine ⟨t :: ts, ?_, ?_, fun u hu => ?_⟩
    · rw [List.mapM_cons, ht.statementTerm_eq, hts]
      rfl
    · rw [List.flatMap_cons]
      refine List.nodup_append.2 ⟨ht.nodup, hapart, ?_⟩
      rintro x hx _ hy rfl
      obtain ⟨u, hu, hxu⟩ := List.mem_flatMap.1 hy
      obtain ⟨s', hs', hu⟩ := hholds u hu
      exact hs (ht.statement_unique hu hx hxu ▸ hs')
    · obtain rfl | hu := List.mem_cons.1 hu
      · exact ⟨s, by simp, ht⟩
      · obtain ⟨s', hs', hu⟩ := hholds u hu
        exact ⟨s', by simp [hs'], hu⟩

theorem Holds.child_place (ht : f.Holds s t) (hx : x ∈ t.preorder) : ∃ n, f.node x = .ok n ∧
    ∀ c ∈ n.expr.children, ∃ m, f.node c = .ok m ∧ m.place = .child x := by
  obtain ⟨⟨i, e⟩, hwithin, rfl⟩ := Term.exists_within_of_mem_preorder hx
  obtain ⟨p, hstands⟩ := ht.stands.exists_of_within hwithin
  obtain ⟨shape, -, below⟩ := hstands
  refine ⟨_, node_eq shape, fun c hc => ?_⟩
  rw [Expr.children_map] at hc
  obtain ⟨u, hu, rfl⟩ := List.mem_map.1 hc
  exact ⟨_, node_eq (below u hu).shape_id, rfl⟩

/-- All that a node is about is there. -/
theorem Grounded.lt_of_mem_mentions (hf : f.Grounded) {n : Node} (hx : f.node x = .ok n) {y : NodeId}
    (hy : y ∈ n.mentions) : y.index < f.nodes.size := by
  rw [← exprAt_ne_none_iff_lt]
  have hnode := getElem?_of_node hx
  have hshape : f.shapeAt x = some (n.expr, n.place) := by simp [shapeAt, hnode]
  have hexpr := exprAt_eq_some hshape
  have hlink : f.linkOf x = n.link := by simp [linkOf, hnode]
  unfold Node.mentions at hy
  simp only [List.mem_append, Option.mem_toList] at hy
  obtain ((hchild | horigin) | hplace) | hmention := hy
  · obtain ⟨t, ht, rfl, -⟩ := hf.spelledWithout hexpr hchild
    exact ht.exprAt_ne_none t.id_mem_preorder
  · exact hf.origin x n.expr y hexpr horigin
  · cases hp : n.place with
    | child q =>
      rw [hp] at hplace hshape
      obtain rfl := List.mem_singleton.1 hplace
      obtain ⟨e', he', -⟩ := hf.parent x n.expr y hshape
      simp [he']
    | _ =>
      rw [hp] at hplace
      cases hplace
  · exact hf.link x y (hlink ▸ hmention)

theorem Orderly.arranged (hf : f.Orderly) : f.Arranged := by
  refine ⟨fun s hs => ?_, fun s hs t hterm x hx => ?_, ?_, fun x n hx => ⟨fun y => hf.grounded.lt_of_mem_mentions hx,
    fun s hp => ?_⟩, fun s st hst => ?_, fun a b hb => ⟨hf.forest.nodup a b hb, fun s => ?_⟩,
    fun x hx => (hf.grounded.readable x hx).2.2⟩
  · obtain ⟨t, st, hst, hroot, hstands⟩ := hf.forest.holds_of_mem hs
    exact ⟨st, _, statement_eq hst, hroot ▸ node_eq hstands.shape_id, rfl⟩
  · obtain ⟨t', ht'⟩ := hf.forest.holds_of_mem hs
    obtain rfl := Except.ok.inj (ht'.statementTerm_eq.symm.trans hterm)
    exact ht'.child_place hx
  · obtain ⟨ts, hts, hapart, -⟩ := hf.forest.exists_trees (fun _ h => h) hf.forest.nodup_liveStatements
    exact ⟨ts, hts, hapart⟩
  · have hshape : f.shapeAt x = some (n.expr, .root s) := by simp [shapeAt, getElem?_of_node hx, ← hp]
    obtain ⟨st, hst, -⟩ := hf.grounded.statement x n.expr s hshape
    exact (Array.getElem?_eq_some_iff.1 hst).1
  · have hst := statementAt_of_statement hst
    obtain ⟨st', t, hst', ht, hroot⟩ := hf.exists_root (s := s) (by simp [hst])
    obtain rfl := Option.some.inj (hst.symm.trans hst')
    refine ⟨?_, hf.forest.homed s st hst⟩
    rw [hroot]
    exact exprAt_ne_none_iff_lt.1 (ht.stands.spells.exprAt_ne_none t.id_mem_preorder)
  · simp only [hf.forest.listed a b s hb, statement_eq_ok_iff]

/-- All nodes of a flow that was just lowered are in statements. -/
theorem IsLowered.orderly (hf : f.IsLowered) : f.Orderly := by
  have hplain := hf.plain
  have hheld : ∀ {y}, f.exprAt y ≠ none → ∃ s t, f.Holds s t ∧ y ∈ t.preorder := fun hy => by
    obtain ⟨s, t, -, ht, hy⟩ := hf.tidy _ (exprAt_ne_none.1 hy)
    exact ⟨s, t, ht, hy⟩
  -- a node in a statement is its topmost node or below another node
  have hplace : ∀ {y ey p}, f.shapeAt y = some (ey, p) →
      (∃ s st, p = .root s ∧ f.statementAt s = some st ∧ st.root = y) ∨
      ∃ q e', p = .child q ∧ f.exprAt q = some e' ∧ y ∈ e'.children := by
    intro y ey p hy
    obtain ⟨s, t, ht, hmem⟩ := hheld (y := y) (by simp [exprAt_eq_some hy])
    by_cases hid : y = t.id
    · obtain ⟨st, hst, hroot, hstands⟩ := ht
      rw [hid, hstands.shape_id, Option.some.injEq, Prod.mk.injEq] at hy
      exact .inl ⟨s, st, hy.2.symm, hst, hroot.trans hid.symm⟩
    · obtain ⟨q, e', u, hwithin, hu, rfl, hstands⟩ := ht.stands.exists_parent hmem hid
      rw [hstands.shape_id, Option.some.injEq, Prod.mk.injEq] at hy
      refine .inr ⟨q, _, hy.2.symm, (ht.stands.spells.of_within hwithin).exprAt_id, ?_⟩
      rw [Expr.children_map]
      exact List.mem_map_of_mem hu
  refine ⟨hplain.forest, ⟨fun y hy => ?_, fun y ey q hy => ?_, fun y ey s hy => ?_, fun y z hz => ?_,
    fun y ey o hy ho => ?_⟩, hf.connected⟩
  · obtain ⟨s, t, ht, hmem⟩ := hheld hy
    obtain ⟨u, hu, rfl⟩ := Term.exists_within_of_mem_preorder hmem
    exact ⟨u, ht.stands.spells.of_within hu, rfl⟩
  · obtain ⟨s, st, heq, -⟩ | ⟨q', e', heq, hq, hmem⟩ := hplace hy
    · cases heq
    · cases heq
      exact ⟨e', hq, hmem⟩
  · obtain ⟨s', st, heq, hst, hroot⟩ | ⟨q', e', heq, -⟩ := hplace hy
    · cases heq
      exact ⟨st, hst, hroot⟩
    · cases heq
  · rw [hplain.unlinked] at hz
    cases hz
  · have hplain := hplain.plain y ey hy
    cases ey <;> cases ho
    cases hplain

end Flow

/-- A pass over a flow with all that it is run with, which may be any policy that has answers, any
    machine and any frame. -/
inductive AnyPass where
  | tag (kind : LocationKind)
  | untag
  | propagate (policy : PropagationPolicy) (answers : policy.Answers)
  | simplify (statement : StatementId)
  | prune
  | pruneToFixedPoint
  | rename (m : Machine) (negate : Bool) (frame : Frame)

namespace AnyPass

/-- Runs a pass. There is nothing to simplify at a statement that there is not. -/
def run : AnyPass → Pass Unit
  | tag kind => do
    let _ ← Tagging.tag kind
  | untag => Tagging.untag
  | propagate policy _ => do
    let _ ← FrameRecovery.propagate policy
  | simplify s => do
    if ((← get).statementAt s).isSome then
      let _ ← Edit.simplifyStatement s
  | prune => do
    let _ ← Pruning.prune
  | pruneToFixedPoint => do
    let _ ← Pruning.pruneToFixedPoint
  | rename m negate frame => do
    let _ ← ExceptT.mk do
      return (← (Renaming.rename (StackRenaming.policy m negate)).run.run frame).1

/-- Runs several passes, one after the other. Where one stops with an error, the next goes on with
    what it left. -/
def runAll (passes : List AnyPass) : Edit Unit :=
  passes.forM fun p => do
    let _ ← p.run.run

variable {f : Flow}

theorem run_settles (hf : f.Orderly) (p : AnyPass) : Settles p.run f (fun _ g => g.Orderly) Flow.Orderly := by
  have hpure : ∀ {α : Type} {x : Edit α}, Gives x f (fun _ g => g.Orderly) →
      Settles (liftM x >>= fun _ => pure ()) f (fun _ g => g.Orderly) Flow.Orderly := fun hx =>
    .of_bind (.of_lift (hx.mono fun _ _ hg => .of_pure hg))
  cases p with
  | tag kind => exact hpure (Tagging.tag_orderly hf)
  | untag => exact .of_lift (Tagging.untag_orderly hf)
  | propagate policy answers =>
    exact .of_bind ((Propagation.propagate_settles answers hf).mono fun _ _ hg => .of_pure hg)
  | simplify s =>
    refine .of_bind (.of_lift (.of_get ?_))
    split
    next hs => exact hpure ((Edit.simplifyStatement_orderly hf (Option.isSome_iff_ne_none.1 hs)).mono fun _ _ h => h.1)
    next => exact .of_pure hf
  | prune => exact hpure (Pruning.prune_orderly hf)
  | pruneToFixedPoint => exact hpure (Pruning.pruneToFixedPoint_orderly hf)
  | rename m negate frame =>
    have hrename := Renaming.rename_settles (StackRenaming.policy_suits m negate) hf frame
    refine .of_bind (Gives.of_bind (hrename.mono ?_))
    rintro ⟨e | a, frame'⟩ g hg
    · exact Gives.of_pure hg
    · exact Gives.of_pure (Settles.of_pure hg)

theorem runAll_orderly (hf : f.Orderly) (passes : List AnyPass) : Gives (runAll passes) f fun _ g => g.Orderly := by
  refine Gives.of_forM (I := fun _ (g : Flow) => g.Orderly) (fun p rest g hg => ?_) passes hf
  refine .of_bind (Gives.mono (run_settles hg p) ?_)
  rintro (e | a) h hh
  · exact .of_pure hh
  · exact .of_pure hh

/-- After any passes in any order, whether they succeed or not, every node is in its place. -/
theorem arranged_after_passes (hf : f.IsLowered) (passes : List AnyPass) :
    ∃ g, (runAll passes).run f = .ok ((), g) ∧ g.Arranged := by
  obtain ⟨_, g, hrun, hg⟩ := runAll_orderly hf.orderly passes
  exact ⟨g, hrun, hg.arranged⟩

/-- The loop is tagged, renamed, propagated and pruned with whatever fits and what does not. -/
theorem arranged_after_passes_loop :
    let passes := [tag .registers, propagate .replaceable PropagationPolicy.answers_replaceable,
      propagate (.stackPointer .x86) (PropagationPolicy.answers_stackPointer .x86), tag .derefs,
      rename .x86 true .empty, simplify ⟨0⟩, pruneToFixedPoint, untag, prune]
    ∃ g, (runAll passes).run loopFlow = .ok ((), g) ∧ g.Arranged :=
  arranged_after_passes loopFlow_isLowered _

end AnyPass

end FrameRecovery
