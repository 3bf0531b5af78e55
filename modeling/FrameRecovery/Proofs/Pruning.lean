import FrameRecovery.Proofs.Flow.Paths
import FrameRecovery.Proofs.Flow.Substitution
import FrameRecovery.Pruning

namespace FrameRecovery

open Flow

namespace Flow

variable {f g : Flow} {V : Locations} {s : StatementId} {st : Statement} {t : Term} {x : NodeId}

/-- A flow `g` is a flow `f` without a statement, and perhaps with other links. -/
structure Removes (f g : Flow) (s : StatementId) (st : Statement) : Prop where
  shape_eq : g.shapeAt = f.shapeAt
  entry_eq : g.entry = f.entry
  statementAt_eq : g.statementAt = Function.update f.statementAt s (some { st with removed := true })
  blocks_eq : g.blocks = f.blocks.modify st.block fun b =>
    { b with statements := b.statements.filter (· != s) }

namespace Removes

variable (hfg : f.Removes g s st)
include hfg

theorem block?_eq (a : Address) : g.block? a = (f.block? a).map fun b =>
    if a = st.block then { b with statements := b.statements.filter (· != s) } else b := by
  unfold block?
  rw [hfg.blocks_eq]
  by_cases ha : a = st.block
  · subst ha
    simp [SortedMap.find?_modify_self]
  · simp [SortedMap.find?_modify_of_ne ha, ha]

theorem exprAt_eq : g.exprAt = f.exprAt := by
  funext y
  simp [exprAt, hfg.shape_eq]

theorem holds (hst : f.statementAt s = some st) {s' : StatementId} {u : Term} (hu : f.Holds s' u) :
    g.Holds s' u := by
  obtain ⟨st', hst', hroot, hstands⟩ := hu
  have hstands : g.Stands (.root s') u := hstands.congr fun y _ => by rw [hfg.shape_eq]
  by_cases hs : s' = s
  · subst hs
    obtain rfl := Option.some.inj (hst.symm.trans hst')
    exact ⟨{ st with removed := true }, by rw [hfg.statementAt_eq, Function.update_self], hroot, hstands⟩
  · exact ⟨st', by rw [hfg.statementAt_eq, Function.update_of_ne hs, hst'], hroot, hstands⟩

theorem live {s' : StatementId} (hne : s' ≠ s) (hs' : f.Live s') : g.Live s' :=
  hs'.congr (by rw [hfg.statementAt_eq, Function.update_of_ne hne])

theorem live_old {s' : StatementId} (hs' : g.Live s') : s' ≠ s ∧ f.Live s' := by
  obtain ⟨st', h, hremoved⟩ := hs'
  rw [hfg.statementAt_eq] at h
  by_cases hs : s' = s
  · rw [hs, Function.update_self, Option.some.injEq] at h
    rw [← h] at hremoved
    cases hremoved
  · exact ⟨hs, st', by rwa [Function.update_of_ne hs] at h, hremoved⟩

theorem graph : f.SameGraph g := by
  refine ⟨hfg.entry_eq, fun a => ?_⟩
  rw [hfg.block?_eq, Option.map_map]
  congr 1
  funext b
  simp only [Function.comp_apply]
  split <;> rfl

theorem forest (hf : f.Forest) (hst : f.statementAt s = some st) : g.Forest := by
  have hstatement : ∀ s' st', g.statementAt s' = some st' → st'.removed = false →
      s' ≠ s ∧ f.statementAt s' = some st' := by
    intro s' st' h hremoved
    obtain ⟨hs, -⟩ := hfg.live_old ⟨st', h, hremoved⟩
    exact ⟨hs, by rwa [hfg.statementAt_eq, Function.update_of_ne hs] at h⟩
  have hblock : ∀ s' st', g.statementAt s' = some st' →
      ∃ st₀, f.statementAt s' = some st₀ ∧ st₀.block = st'.block := by
    intro s' st' h
    rw [hfg.statementAt_eq] at h
    by_cases hs : s' = s
    · rw [hs, Function.update_self, Option.some.injEq] at h
      exact ⟨st, hs ▸ hst, by rw [← h]⟩
    · exact ⟨st', by rwa [Function.update_of_ne hs] at h, rfl⟩
  refine ⟨fun a b hb => ?_, fun a b s' hb => ?_, fun s' st' h => ?_, fun a b hb => ?_,
    fun s' st' h => ?_⟩
  · rw [hfg.block?_eq] at hb
    obtain ⟨b₀, hb₀, rfl⟩ := Option.map_eq_some_iff.1 hb
    have := hf.address_eq a b₀ hb₀
    split <;> exact this
  · rw [hfg.block?_eq] at hb
    obtain ⟨b₀, hb₀, rfl⟩ := Option.map_eq_some_iff.1 hb
    have hlisted := hf.listed a b₀ s' hb₀
    have hmem : s' ∈ (if a = st.block then { b₀ with statements := b₀.statements.filter (· != s) }
        else b₀).statements ↔ s' ∈ b₀.statements ∧ s' ≠ s := by
      split
      · simp
      next ha =>
        refine ⟨fun h => ⟨h, ?_⟩, fun h => h.1⟩
        rintro rfl
        obtain ⟨st', hst', -, rfl⟩ := hlisted.1 h
        rw [hst] at hst'
        cases hst'
        exact ha rfl
    rw [hmem, hlisted]
    constructor
    · rintro ⟨⟨st', hst', hremoved, rfl⟩, hs⟩
      exact ⟨st', by rw [hfg.statementAt_eq, Function.update_of_ne hs, hst'], hremoved, rfl⟩
    · rintro ⟨st', hst', hremoved, rfl⟩
      obtain ⟨hs, hst'⟩ := hstatement s' st' hst' hremoved
      exact ⟨⟨st', hst', hremoved, rfl⟩, hs⟩
  · obtain ⟨st₀, hst₀, hblock⟩ := hblock s' st' h
    obtain ⟨b, hb⟩ := hf.homed s' st₀ hst₀
    exact ⟨_, by rw [hfg.block?_eq, ← hblock, hb]; rfl⟩
  · rw [hfg.block?_eq] at hb
    obtain ⟨b₀, hb₀, rfl⟩ := Option.map_eq_some_iff.1 hb
    have := hf.nodup a b₀ hb₀
    split
    · exact this.filter _
    · exact this
  · obtain ⟨st₀, hst₀, -⟩ := hblock s' st' h
    obtain ⟨u, hu⟩ := hf.holds s' st₀ hst₀
    exact ⟨u, hfg.holds hst hu⟩

/-- Without the links in it, a statement can be removed. -/
theorem sound (hf : f.Sound V) (ht : f.Holds s t) (hst : f.statementAt s = some st)
    (hlink : g.linkOf = f.linksWithout t.postorder) : g.Sound V := by
  have hlinked : ∀ y, g.linkOf y ≠ .unlinked → y ∉ t.preorder ∧ f.linkOf y ≠ .unlinked := by
    intro y hy
    rw [hlink] at hy
    unfold linksWithout at hy
    split at hy
    · exact absurd rfl hy
    next hyt => exact ⟨fun h => hyt (Term.mem_postorder.2 h), fun h => hy (by simp [h])⟩
  refine ⟨hfg.forest hf.forest hst, hf.typed.without hfg.exprAt_eq hlink,
    hf.mirrored.without hlink, fun y hy => ?_, fun y e he huntagged => ?_, fun u d n v hu hd => ?_⟩
  · obtain ⟨hyt, hy⟩ := hlinked y hy
    obtain ⟨s', u, hs', hu, hyu⟩ := hf.held y hy
    refine ⟨s', u, hfg.live ?_ hs', hfg.holds hst hu, hyu⟩
    rintro rfl
    exact hyt (hu.unique ht ▸ hyu)
  · rw [hfg.exprAt_eq] at he
    exact Free.without (hf.untagged y e he huntagged) hlink
  · rw [hfg.exprAt_eq] at hd ⊢
    refine hf.register u d n v ?_ hd
    rw [hlink] at hu
    unfold linksWithout at hu
    split at hu
    · cases hu
    · exact (Link.drop_eq_use.1 hu).1

theorem rooted (hf : f.Rooted) (hst : f.statementAt s = some st) : g.Rooted := by
  intro r d y hr
  rw [hfg.exprAt_eq] at hr
  obtain ⟨s', u, hu, hid⟩ := hf r d y hr
  exact ⟨s', u, hfg.holds hst hu, hid⟩

theorem refines (hf : f.Sound V) (hlink : g.linkOf = f.linksWithout t.postorder) : f.Refines g := by
  refine .of_exprs hf.typed.closed (fun z e hz => .inl (hfg.exprAt_eq ▸ hz)) (fun z n v d _ hz => ?_)
    fun r d y hr hr' => ?_
  · rw [hlink] at hz
    unfold linksWithout at hz
    split at hz
    · cases hz
    · have hz := (Link.drop_eq_use.1 hz).1
      exact ⟨hz, hf.typed.linked hf.mirrored hz⟩
  · rw [hfg.exprAt_eq, hr] at hr'
    cases hr'

theorem statementsAt_eq (hf : f.Forest) (hst : f.statementAt s = some st) (a : Address) :
    g.statementsAt a = (f.statementsAt a).filter (· != s) := by
  unfold statementsAt
  rw [hfg.block?_eq]
  cases hb : f.block? a with
  | none => rfl
  | some b =>
    simp only [Option.map_some]
    split
    · rfl
    next ha =>
      symm
      rw [List.filter_eq_self]
      intro s' hs'
      rw [bne_iff_ne]
      rintro rfl
      obtain ⟨st', hst', -, rfl⟩ := (hf.listed a b s' hb).1 hs'
      exact ha (by rw [Option.some.inj (hst.symm.trans hst')])

theorem mem_liveStatements (hf : f.Forest) (hst : f.statementAt s = some st) {s' : StatementId}
    (hs' : s' ∈ f.liveStatements) (hne : s' ≠ s) : s' ∈ g.liveStatements := by
  exact (hfg.forest hf hst).mem_liveStatements.2 (hfg.live hne (hf.mem_liveStatements.1 hs'))

end Removes

end Flow

namespace Edit

variable {f : Flow} {s : StatementId} {t : Term}

/-- The links of a statement can be removed. -/
theorem unlinkSubtree_gives (hf : f.Tied) {u : Term} (ht : f.Holds s t) (hu : Term.Within u t) :
    Gives (unlinkSubtree u.id) f fun _ g => f.Becomes g f.shapeAt (f.linksWithout u.postorder) := by
  unfold unlinkSubtree
  refine .of_bind (.of_view (ht.term_eq hu) ?_)
  refine unlinks_gives _ hf.mirrored hf.exists_node fun x hx => ?_
  exact ht.stands.shapeAt_ne_none (hu.preorder_subset (Term.mem_postorder.1 hx))

/-- A statement can be removed after links have changed. -/
theorem removeStatement_removes {g : Flow} {st : Statement} {link : NodeId → Link}
    (hg : f.Becomes g f.shapeAt link) (hst : f.statementAt s = some st) (hremoved : st.removed = false) :
    Gives (removeStatement s) g fun _ h => f.Removes h s st ∧ h.linkOf = g.linkOf := by
  have hst' : g.statementAt s = some st := by rw [hg.statementAt_eq, hst]
  refine (removeStatement_gives hst' hremoved).mono ?_
  rintro - h ⟨hshape, hlink, hentry, hstatement, hblocks⟩
  refine ⟨⟨hshape.trans hg.shape_eq, hentry.trans hg.entry_eq, ?_, ?_⟩, hlink⟩
  · rw [hstatement, hg.statementAt_eq]
  · rw [hblocks, hg.blocks_eq]

end Edit

namespace Pruning

variable {f f₀ : Flow} {V : Locations} {s : StatementId} {t : Term}

theorem isPrunable_eq (ht : f.Holds s t) : ∃ b, isPrunable f s = .ok b := by
  unfold isPrunable
  rw [ht.rootExpr_eq]
  obtain ⟨r, e⟩ := t
  cases e with
  | assign a b =>
    have ha : Term.Within a (.node r (.assign a b)) := .of_mem_children (by simp [Expr.children])
    have hb : Term.Within b (.node r (.assign a b)) := .of_mem_children (by simp [Expr.children])
    obtain ⟨q, hq⟩ := ht.stands.exists_of_within ha
    rw [bind_ok]
    dsimp only [Term.expr_node, Expr.map]
    rw [ht.term_eq hb, bind_ok, expr_eq hq.shape_id, uses_eq hq.shape_id]
    split
    · exact ⟨_, rfl⟩
    · obtain ⟨i, e⟩ := a
      rcases e with ⟨n, _ | v⟩ | _ <;> exact ⟨_, rfl⟩
  | _ => exact ⟨_, rfl⟩

/-- An assignment of a value without calls to a version of a register is pruned if nothing reads it. -/
theorem isPrunable_of_holds {i d : NodeId} {n : String} {k : Nat} {v : Term}
    (ht : f.Holds s (.node i (.assign (.node d (.register n (some k))) v))) (hcall : v.containsCall = false) :
    isPrunable f s = .ok (f.linkOf d).uses.isEmpty := by
  have hv := ht.term_eq (.of_mem_children (c := v) (by simp [Expr.children]))
  obtain ⟨q, hd⟩ := ht.stands.exists_of_within (.of_mem_children (c := .node d (.register n (some k))) List.mem_cons_self)
  unfold isPrunable
  rw [ht.rootExpr_eq, bind_ok]
  dsimp only [Term.expr_node, Expr.map]
  have hshape : f.shapeAt d = _ := hd.shape_id
  rw [hv, bind_ok, hcall, Term.id_node, expr_eq hshape, uses_eq hshape]
  rfl

/-- What is pruned assigns a value without calls to a version of a register that nothing reads. -/
theorem exists_of_isPrunable (ht : f.Holds s t) (h : isPrunable f s = .ok true) :
    ∃ r i n k v, t = .node r (.assign (.node i (.register n (some k))) v) ∧ v.containsCall = false ∧
      f.uses i = .ok [] := by
  unfold isPrunable at h
  rw [ht.rootExpr_eq, bind_ok] at h
  obtain ⟨r, e⟩ := t
  cases e with
  | assign a b =>
    have ha : Term.Within a (.node r (.assign a b)) := .of_mem_children (by simp [Expr.children])
    have hb : Term.Within b (.node r (.assign a b)) := .of_mem_children (by simp [Expr.children])
    obtain ⟨q, hq⟩ := ht.stands.exists_of_within ha
    dsimp only [Term.expr_node, Expr.map] at h
    rw [ht.term_eq hb, bind_ok] at h
    split at h
    · cases h
    next hcall =>
      rw [expr_eq hq.shape_id, bind_ok] at h
      obtain ⟨i, e⟩ := a
      cases e with
      | register n v =>
        cases v with
        | none => cases h
        | some k =>
          obtain ⟨us, hus, h⟩ := exists_of_except_bind h
          obtain rfl := List.isEmpty_iff.1 (Except.ok.inj h)
          exact ⟨r, i, n, k, b, rfl, by simpa using hcall, hus⟩
      | _ => cases h
  | _ => cases h

/-- A statement that can be pruned is gone. -/
inductive Prunes (V : Locations) (f g : Flow) : Prop
  | intro {s : StatementId} {st : Statement} {t : Term} (sound : f.Sound V) (statement : f.statementAt s = some st)
      (holds : f.Holds s t) (prunable : isPrunable f s = .ok true) (removes : f.Removes g s st)
      (link : g.linkOf = f.linksWithout t.postorder)

/-- The outcome of pruning: the flow stays sound and computes nothing new, on the same graph. -/
structure Pruned (V : Locations) (f g : Flow) : Prop where
  sound : g.Sound V
  rooted : f.Rooted → g.Rooted
  refines : f.Refines g
  graph : f.SameGraph g
  steps : Relation.ReflTransGen (Prunes V) f g

theorem Pruned.refl (hf : f.Sound V) : Pruned V f f :=
  ⟨hf, id, .refl f, .refl f, .refl⟩

/-- A visit to a live statement takes it away if it is a dead definition, and changes nothing if it is not. -/
theorem pruneStatement_cases (hf : f.Sound V) (hs : f.Live s) : Gives (pruneStatement s) f fun n g =>
    n = 0 ∧ g = f ∧ isPrunable f s = .ok false ∨
    n = 1 ∧ ∃ st t, f.statementAt s = some st ∧ f.Holds s t ∧ isPrunable f s = .ok true ∧ f.Removes g s st ∧
      g.linkOf = f.linksWithout t.postorder := by
  obtain ⟨st, hst, hremoved⟩ := hs
  obtain ⟨t, ht⟩ := hf.forest.holds s st hst
  obtain ⟨st', hst', hroot, -⟩ := id ht
  obtain rfl := Option.some.inj (hst.symm.trans hst')
  obtain ⟨b, hb⟩ := isPrunable_eq ht
  unfold pruneStatement
  refine .of_bind (.of_view hb ?_)
  cases b with
  | false => exact .of_pure (.inl ⟨rfl, rfl, hb⟩)
  | true =>
    refine .of_bind (.of_view (statement_eq hst) ?_)
    rw [hroot]
    refine .of_bind ((Edit.unlinkSubtree_gives hf.tied ht (.refl t)).mono fun _ g hg => ?_)
    refine .of_bind ((Edit.removeStatement_removes hg hst hremoved).mono ?_)
    rintro - h ⟨hremoves, hlink⟩
    exact .of_pure (.inr ⟨rfl, st, t, hst, ht, hb, hremoves, hlink.trans hg.link_eq⟩)

theorem pruneStatement_gives (hf : Pruned V f₀ f) (hs : s ∈ f.liveStatements) :
    Gives (pruneStatement s) f fun _ g =>
      Pruned V f₀ g ∧ ∀ s' ∈ f.liveStatements, s' ≠ s → s' ∈ g.liveStatements := by
  refine (pruneStatement_cases hf.sound (hf.sound.forest.mem_liveStatements.1 hs)).mono ?_
  rintro _ g (⟨-, rfl, -⟩ | ⟨-, st, t, hst, ht, hprunable, hremoves, hlink⟩)
  · exact ⟨hf, fun _ h _ => h⟩
  · exact ⟨⟨hremoves.sound hf.sound ht hst hlink, fun h => hremoves.rooted (hf.rooted h) hst,
      hf.refines.trans (hremoves.refines hf.sound hlink), hf.graph.trans hremoves.graph,
      hf.steps.tail (.intro hf.sound hst ht hprunable hremoves hlink)⟩,
      fun s' hs' hne => hremoves.mem_liveStatements hf.sound.forest hst hs' hne⟩

/-- What is kept in a round of pruning: the statements that are still to be visited are live. -/
structure Remains (V : Locations) (f₀ g : Flow) (rest : List StatementId) : Prop where
  pruned : Pruned V f₀ g
  nodup : rest.Nodup
  live : ∀ s ∈ rest, s ∈ g.liveStatements

theorem prune_gives (hf : Pruned V f₀ f) : Gives prune f fun _ g => Pruned V f₀ g := by
  unfold prune
  refine .of_bind (.of_get (.of_bind ?_))
  refine (Gives.of_mapM (I := fun rest (_ : List Nat) g => Remains V f₀ g rest) ?_ _ (b := [])
    ⟨hf, hf.sound.forest.nodup_liveStatements, fun _ h => h⟩).mono fun _ g hg => .of_pure hg.pruned
  rintro s rest _ g ⟨hg, hnodup, hlive⟩
  obtain ⟨hs, hnodup⟩ := List.nodup_cons.1 hnodup
  refine (pruneStatement_gives hg (hlive s (by simp))).mono ?_
  rintro - h ⟨hh, hkept⟩
  refine ⟨hh, hnodup, fun s' hs' => hkept s' (hlive s' (by simp [hs'])) ?_⟩
  rintro rfl
  exact hs hs'

theorem rounds_gives (n : Nat) (hf : Pruned V f₀ f) : Gives (rounds n) f fun _ g => Pruned V f₀ g := by
  induction n generalizing f with
  | zero => exact .of_pure hf
  | succ n ih =>
    unfold rounds
    refine .of_bind ((prune_gives hf).mono fun removed g hg => ?_)
    split
    · exact .of_pure hg
    · exact .of_bind ((ih hg).mono fun _ h hh => .of_pure hh)

/-- Pruning to a fixed point succeeds on every sound flow and keeps it sound. -/
theorem pruneToFixedPoint_gives (hf : Pruned V f₀ f) :
    Gives pruneToFixedPoint f fun _ g => Pruned V f₀ g :=
  .of_bind (.of_get (rounds_gives _ hf))

end Pruning

end FrameRecovery
