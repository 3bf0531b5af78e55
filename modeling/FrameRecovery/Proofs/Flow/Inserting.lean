import FrameRecovery.Proofs.Flow.Paths

namespace FrameRecovery

namespace Flow

variable {f g h : Flow} {block address : Address} {position : Nat} {s : StatementId} {t : Term}
  {b : Block}

/-- The outcome of making a pending tree `t` of a flow `g`, which has nothing else more than a
    flow `f`, the statement `s`. -/
structure Inserts (f g h : Flow) (block : Address) (position : Nat) (s : StatementId) (t : Term) :
    Prop where
  forest : h.Forest
  holds : h.Holds s t
  live : h.Live s
  holds_old : ∀ s' u, f.Holds s' u → h.Holds s' u
  fresh : f.statementAt s = none
  exprAt_eq : h.exprAt = g.exprAt
  linkOf_eq : h.linkOf = g.linkOf
  kept : ∀ y, f.shapeAt y ≠ none → h.shapeAt y = f.shapeAt y
  other : ∀ s', s' ≠ s → h.statementAt s' = f.statementAt s'
  statementsAt_eq : ∀ a, h.statementsAt a =
    if a = block then (f.statementsAt a).insertIdx position s else f.statementsAt a
  graph : f.SameGraph h

namespace Inserts

theorem statement (h' : f.Inserts g h block position s t) (s' : StatementId) (st : Statement)
    (hst : f.statementAt s' = some st) : h.statementAt s' = some st := by
  have hne : s' ≠ s := by
    rintro rfl
    simp [h'.fresh] at hst
  rw [h'.other s' hne, hst]

theorem exprAt_top {i : NodeId} {e : Expr Term} (h' : f.Inserts g h block position s (.node i e)) :
    h.exprAt i = some (e.map Term.id) :=
  exprAt_eq_some h'.holds.stands.shape_id

theorem stands_child {i : NodeId} {e : Expr Term} {c : Term} (h' : f.Inserts g h block position s (.node i e))
    (hc : c ∈ e.children) : h.Stands (.child i) c := by
  obtain ⟨-, -, below⟩ := h'.holds.stands
  exact below c hc

/-- The other statements are those of before. -/
theorem holds_of_ne (h' : f.Inserts g h block position s t) (hf : f.Forest) {s' : StatementId} {u : Term}
    (hu : h.Holds s' u) (hne : s' ≠ s) : f.Holds s' u := by
  obtain ⟨st, hst, -⟩ := id hu
  rw [h'.other s' hne] at hst
  obtain ⟨u', hu'⟩ := hf.holds s' st hst
  exact hu.unique (h'.holds_old s' u' hu') ▸ hu'

end Inserts

/-- Every node is in the tree of a statement that is not removed. -/
def Tidy (f : Flow) : Prop :=
  ∀ x, f.shapeAt x ≠ none → f.Held x

theorem Tidy.inserts (hf : f.Tidy) (hfg : f.Pending g [t]) (hgh : f.Inserts g h block position s t) : h.Tidy := by
  intro x hx
  have hxg : g.shapeAt x ≠ none := by
    rw [← exprAt_ne_none, ← hgh.exprAt_eq, exprAt_ne_none]
    exact hx
  obtain hold | hnew := hfg.grows_of_singleton.made x hxg
  · obtain ⟨s', u, ⟨st, hst, hremoved⟩, hu, hxu⟩ := hf x hold
    exact ⟨s', u, ⟨st, hgh.statement s' st hst, hremoved⟩, hgh.holds_old s' u hu, hxu⟩
  · exact ⟨s, t, hgh.live, hgh.holds, hnew⟩

theorem statementAt_nextStatement (f : Flow) : f.statementAt f.nextStatement = none := by
  simp [statementAt, nextStatement]

/-- The outcome of making a detached tree `t` of a flow `g` the statement `s`. -/
structure Places (g h : Flow) (block : Address) (position : Nat) (s : StatementId) (t : Term) : Prop where
  forest : h.Forest
  holds : h.Holds s t
  live : h.Live s
  holds_old : ∀ s' u, g.Holds s' u → h.Holds s' u
  fresh : g.statementAt s = none
  linkOf_eq : h.linkOf = g.linkOf
  shapeAt_eq : h.shapeAt = Function.update g.shapeAt t.id (some (t.expr.map Term.id, .root s))
  other : ∀ s', s' ≠ s → h.statementAt s' = g.statementAt s'
  statementsAt_eq : ∀ a, h.statementsAt a =
    if a = block then (g.statementsAt a).insertIdx position s else g.statementsAt a
  graph : g.SameGraph h

theorem Places.exprAt_eq (hgh : g.Places h block position s t) (ht : g.Stands .detached t) : h.exprAt = g.exprAt := by
  funext y
  rw [exprAt, hgh.shapeAt_eq, exprAt]
  by_cases hy : y = t.id
  · rw [hy, Function.update_self, ht.shape_id]
    rfl
  · rw [Function.update_of_ne hy]

/-- What making a detached tree `t` the new statement `s` of a block `b` changes. -/
structure Slots (g h : Flow) (block address : Address) (position : Nat) (s : StatementId) (t : Term) (b : Block) :
    Prop where
  found : g.block? block = some b
  within : position ≤ b.statements.length
  stands : g.Stands .detached t
  fresh : g.statementAt s = none
  shapeAt_eq : h.shapeAt = Function.update g.shapeAt t.id (some (t.expr.map Term.id, .root s))
  statementAt_eq : h.statementAt = Function.update g.statementAt s (some ⟨address, t.id, block, false⟩)
  block?_eq : ∀ a, h.block? a = if a = block then some { b with statements := b.statements.insertIdx position s }
    else g.block? a

namespace Slots

variable (hgh : g.Slots h block address position s t b)
include hgh

theorem statementAt_self : h.statementAt s = some ⟨address, t.id, block, false⟩ := by
  rw [hgh.statementAt_eq, Function.update_self]

theorem statementAt_of_ne {s' : StatementId} (hne : s' ≠ s) : h.statementAt s' = g.statementAt s' := by
  rw [hgh.statementAt_eq, Function.update_of_ne hne]

theorem ne_of_statementAt {s' : StatementId} {st : Statement} (hst : g.statementAt s' = some st) : s' ≠ s := by
  rintro rfl
  simp [hgh.fresh] at hst

theorem shapeAt_of_ne {y : NodeId} (hne : y ≠ t.id) : h.shapeAt y = g.shapeAt y := by
  rw [hgh.shapeAt_eq, Function.update_of_ne hne]

theorem holds_old {s' : StatementId} {u : Term} (hu : g.Holds s' u) : h.Holds s' u := by
  obtain ⟨st, hst, -⟩ := id hu
  refine hu.congr (hgh.statementAt_of_ne (hgh.ne_of_statementAt hst)) fun y hy => hgh.shapeAt_of_ne ?_
  rintro rfl
  exact hu.not_mem_detached hgh.stands t.id_mem_preorder hy

theorem holds : h.Holds s t := by
  refine ⟨_, hgh.statementAt_self, rfl, hgh.stands.move ?_ fun c hc y hy => hgh.shapeAt_of_ne ?_⟩
  · rw [hgh.shapeAt_eq, Function.update_self]
  · have hnodup := hgh.stands.nodup_preorder Place.top_detached
    obtain ⟨i, e⟩ := t
    rw [Term.preorder_node, List.nodup_cons] at hnodup
    rintro rfl
    exact hnodup.1 (List.mem_flatMap.2 ⟨c, hc, hy⟩)

theorem block?_self : h.block? block = some { b with statements := b.statements.insertIdx position s } := by
  rw [hgh.block?_eq, if_pos rfl]

theorem block?_of_ne {a : Address} (hne : a ≠ block) : h.block? a = g.block? a := by
  rw [hgh.block?_eq, if_neg hne]

theorem exists_block {a : Address} {b' : Block} (hb : g.block? a = some b') : ∃ b'', h.block? a = some b'' := by
  rw [hgh.block?_eq]
  split
  · exact ⟨_, rfl⟩
  · exact ⟨b', hb⟩

variable (hg : g.Forest)
include hg

theorem not_mem {a : Address} {b' : Block} (hb : g.block? a = some b') : s ∉ b'.statements := by
  intro hmem
  obtain ⟨st, hst, -⟩ := (hg.listed a b' s hb).1 hmem
  exact hgh.ne_of_statementAt hst rfl

/-- The statements of a block are still those that are in it. -/
theorem listed {a : Address} {b' : Block} {s' : StatementId} (hb : h.block? a = some b') :
    s' ∈ b'.statements ↔ ∃ st, h.statementAt s' = some st ∧ st.removed = false ∧ st.block = a := by
  by_cases ha : a = block
  · subst ha
    obtain rfl := Option.some.inj (hgh.block?_self.symm.trans hb)
    rw [List.mem_insertIdx hgh.within]
    by_cases hs : s' = s
    · subst hs
      simp [hgh.statementAt_self]
    · simp [hs, hgh.statementAt_of_ne hs, hg.listed a b s' hgh.found]
  · rw [hgh.block?_of_ne ha] at hb
    by_cases hs : s' = s
    · subst hs
      simp [hgh.statementAt_self, hgh.not_mem hg hb, Ne.symm ha]
    · rw [hgh.statementAt_of_ne hs]
      exact hg.listed a b' s' hb

theorem nodup {a : Address} {b' : Block} (hb : h.block? a = some b') : b'.statements.Nodup := by
  by_cases ha : a = block
  · subst ha
    obtain rfl := Option.some.inj (hgh.block?_self.symm.trans hb)
    refine (List.perm_insertIdx s b.statements hgh.within).nodup_iff.2 ?_
    exact List.nodup_cons.2 ⟨hgh.not_mem hg hgh.found, hg.nodup a b hgh.found⟩
  · exact hg.nodup a b' (hgh.block?_of_ne ha ▸ hb)

theorem forest : h.Forest where
  address_eq a b' hb := by
    by_cases ha : a = block
    · subst ha
      obtain rfl := Option.some.inj (hgh.block?_self.symm.trans hb)
      exact hg.address_eq a b hgh.found
    · exact hg.address_eq a b' (hgh.block?_of_ne ha ▸ hb)
  listed _ _ _ := hgh.listed hg
  homed s' st hst := by
    by_cases hs : s' = s
    · subst hs
      obtain rfl := Option.some.inj (hgh.statementAt_self.symm.trans hst)
      exact hgh.exists_block hgh.found
    · obtain ⟨b', hb⟩ := hg.homed s' st (hgh.statementAt_of_ne hs ▸ hst)
      exact hgh.exists_block hb
  nodup _ _ := hgh.nodup hg
  holds s' st hst := by
    by_cases hs : s' = s
    · subst hs
      exact ⟨t, hgh.holds⟩
    · obtain ⟨u, hu⟩ := hg.holds s' st (hgh.statementAt_of_ne hs ▸ hst)
      exact ⟨u, hgh.holds_old hu⟩

end Slots

theorem insertStatement_places (hg : g.Forest) (hstands : g.Stands .detached t) (hb : g.block? block = some b)
    (hposition : position ≤ b.statements.length) :
    Gives (Edit.insertStatement block position address t.id) g fun s h => g.Places h block position s t := by
  refine (Edit.insertStatement_gives hstands.shape_id hb hposition).mono ?_
  rintro s h ⟨hs, hshape, hlink, hentry, hstatement, hblocks⟩
  have hblock : ∀ a, h.block? a = if a = block then
      some { b with statements := b.statements.insertIdx position s } else g.block? a := by
    intro a
    rw [block?, hblocks]
    split
    next heq =>
      rw [heq, SortedMap.find?_modify_self]
      change (g.block? block).map _ = _
      rw [hb]
      rfl
    next hne => exact SortedMap.find?_modify_of_ne hne _ _
  have hgh : g.Slots h block address position s t b :=
    ⟨hb, hposition, hstands, hs ▸ statementAt_nextStatement g, hshape, hstatement, hblock⟩
  refine ⟨hgh.forest hg, hgh.holds, ⟨_, hgh.statementAt_self, rfl⟩, fun _ _ => hgh.holds_old, hgh.fresh, hlink,
    hshape, fun _ => hgh.statementAt_of_ne, fun a => ?_, hentry, fun a => ?_⟩
  · unfold statementsAt
    rw [hblock]
    by_cases ha : a = block
    · subst ha
      simp [hb]
    · simp [ha]
  · rw [hblock]
    split
    next heq =>
      subst heq
      simp [hb]
    next => rfl

theorem insertStatement_gives (hf : f.Forest) (hfg : f.Pending g [t]) (hb : f.block? block = some b)
    (hposition : position ≤ b.statements.length) :
    Gives (Edit.insertStatement block position address t.id) g fun s h =>
      f.Inserts g h block position s t := by
  have hgrows := hfg.grows_of_singleton
  have hstands := hfg.stands t (by simp)
  have hblock : ∀ a, g.block? a = f.block? a := fun a => by rw [block?, hgrows.blocks_eq, block?]
  refine (insertStatement_places (hf.grows hgrows) hstands ((hblock block).trans hb) hposition).mono fun s h hgh => ?_
  refine ⟨hgh.forest, hgh.holds, hgh.live, fun s' u hu => hgh.holds_old s' u (hu.grows hgrows), ?_,
    hgh.exprAt_eq hstands, hgh.linkOf_eq, fun y hy => ?_, fun s' hs' => ?_, fun a => ?_,
    (SameGraph.of_blocks_eq hgrows.entry_eq hgrows.blocks_eq).trans hgh.graph⟩
  · rw [← hgrows.statementAt_eq, hgh.fresh]
  · have hyt : y ≠ t.id := by
      rintro rfl
      exact hy (hgrows.fresh _ t.id_mem_preorder)
    rw [hgh.shapeAt_eq, Function.update_of_ne hyt, hgrows.kept y hy]
  · rw [hgh.other s' hs', hgrows.statementAt_eq]
  · have hstatements : g.statementsAt a = f.statementsAt a := by rw [statementsAt, hblock, statementsAt]
    rw [hgh.statementsAt_eq, hstatements]

end Flow

end FrameRecovery
