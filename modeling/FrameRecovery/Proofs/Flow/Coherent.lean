import FrameRecovery.Proofs.Flow.Typing

namespace FrameRecovery

namespace Flow

variable {f g : Flow} {V : Locations} {s s' : StatementId} {t t' u : Term} {x : NodeId}

/-- A statement with its tree. -/
def Holds (f : Flow) (s : StatementId) (t : Term) : Prop :=
  ∃ st, f.statementAt s = some st ∧ st.root = t.id ∧ f.Stands (.root s) t

/-- A statement is there and not removed. -/
def Live (f : Flow) (s : StatementId) : Prop :=
  ∃ st, f.statementAt s = some st ∧ st.removed = false

/-- A node is in the tree of a statement that is not removed. -/
def Held (f : Flow) (x : NodeId) : Prop :=
  ∃ s t, f.Live s ∧ f.Holds s t ∧ x ∈ t.preorder

/-- Every statement has its tree, and the blocks list the statements that are not removed. -/
structure Forest (f : Flow) : Prop where
  address_eq : ∀ a b, f.block? a = some b → b.address = a
  listed : ∀ a b s, f.block? a = some b →
    (s ∈ b.statements ↔ ∃ st, f.statementAt s = some st ∧ st.removed = false ∧ st.block = a)
  homed : ∀ s st, f.statementAt s = some st → ∃ b, f.block? st.block = some b
  nodup : ∀ a b, f.block? a = some b → b.statements.Nodup
  holds : ∀ s st, f.statementAt s = some st → ∃ t, f.Holds s t

/-- A forest whose links are in the trees of its live statements, mirror each other, and are
    about one version of one register, if they are about registers. -/
structure Sound (f : Flow) (V : Locations) : Prop where
  forest : f.Forest
  typed : f.Typed V
  mirrored : f.Mirrored
  held : ∀ x, f.linkOf x ≠ .unlinked → f.Held x
  untagged : ∀ x e, f.exprAt x = some e → e.isUntagged = true → (f.linkOf x).Free
  register : ∀ u d n v, f.linkOf u = .use (some d) → f.exprAt d = some (.register n v) →
    f.exprAt u = some (.register n v)

/-- A flow that is sound with some locations is so with more. -/
theorem Sound.mono {V' : Locations} (hf : f.Sound V) (hV : ∀ e : Expr NodeId, V.Admits e → V'.Admits e) :
    f.Sound V' :=
  ⟨hf.forest, ⟨hf.typed.closed, hf.typed.target, hf.typed.link, fun x e hx => hV e (hf.typed.location x e hx)⟩,
    hf.mirrored, hf.held, hf.untagged, hf.register⟩

theorem Sound.any (hf : f.Sound V) : f.Sound .any :=
  hf.mono fun e _ => Locations.admits_any e

theorem Sound.tied (hf : f.Sound V) : f.Tied :=
  ⟨hf.mirrored, fun _ => hf.typed.exists_node⟩

namespace Holds

theorem stands (h : f.Holds s t) : f.Stands (.root s) t := by
  obtain ⟨-, -, -, h⟩ := h
  exact h

theorem nodup (h : f.Holds s t) : t.preorder.Nodup :=
  h.stands.nodup_preorder (Place.top_root s)

theorem sits (h : f.Holds s t) : f.Sits (.root s) t := by
  have hnodup := h.nodup
  obtain ⟨st, hst, hroot, hstands⟩ := h
  refine ⟨hstands, hnodup, nofun, ?_⟩
  rintro _ ⟨⟩
  exact ⟨st, hst, hroot⟩

theorem unique (h : f.Holds s t) (h' : f.Holds s u) : t = u := by
  obtain ⟨st, hst, hroot, hstands⟩ := h
  obtain ⟨st', hst', hroot', hstands'⟩ := h'
  rw [hst] at hst'
  cases hst'
  exact hstands.unique hstands' (hroot.symm.trans hroot')

theorem statement_unique (h : f.Holds s t) (h' : f.Holds s' u) (hx : x ∈ t.preorder)
    (hx' : x ∈ u.preorder) : s = s' := by
  have := h.stands.place_eq_of_mem h'.stands (Place.top_root s) (Place.top_root s') hx hx'
  exact Place.root.inj this

theorem not_mem_detached (h : f.Holds s t) (hu : f.Stands .detached u) (hx : x ∈ u.preorder) :
    x ∉ t.preorder := by
  intro hxt
  cases h.stands.place_eq_of_mem hu (Place.top_root s) Place.top_detached hxt hx

theorem term_eq (h : f.Holds s t) (hu : Term.Within u t) : f.term u.id = .ok u :=
  h.stands.term_eq_of_within hu

theorem statementTerm_eq (h : f.Holds s t) : f.statementTerm s = .ok t := by
  have hterm := h.term_eq (.refl t)
  obtain ⟨st, hst, hroot, -⟩ := h
  unfold statementTerm
  rw [statement_eq hst]
  change f.term st.root = _
  rw [hroot, hterm]

theorem statementText_eq (h : f.Holds s t) : f.statementText s = .ok t.text := by
  unfold statementText
  rw [h.statementTerm_eq]
  rfl

theorem operands_eq (h : f.Holds s t) : f.operands s = .ok t.preorder.tail := by
  unfold operands
  rw [h.statementTerm_eq]
  rfl

theorem rootExpr_eq (h : f.Holds s t) : f.rootExpr s = .ok (t.expr.map Term.id) := by
  obtain ⟨st, hst, hroot, hstands⟩ := h
  exact Flow.rootExpr_eq hst (hroot ▸ hstands.shape_id)

theorem statementOf?_eq (h : f.Holds s t) (hx : x ∈ t.preorder) : f.statementOf? x = .ok (some s) :=
  h.stands.statementOf?_root hx

theorem isLive_eq (h : f.Holds s t) (hs : f.Live s) (hx : x ∈ t.preorder) :
    f.isLive x = .ok true := by
  have hstatement := h.statementOf?_eq hx
  obtain ⟨st, hst, hremoved⟩ := hs
  unfold isLive
  rw [hstatement]
  change (f.statement s >>= fun st => Except.ok (!st.removed)) = _
  rw [statement_eq hst]
  change Except.ok (!st.removed) = _
  rw [hremoved]
  rfl

theorem exists_shape (h : f.Holds s t) (hx : x ∈ t.preorder) : ∃ e p, f.shapeAt x = some (e, p) := by
  obtain ⟨⟨e, p⟩, hep⟩ := Option.ne_none_iff_exists'.1 (h.stands.shapeAt_ne_none hx)
  exact ⟨e, p, hep⟩

/-- The node above a node of a statement, if there is one, is in the statement. -/
theorem parentExpr?_eq (h : f.Holds s t) (hx : x ∈ t.preorder) :
    f.parentExpr? x = .ok none ∨ ∃ i e u, Term.Within (.node i e) t ∧ u ∈ e.children ∧ u.id = x ∧
      f.parentExpr? x = .ok (some (e.map Term.id)) := by
  by_cases hid : x = t.id
  · refine .inl ?_
    unfold parentExpr?
    rw [hid, node_eq h.stands.shape_id]
    rfl
  · obtain ⟨i, e, u, hwithin, hu, rfl, hstands⟩ := h.stands.exists_parent hx hid
    obtain ⟨q, hq⟩ := h.stands.exists_of_within hwithin
    exact .inr ⟨i, e, u, hwithin, hu, rfl, parentExpr?_eq_some hstands.shape_id hq.shape_id⟩

end Holds

/-- A node is an operand of a merge. -/
def IsInput (f : Flow) (x : NodeId) : Prop :=
  ∃ inputs, f.parentExpr? x = .ok (some (.theta inputs))

theorem Stands.isInput {i : NodeId} {xs : List Term} {p : Place} {u : Term} (h : f.Stands p (.node i (.theta xs)))
    (hu : u ∈ xs) : f.IsInput u.id := by
  obtain ⟨shape, -, below⟩ := h
  exact ⟨_, parentExpr?_eq_some (below u hu).shape_id shape⟩

/-- In a statement the operands of the merges are those of the tree. -/
theorem Holds.isInput_iff (h : f.Holds s t) (hx : x ∈ t.preorder) :
    f.IsInput x ↔ ∃ i xs u, Term.Within (.node i (.theta xs)) t ∧ u ∈ xs ∧ u.id = x := by
  constructor
  · rintro ⟨inputs, heq⟩
    obtain hnone | ⟨i, e, u, hwithin, hu, hid, hsome⟩ := h.parentExpr?_eq hx
    · simp [hnone] at heq
    · rw [hsome, Except.ok.injEq, Option.some.injEq] at heq
      cases e <;> simp only [Expr.map, reduceCtorEq] at heq
      exact ⟨i, _, u, hwithin, hu, hid⟩
  · rintro ⟨i, xs, u, hwithin, hu, rfl⟩
    obtain ⟨q, hq⟩ := h.stands.exists_of_within hwithin
    exact hq.isInput hu

theorem Held.exists_shape (h : f.Held x) : ∃ e p, f.shapeAt x = some (e, p) := by
  obtain ⟨s, t, -, hst, hx⟩ := h
  exact hst.exists_shape hx

namespace Forest

theorem mem_liveStatements (hf : f.Forest) : s ∈ f.liveStatements ↔ f.Live s := by
  unfold liveStatements Live
  simp only [List.mem_flatMap, SortedMap.mem_values]
  constructor
  · rintro ⟨b, ⟨a, hb⟩, hs⟩
    obtain ⟨st, hst, hremoved, -⟩ := (hf.listed a b s hb).1 hs
    exact ⟨st, hst, hremoved⟩
  · rintro ⟨st, hst, hremoved⟩
    obtain ⟨b, hb⟩ := hf.homed s st hst
    exact ⟨b, ⟨st.block, hb⟩, (hf.listed _ b s hb).2 ⟨st, hst, hremoved, rfl⟩⟩

theorem holds_of_live (hf : f.Forest) (hs : f.Live s) : ∃ t, f.Holds s t := by
  obtain ⟨st, hst, -⟩ := hs
  exact hf.holds s st hst

theorem holds_of_mem (hf : f.Forest) (hs : s ∈ f.liveStatements) : ∃ t, f.Holds s t :=
  hf.holds_of_live (hf.mem_liveStatements.1 hs)

theorem nodup_liveStatements (hf : f.Forest) : f.liveStatements.Nodup := by
  unfold liveStatements SortedMap.values
  rw [List.nodup_flatMap]
  refine ⟨fun b hb => ?_, ?_⟩
  · obtain ⟨⟨a, b⟩, hab, rfl⟩ := List.mem_map.1 hb
    exact hf.nodup a b (SortedMap.find?_eq_some_of_mem_entries hab)
  · refine List.pairwise_map.2 (f.blocks.increasing.imp_of_mem ?_)
    rintro ⟨a, b⟩ ⟨a', b'⟩ hab hab' hlt s hs hs'
    obtain ⟨st, hst, -, rfl⟩ := (hf.listed a b s (SortedMap.find?_eq_some_of_mem_entries hab)).1 hs
    obtain ⟨st', hst', -, rfl⟩ :=
      (hf.listed a' b' s (SortedMap.find?_eq_some_of_mem_entries hab')).1 hs'
    rw [hst] at hst'
    cases hst'
    simp at hlt

/-- A forest stays one as long as every tree stays in its statement. -/
theorem of_holds (hf : f.Forest) (hblocks : g.blocks = f.blocks)
    (hstatement : ∀ s, (f.statementAt s).map (fun st => (st.block, st.removed)) =
      (g.statementAt s).map fun st => (st.block, st.removed))
    (hholds : ∀ s t, f.Holds s t → ∃ t', g.Holds s t') : g.Forest := by
  have hblock : g.block? = f.block? := by
    funext a
    simp [block?, hblocks]
  have hmatch : ∀ s st, g.statementAt s = some st →
      ∃ st', f.statementAt s = some st' ∧ st'.block = st.block ∧ st'.removed = st.removed := by
    intro s st hst
    have h := hstatement s
    rw [hst] at h
    obtain ⟨st', hst', heq⟩ := Option.map_eq_some_iff.1 h
    simp only [Prod.mk.injEq] at heq
    exact ⟨st', hst', heq.1, heq.2⟩
  refine ⟨?_, fun a b s hb => ?_, fun s st hst => ?_, ?_, fun s st hst => ?_⟩
  · rw [hblock]
    exact hf.address_eq
  · rw [hblock] at hb
    rw [hf.listed a b s hb]
    have h := hstatement s
    constructor
    · rintro ⟨st, hst, hremoved, rfl⟩
      rw [hst] at h
      obtain ⟨st', hst', heq⟩ := Option.map_eq_some_iff.1 h.symm
      simp only [Prod.mk.injEq] at heq
      exact ⟨st', hst', heq.2.trans hremoved, heq.1⟩
    · rintro ⟨st, hst, hremoved, rfl⟩
      obtain ⟨st', hst', hb', hr'⟩ := hmatch s st hst
      exact ⟨st', hst', hr'.trans hremoved, hb'⟩
  · obtain ⟨st', hst', hb', -⟩ := hmatch s st hst
    rw [hblock, ← hb']
    exact hf.homed s st' hst'
  · rw [hblock]
    exact hf.nodup
  · obtain ⟨st', hst', -⟩ := hmatch s st hst
    obtain ⟨t, ht⟩ := hf.holds s st' hst'
    exact hholds s t ht

end Forest

theorem Live.statementAt_ne_none (hs : f.Live s) : f.statementAt s ≠ none := by
  obtain ⟨st, hst, -⟩ := hs
  simp [hst]

theorem Live.of_statementAt (hs : f.Live s)
    (hstatement : (f.statementAt s).map (fun st => (st.block, st.removed)) =
      (g.statementAt s).map fun st => (st.block, st.removed)) : g.Live s := by
  obtain ⟨st, hst, hremoved⟩ := hs
  rw [hst] at hstatement
  obtain ⟨st', hst', heq⟩ := Option.map_eq_some_iff.1 hstatement.symm
  exact ⟨st', hst', (Prod.mk.inj heq).2.trans hremoved⟩

theorem Live.congr (hs : f.Live s) (hstatement : g.statementAt s = f.statementAt s) : g.Live s :=
  hs.of_statementAt (by rw [hstatement])

theorem Holds.congr (h : f.Holds s t) (hstatement : g.statementAt s = f.statementAt s)
    (hshape : ∀ y ∈ t.preorder, g.shapeAt y = f.shapeAt y) : g.Holds s t := by
  obtain ⟨st, hst, hroot, hstands⟩ := h
  exact ⟨st, hstatement.trans hst, hroot, hstands.congr hshape⟩

theorem Holds.grows {xs : List NodeId} (h : f.Holds s t) (hfg : f.Grows g xs) : g.Holds s t :=
  h.congr (by rw [hfg.statementAt_eq]) fun y hy => hfg.kept y (h.stands.shapeAt_ne_none hy)

theorem Forest.grows {xs : List NodeId} (hf : f.Forest) (hfg : f.Grows g xs) : g.Forest :=
  hf.of_holds hfg.blocks_eq (fun s => by rw [hfg.statementAt_eq]) fun _ t h => ⟨t, h.grows hfg⟩

section Replaces

variable (h : f.Holds s t) (hfg : f.Replaces g (.root s) t t')

include hfg in
theorem Replaces.statementAt_map (s' : StatementId) :
    (f.statementAt s').map (fun st => (st.block, st.removed)) =
      (g.statementAt s').map fun st => (st.block, st.removed) := by
  rw [hfg.statementAt_eq]
  split
  · rw [Option.map_map]
    rfl
  · rfl

include h hfg

theorem Holds.replaces : g.Holds s t' := by
  obtain ⟨st, hst, -, -⟩ := h
  exact ⟨{ st with root := t'.id }, by simp [hfg.statementAt_eq, hst], rfl, hfg.sits.stands⟩

theorem Holds.replaces_other (hne : s' ≠ s) (hu : f.Holds s' u) : g.Holds s' u := by
  refine hu.congr ?_ fun y hy => hfg.other y (hu.stands.shapeAt_ne_none hy) ?_ nofun
  · rw [hfg.statementAt_eq, if_neg fun heq => hne (Place.root.inj heq).symm]
  · exact fun hyt => hne (hu.statement_unique h hy hyt)

/-- What is held stays so if it is still in the tree that was replaced. -/
theorem Held.replaces (hx : f.Held x) (hkept : x ∈ t.preorder → x ∈ t'.preorder) : g.Held x := by
  obtain ⟨s', u, hs', hu, hxu⟩ := hx
  have hlive := hs'.of_statementAt (hfg.statementAt_map s')
  by_cases hne : s' = s
  · subst hne
    obtain rfl := hu.unique h
    exact ⟨s', t', hlive, h.replaces hfg, hkept hxu⟩
  · exact ⟨s', u, hlive, h.replaces_other hfg hne hu, hxu⟩

theorem Forest.replaces (hf : f.Forest) : g.Forest := by
  refine hf.of_holds hfg.blocks_eq hfg.statementAt_map fun s' u hu => ?_
  by_cases hs : s' = s
  · subst hs
    exact ⟨t', h.replaces hfg⟩
  · exact ⟨u, h.replaces_other hfg hs hu⟩

end Replaces

/-- The statements of a flow `f` are in a flow `g` too, with trees that are related to those that they
    had. -/
structure Evolves (f : Flow) (R : Term → Term → Prop) (g : Flow) : Prop where
  address : ∀ s st, f.statementAt s = some st → ∃ st', g.statementAt s = some st' ∧ st'.address = st.address
  tree : ∀ s t, f.Holds s t → ∃ t', g.Holds s t' ∧ R t t'

namespace Evolves

variable {R S : Term → Term → Prop}

theorem refl (hR : ∀ t, R t t) : f.Evolves R f :=
  ⟨fun _ st hst => ⟨st, hst, rfl⟩, fun _ t ht => ⟨t, ht, hR t⟩⟩

theorem trans {h : Flow} (hfg : f.Evolves R g) (hgh : g.Evolves S h) : f.Evolves (Relation.Comp R S) h := by
  refine ⟨fun s st hst => ?_, fun s t ht => ?_⟩
  · obtain ⟨st', hst', haddress⟩ := hfg.address s st hst
    obtain ⟨st'', hst'', haddress'⟩ := hgh.address s st' hst'
    exact ⟨st'', hst'', haddress'.trans haddress⟩
  · obtain ⟨t', ht', hR⟩ := hfg.tree s t ht
    obtain ⟨t'', ht'', hS⟩ := hgh.tree s t' ht'
    exact ⟨t'', ht'', t', hR, hS⟩

theorem mono (hfg : f.Evolves R g) (hRS : ∀ t t', R t t' → S t t') : f.Evolves S g := by
  refine ⟨hfg.address, fun s t ht => ?_⟩
  obtain ⟨t', ht', hR⟩ := hfg.tree s t ht
  exact ⟨t', ht', hRS t t' hR⟩

end Evolves

theorem Replaces.address (hfg : f.Replaces g (.root s) t t') (s' : StatementId) (st : Statement)
    (hst : f.statementAt s' = some st) : ∃ st', g.statementAt s' = some st' ∧ st'.address = st.address := by
  rw [hfg.statementAt_eq, hst]
  split
  · exact ⟨_, rfl, rfl⟩
  · exact ⟨st, rfl, rfl⟩

/-- If one tree is replaced, the others stay. -/
theorem Replaces.evolves {R : Term → Term → Prop} (hfg : f.Replaces g (.root s) t t') (h : f.Holds s t)
    (hR : R t t') : f.Evolves (fun u u' => u = u' ∨ R u u') g := by
  refine ⟨hfg.address, fun s' u hu => ?_⟩
  by_cases hs : s' = s
  · subst hs
    obtain rfl := hu.unique h
    exact ⟨t', h.replaces hfg, .inr hR⟩
  · exact ⟨u, h.replaces_other hfg hs hu, .inl rfl⟩

/-- Simplifying a statement keeps a flow sound. -/
theorem Sound.simplifies (hf : f.Sound V) (h : f.Holds s t)
    (hfg : f.Simplifies g (.root s) t t') : g.Sound V := by
  refine ⟨hf.forest.replaces h hfg.replaces, hfg.typed hf.typed, hf.mirrored.of_linkOf_eq hfg.link_eq,
    fun x hx => ?_, fun x e' he' huntagged => ?_, fun u d n v hu hd => ?_⟩
  · rw [hfg.link_eq] at hx
    obtain ⟨s', u, hs', hu, hxu⟩ := hf.held x hx
    have hlive := hs'.of_statementAt (hfg.replaces.statementAt_map s')
    by_cases hs : s' = s
    · subst hs
      obtain rfl := hu.unique h
      refine ⟨s', t', hlive, h.replaces hfg.replaces, hfg.holds x hxu fun e he => ?_⟩
      obtain ⟨e₀, he₀, hassignable⟩ := hf.typed.link x hx
      rw [he] at he₀
      cases he₀
      exact Expr.isArithmetic_eq_false_of_isAssignable hassignable
    · exact ⟨s', u, hlive, h.replaces_other hfg.replaces hs hu, hxu⟩
  · rw [hfg.link_eq]
    obtain ⟨e, he, hhead⟩ := hfg.old x e' he' (Expr.isArithmetic_eq_false_of_isUntagged huntagged)
    exact hf.untagged x e he ((Expr.isUntagged_eq_of_head_eq hhead).symm.trans huntagged)
  · rw [hfg.link_eq] at hu
    obtain ⟨e, he, hhead⟩ := hfg.old d _ hd rfl
    obtain rfl := Expr.eq_register_of_head_eq hhead.symm
    obtain ⟨e', he', hhead'⟩ := hfg.kept u _ (hf.register u d n v hu he) rfl
    exact Expr.eq_register_of_head_eq hhead' ▸ he'

end Flow

end FrameRecovery
