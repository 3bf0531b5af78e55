import FrameRecovery.Proofs.Flow.Grounded
import FrameRecovery.Proofs.Flow.Values
import Mathlib.Data.List.Pairwise

namespace FrameRecovery

/-- Putting a child in its own place changes nothing. -/
theorem Expr.map_ite_self (e : Expr NodeId) (i : NodeId) :
    e.map (fun c => if c = i then i else c) = e := by
  have h : (fun c => if c = i then i else c) = id := by
    funext c
    simp only [id_eq]
    split
    next h => exact h.symm
    next => rfl
  rw [h, Expr.map_id]

theorem Term.disjoint_preorder {i : NodeId} {e : Expr Term} {c d : Term} {x : NodeId}
    (h : (node i e).preorder.Nodup) (hc : c ∈ e.children) (hd : d ∈ e.children) (hne : d ≠ c)
    (hx : x ∈ d.preorder) : x ∉ c.preorder := by
  rw [preorder_node, List.nodup_cons, List.nodup_flatMap] at h
  have hsymm : Std.Symm (Function.onFun List.Disjoint preorder) := ⟨fun _ _ h _ hx hx' => h hx' hx⟩
  exact fun hxc => h.2.2.forall hd hc hne hx hxc

theorem Term.mem_preorder_of_child {i x : NodeId} {e : Expr Term} (h : x ∈ e.children.map id) :
    x ∈ (node i e).preorder := by
  obtain ⟨c, hc, rfl⟩ := List.mem_map.1 h
  exact (Within.of_mem_children hc).preorder_subset c.id_mem_preorder

theorem Term.nodup_ids {ts : List Term} (h : (ts.flatMap preorder).Nodup) : (ts.map id).Nodup := by
  rw [List.nodup_flatMap] at h
  refine List.pairwise_map.2 (h.2.imp ?_)
  intro a b hdisjoint hid
  exact hdisjoint a.id_mem_preorder (hid ▸ b.id_mem_preorder)

namespace Flow

variable {f g h : Flow} {p q : Place} {t t' t'' c c' : Term} {i x : NodeId} {e : Expr Term}
  {xs : List NodeId}

/-- A tree stands at a place, apart from what is above it and beside it. -/
structure Sits (f : Flow) (p : Place) (t : Term) : Prop where
  stands : f.Stands p t
  nodup : t.preorder.Nodup
  above : ∀ q, p = .child q → q ∉ t.preorder ∧ ∃ e pq, f.shapeAt q = some (e, pq) ∧
    ∀ c ∈ e.children, c ≠ t.id → c ∉ t.preorder ∧ f.shapeAt c ≠ none
  rooted : ∀ s, p = .root s → ∃ st, f.statementAt s = some st ∧ st.root = t.id

/-- A flow `g` is a flow `f` with the tree `t'` in the place of the tree `t`. -/
structure Replaces (f g : Flow) (p : Place) (t t' : Term) : Prop where
  sits : g.Sits p t'
  fresh : ∀ x ∈ t'.preorder, x ∈ t.preorder ∨ f.shapeAt x = none
  ne_none : ∀ x, f.shapeAt x ≠ none → g.shapeAt x ≠ none
  other : ∀ x, f.shapeAt x ≠ none → x ∉ t.preorder → p ≠ .child x → g.shapeAt x = f.shapeAt x
  above : ∀ q e pq, p = .child q → f.shapeAt q = some (e, pq) →
    g.shapeAt q = some (e.map fun c => if c = t.id then t'.id else c, pq)
  statementAt_eq : ∀ s, g.statementAt s =
    if p = .root s then (f.statementAt s).map fun st => { st with root := t'.id }
    else f.statementAt s
  entry_eq : g.entry = f.entry
  blocks_eq : g.blocks = f.blocks

theorem Sits.child (hf : f.Sits p (.node i e)) (hc : c ∈ e.children) : f.Sits (.child i) c := by
  obtain ⟨shape, distinct, below⟩ := hf.stands
  have hnodup := hf.nodup
  refine ⟨below c hc, (Term.Within.of_mem_children hc).nodup_preorder hnodup, ?_, nofun⟩
  rintro q ⟨⟩
  rw [Term.preorder_node, List.nodup_cons] at hnodup
  refine ⟨fun hi => hnodup.1 (List.mem_flatMap.2 ⟨c, hc, hi⟩), _, _, shape, ?_⟩
  intro x hx hne
  rw [Expr.children_map] at hx
  obtain ⟨d, hd, rfl⟩ := List.mem_map.1 hx
  refine ⟨Term.disjoint_preorder hf.nodup hc hd (fun h => hne (h ▸ rfl)) d.id_mem_preorder, ?_⟩
  exact (below d hd).shapeAt_ne_none d.id_mem_preorder

theorem Sits.not_mem_child (hf : f.Sits p (.node i e)) (hc : c ∈ e.children) : i ∉ c.preorder :=
  ((hf.child hc).above i rfl).1

theorem Sits.grows (hf : f.Sits p t) (hgrows : f.Grows g xs) : g.Sits p t := by
  refine ⟨hgrows.stands hf.stands, hf.nodup, fun q hq => ?_, fun s hs => ?_⟩
  · obtain ⟨hqt, e, pq, hshape, hrest⟩ := hf.above q hq
    refine ⟨hqt, e, pq, ?_, fun c hc hne => ?_⟩
    · rw [hgrows.kept q (by simp [hshape]), hshape]
    · exact (hrest c hc hne).imp_right hgrows.ne_none
  · rw [hgrows.statementAt_eq]
    exact hf.rooted s hs

namespace Replaces

theorem refl (hf : f.Sits p t) : f.Replaces f p t t := by
  refine ⟨hf, fun x hx => .inl hx, fun _ h => h, fun _ _ _ _ => rfl, fun q e pq _ hq => ?_,
    fun s => ?_, rfl, rfl⟩
  · rw [Expr.map_ite_self, hq]
  · split
    next hs =>
      obtain ⟨st, hst, hroot⟩ := hf.rooted s hs
      rw [hst, ← hroot]
      rfl
    next => rfl

theorem trans (hf : f.Sits p t) (hfg : f.Replaces g p t t') (hgh : g.Replaces h p t' t'') :
    f.Replaces h p t t'' := by
  have hfresh : ∀ x, f.shapeAt x ≠ none → x ∉ t.preorder → x ∉ t'.preorder := by
    intro x hx hxt hxt'
    rcases hfg.fresh x hxt' with h | h
    · exact hxt h
    · exact hx h
  refine ⟨hgh.sits, fun x hx => ?_, fun x hx => hgh.ne_none x (hfg.ne_none x hx), ?_, ?_, ?_,
    hgh.entry_eq.trans hfg.entry_eq, hgh.blocks_eq.trans hfg.blocks_eq⟩
  · rcases hgh.fresh x hx with hx | hx
    · exact hfg.fresh x hx
    · exact .inr (by_contra fun hne => hfg.ne_none x hne hx)
  · intro x hx hxt hxp
    rw [hgh.other x (hfg.ne_none x hx) (hfresh x hx hxt) hxp, hfg.other x hx hxt hxp]
  · rintro q e pq rfl hq
    rw [hgh.above q _ _ rfl (hfg.above q e pq rfl hq), Expr.map_map]
    congr 2
    obtain ⟨-, e', pq', hq', hbeside⟩ := hf.above q rfl
    rw [hq] at hq'
    cases hq'
    have hchildren : ∀ c ∈ e.children, c ≠ t.id → c ≠ t'.id := by
      rintro c hc hne rfl
      obtain ⟨hct, hcf⟩ := hbeside _ hc hne
      exact hfresh _ hcf hct t'.id_mem_preorder
    refine Expr.ext_children (by simp) ?_
    simp only [Expr.children_map, List.map_inj_left, Function.comp_apply]
    intro c hc
    by_cases hct : c = t.id
    · simp [hct]
    · simp [hct, hchildren c hc hct]
  · intro s
    rw [hgh.statementAt_eq, hfg.statementAt_eq]
    split
    · rw [Option.map_map]
      rfl
    · rfl

section Lift

/-- An expression with another tree in the place of one of its children. -/
def swap (e : Expr Term) (c c' : Term) : Expr Term :=
  e.map fun d => if d.id = c.id then c' else d

theorem swap_self (hf : f.Sits p (.node i e)) (hc : c ∈ e.children) : swap e c c = e := by
  refine Expr.ext_children (by simp [swap]) ?_
  rw [swap, Expr.children_map]
  conv_rhs => rw [← List.map_id e.children]
  refine List.map_congr_left fun d hd => ?_
  split
  next hid => exact (hf.child hc).stands.unique (hf.child hd).stands hid.symm
  next => rfl

/-- Another tree stands in the place of one child, and the other children stay. -/
theorem exists_split_swap (hf : f.Sits p (.node i e)) (hc : c ∈ e.children) : ∃ before after,
    ∀ d, (swap e c d).children = before ++ d :: after := by
  obtain ⟨before, after, hsplit⟩ := List.append_of_mem hc
  refine ⟨before, after, fun d => ?_⟩
  obtain ⟨-, distinct, -⟩ := hf.stands
  rw [hsplit, List.map_append, List.map_cons, List.nodup_append, List.nodup_cons] at distinct
  obtain ⟨-, ⟨hafter, -⟩, hbefore⟩ := distinct
  have hkeep : ∀ {cs : List Term}, (∀ a ∈ cs, a.id ≠ c.id) →
      cs.map (fun a => if a.id = c.id then d else a) = cs := fun {cs} hcs => by
    conv_rhs => rw [← List.map_id cs]
    exact List.map_congr_left fun a ha => if_neg (hcs a ha)
  rw [swap, Expr.children_map, hsplit, List.map_append, List.map_cons, if_pos rfl,
    hkeep fun a ha => hbefore a.id (List.mem_map_of_mem ha) c.id (by simp),
    hkeep fun a ha heq => hafter (heq ▸ List.mem_map_of_mem ha)]

/-- What is changed in a child is changed in the tree. -/
theorem somewhere_swap {R : Term → Term → Prop} (hf : f.Sits p (.node i e)) (hc : c ∈ e.children)
    {d d' : Term} (h : Term.Somewhere R d d') :
    Term.Somewhere R (.node i (swap e c d)) (.node i (swap e c d')) := by
  obtain ⟨before, after, hsplit⟩ := exists_split_swap hf hc
  exact .inside (by simp [swap]) (hsplit d) (hsplit d') h

theorem mem_preorder_swap (hx : x ∈ (Term.node i (swap e c c')).preorder) :
    x = i ∨ x ∈ c'.preorder ∨ ∃ d ∈ e.children, d.id ≠ c.id ∧ x ∈ d.preorder := by
  simp only [Term.preorder_node, swap, Expr.children_map, List.mem_cons, List.mem_flatMap,
    List.mem_map] at hx
  rcases hx with rfl | ⟨_, ⟨d, hd, rfl⟩, hx⟩
  · exact .inl rfl
  · split at hx
    next => exact .inr (.inl hx)
    next hne => exact .inr (.inr ⟨d, hd, hne, hx⟩)

variable (hf : f.Sits p (.node i e)) (hc : c ∈ e.children) (hfg : f.Replaces g (.child i) c c')
include hf hc hfg

private theorem beside_swap {d : Term} (hd : d ∈ e.children) (hne : d.id ≠ c.id)
    (hx : x ∈ d.preorder) : x ∉ c'.preorder ∧ g.shapeAt x = f.shapeAt x := by
  have hxc := Term.disjoint_preorder hf.nodup hc hd (fun h => hne (h ▸ rfl)) hx
  have hxf := (hf.child hd).stands.shapeAt_ne_none hx
  refine ⟨fun hxc' => ?_, hfg.other x hxf hxc ?_⟩
  · rcases hfg.fresh x hxc' with h | h
    · exact hxc h
    · exact hxf h
  · rintro ⟨⟩
    exact hf.not_mem_child hd hx

private theorem fresh_swap (hx : x ∈ (Term.node i (swap e c c')).preorder) :
    x ∈ (Term.node i e).preorder ∨ f.shapeAt x = none := by
  rw [Term.preorder_node, List.mem_cons, List.mem_flatMap]
  rcases mem_preorder_swap hx with rfl | hx | ⟨d, hd, -, hx⟩
  · exact .inl (.inl rfl)
  · exact (hfg.fresh x hx).imp_left fun h => .inr ⟨c, hc, h⟩
  · exact .inl (.inr ⟨d, hd, hx⟩)

private theorem outside_swap (hx : f.shapeAt x ≠ none) (hxt : x ∉ (Term.node i e).preorder) :
    x ∉ (Term.node i (swap e c c')).preorder ∧ g.shapeAt x = f.shapeAt x := by
  refine ⟨fun h => (fresh_swap hf hc hfg h).elim hxt hx, ?_⟩
  rw [Term.preorder_node, List.mem_cons, not_or, List.mem_flatMap] at hxt
  exact hfg.other x hx (fun h => hxt.2 ⟨c, hc, h⟩) fun h => hxt.1 (Place.child.inj h).symm

private theorem stands_swap : g.Stands p (.node i (swap e c c')) := by
  obtain ⟨shape, distinct, below⟩ := hf.stands
  refine .node ?_ ?_ ?_
  · rw [hfg.above i _ _ rfl shape, swap, Expr.map_map, Expr.map_map]
    congr 2
    refine Expr.ext_children (by simp) ?_
    simp only [Expr.children_map, List.map_inj_left, Function.comp_apply]
    intro d hd
    split <;> rfl
  · rw [swap, Expr.children_map, List.map_map]
    have hids : ∀ d ∈ e.children, d.id ≠ c.id → d.id ≠ c'.id := by
      intro d hd hne h
      exact (beside_swap hf hc hfg hd hne d.id_mem_preorder).1 (h ▸ c'.id_mem_preorder)
    refine List.pairwise_map.2 ((List.pairwise_map.1 distinct).imp_of_mem ?_)
    intro d d' hd hd' hne
    simp only [Function.comp_apply]
    split <;> split
    next h h' => exact absurd (h.trans h'.symm) hne
    next h h' => exact (hids d' hd' h').symm
    next h h' => exact hids d hd h
    next => exact hne
  · intro d hd
    rw [swap, Expr.children_map] at hd
    obtain ⟨d', hd', rfl⟩ := List.mem_map.1 hd
    split
    next => exact hfg.sits.stands
    next hne => exact (below d' hd').congr fun y hy => (beside_swap hf hc hfg hd' hne hy).2

private theorem nodup_swap : (Term.node i (swap e c c')).preorder.Nodup := by
  have hi : i ∉ c'.preorder := by
    intro h
    rcases hfg.fresh i h with h | h
    · exact hf.not_mem_child hc h
    · exact hf.stands.shapeAt_ne_none (Term.id_mem_preorder _) h
  have hnodup := hf.nodup
  rw [Term.preorder_node, List.nodup_cons, List.nodup_flatMap] at hnodup
  rw [Term.preorder_node, List.nodup_cons, List.nodup_flatMap, swap, Expr.children_map]
  refine ⟨?_, ?_, ?_⟩
  · rw [List.mem_flatMap]
    rintro ⟨d, hd, hid⟩
    obtain ⟨d', hd', rfl⟩ := List.mem_map.1 hd
    split at hid
    next => exact hi hid
    next => exact hf.not_mem_child hd' hid
  · intro d hd
    obtain ⟨d', hd', rfl⟩ := List.mem_map.1 hd
    split
    next => exact hfg.sits.nodup
    next => exact hnodup.2.1 d' hd'
  · refine List.pairwise_map.2 (hnodup.2.2.imp_of_mem ?_)
    intro d d' hd hd' hdisjoint
    have hsame : ∀ u ∈ e.children, u.id = c.id → u = c := fun u hu hid =>
      (hf.child hu).stands.unique (hf.child hc).stands hid
    simp only [Function.onFun] at hdisjoint ⊢
    split <;> split
    next h h' =>
      rw [hsame d hd h, hsame d' hd' h'] at hdisjoint
      exact absurd (hdisjoint c.id_mem_preorder c.id_mem_preorder) id
    next h h' => exact fun x hx hx' => (beside_swap hf hc hfg hd' h' hx').1 hx
    next h h' => exact fun x hx hx' => (beside_swap hf hc hfg hd h hx).1 hx'
    next => exact hdisjoint

/-- Replacing a child of a tree is replacing the tree. -/
theorem lift : f.Replaces g p (.node i e) (.node i (swap e c c')) := by
  have hstatement : g.statementAt = f.statementAt := by
    funext s
    rw [hfg.statementAt_eq, if_neg nofun]
  refine ⟨⟨stands_swap hf hc hfg, nodup_swap hf hc hfg, fun q hq => ?_, fun s hs => ?_⟩,
    fun x hx => fresh_swap hf hc hfg hx, hfg.ne_none,
    fun x hx hxt _ => (outside_swap hf hc hfg hx hxt).2, fun q e' pq hq hshape => ?_, fun s => ?_,
    hfg.entry_eq, hfg.blocks_eq⟩
  · obtain ⟨hqt, eq, pq, hshape, hbeside⟩ := hf.above q hq
    obtain ⟨hqnot, hsame⟩ := outside_swap hf hc hfg (by simp [hshape]) hqt
    refine ⟨hqnot, eq, pq, hsame.trans hshape, fun c₁ hc₁ hne => ?_⟩
    obtain ⟨hct, hcf⟩ := hbeside c₁ hc₁ hne
    exact ⟨(outside_swap hf hc hfg hcf hct).1, hfg.ne_none c₁ hcf⟩
  · rw [hstatement]
    exact hf.rooted s hs
  · obtain ⟨hqt, -⟩ := hf.above q hq
    rw [(outside_swap hf hc hfg (by simp [hshape]) hqt).2, hshape]
    change _ = some (e'.map (fun c => if c = i then i else c), pq)
    rw [Expr.map_ite_self]
  · rw [hstatement]
    split
    next hs =>
      obtain ⟨st, hst, hroot⟩ := hf.rooted s hs
      have hroot : st.root = i := hroot
      rw [hst, Option.map_some, Term.id_node, ← hroot]
    next => rfl

end Lift

open Term in
/-- Replacing a tree somewhere inside a tree is replacing the outer one. -/
theorem lift_within {u : Term} (hf : f.Sits p t) (hu : Within u t) :
    ∃ q, f.Sits q u ∧ ∀ g b, f.Replaces g q u b → ∃ t', f.Replaces g p t t' ∧
      (u ≠ t → t'.id = t.id) ∧
      (∀ x ∈ t.preorder, x ∈ u.preorder ∨ x ∈ t'.preorder) ∧ (∀ x ∈ b.preorder, x ∈ t'.preorder) ∧
      (∀ w, Within w t → (∀ x ∈ w.preorder, x ∉ u.preorder) → Within w t') ∧
      Somewhere (fun v v' => v = u ∧ v' = b) t t' := by
  induction hu generalizing p with
  | refl =>
    refine ⟨p, hf, fun g b h => ⟨b, h, fun hne => absurd rfl hne, fun x hx => .inl hx,
      fun x hx => hx, ?_, .here ⟨rfl, rfl⟩⟩⟩
    exact fun w hw hdisjoint => absurd (hw.preorder_subset w.id_mem_preorder)
      (hdisjoint _ w.id_mem_preorder)
  | @inside c i e hc hwithin ih =>
    obtain ⟨q, hsits, hlift⟩ := ih (hf.child hc)
    refine ⟨q, hsits, fun g b h => ?_⟩
    obtain ⟨c', hc', -, hold, hnew, hbeside, hchange⟩ := hlift g b h
    have hmem : c' ∈ (swap e c c').children := by
      rw [swap, Expr.children_map]
      exact List.mem_map.2 ⟨c, hc, if_pos rfl⟩
    refine ⟨_, hc'.lift hf hc, fun _ => rfl, fun x hx => ?_, fun x hx => ?_, fun w hw hdisjoint => ?_,
      by simpa only [swap_self hf hc] using somewhere_swap hf hc hchange⟩
    · rw [preorder_node, List.mem_cons, List.mem_flatMap] at hx
      rw [preorder_node, List.mem_cons, List.mem_flatMap]
      rcases hx with rfl | ⟨d, hd, hx⟩
      · exact .inr (.inl rfl)
      · by_cases hid : d.id = c.id
        · obtain rfl := (hf.child hd).stands.unique (hf.child hc).stands hid
          exact (hold x hx).imp_right fun h => .inr ⟨c', hmem, h⟩
        · refine .inr (.inr ⟨d, ?_, hx⟩)
          rw [swap, Expr.children_map]
          exact List.mem_map.2 ⟨d, hd, if_neg hid⟩
    · exact (Within.of_mem_children hmem).preorder_subset (hnew x hx)
    · cases hw with
      | refl =>
        have hid := (Within.inside (i := i) hc hwithin).preorder_subset u.id_mem_preorder
        exact absurd u.id_mem_preorder (hdisjoint _ hid)
      | @inside d _ _ hd hw =>
        by_cases hid : d.id = c.id
        · obtain rfl := (hf.child hd).stands.unique (hf.child hc).stands hid
          exact .inside hmem (hbeside w hw hdisjoint)
        · refine .inside (c := d) ?_ hw
          rw [swap, Expr.children_map]
          exact List.mem_map.2 ⟨d, hd, if_neg hid⟩

end Replaces

end Flow

namespace Edit

open Flow

variable {f₀ f : Flow} {p q : Place} {t b : Term} {i : NodeId} {e e₁ : Expr Term} {xs : List NodeId}

/-- The trees below `e₁` can come below the node `i`: they are in the flow `f`, to which `f₀` has grown, they have
    nothing in common, the node is in none of them, and what is in them is below it already or new. -/
structure Takes (f₀ f : Flow) (p : Place) (i : NodeId) (e e₁ : Expr Term) (xs : List NodeId) : Prop where
  grows : f₀.Grows f xs
  sits : f₀.Sits p (.node i e)
  stands : ∀ c ∈ e₁.children, ∃ q, f.Stands q c
  apart : ∀ c ∈ e₁.children, i ∉ c.preorder
  fresh : ∀ c ∈ e₁.children, ∀ x ∈ c.preorder, x ∈ (Term.node i e).preorder ∨ x ∈ xs
  nodup : (e₁.children.flatMap Term.preorder).Nodup

namespace Takes

variable {x : NodeId} {c : Term} (h : Takes f₀ f p i e e₁ xs)
include h

theorem nodup_node : (Term.node i e₁).preorder.Nodup := by
  rw [Term.preorder_node, List.nodup_cons]
  refine ⟨fun hi => ?_, h.nodup⟩
  obtain ⟨c, hc, hic⟩ := List.mem_flatMap.1 hi
  exact h.apart c hc hic

theorem old_or_new (hx : x ∈ (Term.node i e₁).preorder) : x ∈ (Term.node i e).preorder ∨ f₀.shapeAt x = none := by
  rw [Term.preorder_node, List.mem_cons, List.mem_flatMap] at hx
  obtain rfl | ⟨c, hc, hx⟩ := hx
  · exact .inl (Term.id_mem_preorder _)
  · exact (h.fresh c hc x hx).imp_right (h.grows.fresh x)

theorem not_mem (hx : f₀.shapeAt x ≠ none) (hout : x ∉ (Term.node i e).preorder) : x ∉ (Term.node i e₁).preorder :=
  fun hmem => (h.old_or_new hmem).elim hout hx

theorem id_ne (hc : c ∈ e₁.children) : c.id ≠ i := fun hid =>
  h.apart c hc (hid ▸ c.id_mem_preorder)

end Takes

/-- The node `i` has taken over the trees below `e₁`. -/
structure Took (f₀ f g : Flow) (p : Place) (i : NodeId) (e e₁ : Expr Term) (xs : List NodeId) : Prop where
  takes : Takes f₀ f p i e e₁ xs
  becomes : f.Becomes g (Function.update (placed (placed f.shapeAt (e.map Term.id).children .detached)
    (e₁.map Term.id).children (.child i)) i (some (e₁.map Term.id, p))) f.linkOf

namespace Took

variable {g : Flow} {x : NodeId} {c : Term} (h : Took f₀ f g p i e e₁ xs)
include h

theorem shapeAt_top : g.shapeAt i = some (e₁.map Term.id, p) := by
  rw [h.becomes.shape_eq, Function.update_self]

theorem shapeAt_of_not_child (hxi : x ≠ i) (hx : x ∉ e.children.map Term.id) (hx₁ : x ∉ e₁.children.map Term.id) :
    g.shapeAt x = f.shapeAt x := by
  rw [h.becomes.shape_eq, Function.update_of_ne hxi]
  simp only [placed, Expr.children_map, hx, hx₁, if_false]

theorem shapeAt_of_not_mem (hx : x ∉ (Term.node i e).preorder) (hx₁ : x ∉ (Term.node i e₁).preorder) :
    g.shapeAt x = f.shapeAt x := by
  refine h.shapeAt_of_not_child ?_ (fun hc => hx (Term.mem_preorder_of_child hc))
    fun hc => hx₁ (Term.mem_preorder_of_child hc)
  rintro rfl
  exact hx (Term.id_mem_preorder _)

theorem shapeAt_old (hx : f₀.shapeAt x ≠ none) (hout : x ∉ (Term.node i e).preorder) :
    g.shapeAt x = f₀.shapeAt x := by
  rw [h.shapeAt_of_not_mem hout (h.takes.not_mem hx hout), h.takes.grows.kept x hx]

theorem shapeAt_ne_none (hx : f.shapeAt x ≠ none) : g.shapeAt x ≠ none := by
  rw [h.becomes.shape_eq]
  by_cases hxi : x = i
  · simp [hxi]
  · rw [Function.update_of_ne hxi]
    exact placed_ne_none (placed_ne_none hx)

/-- What is further down in a child has the shape it had. -/
theorem shapeAt_inside {d : Term} {q : Place} (hc : c ∈ e₁.children) (hq : f.Stands q c)
    (hd : d ∈ c.expr.children) (hx : x ∈ d.preorder) : g.shapeAt x = f.shapeAt x := by
  have hxc : x ∈ c.preorder := by
    obtain ⟨j, e'⟩ := c
    exact (Term.Within.of_mem_children hd).preorder_subset hx
  have hne : x ≠ c.id := by
    rintro rfl
    have hcnodup := (Term.Within.of_mem_children hc).nodup_preorder h.takes.nodup_node
    obtain ⟨j, e'⟩ := c
    rw [Term.preorder_node, List.nodup_cons] at hcnodup
    exact hcnodup.1 (List.mem_flatMap.2 ⟨d, hd, hx⟩)
  refine h.shapeAt_of_not_child ?_ (fun hmem => ?_) fun hmem => ?_
  · rintro rfl
    exact h.takes.apart c hc hxc
  · -- a child of `i` that is further down in `c` would have two parents
    obtain ⟨c', hc', rfl⟩ := List.mem_map.1 hmem
    obtain ⟨j, e', u, hj, -, hu, hju⟩ := hq.exists_parent hxc hne
    obtain ⟨-, -, below⟩ := (h.takes.sits.grows h.takes.grows).stands
    have hplace := hju.shape_id
    rw [hu, (below c' hc').shape_id] at hplace
    obtain rfl : i = j := by
      simpa using congrArg Prod.snd (Option.some.inj hplace)
    exact h.takes.apart c hc (hj.preorder_subset (Term.id_mem_preorder _))
  · obtain ⟨c', hc', rfl⟩ := List.mem_map.1 hmem
    by_cases hcc : c' = c
    · exact hne (hcc ▸ rfl)
    · exact Term.disjoint_preorder h.takes.nodup_node hc hc' hcc c'.id_mem_preorder hxc

theorem stands : g.Stands p (.node i e₁) := by
  refine .node h.shapeAt_top (Term.nodup_ids h.takes.nodup) fun c hc => ?_
  obtain ⟨q, hq⟩ := h.takes.stands c hc
  refine hq.move ?_ fun d hd y hy => h.shapeAt_inside hc hq hd hy
  rw [h.becomes.shape_eq, Function.update_of_ne (h.takes.id_ne hc)]
  have hmem : c.id ∈ e₁.children.map Term.id := List.mem_map_of_mem hc
  simp only [placed, Expr.children_map, hmem, if_true]
  split <;> simp [hq.shape_id]

theorem statementAt_eq : g.statementAt = f₀.statementAt :=
  h.becomes.statementAt_eq.trans h.takes.grows.statementAt_eq

theorem sits : g.Sits p (.node i e₁) := by
  refine ⟨h.stands, h.takes.nodup_node, fun q hq => ?_, fun s hs => ?_⟩
  · obtain ⟨hqt, eq, pq, hshape, hbeside⟩ := h.takes.sits.above q hq
    refine ⟨h.takes.not_mem (by simp [hshape]) hqt, eq, pq, (h.shapeAt_old (by simp [hshape]) hqt).trans hshape, ?_⟩
    intro c hc hci
    obtain ⟨hct, hcf⟩ := hbeside c hc hci
    exact ⟨h.takes.not_mem hcf hct, h.shapeAt_ne_none (h.takes.grows.ne_none hcf)⟩
  · rw [h.statementAt_eq]
    exact h.takes.sits.rooted s hs

theorem replaces : f₀.Replaces g p (.node i e) (.node i e₁) := by
  refine ⟨h.sits, fun x => h.takes.old_or_new, fun x hx => h.shapeAt_ne_none (h.takes.grows.ne_none hx),
    fun x hx hout _ => h.shapeAt_old hx hout, fun q e' pq hq hshape => ?_, fun s => ?_,
    h.becomes.entry_eq.trans h.takes.grows.entry_eq, h.becomes.blocks_eq.trans h.takes.grows.blocks_eq⟩
  · obtain ⟨hqt, -⟩ := h.takes.sits.above q hq
    rw [h.shapeAt_old (by simp [hshape]) hqt, hshape]
    change _ = some (e'.map (fun c => if c = i then i else c), pq)
    rw [Expr.map_ite_self]
  · rw [h.statementAt_eq]
    split
    next hs =>
      obtain ⟨st, hst, hroot⟩ := h.takes.sits.rooted s hs
      have hroot : st.root = i := hroot
      rw [hst, Option.map_some, Term.id_node, ← hroot]
    next => rfl

theorem exprAt_eq : g.exprAt = Function.update f.exprAt i (some (e₁.map Term.id)) := by
  funext y
  by_cases hyi : y = i
  · subst hyi
    simp [exprAt, h.shapeAt_top]
  · rw [Function.update_of_ne hyi]
    simp only [exprAt, h.becomes.shape_eq, Function.update_of_ne hyi, map_fst_placed]

end Took

/-- A node can take over trees from below it and new trees. -/
theorem replace_replaces (e₁ : Expr Term) (hgrows : f₀.Grows f xs) (hf : f₀.Sits p (.node i e))
    (hstands : ∀ c ∈ e₁.children, ∃ q, f.Stands q c) (hi : ∀ c ∈ e₁.children, i ∉ c.preorder)
    (hfresh : ∀ c ∈ e₁.children, ∀ x ∈ c.preorder, x ∈ (Term.node i e).preorder ∨ x ∈ xs)
    (hnodup : (e₁.children.flatMap Term.preorder).Nodup) :
    Gives (replace i (e₁.map Term.id)) f fun _ g =>
      f₀.Replaces g p (.node i e) (.node i e₁) ∧ g.linkOf = f.linkOf ∧
      g.exprAt = Function.update f.exprAt i (some (e₁.map Term.id)) ∧
      ∀ y, y ∉ (Term.node i e).preorder → y ∉ (Term.node i e₁).preorder →
        g.shapeAt y = f.shapeAt y := by
  have htakes : Takes f₀ f p i e e₁ xs := ⟨hgrows, hf, hstands, hi, hfresh, hnodup⟩
  have hsits := hf.grows hgrows
  obtain ⟨shape, -, below⟩ := hsits.stands
  have hmem : ∀ {y : NodeId} {e' : Expr Term}, y ∈ (e'.map Term.id).children →
      ∃ c ∈ e'.children, c.id = y := by
    intro y e' hy
    simpa using hy
  refine (replace_gives shape ?_ ?_ ?_ ?_).mono fun _ g hg => ?_
  · intro hchild
    obtain ⟨c, hc, hci⟩ := hmem hchild
    exact hsits.not_mem_child hc (hci ▸ c.id_mem_preorder)
  · intro hchild
    obtain ⟨c, hc, hci⟩ := hmem hchild
    exact htakes.id_ne hc hci
  · intro y hy
    obtain ⟨c, hc, rfl⟩ := hmem hy
    exact (below c hc).shapeAt_ne_none c.id_mem_preorder
  · intro y hy
    obtain ⟨c, hc, rfl⟩ := hmem hy
    obtain ⟨q, hq⟩ := hstands c hc
    exact hq.shapeAt_ne_none c.id_mem_preorder
  · have h : Took f₀ f g p i e e₁ xs := ⟨htakes, hg⟩
    exact ⟨h.replaces, hg.link_eq, h.exprAt_eq, fun y => h.shapeAt_of_not_mem⟩

/-- The expressions after a node was put in the place of another one. -/
def substituted (f : Flow) (p : Place) (old new : NodeId) : NodeId → Option (Expr NodeId) :=
  fun y => if p = .child y then (f.exprAt y).map (Expr.map fun c => if c = old then new else c)
    else f.exprAt y

theorem substituted_congr {f g : Flow} (h : f.exprAt = g.exprAt) (p : Place) (old new : NodeId) :
    substituted f p old new = substituted g p old new := by
  unfold substituted
  rw [h]

/-- The tree `b` can come to the place of the tree `t`: it is in the flow `f`, to which `f₀` has grown, the top of `t`
    is not in it, and what is in it is in `t` already or new. -/
structure Comes (f₀ f : Flow) (p q : Place) (t b : Term) (xs : List NodeId) : Prop where
  grows : f₀.Grows f xs
  sits : f₀.Sits p t
  stands : f.Stands q b
  nodup : b.preorder.Nodup
  apart : t.id ∉ b.preorder
  fresh : ∀ x ∈ b.preorder, x ∈ t.preorder ∨ x ∈ xs

namespace Comes

variable {x : NodeId} {c : Term} (h : Comes f₀ f p q t b xs)
include h

theorem id_ne : t.id ≠ b.id := fun hid =>
  h.apart (hid ▸ b.id_mem_preorder)

theorem shape_id : f.shapeAt t.id = some (t.expr.map Term.id, p) :=
  (h.sits.grows h.grows).stands.shape_id

theorem old_or_new (hx : x ∈ b.preorder) : x ∈ t.preorder ∨ f₀.shapeAt x = none :=
  (h.fresh x hx).imp_right (h.grows.fresh x)

theorem not_mem (hx : f₀.shapeAt x ≠ none) (hout : x ∉ t.preorder) : x ∉ b.preorder :=
  fun hmem => (h.old_or_new hmem).elim hout hx

theorem ne_of_not_mem (hx : f₀.shapeAt x ≠ none) (hout : x ∉ t.preorder) : x ≠ t.id ∧ x ≠ b.id := by
  refine ⟨?_, ?_⟩
  · rintro rfl
    exact hout t.id_mem_preorder
  · rintro rfl
    exact h.not_mem hx hout b.id_mem_preorder

theorem inside (hc : c ∈ b.expr.children) (hx : x ∈ c.preorder) : x ∈ b.preorder ∧ x ≠ t.id ∧ x ≠ b.id := by
  have hmem : x ∈ b.preorder := by
    obtain ⟨j, e'⟩ := b
    exact (Term.Within.of_mem_children hc).preorder_subset hx
  refine ⟨hmem, fun hxt => h.apart (hxt ▸ hmem), ?_⟩
  rintro rfl
  have hnodup := h.nodup
  obtain ⟨j, e'⟩ := b
  rw [Term.preorder_node, List.nodup_cons] at hnodup
  exact hnodup.1 (List.mem_flatMap.2 ⟨c, hc, hx⟩)

end Comes

/-- The tree `b` has come to the place of `t` below the node `q₀`. -/
structure ComesBelow (f₀ f g : Flow) (q₀ : NodeId) (q : Place) (t b : Term) (xs : List NodeId) (eq : Expr NodeId)
    (pq : Place) : Prop where
  comes : Comes f₀ f (.child q₀) q t b xs
  parent : f₀.shapeAt q₀ = some (eq, pq)
  becomes : f.Becomes g (Function.update (Function.update (Function.update f.shapeAt q₀
    (some (eq.map fun c => if c = t.id then b.id else c, pq))) b.id (some (b.expr.map Term.id, .child q₀)))
    t.id (some (t.expr.map Term.id, .detached))) f.linkOf

namespace ComesBelow

variable {q₀ y : NodeId} {eq : Expr NodeId} {pq : Place} {g : Flow} (h : ComesBelow f₀ f g q₀ q t b xs eq pq)
include h

theorem parent_ne : q₀ ≠ t.id ∧ q₀ ≠ b.id :=
  h.comes.ne_of_not_mem (by simp [h.parent]) (h.comes.sits.above q₀ rfl).1

theorem parent_not_mem : q₀ ∉ b.preorder :=
  h.comes.not_mem (by simp [h.parent]) (h.comes.sits.above q₀ rfl).1

theorem shapeAt_parent : g.shapeAt q₀ = some (eq.map fun c => if c = t.id then b.id else c, pq) := by
  obtain ⟨ht, hb⟩ := h.parent_ne
  rw [h.becomes.shape_eq, Function.update_of_ne ht, Function.update_of_ne hb, Function.update_self]

theorem shapeAt_beside (ht : y ≠ t.id) (hb : y ≠ b.id) (hq : y ≠ q₀) : g.shapeAt y = f.shapeAt y := by
  rw [h.becomes.shape_eq, Function.update_of_ne ht, Function.update_of_ne hb, Function.update_of_ne hq]

theorem shapeAt_ne_none (hy : f.shapeAt y ≠ none) : g.shapeAt y ≠ none := by
  simp only [h.becomes.shape_eq, Function.update_apply]
  grind

theorem stands : g.Stands (.child q₀) b := by
  refine h.comes.stands.move ?_ fun c hc y hy => ?_
  · rw [h.becomes.shape_eq, Function.update_of_ne h.comes.id_ne.symm, Function.update_self]
  · obtain ⟨hyb, ht, hb⟩ := h.comes.inside hc hy
    exact h.shapeAt_beside ht hb fun hyq => h.parent_not_mem (hyq ▸ hyb)

theorem sits : g.Sits (.child q₀) b := by
  refine ⟨h.stands, h.comes.nodup, ?_, by simp⟩
  rintro _ ⟨⟩
  refine ⟨h.parent_not_mem, _, _, h.shapeAt_parent, fun c' hc' hne' => ?_⟩
  obtain ⟨hqt, e', pq', hshape, hbeside⟩ := h.comes.sits.above q₀ rfl
  obtain ⟨rfl, rfl⟩ := Prod.mk.inj (Option.some.inj (h.parent.symm.trans hshape))
  rw [Expr.children_map] at hc'
  obtain ⟨c, hc, rfl⟩ := List.mem_map.1 hc'
  by_cases hct : c = t.id
  · simp [hct] at hne'
  · simp only [hct, if_false]
    obtain ⟨hc₁, hc₂⟩ := hbeside c hc hct
    exact ⟨h.comes.not_mem hc₂ hc₁, h.shapeAt_ne_none (h.comes.grows.ne_none hc₂)⟩

theorem replaces : f₀.Replaces g (.child q₀) t b := by
  refine ⟨h.sits, fun x => h.comes.old_or_new, fun y hy => h.shapeAt_ne_none (h.comes.grows.ne_none hy),
    fun y hy hyt hyq => ?_, ?_, fun s => ?_, h.becomes.entry_eq.trans h.comes.grows.entry_eq,
    h.becomes.blocks_eq.trans h.comes.grows.blocks_eq⟩
  · obtain ⟨ht, hb⟩ := h.comes.ne_of_not_mem hy hyt
    rw [h.shapeAt_beside ht hb fun heq => hyq (heq ▸ rfl), h.comes.grows.kept y hy]
  · rintro _ e' pq' ⟨⟩ hshape
    obtain ⟨rfl, rfl⟩ := Prod.mk.inj (Option.some.inj (h.parent.symm.trans hshape))
    exact h.shapeAt_parent
  · rw [if_neg (by simp), h.becomes.statementAt_eq, h.comes.grows.statementAt_eq]

theorem exprAt_eq : g.exprAt = substituted f (.child q₀) t.id b.id := by
  funext y
  unfold substituted
  by_cases hyq : y = q₀
  · subst hyq
    have hq : f.shapeAt y = some (eq, pq) := by
      rw [h.comes.grows.kept y (by simp [h.parent]), h.parent]
    simp [exprAt, h.shapeAt_parent, hq]
  · rw [if_neg fun heq => hyq (Place.child.inj heq).symm]
    simp only [exprAt, h.becomes.shape_eq]
    by_cases hyt : y = t.id
    · simp [hyt, h.comes.shape_id]
    · rw [Function.update_of_ne hyt]
      by_cases hyb : y = b.id
      · simp [hyb, h.comes.stands.shape_id]
      · rw [Function.update_of_ne hyb, Function.update_of_ne hyq]

end ComesBelow

/-- The tree `b` has come to the place of `t` at the top of a statement, or to none. -/
structure ComesToTop (f₀ f g : Flow) (p q : Place) (t b : Term) (xs : List NodeId) : Prop where
  comes : Comes f₀ f p q t b xs
  top : p.Top
  shape_eq : g.shapeAt = Function.update (Function.update f.shapeAt b.id (some (b.expr.map Term.id, p)))
    t.id (some (t.expr.map Term.id, .detached))
  statementAt_eq : ∀ s, g.statementAt s =
    if p = .root s then (f.statementAt s).map fun st => { st with root := b.id } else f.statementAt s
  entry_eq : g.entry = f.entry
  blocks_eq : g.blocks = f.blocks

namespace ComesToTop

variable {g : Flow} {y : NodeId} (h : ComesToTop f₀ f g p q t b xs)
include h

theorem shapeAt_beside (ht : y ≠ t.id) (hb : y ≠ b.id) : g.shapeAt y = f.shapeAt y := by
  rw [h.shape_eq, Function.update_of_ne ht, Function.update_of_ne hb]

theorem stands : g.Stands p b := by
  refine h.comes.stands.move ?_ fun c hc y hy => ?_
  · rw [h.shape_eq, Function.update_of_ne h.comes.id_ne.symm, Function.update_self]
  · obtain ⟨-, ht, hb⟩ := h.comes.inside hc hy
    exact h.shapeAt_beside ht hb

theorem replaces : f₀.Replaces g p t b := by
  refine ⟨⟨h.stands, h.comes.nodup, fun q hq => absurd hq (h.top q), ?_⟩, fun x => h.comes.old_or_new, fun y hy => ?_,
    fun y hy hyt _ => ?_, fun q _ _ hq => absurd hq (h.top q), fun s => ?_,
    h.entry_eq.trans h.comes.grows.entry_eq, h.blocks_eq.trans h.comes.grows.blocks_eq⟩
  · rintro s rfl
    obtain ⟨st, hst, -⟩ := h.comes.sits.rooted s rfl
    exact ⟨{ st with root := b.id }, by rw [h.statementAt_eq, if_pos rfl, h.comes.grows.statementAt_eq, hst]; rfl, rfl⟩
  · have hy := h.comes.grows.ne_none hy
    simp only [h.shape_eq, Function.update_apply]
    grind
  · obtain ⟨ht, hb⟩ := h.comes.ne_of_not_mem hy hyt
    rw [h.shapeAt_beside ht hb, h.comes.grows.kept y hy]
  · rw [h.statementAt_eq, h.comes.grows.statementAt_eq]

theorem exprAt_eq : g.exprAt = substituted f p t.id b.id := by
  funext y
  unfold substituted
  rw [if_neg (h.top y)]
  simp only [exprAt, h.shape_eq]
  by_cases hyt : y = t.id
  · simp [hyt, h.comes.shape_id]
  · rw [Function.update_of_ne hyt]
    by_cases hyb : y = b.id
    · simp [hyb, h.comes.stands.shape_id]
    · rw [Function.update_of_ne hyb]

end ComesToTop

/-- A tree from below a tree, or a new one, can take its place. -/
theorem replaceInParent_replaces (hgrows : f₀.Grows f xs) (hf : f₀.Sits p t) (hb : f.Stands q b)
    (hnodup : b.preorder.Nodup) (ht : t.id ∉ b.preorder) (hfresh : ∀ x ∈ b.preorder, x ∈ t.preorder ∨ x ∈ xs) :
    Gives (replaceInParent t.id b.id) f fun _ g =>
      f₀.Replaces g p t b ∧ g.linkOf = f.linkOf ∧ g.exprAt = substituted f p t.id b.id := by
  have hcomes : Comes f₀ f p q t b xs := ⟨hgrows, hf, hb, hnodup, ht, hfresh⟩
  cases p with
  | detached =>
    refine (replaceInParent_detached_gives hcomes.shape_id hb.shape_id hcomes.id_ne).mono fun _ g hg => ?_
    have h : ComesToTop f₀ f g .detached q t b xs :=
      ⟨hcomes, Place.top_detached, hg.shape_eq, fun s => by rw [hg.statementAt_eq, if_neg nofun], hg.entry_eq, hg.blocks_eq⟩
    exact ⟨h.replaces, hg.link_eq, h.exprAt_eq⟩
  | child q₀ =>
    obtain ⟨hqt, eq, pq, hparent, -⟩ := hf.above q₀ rfl
    obtain ⟨hqold, hqnew⟩ := hcomes.ne_of_not_mem (by simp [hparent]) hqt
    have hq : f.shapeAt q₀ = some (eq, pq) := by
      rw [hgrows.kept q₀ (by simp [hparent]), hparent]
    refine (replaceInParent_child_gives hcomes.shape_id hq hb.shape_id hqold hqnew hcomes.id_ne).mono fun _ g hg => ?_
    have h : ComesBelow f₀ f g q₀ q t b xs eq pq := ⟨hcomes, hparent, hg⟩
    exact ⟨h.replaces, hg.link_eq, h.exprAt_eq⟩
  | root s =>
    obtain ⟨st, hst, hroot⟩ := hf.rooted s rfl
    have hst' : f.statementAt s = some st := by rw [hgrows.statementAt_eq, hst]
    refine (replaceInParent_root_gives hcomes.shape_id hst' hb.shape_id hcomes.id_ne).mono ?_
    rintro - g ⟨hshape, hlink, hentry, hblocks, hstatement⟩
    have h : ComesToTop f₀ f g (.root s) q t b xs := by
      refine ⟨hcomes, Place.top_root s, hshape, fun s' => ?_, hentry, hblocks⟩
      rw [hstatement]
      by_cases hs : s' = s
      · subst hs
        simp [hst']
      · rw [Function.update_of_ne hs, if_neg fun heq => hs (Place.root.inj heq).symm]
    exact ⟨h.replaces, hlink, h.exprAt_eq⟩

/-- A node that takes over trees that it is not in keeps the flow grounded. -/
theorem replace_rebuilds (e₁ : Expr Term) (hgrows : f₀.Grows f xs) (hf : f₀.Sits p (.node i e))
    (hstands : ∀ c ∈ e₁.children, ∃ q, f.Stands q c) (hi : ∀ c ∈ e₁.children, i ∉ c.preorder)
    (hfresh : ∀ c ∈ e₁.children, ∀ x ∈ c.preorder, x ∈ (Term.node i e).preorder ∨ x ∈ xs)
    (hnodup : (e₁.children.flatMap Term.preorder).Nodup)
    (horigin : ∀ o, e₁.origin? = some o → f.exprAt o ≠ none) :
    Gives (replace i (e₁.map Term.id)) f fun _ g => (f₀.Replaces g p (.node i e) (.node i e₁) ∧
      g.linkOf = f.linkOf ∧ g.exprAt = Function.update f.exprAt i (some (e₁.map Term.id))) ∧
      (f.Grounded → g.Grounded) := by
  refine ((replace_replaces e₁ hgrows hf hstands hi hfresh hnodup).and_imp fun hgrounded => ?_).mono
    fun _ _ ⟨⟨h, hlink, hexpr, _⟩, hg⟩ => ⟨⟨h, hlink, hexpr⟩, hg⟩
  refine replace_grounded hgrounded (hf.grows hgrows).stands.shape_id (fun y hy => ?_) fun o ho => horigin o ?_
  · rw [Expr.children_map] at hy
    obtain ⟨c, hc, rfl⟩ := List.mem_map.1 hy
    obtain ⟨q, hq⟩ := hstands c hc
    exact ⟨c, hq.spells, rfl, hi c hc⟩
  · exact (Expr.origin?_eq_of_head_eq (by simp)).trans ho

theorem replaceInParent_rebuilds (hgrows : f₀.Grows f xs) (hf : f₀.Sits p t)
    (hb : f.Stands q b) (hnodup : b.preorder.Nodup) (ht : t.id ∉ b.preorder)
    (hfresh : ∀ x ∈ b.preorder, x ∈ t.preorder ∨ x ∈ xs) :
    Gives (replaceInParent t.id b.id) f fun _ g => (f₀.Replaces g p t b ∧ g.linkOf = f.linkOf ∧
      g.exprAt = substituted f p t.id b.id) ∧ (f.Grounded → g.Grounded) := by
  refine (replaceInParent_replaces hgrows hf hb hnodup ht hfresh).and_imp fun hgrounded => ?_
  refine replaceInParent_grounded hgrounded (hf.grows hgrows).stands.shape_id ⟨b, hb.spells, rfl⟩ ?_
    fun q₀ hq₀ => ⟨b, hb.spells, rfl, fun hmem => ?_⟩
  · intro heq
    exact ht (heq ▸ b.id_mem_preorder)
  · obtain ⟨hq₀t, eq, pq, hshape, -⟩ := hf.above q₀ hq₀
    obtain hold | hnew := hfresh q₀ hmem
    · exact hq₀t hold
    · simp [hgrows.fresh q₀ hnew] at hshape

end Edit

end FrameRecovery
