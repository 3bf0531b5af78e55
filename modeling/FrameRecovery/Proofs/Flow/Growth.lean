import FrameRecovery.Proofs.Flow.Primitives
import FrameRecovery.Proofs.Flow.Standing

namespace FrameRecovery

namespace Flow

variable {f g h : Flow} {xs ys : List NodeId} {ts : List Term} {t u : Term} {p : Place}

/-- The nodes of a flow `f` have their expressions in a flow `g` too. -/
def Retains (f g : Flow) : Prop :=
  ∀ y e p, f.shapeAt y = some (e, p) → ∃ p', g.shapeAt y = some (e, p')

theorem Retains.trans (hfg : f.Retains g) (hgh : g.Retains h) : f.Retains h := by
  intro y e p hy
  obtain ⟨p', hy⟩ := hfg y e p hy
  exact hgh y e p' hy

theorem Retains.of_shapeAt_eq (h : g.shapeAt = f.shapeAt) : f.Retains g :=
  fun _ _ p hy => ⟨p, h ▸ hy⟩

theorem Retains.ne_none (hfg : f.Retains g) {y : NodeId} (hy : f.shapeAt y ≠ none) :
    g.shapeAt y ≠ none := by
  obtain ⟨⟨e, p⟩, hy⟩ := Option.ne_none_iff_exists'.1 hy
  obtain ⟨p', hy⟩ := hfg y e p hy
  simp [hy]

theorem Retains.exprAt_eq (hfg : f.Retains g) {x : NodeId} (hx : f.exprAt x ≠ none) :
    g.exprAt x = f.exprAt x := by
  obtain ⟨e, hx⟩ := Option.ne_none_iff_exists'.1 hx
  obtain ⟨p, hshape⟩ := exists_shapeAt_of_exprAt hx
  obtain ⟨q, hq⟩ := hfg x e p hshape
  rw [hx, exprAt_eq_some hq]

theorem Retains.spells (hfg : f.Retains g) (ht : f.Spells t) : g.Spells t :=
  ht.congr fun _ hy => hfg.exprAt_eq (ht.exprAt_ne_none hy)

/-- A flow `g` is a flow `f` with some more nodes. -/
structure Grows (f g : Flow) (xs : List NodeId) : Prop where
  kept : ∀ y, f.shapeAt y ≠ none → g.shapeAt y = f.shapeAt y
  fresh : ∀ y ∈ xs, f.shapeAt y = none
  made : ∀ y, g.shapeAt y ≠ none → f.shapeAt y ≠ none ∨ y ∈ xs
  entry_eq : g.entry = f.entry
  statements_eq : g.statements = f.statements
  blocks_eq : g.blocks = f.blocks

namespace Grows

theorem refl (f : Flow) : f.Grows f [] :=
  ⟨fun _ _ => rfl, by simp, fun _ h => .inl h, rfl, rfl, rfl⟩

theorem trans (hfg : f.Grows g xs) (hgh : g.Grows h ys) : f.Grows h (xs ++ ys) := by
  refine ⟨fun y hy => ?_, fun y hy => ?_, fun y hy => ?_, hgh.entry_eq.trans hfg.entry_eq,
    hgh.statements_eq.trans hfg.statements_eq, hgh.blocks_eq.trans hfg.blocks_eq⟩
  · have hg := hfg.kept y hy
    rw [hgh.kept y (hg ▸ hy), hg]
  · rcases List.mem_append.1 hy with hy | hy
    · exact hfg.fresh y hy
    · by_contra hne
      exact hne ((hfg.kept y hne).symm.trans (hgh.fresh y hy))
  · rcases hgh.made y hy with hy | hy
    · rcases hfg.made y hy with hy | hy
      · exact .inl hy
      · exact .inr (List.mem_append_left _ hy)
    · exact .inr (List.mem_append_right _ hy)

theorem perm (hfg : f.Grows g xs) (hperm : ∀ y, y ∈ xs ↔ y ∈ ys) : f.Grows g ys :=
  ⟨hfg.kept, fun y hy => hfg.fresh y ((hperm y).2 hy),
    fun y hy => (hfg.made y hy).imp_right (hperm y).1, hfg.entry_eq, hfg.statements_eq,
    hfg.blocks_eq⟩

theorem ne_none (hfg : f.Grows g xs) {y : NodeId} (hy : f.shapeAt y ≠ none) :
    g.shapeAt y ≠ none :=
  hfg.kept y hy ▸ hy

theorem retains (hfg : f.Grows g xs) : f.Retains g :=
  fun y e p hy => ⟨p, hfg.kept y (by simp [hy]) ▸ hy⟩

theorem stands (hfg : f.Grows g xs) (ht : f.Stands p t) : g.Stands p t :=
  ht.congr fun y hy => hfg.kept y (ht.shapeAt_ne_none hy)

theorem spells (hfg : f.Grows g xs) (ht : f.Spells t) : g.Spells t :=
  hfg.retains.spells ht

theorem statementAt_eq (hfg : f.Grows g xs) : g.statementAt = f.statementAt := by
  funext s
  simp [statementAt, hfg.statements_eq]

/-- Other links, or other expressions that have the same shape, do not count for growth. -/
theorem congr (hfg : f.Grows g xs) (hshape : h.shapeAt = g.shapeAt) (hentry : h.entry = g.entry)
    (hstatements : h.statements = g.statements) (hblocks : h.blocks = g.blocks) :
    f.Grows h xs :=
  ⟨hshape ▸ hfg.kept, hfg.fresh, hshape ▸ hfg.made, hentry.trans hfg.entry_eq,
    hstatements.trans hfg.statements_eq, hblocks.trans hfg.blocks_eq⟩

end Grows

/-- A flow `g` is a flow `f` with some more trees, which no statement holds yet. -/
structure Pending (f g : Flow) (ts : List Term) : Prop where
  grows : f.Grows g (ts.flatMap Term.preorder)
  stands : ∀ t ∈ ts, g.Stands .detached t
  distinct : (ts.map Term.id).Nodup

namespace Pending

theorem nil (f : Flow) : f.Pending f [] :=
  ⟨.refl f, by simp, by simp⟩

theorem snoc (hts : f.Pending g ts) (hgrows : g.Grows h t.preorder) (ht : h.Stands .detached t) :
    f.Pending h (ts ++ [t]) := by
  refine ⟨by simpa using hts.grows.trans hgrows, fun u hu => ?_, ?_⟩
  · rcases List.mem_append.1 hu with hu | hu
    · exact hgrows.stands (hts.stands u hu)
    · rwa [List.mem_singleton.1 hu]
  · rw [List.map_append, List.nodup_append]
    refine ⟨hts.distinct, by simp, ?_⟩
    intro x hx y hy
    obtain ⟨u, hu, rfl⟩ := List.mem_map.1 hx
    obtain rfl : y = t.id := by simpa using hy
    intro heq
    have hfresh := hgrows.fresh t.id t.id_mem_preorder
    rw [← heq] at hfresh
    exact (hts.stands u hu).shapeAt_ne_none u.id_mem_preorder hfresh

theorem perm (hts : f.Pending g ts) {us : List Term} (hperm : ts.Perm us) : f.Pending g us := by
  refine ⟨hts.grows.perm fun y => ?_, fun u hu => hts.stands u (hperm.mem_iff.2 hu), ?_⟩
  · simp only [List.mem_flatMap, hperm.mem_iff]
  · exact (hperm.map Term.id).nodup_iff.1 hts.distinct

theorem congr (hts : f.Pending g ts) (hshape : h.shapeAt = g.shapeAt) (hentry : h.entry = g.entry)
    (hstatements : h.statements = g.statements) (hblocks : h.blocks = g.blocks) :
    f.Pending h ts :=
  ⟨hts.grows.congr hshape hentry hstatements hblocks,
    fun t ht => (hts.stands t ht).congr fun _ _ => by rw [hshape], hts.distinct⟩

theorem of_becomes (hts : f.Pending g ts) {link : NodeId → Link}
    (hg : g.Becomes h g.shapeAt link) : f.Pending h ts :=
  hts.congr hg.shape_eq hg.entry_eq hg.statements_eq hg.blocks_eq

theorem exists_stands (hts : f.Pending g ts) {x : NodeId} (hx : x ∈ ts.flatMap Term.preorder) :
    ∃ t ∈ ts, ∃ e p, Term.Within (.node x e) t ∧ g.Stands p (.node x e) := by
  obtain ⟨t, ht, hx⟩ := List.mem_flatMap.1 hx
  obtain ⟨⟨i, e⟩, hwithin, rfl⟩ := Term.exists_within_of_mem_preorder hx
  obtain ⟨p, hp⟩ := (hts.stands t ht).exists_of_within hwithin
  exact ⟨t, ht, e, p, hwithin, hp⟩

theorem grows_of_singleton (ht : f.Pending g [t]) : f.Grows g t.preorder := by
  simpa using ht.grows

end Pending

/-- A new node `x` was made over trees that were pending. -/
structure Allocates (f g h : Flow) (x : NodeId) (e : Expr Term) : Prop where
  pending : f.Pending g e.children
  fresh : g.shapeAt x = none
  becomes : g.Becomes h (Function.update (Edit.placed g.shapeAt (e.map Term.id).children (.child x)) x
    (some (e.map Term.id, .detached))) g.linkOf

namespace Allocates

variable {x y : NodeId} {e : Expr Term} (h' : Allocates f g h x e)
include h'

theorem shapeAt_self : h.shapeAt x = some (e.map Term.id, .detached) := by
  rw [h'.becomes.shape_eq, Function.update_self]

theorem shapeAt_of_ne (hyx : y ≠ x) (hy : y ∉ e.children.map Term.id) : h.shapeAt y = g.shapeAt y := by
  rw [h'.becomes.shape_eq, Function.update_of_ne hyx]
  simp [Edit.placed, hy]

theorem shapeAt_child {c : Term} (hc : c ∈ e.children) : h.shapeAt c.id = some (c.expr.map Term.id, .child x) := by
  have hstands := h'.pending.stands c hc
  have hcx : c.id ≠ x := by
    rintro heq
    exact hstands.shapeAt_ne_none c.id_mem_preorder (heq ▸ h'.fresh)
  rw [h'.becomes.shape_eq, Function.update_of_ne hcx]
  simp [Edit.placed, List.mem_map_of_mem hc, hstands.shape_id]

theorem ne_of_shapeAt (hy : f.shapeAt y ≠ none) : y ≠ x ∧ y ∉ e.children.map Term.id := by
  refine ⟨?_, fun hmem => ?_⟩
  · rintro rfl
    exact h'.pending.grows.ne_none hy h'.fresh
  · obtain ⟨t, ht, rfl⟩ := List.mem_map.1 hmem
    exact hy (h'.pending.grows.fresh _ (List.mem_flatMap.2 ⟨t, ht, t.id_mem_preorder⟩))

theorem retains : g.Retains h := by
  intro y e' p hy
  have hyx : y ≠ x := by
    rintro rfl
    simp [h'.fresh] at hy
  rw [h'.becomes.shape_eq, Function.update_of_ne hyx]
  unfold Edit.placed
  split
  · exact ⟨_, by rw [hy]; rfl⟩
  · exact ⟨p, hy⟩

/-- What is further down in a child has the shape it had. -/
theorem shapeAt_inside {c d : Term} (hc : c ∈ e.children) (hd : d ∈ c.expr.children) (hy : y ∈ d.preorder) :
    h.shapeAt y = g.shapeAt y := by
  have hstands := h'.pending.stands c hc
  have hyc : y ∈ c.preorder := by
    obtain ⟨i, e'⟩ := c
    rw [Term.preorder_node]
    exact List.mem_cons_of_mem _ (List.mem_flatMap.2 ⟨d, hd, hy⟩)
  refine h'.shapeAt_of_ne ?_ fun hmem => ?_
  · rintro rfl
    exact hstands.shapeAt_ne_none hyc h'.fresh
  · obtain ⟨c', hc', rfl⟩ := List.mem_map.1 hmem
    have hid := hstands.id_eq_of_mem (h'.pending.stands c' hc') Place.top_detached
      Place.top_detached hyc c'.id_mem_preorder
    have hnodup := hstands.nodup_preorder Place.top_detached
    obtain ⟨i, e'⟩ := c
    rw [Term.preorder_node, List.nodup_cons] at hnodup
    have hid : i = c'.id := hid
    exact hnodup.1 (List.mem_flatMap.2 ⟨d, hd, hid ▸ hy⟩)

theorem stands : h.Stands .detached (.node x e) :=
  .node h'.shapeAt_self h'.pending.distinct fun c hc =>
    (h'.pending.stands c hc).move (h'.shapeAt_child hc) fun _ hd _ => h'.shapeAt_inside hc hd

theorem grows : f.Grows h (Term.node x e).preorder := by
  rw [Term.preorder_node]
  refine ⟨fun y hy => ?_, fun y hy => ?_, fun y hy => ?_, h'.becomes.entry_eq.trans h'.pending.grows.entry_eq,
    h'.becomes.statements_eq.trans h'.pending.grows.statements_eq,
    h'.becomes.blocks_eq.trans h'.pending.grows.blocks_eq⟩
  · obtain ⟨hyx, hmem⟩ := h'.ne_of_shapeAt hy
    rw [h'.shapeAt_of_ne hyx hmem, h'.pending.grows.kept y hy]
  · rcases List.mem_cons.1 hy with rfl | hy
    · by_contra hne
      exact (h'.ne_of_shapeAt hne).1 rfl
    · exact h'.pending.grows.fresh y hy
  · by_cases hyx : y = x
    · exact .inr (by simp [hyx])
    · refine (h'.pending.grows.made y fun hnone => hy ?_).imp_right (List.mem_cons_of_mem _)
      rw [h'.becomes.shape_eq, Function.update_of_ne hyx]
      simp [Edit.placed, hnone]

end Allocates

/-- A new node over the trees that are pending is a pending tree. -/
theorem Pending.alloc_gives {e : Expr Term} (hts : f.Pending g e.children) :
    Gives (Edit.alloc (e.map Term.id)) g fun x h =>
      f.Pending h [.node x e] ∧ g.Retains h ∧ x = g.nextNode ∧ h.linkOf = g.linkOf := by
  have hne : ∀ c ∈ (e.map Term.id).children, g.shapeAt c ≠ none := by
    intro c hc
    rw [Expr.children_map] at hc
    obtain ⟨t, ht, rfl⟩ := List.mem_map.1 hc
    exact (hts.stands t ht).shapeAt_ne_none t.id_mem_preorder
  refine (Edit.alloc_gives hne).mono fun x h ⟨hx, hbecomes⟩ => ?_
  have h' : Allocates f g h x e := ⟨hts, hx ▸ shapeAt_nextNode g, hbecomes⟩
  exact ⟨⟨by simpa using h'.grows, by simpa using h'.stands, by simp⟩, h'.retains, hx, hbecomes.link_eq⟩

end Flow

end FrameRecovery
