import FrameRecovery.Proofs.Flow.Growth
import FrameRecovery.Proofs.Flow.Links

namespace FrameRecovery

/-- The link that a copy of a node gets: the read that the node is, if it is one. -/
def Link.read : Link → Link
  | use d => use d
  | _ => unlinked

theorem Link.eq_use_of_read {l : Link} {d : Option NodeId} (h : l.read = .use d) : l = .use d := by
  cases l <;> simp_all [read]

/-- A link with some more uses. -/
def Link.Extends (l l' : Link) : Prop :=
  l' = l ∨ ∃ us vs, l = definition us ∧ l' = definition (us ++ vs)

namespace Link.Extends

variable {l l' l'' : Link}

theorem refl (l : Link) : l.Extends l := .inl rfl

theorem trans (h : l.Extends l') (h' : l'.Extends l'') : l.Extends l'' := by
  rcases h with rfl | ⟨us, vs, rfl, rfl⟩
  · exact h'
  · rcases h' with rfl | ⟨us', vs', h, rfl⟩
    · exact .inr ⟨us, vs, rfl, rfl⟩
    · cases h
      exact .inr ⟨us, vs ++ vs', rfl, by simp⟩

theorem read_eq (h : l.Extends l') : l'.read = l.read := by
  rcases h with rfl | ⟨us, vs, rfl, rfl⟩ <;> rfl

theorem read_ne_definition (l : Link) (us : List NodeId) : l.read ≠ .definition us := by
  cases l <;> simp [read]

theorem unlinked_iff (h : l.Extends l') : l' = .unlinked ↔ l = .unlinked := by
  rcases h with rfl | ⟨us, vs, rfl, rfl⟩ <;> simp

theorem use_iff (h : l.Extends l') {d : Option NodeId} : l' = .use d ↔ l = .use d := by
  rcases h with rfl | ⟨us, vs, rfl, rfl⟩ <;> simp

theorem exists_definition (h : l.Extends l') {us : List NodeId} (hl : l' = .definition us) :
    ∃ us', l = .definition us' := by
  rcases h with rfl | ⟨us', vs, rfl, rfl⟩
  · exact ⟨us, hl⟩
  · exact ⟨us', rfl⟩

theorem free (h : l.Extends l') (hl : l'.Free) : l.Free := by
  rcases h with rfl | ⟨us, vs, rfl, rfl⟩
  · exact hl
  · simp [Link.Free] at hl

theorem eq_of_ne_definition (h : l.Extends l') (hl : ∀ us, l ≠ .definition us) : l' = l := by
  rcases h with rfl | ⟨us, vs, rfl, rfl⟩
  · rfl
  · exact absurd rfl (hl us)

end Link.Extends

namespace Flow

variable {f g h : Flow} {xs : List NodeId} {R : NodeId → NodeId → Prop} {t : Term} {p : Place}
  {x y : NodeId}

/-- Links are about nodes that are there, and definitions and reads of each other agree. -/
structure Tied (f : Flow) : Prop where
  mirrored : f.Mirrored
  exists_node : ∀ y, f.linkOf y ≠ .unlinked → f.shapeAt y ≠ none

theorem Tied.without {ys : List NodeId} (hf : f.Tied) (hshape : g.shapeAt = f.shapeAt)
    (hlink : g.linkOf = f.linksWithout ys) : g.Tied := by
  refine ⟨hf.mirrored.without hlink, fun y hy => ?_⟩
  rw [hshape]
  refine hf.exists_node y fun h => hy ?_
  simp [hlink, linksWithout, h]

/-- The definitions of a flow `f` have more uses in a flow `g`, and its other links are the
    same. -/
def Records (f g : Flow) : Prop :=
  ∀ y, f.shapeAt y ≠ none → (f.linkOf y).Extends (g.linkOf y)

/-- Related nodes have expressions of one kind over related children. -/
def Mimics (f : Flow) (R : NodeId → NodeId → Prop) : Prop :=
  ∀ y x, R y x → ∃ e' p' e p, f.shapeAt y = some (e', p') ∧ f.shapeAt x = some (e, p) ∧
    e'.head = e.head ∧ List.Forall₂ R e'.children e.children

theorem Mimics.retains (hR : f.Mimics R) (hfg : f.Retains g) : g.Mimics R := by
  intro y x hyx
  obtain ⟨e', p', e, p, hy, hx, hhead, hchildren⟩ := hR y x hyx
  obtain ⟨q', hy⟩ := hfg y e' p' hy
  obtain ⟨q, hx⟩ := hfg x e p hx
  exact ⟨e', q', e, q, hy, hx, hhead, hchildren⟩

/-- Trees of related nodes are the same up to the numbers of their nodes. -/
theorem Mimics.form_eq (hR : f.Mimics R) {q : Place} {t' : Term} (ht : f.Stands p t)
    (ht' : f.Stands q t') (hid : R t'.id t.id) : t'.form = t.form := by
  induction t using Term.induction generalizing p q t' with
  | step i e ih =>
    obtain ⟨i', e'⟩ := t'
    obtain ⟨shape, -, below⟩ := ht
    obtain ⟨shape', -, below'⟩ := ht'
    obtain ⟨e₁, p₁, e₂, p₂, he₁, he₂, hhead, hchildren⟩ := hR i' i hid
    rw [shape'] at he₁
    rw [shape] at he₂
    cases he₁
    cases he₂
    rw [Expr.children_map, Expr.children_map, List.forall₂_map_left_iff, List.forall₂_map_right_iff]
      at hchildren
    rw [Term.form_node, Term.form_node]
    congr 1
    refine Expr.ext_children (by simpa using hhead) ?_
    rw [Expr.children_map, Expr.children_map]
    obtain ⟨hlength, hall⟩ := List.forall₂_iff_get.1 hchildren
    refine List.ext_getElem (by simpa using hlength) fun n hn hn' => ?_
    simp only [List.length_map] at hn hn'
    rw [List.getElem_map, List.getElem_map]
    exact ih _ (List.getElem_mem hn') (below _ (List.getElem_mem hn'))
      (below' _ (List.getElem_mem hn)) (hall n hn hn')

/-- A relation that holds of two nodes in addition. -/
def Mimics.also (R : NodeId → NodeId → Prop) (y x : NodeId) : NodeId → NodeId → Prop :=
  fun a b => R a b ∨ (a = y ∧ b = x)

/-- The outcome of copying a tree `t` in a flow `f`: a new tree, the nodes of which are related
    to those that they were copied from. -/
structure Copies (f g : Flow) (R : NodeId → NodeId → Prop) (t t' : Term) : Prop where
  grows : f.Grows g t'.preorder
  stands : g.Stands .detached t'
  mimics : g.Mimics R
  ids : R t'.id t.id
  source : ∀ y ∈ t'.preorder, ∃ x ∈ t.preorder, R y x

theorem Copies.form_eq {t' : Term} (h : f.Copies g R t t') (ht : f.Stands p t) : t'.form = t.form :=
  h.mimics.form_eq (h.grows.stands ht) h.stands h.ids

/-- The outcome of copying several trees one after the other. -/
structure CopiesAll (f g : Flow) (R : NodeId → NodeId → Prop) (ts ts' : List Term) : Prop where
  pending : f.Pending g ts'
  mimics : g.Mimics R
  ids : List.Forall₂ R (ts'.map Term.id) (ts.map Term.id)
  source : ∀ y ∈ ts'.flatMap Term.preorder, ∃ x ∈ ts.flatMap Term.preorder, R y x

namespace CopiesAll

variable {R' : NodeId → NodeId → Prop} {t' : Term} {ts ts' : List Term}

theorem nil (hR : f.Mimics R) : f.CopiesAll f R [] [] :=
  ⟨.nil f, hR, .nil, by simp⟩

theorem snoc (hfg : f.CopiesAll g R ts ts') (hgh : g.Copies h R' t t') (hle : ∀ a b, R a b → R' a b) :
    f.CopiesAll h R' (ts ++ [t]) (ts' ++ [t']) := by
  refine ⟨hfg.pending.snoc hgh.grows hgh.stands, hgh.mimics, ?_, fun y hy => ?_⟩
  · rw [List.map_append, List.map_append]
    exact List.rel_append (hfg.ids.imp hle) (by simpa using hgh.ids)
  · rw [List.flatMap_append, List.mem_append] at hy
    rw [List.flatMap_append]
    rcases hy with hy | hy
    · obtain ⟨x, hx, hyx⟩ := hfg.source y hy
      exact ⟨x, List.mem_append_left _ hx, hle y x hyx⟩
    · obtain ⟨x, hx, hyx⟩ := hgh.source y (by simpa using hy)
      exact ⟨x, List.mem_append_right _ (by simpa using hx), hyx⟩

/-- A node that is not there is related to nothing. -/
theorem ne_of_shapeAt (hfg : f.CopiesAll g R ts ts') (hy : g.shapeAt y = none) {a b : NodeId} (hab : R a b) :
    a ≠ y ∧ b ≠ y := by
  obtain ⟨_, _, _, _, ha, hb, -⟩ := hfg.mimics a b hab
  constructor
  · rintro rfl
    simp [hy] at ha
  · rintro rfl
    simp [hy] at hb

/-- A node over the copies of the children of a node is a copy of it. -/
theorem node {e : Expr Term} (hfg : f.CopiesAll g R e.children ts') (hgh : g.Retains h)
    (hnode : f.Pending h [.node y (e.refill ts')]) (hx : h.shapeAt x = some (e.map Term.id, p)) :
    f.Copies h (Mimics.also R y x) (.node x e) (.node y (e.refill ts')) := by
  obtain ⟨hhead, hchildren⟩ := e.refill_spec (by simpa using hfg.ids.length_eq)
  have hy := (hnode.stands _ (List.mem_singleton_self _)).shape_id
  refine ⟨hnode.grows_of_singleton, hnode.stands _ (List.mem_singleton_self _), ?_, .inr ⟨rfl, rfl⟩, fun a ha => ?_⟩
  · rintro a b (hab | ⟨rfl, rfl⟩)
    · obtain ⟨e₁, p₁, e₂, p₂, ha, hb, hhead₁, hchildren₁⟩ := hfg.mimics.retains hgh a b hab
      exact ⟨e₁, p₁, e₂, p₂, ha, hb, hhead₁, hchildren₁.imp fun _ _ h => .inl h⟩
    · refine ⟨_, _, _, _, hy, hx, by simp [hhead], ?_⟩
      rw [Expr.children_map, Expr.children_map, Term.expr_node, hchildren]
      exact hfg.ids.imp fun _ _ h => .inl h
  · rw [Term.preorder_node, List.mem_cons, hchildren] at ha
    rw [Term.preorder_node]
    rcases ha with rfl | ha
    · exact ⟨x, by simp, .inr ⟨rfl, rfl⟩⟩
    · obtain ⟨b, hb, hab⟩ := hfg.source a ha
      exact ⟨b, List.mem_cons_of_mem _ hb, .inl hab⟩

end CopiesAll

end Flow

namespace Edit

open Flow

section Linked

variable {link : NodeId → Link} {x y : NodeId} {d : Option NodeId}

theorem linked_self : linked link y d y = .use d := by
  simp [linked]

theorem extends_linked (hxy : x ≠ y) : (link x).Extends (linked link y d x) := by
  unfold linked
  rw [if_neg hxy]
  split
  · split
    next us h => exact .inr ⟨us, [y], h, rfl⟩
    next => exact .refl _
  · exact .refl _

theorem mem_uses_linked {z : NodeId} (hxy : x ≠ y) (hx : d = some x → ∃ us, link x = .definition us) :
    z ∈ (linked link y d x).uses ↔ z ∈ (link x).uses ∨ (d = some x ∧ z = y) := by
  unfold linked
  rw [if_neg hxy]
  by_cases hd : d = some x
  · obtain ⟨us, h⟩ := hx hd
    simp [hd, h]
  · simp [hd]

end Linked

theorem tied_linked {f g : Flow} {y : NodeId} {d : Option NodeId} (hf : f.Tied)
    (hy : f.shapeAt y ≠ none) (hfree : (f.linkOf y).Free)
    (hd : ∀ d', d = some d' → ∃ us, f.linkOf d' = .definition us)
    (hg : f.Becomes g f.shapeAt (linked f.linkOf y d)) : g.Tied := by
  have hdy : d ≠ some y := by
    intro h
    obtain ⟨us, hus⟩ := hd y h
    simp [Link.Free, hus] at hfree
  have hnot : ∀ z, f.linkOf y ≠ .use (some z) := hfree.ne_use
  refine ⟨⟨fun x d' => ?_, fun d' => ?_⟩, fun x hx => ?_⟩
  · rw [hg.link_eq]
    by_cases hx : x = y
    · subst hx
      rw [linked_self]
      by_cases hd' : d' = x
      · subst hd'
        rw [linked_self]
        simpa using hdy
      · rw [mem_uses_linked hd' (hd d'), ← hf.mirrored.recorded]
        simp [hnot]
    · rw [(extends_linked hx).use_iff, hf.mirrored.recorded]
      by_cases hd' : d' = y
      · subst hd'
        simp [linked_self, hfree.uses_eq_nil]
      · rw [mem_uses_linked hd' (hd d')]
        simp [hx]
  · rw [hg.link_eq]
    by_cases hd' : d' = y
    · subst hd'
      simp [linked_self]
    · rcases @extends_linked f.linkOf _ _ d hd' with h | ⟨us, vs, hus, h⟩
      · exact h ▸ hf.mirrored.nodup d'
      · have hnodup := hf.mirrored.nodup d'
        unfold linked at h ⊢
        rw [if_neg hd'] at h ⊢
        split
        · simp only [hus, Link.uses_definition] at hnodup ⊢
          refine List.nodup_append.2 ⟨hnodup, by simp, ?_⟩
          intro a ha b hb
          obtain rfl : b = y := by simpa using hb
          rintro rfl
          exact hnot d' ((hf.mirrored.recorded a d').2 (by simpa [hus] using ha))
        · exact hnodup
  · rw [hg.shape_eq]
    by_cases hxy : x = y
    · exact hxy ▸ hy
    · refine hf.exists_node x fun h => hx ?_
      rw [hg.link_eq, (extends_linked hxy).unlinked_iff, h]

section Fold

variable {finish : NodeId → NodeId → Edit NodeId} {J : Flow → (NodeId → NodeId → Prop) → Prop}

/-- Copying a tree gives a copy. What is done at a new node once it is there is a parameter; it
    changes links alone, and takes the new node into the invariant `J`. -/
private theorem fold_gives
    (hgrow : ∀ {g h R}, J g R → g.Retains h → h.linkOf = g.linkOf → J h R)
    (hfinish : ∀ {g₀ g R y x}, J g₀ R → g₀.shapeAt y = none → J g R → g.shapeAt y ≠ none → g.shapeAt x ≠ none → x ≠ y →
      g.linkOf y = .unlinked → (∀ a b, R a b → a ≠ y ∧ b ≠ y) →
      Gives (finish x y) g fun y' h =>
        y' = y ∧ (∃ link, g.Becomes h g.shapeAt link) ∧ J h (Mimics.also R y x))
    (t : Term) {f : Flow} {R₀ : NodeId → NodeId → Prop} (hf : J f R₀)
    (hR₀ : f.Mimics R₀) (ht : f.Spells t) :
    Gives (t.fold fun source e => do finish source (← alloc (← e.mapM fun child => child))) f
      fun y g => ∃ t' R, t'.id = y ∧ (∀ a b, R₀ a b → R a b) ∧ f.Copies g R t t' ∧ J g R := by
  induction t using Term.induction generalizing f R₀ with
  | step i e ih =>
    obtain ⟨expr, below⟩ := ht
    obtain ⟨p, shape⟩ := exists_shapeAt_of_exprAt expr
    rw [Term.fold_node, Expr.mapM_map]
    refine .of_bind (.of_mapM_expr ?_)
    -- the children that were copied, with their copies
    have hloop : Gives (e.children.mapM fun c => c.fold fun source e => do
        finish source (← alloc (← e.mapM fun child => child))) f fun ys g => ∃ done ts R,
          done ++ [] = e.children ∧ [] ++ ys = ts.map Term.id ∧ (∀ a b, R₀ a b → R a b) ∧
          f.CopiesAll g R done ts ∧ J g R := by
      refine .of_mapM (I := fun rest ys g => ∃ done ts R, done ++ rest = e.children ∧ ys = ts.map Term.id ∧
        (∀ a b, R₀ a b → R a b) ∧ f.CopiesAll g R done ts ∧ J g R) ?_ e.children
        ⟨[], [], R₀, rfl, rfl, fun _ _ h => h, .nil hR₀, hf⟩
      rintro c rest ys g ⟨done, ts, R, hdone, rfl, hle, hcopies, hJ⟩
      have hc : c ∈ e.children := by rw [← hdone]; simp
      refine (ih c hc hJ hcopies.mimics (hcopies.pending.grows.spells (below c hc))).mono ?_
      rintro y h ⟨t', R', rfl, hle', hcopies', hJ'⟩
      exact ⟨done ++ [c], ts ++ [t'], R', by simpa using hdone, by simp, fun a b h => hle' a b (hle a b h),
        hcopies.snoc hcopies' hle', hJ'⟩
    refine hloop.mono ?_
    rintro ys g ⟨done, ts, R, hdone, hys, hle, hcopies, hJ⟩ e' hhead hchildren
    rw [List.append_nil] at hdone
    rw [List.nil_append] at hys
    subst hdone
    obtain ⟨hhead', hchildren'⟩ := e.refill_spec (by simpa using hcopies.ids.length_eq)
    obtain rfl : e' = (e.refill ts).map Term.id := by
      refine Expr.ext_children (by simp [hhead, hhead']) ?_
      simpa [hchildren, hchildren'] using hys
    refine .of_bind ((Pending.alloc_gives (hchildren' ▸ hcopies.pending)).mono ?_)
    rintro y h ⟨hnode, hretains, hy, hlink⟩
    have hnone : g.shapeAt y = none := hy ▸ shapeAt_nextNode g
    have hi : g.shapeAt i ≠ none := hcopies.pending.grows.ne_none (by simp [shape])
    have hyi : i ≠ y := fun h => hi (h ▸ hnone)
    have hhy : h.shapeAt y ≠ none := (hnode.stands _ (List.mem_singleton_self _)).shapeAt_ne_none (Term.id_mem_preorder _)
    have hhi : h.shapeAt i = some (e.map Term.id, p) := by
      rw [hnode.grows.kept i (by simp [shape]), shape]
    refine (hfinish hJ hnone (hgrow hJ hretains hlink) hhy (by simp [hhi]) hyi
      (by rw [hlink, linkOf_eq_unlinked hnone]) fun a b => hcopies.ne_of_shapeAt hnone).mono ?_
    rintro _ k ⟨rfl, ⟨link, hbecomes⟩, hJ'⟩
    exact ⟨_, _, rfl, fun a b hab => .inl (hle a b hab), hcopies.node (hretains.trans (.of_shapeAt_eq hbecomes.shape_eq))
      (hnode.of_becomes hbecomes) (hbecomes.shape_eq ▸ hhi), hJ'⟩

end Fold

variable {f : Flow} {t : Term}

/-- What copying does with a new node: the copy of a read reads what that reads. -/
def copyLink (source new : NodeId) : Edit NodeId := do
  if let .use definition ← view (·.link source) then
    linkUse new definition
  return new

/-- What is kept while a tree is copied: new nodes read what the nodes read that they were copied from. -/
structure Linking (f g : Flow) (R : NodeId → NodeId → Prop) : Prop where
  tied : g.Tied
  retains : f.Retains g
  records : f.Records g
  read : ∀ a b, R a b → g.linkOf a = (g.linkOf b).read

namespace Linking

variable {g h : Flow} {R : NodeId → NodeId → Prop} {x y : NodeId}

theorem start (hf : f.Tied) : Linking f f fun _ _ => False :=
  ⟨hf, fun _ _ p h => ⟨p, h⟩, fun _ _ => .refl _, nofun⟩

theorem grow (hg : Linking f g R) (hgh : g.Retains h) (hlink : h.linkOf = g.linkOf) : Linking f h R := by
  refine ⟨⟨hg.tied.mirrored.of_linkOf_eq hlink, fun y hy => ?_⟩, hg.retains.trans hgh, ?_, ?_⟩
  · exact hgh.ne_none (hg.tied.exists_node y (hlink ▸ hy))
  · exact fun y hy => hlink ▸ hg.records y hy
  · exact fun a b hab => hlink ▸ hg.read a b hab

/-- One more node reads what another one reads. -/
theorem also (hg : Linking f g R) (hy : f.shapeAt y = none) (hnew : ∀ a b, R a b → a ≠ y ∧ b ≠ y)
    (htied : h.Tied) (hbecomes : g.Becomes h g.shapeAt h.linkOf)
    (hextends : ∀ z, z ≠ y → (g.linkOf z).Extends (h.linkOf z)) (hread : h.linkOf y = (h.linkOf x).read) :
    Linking f h (Mimics.also R y x) := by
  refine ⟨htied, hg.retains.trans (.of_shapeAt_eq hbecomes.shape_eq), fun z hz => ?_, ?_⟩
  · have hzy : z ≠ y := by
      rintro rfl
      exact hz hy
    exact (hg.records z hz).trans (hextends z hzy)
  · rintro a b (hab | ⟨rfl, rfl⟩)
    · obtain ⟨hay, hby⟩ := hnew a b hab
      rw [(hextends b hby).read_eq, ← hg.read a b hab]
      refine (hextends a hay).eq_of_ne_definition fun us => ?_
      rw [hg.read a b hab]
      exact Link.Extends.read_ne_definition _ us
    · exact hread

/-- A new node is linked as the node is that it was copied from. -/
theorem copyLink_gives (hg : Linking f g R) (hf : f.shapeAt y = none) (hy : g.shapeAt y ≠ none)
    (hx : g.shapeAt x ≠ none) (hxy : x ≠ y) (hunlinked : g.linkOf y = .unlinked)
    (hnew : ∀ a b, R a b → a ≠ y ∧ b ≠ y) :
    Gives (copyLink x y) g fun y' h =>
      y' = y ∧ (∃ link, g.Becomes h g.shapeAt link) ∧ Linking f h (Mimics.also R y x) := by
  obtain ⟨⟨ex, px⟩, hx⟩ := Option.ne_none_iff_exists'.1 hx
  refine .of_bind (.of_view (link_eq hx) ?_)
  cases hl : g.linkOf x with
  | use d =>
    have hd : ∀ d', d = some d' → ∃ us, g.linkOf d' = .definition us := by
      rintro d' rfl
      exact ⟨_, Link.eq_definition_of_mem_uses ((hg.tied.mirrored.recorded x d').1 hl)⟩
    have hdef : ∀ d', d = some d' → g.shapeAt d' ≠ none ∧ d' ≠ y := by
      intro d' hd'
      obtain ⟨us, hus⟩ := hd d' hd'
      refine ⟨hg.tied.exists_node d' (by simp [hus]), ?_⟩
      rintro rfl
      simp [hunlinked] at hus
    refine .of_bind ((linkUse_gives hy hdef).mono fun _ h hbecomes => .of_pure ⟨rfl, ⟨_, hbecomes⟩, ?_⟩)
    refine hg.also hf hnew (tied_linked hg.tied hy (.inl hunlinked) hd hbecomes) (hbecomes.link_eq ▸ hbecomes) ?_ ?_
    · intro z hz
      rw [hbecomes.link_eq]
      exact extends_linked hz
    · rw [hbecomes.link_eq, linked_self, (extends_linked hxy).read_eq, hl]
      rfl
  | _ =>
    refine .of_pure ⟨rfl, ⟨_, .refl g⟩, hg.also hf hnew hg.tied (.refl g) (fun _ _ => .refl _) ?_⟩
    rw [hl, hunlinked]
    rfl

end Linking

/-- A copied tree has the reads of the tree it was copied from. -/
theorem copy_gives (hf : f.Tied) (ht : f.Spells t) :
    Gives (copy t.id) f fun y g => ∃ t' R, t'.id = y ∧ f.Copies g R t t' ∧ g.Tied ∧ f.Records g ∧
      ∀ a b, R a b → g.linkOf a = (g.linkOf b).read := by
  unfold copy
  refine .of_bind (.of_view ht.term_eq ?_)
  have hfinish : ∀ {g₀ g : Flow} {R y x}, Linking f g₀ R → g₀.shapeAt y = none → Linking f g R →
      g.shapeAt y ≠ none → g.shapeAt x ≠ none → x ≠ y → g.linkOf y = .unlinked → (∀ a b, R a b → a ≠ y ∧ b ≠ y) →
      Gives (copyLink x y) g fun y' h =>
        y' = y ∧ (∃ link, g.Becomes h g.shapeAt link) ∧ Linking f h (Mimics.also R y x) := by
    intro g₀ g R y x hg₀ hy₀ hg
    refine hg.copyLink_gives (of_not_not fun hy => ?_)
    exact hg₀.retains.ne_none hy hy₀
  refine (@fold_gives copyLink (Linking f) Linking.grow hfinish t f _ (.start hf) nofun ht).mono ?_
  rintro y g ⟨t', R, rfl, -, hcopies, hg⟩
  exact ⟨t', R, rfl, hcopies, hg.tied, hg.records, hg.read⟩

/-- Copying needs no more of the links than that they are about nodes that are there. -/
theorem copy_linkClosed (hf : f.LinkClosed) (ht : f.Spells t) :
    Gives (copy t.id) f fun y g => ∃ t' R, t'.id = y ∧ f.Copies g R t t' ∧ g.LinkClosed := by
  unfold copy
  refine .of_bind (.of_view ht.term_eq ?_)
  have hgrow : ∀ {g h : Flow}, g.LinkClosed → g.Retains h → h.linkOf = g.linkOf → h.LinkClosed := by
    intro g h hg hgh hlink x y hy
    rw [hgh.exprAt_eq (hg x y (hlink ▸ hy))]
    exact hg x y (hlink ▸ hy)
  have hfold := @fold_gives copyLink (fun g _ => g.LinkClosed) (fun hg => hgrow hg) ?_ t f (fun _ _ => False) hf nofun ht
  · refine hfold.mono ?_
    rintro y g ⟨t', R, rfl, -, hcopies, hg⟩
    exact ⟨t', R, rfl, hcopies, hg⟩
  intro _ g _ y x _ _ hg hy hx _ _ _
  obtain ⟨⟨ex, px⟩, hx⟩ := Option.ne_none_iff_exists'.1 hx
  refine .of_bind (.of_view (link_eq hx) ?_)
  cases hl : g.linkOf x with
  | use D =>
    refine .of_bind ((linkUse_linkClosed hg (exprAt_ne_none.2 hy) fun d hd => ?_).mono ?_)
    · exact hg x d (by simp [hl, hd, Link.mentions])
    · rintro _ h ⟨hgh, hh⟩
      exact .of_pure ⟨rfl, ⟨_, hgh⟩, hh⟩
  | _ => exact .of_pure ⟨rfl, ⟨_, .refl g⟩, hg⟩

/-- The nodes of a snapshot are unlinked. -/
theorem snapshot_gives (ht : f.Spells t) :
    Gives (snapshot t.id) f fun y g => ∃ t' R, t'.id = y ∧ f.Copies g R t t' ∧
      g.linkOf = f.linkOf := by
  unfold snapshot
  refine .of_bind (.of_view ht.term_eq ?_)
  have hfold := @fold_gives (fun _ new => pure new) (fun g _ => g.linkOf = f.linkOf)
    (fun hJ _ hlink => hlink.trans hJ)
    (fun _ _ hJ _ _ _ _ _ => .of_pure ⟨rfl, ⟨_, .refl _⟩, hJ⟩) t f (fun _ _ => False) rfl nofun ht
  simp only [bind_pure] at hfold
  refine hfold.mono ?_
  rintro y g ⟨t', R, rfl, -, hcopies, hlink⟩
  exact ⟨t', R, rfl, hcopies, hlink⟩

end Edit

end FrameRecovery
