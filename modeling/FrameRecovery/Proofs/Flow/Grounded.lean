import FrameRecovery.Proofs.Flow.Copying

namespace FrameRecovery

/-- The record that a variable keeps. -/
def Expr.origin? {α : Type} : Expr α → Option NodeId
  | var _ _ o => some o
  | _ => none

theorem Expr.origin?_eq_of_head_eq {α β : Type} {e : Expr α} {e' : Expr β} (h : e.head = e'.head) :
    e.origin? = e'.origin? := by
  cases e <;> cases e' <;> simp_all [head, map, origin?]

namespace Flow

/-- Every node has a tree below it and is a child of the node that it is placed below, and nodes and
    links are about nodes and statements that are there. -/
structure Grounded (f : Flow) : Prop where
  spelled : ∀ x, f.exprAt x ≠ none → f.Spelled x
  parent : ∀ x e q, f.shapeAt x = some (e, .child q) → ∃ e', f.exprAt q = some e' ∧ x ∈ e'.children
  statement : ∀ x e s, f.shapeAt x = some (e, .root s) → ∃ st, f.statementAt s = some st ∧ st.root = x
  link : f.LinkClosed
  origin : ∀ x e o, f.exprAt x = some e → e.origin? = some o → f.exprAt o ≠ none

namespace Grounded

variable {f g : Flow} {x i : NodeId} {e e' : Expr NodeId} {p : Place}

theorem exists_spells (hf : f.Grounded) (hx : f.exprAt x = some e) :
    ∃ e' : Expr Term, f.Spells (.node x e') ∧ e'.map Term.id = e := by
  obtain ⟨⟨i, e'⟩, ht, rfl⟩ := hf.spelled x (by simp [hx])
  exact ⟨e', ht, Option.some.inj (ht.exprAt_id.symm.trans hx)⟩

theorem term_eq (hf : f.Grounded) (hx : f.exprAt x ≠ none) : ∃ t, f.term x = .ok t ∧ f.Spells t ∧ t.id = x := by
  obtain ⟨t, ht, rfl⟩ := hf.spelled x hx
  exact ⟨t, ht.term_eq, ht, rfl⟩

theorem spelledWithout (hf : f.Grounded) (hx : f.exprAt x = some e) {c : NodeId} (hc : c ∈ e.children) :
    f.SpelledWithout c x := by
  obtain ⟨e', ht, rfl⟩ := hf.exists_spells hx
  exact ht.child hc

theorem parentExpr?_eq (hf : f.Grounded) (hx : f.exprAt x ≠ none) : ∃ e, f.parentExpr? x = .ok e := by
  obtain ⟨⟨e, p⟩, hshape⟩ := Option.ne_none_iff_exists'.1 (exprAt_ne_none.1 hx)
  cases p with
  | child q =>
    obtain ⟨e', hq, -⟩ := hf.parent x e q hshape
    obtain ⟨p', hq⟩ := exists_shapeAt_of_exprAt hq
    exact ⟨_, parentExpr?_eq_some hshape hq⟩
  | _ =>
    refine ⟨none, ?_⟩
    unfold parentExpr?
    rw [node_eq hshape]
    rfl

/-- The way up from a node ends, since what is above has a higher tree below it. Where it ends at a
    statement, the node is in the tree of the statement. -/
theorem climb_eq (hf : f.Grounded) {n : Nat} {t : Term} (ht : f.Spells t) (hn : f.nodes.size < n + t.height) :
    ∃ r, f.climb n t.id = .ok r ∧ ∀ s, r = some s → ∃ st u, f.statementAt s = some st ∧ f.Spells u ∧
      u.id = st.root ∧ Term.Within t u := by
  induction n generalizing t with
  | zero =>
    have := ht.height_le
    omega
  | succ n ih =>
    obtain ⟨p, hshape⟩ := exists_shapeAt_of_exprAt ht.exprAt_id
    simp only [climb, node_eq hshape, bind_ok]
    cases p with
    | detached =>
      refine ⟨none, rfl, ?_⟩
      rintro _ ⟨⟩
    | root s =>
      refine ⟨some s, rfl, ?_⟩
      rintro _ ⟨⟩
      obtain ⟨st, hst, hroot⟩ := hf.statement _ _ s hshape
      exact ⟨st, t, hst, ht, hroot.symm, .refl t⟩
    | child q =>
      obtain ⟨e', hq, hmem⟩ := hf.parent _ _ q hshape
      obtain ⟨e'', hu, rfl⟩ := hf.exists_spells hq
      rw [Expr.children_map] at hmem
      obtain ⟨c, hc, hid⟩ := List.mem_map.1 hmem
      obtain rfl := (hu.of_within (.of_mem_children hc)).unique ht hid
      have hlt := Term.height_lt_of_mem_children (i := q) hc
      obtain ⟨r, hr, hstatement⟩ := ih hu (by omega)
      refine ⟨r, hr, fun s hs => ?_⟩
      obtain ⟨st, u, hst, hspells, hid, hwithin⟩ := hstatement s hs
      exact ⟨st, u, hst, hspells, hid, (Term.Within.of_mem_children hc).trans hwithin⟩

theorem statementOf?_eq (hf : f.Grounded) {t : Term} (ht : f.Spells t) :
    ∃ r, f.statementOf? t.id = .ok r ∧ ∀ s, r = some s → ∃ st u, f.statementAt s = some st ∧ f.Spells u ∧
      u.id = st.root ∧ Term.Within t u := by
  refine hf.climb_eq ht ?_
  unfold depthBound
  omega

/-- One node gets another expression, over nodes that it does not occur below. -/
theorem update (hf : f.Grounded) (i : NodeId) (e' : Expr NodeId)
    (hexpr : g.exprAt = Function.update f.exprAt i (some e'))
    (hchildren : ∀ y ∈ e'.children, f.SpelledWithout y i)
    (horigin : ∀ o, e'.origin? = some o → f.exprAt o ≠ none) (hlink : g.linkOf = f.linkOf)
    (hparent : ∀ x e q, g.shapeAt x = some (e, .child q) →
      q = i ∧ x ∈ e'.children ∨ q ≠ i ∧ ∃ e₀, f.shapeAt x = some (e₀, .child q))
    (hroot : ∀ x e s, g.shapeAt x = some (e, .root s) → ∃ st, g.statementAt s = some st ∧ st.root = x) :
    g.Grounded := by
  have hkept : ∀ x, f.exprAt x ≠ none → g.exprAt x ≠ none := by
    intro x hx
    rw [hexpr]
    by_cases hxi : x = i
    · simp [hxi]
    · rwa [Function.update_of_ne hxi]
  have hself : g.exprAt i = some e' := by rw [hexpr, Function.update_self]
  refine ⟨fun x hx => ?_, fun x e q hx => ?_, hroot, fun x y hy => ?_, fun x e o hx ho => ?_⟩
  · by_cases hxi : x = i
    · subst hxi
      refine .of_children hself fun y hy => ?_
      obtain ⟨t, ht, hid, -⟩ := hchildren y hy
      exact Spelled.update ⟨t, ht, hid⟩ hexpr hchildren
    · rw [hexpr, Function.update_of_ne hxi] at hx
      exact (hf.spelled x hx).update hexpr hchildren
  · obtain ⟨rfl, hmem⟩ | ⟨hq, e₀, hx₀⟩ := hparent x e q hx
    · exact ⟨e', hself, hmem⟩
    · obtain ⟨e₁, he₁, hmem⟩ := hf.parent x e₀ q hx₀
      exact ⟨e₁, by rw [hexpr, Function.update_of_ne hq, he₁], hmem⟩
  · rw [hlink] at hy
    exact hkept y (hf.link x y hy)
  · by_cases hxi : x = i
    · subst hxi
      cases hself.symm.trans hx
      exact hkept o (horigin o ho)
    · rw [hexpr, Function.update_of_ne hxi] at hx
      exact hkept o (hf.origin x e o hx ho)

/-- The nodes keep their expressions. -/
theorem congr (hf : f.Grounded) (hexpr : g.exprAt = f.exprAt)
    (hlink : ∀ x, ∀ y ∈ (g.linkOf x).mentions, f.exprAt y ≠ none)
    (hparent : ∀ x e q, g.shapeAt x = some (e, .child q) → ∃ e₀, f.shapeAt x = some (e₀, .child q))
    (hroot : ∀ x e s, g.shapeAt x = some (e, .root s) → ∃ st, g.statementAt s = some st ∧ st.root = x) :
    g.Grounded := by
  refine ⟨fun x hx => ?_, fun x e q hx => ?_, hroot, fun x y hy => ?_, fun x e o hx ho => ?_⟩
  · obtain ⟨t, ht, rfl⟩ := hf.spelled x (hexpr ▸ hx)
    exact ⟨t, ht.congr fun y _ => by rw [hexpr], rfl⟩
  · obtain ⟨e₀, hx₀⟩ := hparent x e q hx
    rw [hexpr]
    exact hf.parent x e₀ q hx₀
  · rw [hexpr]
    exact hlink x y hy
  · rw [hexpr] at hx ⊢
    exact hf.origin x e o hx ho

/-- Nodes get other links. -/
theorem relinks (hf : f.Grounded) (hfg : f.Relinks g) (hlink : g.LinkClosed) : g.Grounded := by
  refine hf.congr hfg.exprAt_eq (fun x y hy => hfg.exprAt_eq ▸ hlink x y hy)
    (fun x e q hx => ⟨e, hfg.shape_eq ▸ hx⟩) fun x e s hx => ?_
  rw [hfg.statementAt_eq]
  exact hf.statement x e s (hfg.shape_eq ▸ hx)

/-- A copy of a tree is as good as the tree. -/
theorem copies (hf : f.Grounded) {R : NodeId → NodeId → Prop} {t t' : Term} (ht : f.Spells t)
    (hg : f.Copies g R t t') (hlink : g.LinkClosed) : g.Grounded := by
  have hretains := hg.grows.retains
  have hkept : ∀ x, f.exprAt x ≠ none → g.exprAt x ≠ none := fun x hx => by rwa [hretains.exprAt_eq hx]
  have hold : ∀ x e p, g.shapeAt x = some (e, p) → f.shapeAt x = some (e, p) ∨ x ∈ t'.preorder := by
    intro x e p hx
    obtain hold | hnew := hg.grows.made x (by simp [hx])
    · exact .inl ((hg.grows.kept x hold).symm.trans hx)
    · exact .inr hnew
  have hplace : ∀ {x e p}, x ∈ t'.preorder → g.shapeAt x = some (e, p) →
      p = .detached ∨ ∃ q e', p = .child q ∧ g.exprAt q = some e' ∧ x ∈ e'.children := by
    intro x e p hx hshape
    by_cases hid : x = t'.id
    · rw [hid, hg.stands.shape_id, Option.some.injEq, Prod.mk.injEq] at hshape
      exact .inl hshape.2.symm
    · obtain ⟨q, e', u, hwithin, hu, rfl, hstands⟩ := hg.stands.exists_parent hx hid
      rw [hstands.shape_id, Option.some.injEq, Prod.mk.injEq] at hshape
      refine .inr ⟨q, _, hshape.2.symm, (hg.stands.spells.of_within hwithin).exprAt_id, ?_⟩
      rw [Expr.children_map]
      exact List.mem_map_of_mem hu
  refine ⟨fun x hx => ?_, fun x e q hx => ?_, fun x e s hx => ?_, hlink, fun x e o hx ho => ?_⟩
  · obtain ⟨⟨e, p⟩, hshape⟩ := Option.ne_none_iff_exists'.1 (exprAt_ne_none.1 hx)
    obtain hold | hnew := hold x e p hshape
    · obtain ⟨u, hu, rfl⟩ := hf.spelled x (by simp [exprAt_eq_some hold])
      exact ⟨u, hretains.spells hu, rfl⟩
    · obtain ⟨u, hu, rfl⟩ := Term.exists_within_of_mem_preorder hnew
      exact ⟨u, hg.stands.spells.of_within hu, rfl⟩
  · obtain hold | hnew := hold x e _ hx
    · obtain ⟨e', hq, hmem⟩ := hf.parent x e q hold
      exact ⟨e', by rw [hretains.exprAt_eq (by simp [hq]), hq], hmem⟩
    · obtain heq | ⟨q', e', heq, hq, hmem⟩ := hplace hnew hx
      · cases heq
      · cases heq
        exact ⟨e', hq, hmem⟩
  · obtain hold | hnew := hold x e _ hx
    · rw [hg.grows.statementAt_eq]
      exact hf.statement x e s hold
    · obtain heq | ⟨q', e', heq, -⟩ := hplace hnew hx <;> cases heq
  · obtain ⟨p, hshape⟩ := exists_shapeAt_of_exprAt hx
    obtain hold | hnew := hold x e p hshape
    · exact hkept o (hf.origin x e o (exprAt_eq_some hold) ho)
    · obtain ⟨y, hy, hxy⟩ := hg.source x hnew
      obtain ⟨e₁, p₁, e₂, p₂, hx₁, hy₂, hhead, -⟩ := hg.mimics x y hxy
      cases hx.symm.trans (exprAt_eq_some hx₁)
      have hy' := exprAt_eq_some hy₂
      rw [hretains.exprAt_eq (ht.exprAt_ne_none hy)] at hy'
      exact hkept o (hf.origin y e₂ o hy' ((Expr.origin?_eq_of_head_eq hhead).symm.trans ho))

end Grounded

end Flow

namespace Edit

open Flow

variable {f : Flow} {x old new : NodeId} {e e' : Expr NodeId} {p : Place}

theorem alloc_grounded (hf : f.Grounded) (hchildren : ∀ c ∈ e.children, f.exprAt c ≠ none)
    (horigin : ∀ o, e.origin? = some o → f.exprAt o ≠ none) :
    Gives (alloc e) f fun _ g => g.Grounded := by
  refine (alloc_gives fun c hc => exprAt_ne_none.1 (hchildren c hc)).mono fun x g ⟨hx, hg⟩ => ?_
  have hnone : f.exprAt x = none := by
    rw [exprAt, hx, shapeAt_nextNode]
    rfl
  refine hf.update x e ?_ (fun c hc => ?_) horigin hg.link_eq (fun y ey q hy => ?_) fun y ey s hy => ?_
  · funext y
    rw [exprAt, hg.shape_eq]
    by_cases hyx : y = x
    · simp [hyx]
    · rw [Function.update_of_ne hyx, Function.update_of_ne hyx, map_fst_placed, exprAt]
  · obtain ⟨t, ht, hid⟩ := hf.spelled c (hchildren c hc)
    exact ⟨t, ht, hid, fun hmem => ht.exprAt_ne_none hmem hnone⟩
  · have hyx : y ≠ x := by
      rintro rfl
      rw [hg.shape_eq, Function.update_self] at hy
      cases hy
    rw [hg.shape_eq, Function.update_of_ne hyx] at hy
    obtain ⟨hmem, heq⟩ | ⟨-, hold⟩ := placed_eq_some hy
    · exact .inl ⟨Place.child.inj heq, hmem⟩
    · refine .inr ⟨?_, ey, hold⟩
      rintro rfl
      obtain ⟨e', hq, -⟩ := hf.parent y ey q hold
      simp [hnone] at hq
  · have hyx : y ≠ x := by
      rintro rfl
      rw [hg.shape_eq, Function.update_self] at hy
      cases hy
    rw [hg.shape_eq, Function.update_of_ne hyx] at hy
    obtain ⟨-, heq⟩ | ⟨-, hold⟩ := placed_eq_some hy
    · cases heq
    · rw [hg.statementAt_eq]
      exact hf.statement y ey s hold

/-- A node can take over nodes that it does not occur below. -/
theorem replace_grounded (hf : f.Grounded) (hx : f.shapeAt x = some (e, p))
    (hchildren : ∀ c ∈ e'.children, f.SpelledWithout c x)
    (horigin : ∀ o, e'.origin? = some o → f.exprAt o ≠ none) :
    Gives (replace x e') f fun _ g => g.Grounded := by
  have hexpr := exprAt_eq_some hx
  have hne : ∀ {c}, f.SpelledWithout c x → c ≠ x ∧ f.shapeAt c ≠ none := by
    rintro _ ⟨t, ht, rfl, hmem⟩
    refine ⟨?_, exprAt_ne_none.1 (ht.exprAt_ne_none t.id_mem_preorder)⟩
    rintro rfl
    exact hmem t.id_mem_preorder
  have hself : ∀ {e₁ : Expr NodeId}, (∀ c ∈ e₁.children, f.SpelledWithout c x) → x ∉ e₁.children :=
    fun h hmem => (hne (h x hmem)).1 rfl
  have hold := fun c hc => hf.spelledWithout (c := c) hexpr hc
  refine (replace_gives hx (hself hold) (hself hchildren) (fun c hc => (hne (hold c hc)).2)
    fun c hc => (hne (hchildren c hc)).2).mono fun _ g hg => ?_
  have hplace : ∀ {y ey r}, g.shapeAt y = some (ey, r) → y = x ∧ r = p ∨ y ∈ e'.children ∧ r = .child x ∨
      r = .detached ∨ y ∉ e.children ∧ f.shapeAt y = some (ey, r) := by
    intro y ey r hy
    by_cases hyx : y = x
    · rw [hg.shape_eq, hyx, Function.update_self] at hy
      cases hy
      exact .inl ⟨hyx, rfl⟩
    · rw [hg.shape_eq, Function.update_of_ne hyx] at hy
      obtain hnew | ⟨-, hy⟩ := placed_eq_some hy
      · exact .inr (.inl hnew)
      · obtain ⟨-, hdetached⟩ | hkept := placed_eq_some hy
        · exact .inr (.inr (.inl hdetached))
        · exact .inr (.inr (.inr hkept))
  refine hf.update x e' ?_ hchildren horigin hg.link_eq (fun y ey q hy => ?_) fun y ey s hy => ?_
  · funext y
    rw [exprAt, hg.shape_eq]
    by_cases hyx : y = x
    · simp [hyx]
    · rw [Function.update_of_ne hyx, Function.update_of_ne hyx, map_fst_placed, map_fst_placed, exprAt]
  · obtain ⟨rfl, rfl⟩ | ⟨hmem, heq⟩ | heq | ⟨hmem, hy⟩ := hplace hy
    · refine .inr ⟨?_, e, hx⟩
      rintro rfl
      obtain ⟨e₁, he₁, hmem⟩ := hf.parent q e q hx
      cases hexpr.symm.trans he₁
      exact hself hold hmem
    · exact .inl ⟨Place.child.inj heq, hmem⟩
    · cases heq
    · refine .inr ⟨?_, ey, hy⟩
      rintro rfl
      obtain ⟨e₁, he₁, hmem'⟩ := hf.parent y ey q hy
      cases hexpr.symm.trans he₁
      exact hmem hmem'
  · rw [hg.statementAt_eq]
    obtain ⟨rfl, rfl⟩ | ⟨hmem, heq⟩ | heq | ⟨hmem, hy⟩ := hplace hy
    · exact hf.statement y e s hx
    · cases heq
    · cases heq
    · exact hf.statement y ey s hy

/-- Where the nodes are after one was put in the place of another one. -/
private theorem moved_cases {shape : NodeId → Option (Expr NodeId × Place)} {y : NodeId} {ey : Expr NodeId}
    {q r : Place} (h : Function.update (Function.update shape new (some (e', q))) old (some (e, .detached)) y =
      some (ey, r)) : r = .detached ∨ y = new ∧ r = q ∨ y ≠ old ∧ y ≠ new ∧ shape y = some (ey, r) := by
  by_cases hold : y = old
  · rw [hold, Function.update_self] at h
    exact .inl (Prod.mk.inj (Option.some.inj h)).2.symm
  · rw [Function.update_of_ne hold] at h
    by_cases hnew : y = new
    · rw [hnew, Function.update_self] at h
      exact .inr (.inl ⟨hnew, (Prod.mk.inj (Option.some.inj h)).2.symm⟩)
    · rw [Function.update_of_ne hnew] at h
      exact .inr (.inr ⟨hold, hnew, h⟩)

private theorem exprAt_moved {g : Flow} {shape : NodeId → Option (Expr NodeId × Place)} {q : Place}
    (hg : g.shapeAt = Function.update (Function.update shape new (some (e', q))) old (some (e, .detached)))
    (hold : (shape old).map Prod.fst = some e) (hnew : (shape new).map Prod.fst = some e') (y : NodeId) :
    g.exprAt y = (shape y).map Prod.fst := by
  rw [exprAt, hg]
  by_cases hyold : y = old
  · rw [hyold, Function.update_self, hold]
    rfl
  · rw [Function.update_of_ne hyold]
    by_cases hynew : y = new
    · rw [hynew, Function.update_self, hnew]
      rfl
    · rw [Function.update_of_ne hynew]

private theorem replaceInParent_child_grounded {q : NodeId} (hf : f.Grounded)
    (hold : f.shapeAt old = some (e, .child q)) (hnew : f.SpelledWithout new q) (hne : old ≠ new) :
    Gives (replaceInParent old new) f fun _ g => g.Grounded := by
  obtain ⟨eq, heq, hmem⟩ := hf.parent old e q hold
  obtain ⟨pq, hq⟩ := exists_shapeAt_of_exprAt heq
  obtain ⟨u, hu, rfl, hqu⟩ := id hnew
  obtain ⟨pn, hshape⟩ := exists_shapeAt_of_exprAt hu.exprAt_id
  have hqnew : q ≠ u.id := by
    rintro rfl
    exact hqu u.id_mem_preorder
  have hqold : q ≠ old := by
    rintro rfl
    obtain ⟨t, -, hid, hmem⟩ := hf.spelledWithout heq hmem
    exact hmem (hid ▸ t.id_mem_preorder)
  refine (replaceInParent_child_gives hold hq hshape hqold hqnew hne).mono fun _ g hg => ?_
  -- apart from the two nodes themselves, only the node above them changes, which stays where it is
  have hplace : ∀ {y ey r}, g.shapeAt y = some (ey, r) → r = .detached ∨ y = u.id ∧ r = .child q ∨
      y ≠ old ∧ ∃ e₀, f.shapeAt y = some (e₀, r) := by
    intro y ey r hy
    rw [hg.shape_eq] at hy
    obtain hdetached | hmoved | ⟨hyold, -, hy⟩ := moved_cases hy
    · exact .inl hdetached
    · exact .inr (.inl hmoved)
    · by_cases hyq : y = q
      · rw [hyq, Function.update_self] at hy
        exact .inr (.inr ⟨hyold, eq, hyq ▸ (Prod.mk.inj (Option.some.inj hy)).2 ▸ hq⟩)
      · exact .inr (.inr ⟨hyold, ey, by rwa [Function.update_of_ne hyq] at hy⟩)
  refine hf.update q (eq.map fun c => if c = old then u.id else c) ?_ (fun c hc => ?_)
    (fun o ho => ?_) hg.link_eq (fun y ey r hy => ?_) fun y ey s hy => ?_
  · funext y
    rw [exprAt_moved hg.shape_eq (by rw [Function.update_of_ne hqold.symm, hold]; rfl)
      (by rw [Function.update_of_ne hqnew.symm, hshape]; rfl)]
    by_cases hyq : y = q
    · simp [hyq]
    · rw [Function.update_of_ne hyq, Function.update_of_ne hyq, exprAt]
  · rw [Expr.children_map] at hc
    obtain ⟨d, hd, rfl⟩ := List.mem_map.1 hc
    split
    · exact hnew
    · exact hf.spelledWithout heq hd
  · exact hf.origin q eq o heq ((Expr.origin?_eq_of_head_eq (by simp)).trans ho)
  · obtain hdetached | ⟨rfl, hchild⟩ | ⟨hyold, e₀, hy⟩ := hplace hy
    · cases hdetached
    · refine .inl ⟨Place.child.inj hchild, ?_⟩
      rw [Expr.children_map]
      exact List.mem_map.2 ⟨old, hmem, if_pos rfl⟩
    · by_cases hr : r = q
      · obtain ⟨e₁, he₁, hmem⟩ := hf.parent y e₀ r hy
        obtain rfl := Option.some.inj ((hr ▸ heq).symm.trans he₁)
        rw [Expr.children_map]
        exact .inl ⟨hr, List.mem_map.2 ⟨y, hmem, if_neg hyold⟩⟩
      · exact .inr ⟨hr, e₀, hy⟩
  · rw [hg.statementAt_eq]
    obtain hdetached | ⟨rfl, hchild⟩ | ⟨hyold, e₀, hy⟩ := hplace hy
    · cases hdetached
    · cases hchild
    · exact hf.statement y e₀ s hy

private theorem replaceInParent_root_grounded {s : StatementId} (hf : f.Grounded)
    (hold : f.shapeAt old = some (e, .root s)) (hnew : f.shapeAt new = some (e', p)) (hne : old ≠ new) :
    Gives (replaceInParent old new) f fun _ g => g.Grounded := by
  obtain ⟨st, hst, hroot⟩ := hf.statement old e s hold
  refine (replaceInParent_root_gives hold hst hnew hne).mono ?_
  rintro - g ⟨hshape, hlink, -, -, hstatement⟩
  refine hf.congr ?_ (hlink ▸ hf.link) (fun y ey q hy => ?_) fun y ey s' hy => ?_
  · funext y
    rw [exprAt_moved hshape (by rw [hold]; rfl) (by rw [hnew]; rfl), exprAt]
  · rw [hshape] at hy
    obtain hdetached | ⟨-, hroot⟩ | ⟨-, -, hy⟩ := moved_cases hy
    · cases hdetached
    · cases hroot
    · exact ⟨ey, hy⟩
  · rw [hshape] at hy
    rw [hstatement]
    obtain hdetached | ⟨rfl, hs⟩ | ⟨hyold, -, hy⟩ := moved_cases hy
    · cases hdetached
    · exact ⟨{ st with root := y }, by rw [Place.root.inj hs, Function.update_self], rfl⟩
    · obtain ⟨st', hst', rfl⟩ := hf.statement y ey s' hy
      refine ⟨st', ?_, rfl⟩
      rw [Function.update_of_ne, hst']
      rintro rfl
      obtain rfl := Option.some.inj (hst.symm.trans hst')
      exact hyold hroot

private theorem replaceInParent_detached_grounded (hf : f.Grounded) (hold : f.shapeAt old = some (e, .detached))
    (hnew : f.shapeAt new = some (e', p)) (hne : old ≠ new) :
    Gives (replaceInParent old new) f fun _ g => g.Grounded := by
  refine (replaceInParent_detached_gives hold hnew hne).mono fun _ g hg => ?_
  refine hf.congr ?_ (hg.link_eq ▸ hf.link) (fun y ey q hy => ?_) fun y ey s hy => ?_
  · funext y
    rw [exprAt_moved hg.shape_eq (by rw [hold]; rfl) (by rw [hnew]; rfl), exprAt]
  · rw [hg.shape_eq] at hy
    obtain hdetached | ⟨-, hdetached⟩ | ⟨-, -, hy⟩ := moved_cases hy
    · cases hdetached
    · cases hdetached
    · exact ⟨ey, hy⟩
  · rw [hg.shape_eq] at hy
    rw [hg.statementAt_eq]
    obtain hdetached | ⟨-, hdetached⟩ | ⟨-, -, hy⟩ := moved_cases hy
    · cases hdetached
    · cases hdetached
    · exact hf.statement y ey s hy

/-- A node can be put in the place of a node that it is not above. -/
theorem replaceInParent_grounded (hf : f.Grounded) (hold : f.shapeAt old = some (e, p))
    (hnew : f.Spelled new) (hne : old ≠ new) (habove : ∀ q, p = .child q → f.SpelledWithout new q) :
    Gives (replaceInParent old new) f fun _ g => g.Grounded := by
  obtain ⟨u, hu, rfl⟩ := id hnew
  obtain ⟨pn, hshape⟩ := exists_shapeAt_of_exprAt hu.exprAt_id
  cases p with
  | detached => exact replaceInParent_detached_grounded hf hold hshape hne
  | child q => exact replaceInParent_child_grounded hf hold (habove q rfl) hne
  | root s => exact replaceInParent_root_grounded hf hold hshape hne

end Edit

end FrameRecovery
