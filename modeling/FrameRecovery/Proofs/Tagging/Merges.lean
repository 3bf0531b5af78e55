import FrameRecovery.Proofs.Flow.Inserting
import FrameRecovery.Proofs.Tagging.Marks

namespace FrameRecovery

namespace Flow

variable {f g h : Flow} {V : Locations} {kind : LocationKind} {ts us : List Term} {x : NodeId}
  {l : Location}

/-- A flow `g` has no assignments and no definitions that a flow `f` has not. -/
structure Inert (f g : Flow) : Prop where
  assign : f.NoNewAssign g
  definition : ∀ y us, g.linkOf y = .definition us → ∃ us', f.linkOf y = .definition us'

namespace Inert

theorem refl (f : Flow) : f.Inert f :=
  ⟨fun _ _ y h => ⟨y, h⟩, fun _ us h => ⟨us, h⟩⟩

theorem trans (hfg : f.Inert g) (hgh : g.Inert h) : f.Inert h := by
  refine ⟨hfg.assign.trans hgh.assign, fun y us hy => ?_⟩
  obtain ⟨us', hy⟩ := hgh.definition y us hy
  exact hfg.definition y us' hy

/-- One more node that is no assignment. -/
theorem of_made {e : Expr NodeId} (hx : h.exprAt x = some e) (he : ∀ d y, e ≠ .assign d y)
    (hmade : ∀ r, h.exprAt r ≠ none → g.exprAt r = h.exprAt r ∨ r = x) (hlink : h.linkOf = g.linkOf) :
    g.Inert h := by
  refine ⟨fun r d y hr => ?_, fun y us hy => ⟨us, hlink ▸ hy⟩⟩
  rcases hmade r (by simp [hr]) with hold | rfl
  · exact ⟨y, hold.trans hr⟩
  · rw [hx] at hr
    exact absurd (Option.some.inj hr) (he d y)

end Inert

theorem Tags.definition_of_ne (h : f.Tags kind x g) {y : NodeId} {us : List NodeId} (hyx : y ≠ x)
    (hy : g.linkOf y = .definition us) : ∃ us', f.linkOf y = .definition us' := by
  rcases h.extends_ne y hyx with heq | ⟨us', vs, hus', -⟩
  · exact ⟨us, heq ▸ hy⟩
  · exact ⟨us', hus'⟩

/-- A read that is tagged is no new definition. -/
theorem Tags.inert (h : f.Tags kind x g) {e : Expr NodeId} (hx : f.exprAt x = some e)
    (he : e.isAssignable = true) {D : Option NodeId} (hread : g.linkOf x = .use D) : f.Inert g := by
  refine ⟨h.noNewAssign hx he, fun y us hy => h.definition_of_ne ?_ hy⟩
  rintro rfl
  rw [hread] at hy
  cases hy

/-- What a flow `h` reads and a flow `g` does not is read by one of the nodes `xs`, or was read
    by one of the nodes `ys` in a flow `f`. -/
def Echoes (f : Flow) (ys xs : List NodeId) (g h : Flow) : Prop :=
  ∀ z d, h.linkOf z = .use (some d) → g.linkOf z = .use (some d) ∨ z ∈ xs ∨
    ∃ y ∈ ys, f.linkOf y = .use (some d)

namespace Echoes

variable {k : Flow} {ys xs xs' : List NodeId}

theorem of_linkOf_eq (h : k.linkOf = g.linkOf) : Echoes f ys xs g k :=
  fun _ _ hz => .inl (h ▸ hz)

theorem mono (h : Echoes f ys xs g k) (hxs : xs ⊆ xs') : Echoes f ys xs' g k :=
  fun z d hz => (h z d hz).imp_right (Or.imp_left (@hxs z))

theorem trans (hgh : Echoes f ys xs g h) (hhk : Echoes f ys xs h k) : Echoes f ys xs g k :=
  fun z d hz => (hhk z d hz).elim (hgh z d) .inr

/-- Tagging a node that is no definition. -/
theorem of_tags (hgh : g.Tags kind x h) : Echoes f ys [x] g h := by
  intro z d hz
  by_cases hzx : z = x
  · exact .inr (.inl (by simp [hzx]))
  · exact .inl ((hgh.extends_ne z hzx).use_iff.1 hz)

end Echoes

/-- What a flow `g` has more than a flow `f` are trees that no statement holds yet, and links
    that go well with those of `f`. -/
structure Drafts (V : Locations) (f g : Flow) (ts : List Term) : Prop where
  pending : f.Pending g ts
  records : f.Records g
  wired : g.Wired V

namespace Drafts

theorem refl (hf : f.Wired V) : Drafts V f f [] :=
  ⟨.nil f, fun _ _ => .refl _, hf⟩

theorem marks (h : Drafts V f g ts) : f.Marks kind g :=
  .of_retains h.pending.grows.retains h.records

theorem perm (h : Drafts V f g ts) (hperm : ts.Perm us) : Drafts V f g us :=
  ⟨h.pending.perm hperm, h.records, h.wired⟩

theorem snoc {t : Term} (hfg : Drafts V f g ts) (hgh : Drafts V g h [t]) :
    Drafts V f h (ts ++ [t]) := by
  refine ⟨hfg.pending.snoc (by simpa using hgh.pending.grows) (hgh.pending.stands t (by simp)),
    fun y hy => ?_, hgh.wired⟩
  exact (hfg.records y hy).trans (hgh.records y (hfg.pending.grows.ne_none hy))

/-- A node over the trees that are pending. -/
theorem alloc_gives {e : Expr Term} (hts : Drafts V f g e.children) (hadmits : V.Admits e)
    (hassign : ∀ d y, e = .assign d y →
      (∃ e', g.exprAt d.id = some e' ∧ e'.isAssignable = true) ∧ ∀ z, g.linkOf d.id ≠ .use z) :
    Gives (Edit.alloc (e.map Term.id)) g fun x h => Drafts V f h [.node x e] ∧ g.Marks kind h ∧
      g.exprAt x = none ∧ (∀ r, h.exprAt r ≠ none → g.exprAt r = h.exprAt r ∨ r = x) ∧
      h.linkOf = g.linkOf := by
  refine hts.pending.alloc_gives.mono ?_
  rintro x h ⟨hpending, hretains, hx, hlink⟩
  have hnone : g.exprAt x = none := by simp [exprAt, hx, shapeAt_nextNode]
  have hmade : ∀ z, h.exprAt z ≠ none → g.exprAt z ≠ none ∨ z = x := by
    intro z hz
    rcases hpending.grows.made z (exprAt_ne_none.1 hz) with hold | hnew
    · exact .inl (exprAt_ne_none.2 (hts.pending.grows.ne_none hold))
    · simp only [List.flatMap_singleton, Term.preorder_node, List.mem_cons, List.mem_flatMap] at hnew
      rcases hnew with rfl | ⟨c, hc, hz⟩
      · exact .inr rfl
      · exact .inl (exprAt_ne_none.2 ((hts.pending.stands c hc).shapeAt_ne_none hz))
  have hself : h.exprAt x = some (e.map Term.id) :=
    exprAt_eq_some (hpending.stands (.node x e) (by simp)).shape_id
  have hchild : ∀ c ∈ e.children, g.exprAt c.id ≠ none := fun c hc =>
    exprAt_ne_none.2 ((hts.pending.stands c hc).shapeAt_ne_none c.id_mem_preorder)
  have hkept : ∀ {z}, g.exprAt z ≠ none → h.exprAt z = g.exprAt z := fun {z} hz => hretains.exprAt_eq hz
  have hwired : h.Wired V := by
    refine hts.wired.of_made hretains hlink hself hmade hnone ?_ ?_ ?_
    · intro c hc
      rw [Expr.children_map] at hc
      obtain ⟨t, ht, rfl⟩ := List.mem_map.1 hc
      rw [hkept (hchild t ht)]
      exact hchild t ht
    · exact (Locations.admits_map _ e).2 hadmits
    · intro d y heq
      cases e <;> simp only [Expr.map, reduceCtorEq, Expr.assign.injEq] at heq
      next d' y' =>
      obtain ⟨rfl, rfl⟩ := heq
      obtain ⟨⟨e', he', hassignable⟩, hread⟩ := hassign d' y' rfl
      exact ⟨⟨e', by rw [hkept (by simp [he']), he'], hassignable⟩, hlink ▸ hread⟩
  refine ⟨⟨hpending, fun y hy => hlink ▸ hts.records y hy, hwired⟩,
    .of_retains hretains fun z _ => hlink ▸ .refl _, hnone, fun r hr => ?_, hlink⟩
  rcases hmade r hr with h | h
  · exact .inl (hkept h).symm
  · exact .inr h

/-- Tagging an operand of a pending tree. -/
theorem tags (hts : Drafts V f g ts) (hx : f.exprAt x = none) (hgh : g.Tags kind x h)
    (hh : h.Wired V) : ∃ us, Drafts V f h us ∧ us.map Term.id = ts.map Term.id ∧
      us.map kind.strip = ts.map kind.strip := by
  have hold : ∀ z, z ≠ x → h.shapeAt z = g.shapeAt z := by
    intro z hz
    have hexpr := hgh.exprAt_ne z hz
    have hplace := hgh.place_eq z
    unfold exprAt at hexpr
    rcases hg : g.shapeAt z with _ | ⟨e, p⟩ <;> rcases hh : h.shapeAt z with _ | ⟨e', p'⟩ <;>
      simp_all
  have hne : ∀ {z}, f.shapeAt z ≠ none → z ≠ x := by
    rintro z hz rfl
    exact hz (by simpa [exprAt] using hx)
  have hsimilar : ∀ y e q, g.shapeAt y = some (e, q) →
      ∃ e', h.shapeAt y = some (e', q) ∧ e'.children = e.children := by
    intro y e q hy
    obtain ⟨e', he', hchildren, -⟩ := hgh.marks.exists_exprAt (exprAt_eq_some hy)
    obtain ⟨q', hq'⟩ := exists_shapeAt_of_exprAt he'
    have hplace := hgh.place_eq y
    rw [hy, hq'] at hplace
    obtain rfl : q' = q := by simpa using hplace
    exact ⟨e', hq', hchildren⟩
  have himage : ∀ t ∈ ts, ∃ t', h.Stands .detached t' ∧ t'.id = t.id ∧ t'.preorder = t.preorder :=
    fun t ht => (hts.pending.stands t ht).exists_similar fun y _ => hsimilar y
  choose! image hstands hid hpreorder using himage
  have hids : (ts.map image).map Term.id = ts.map Term.id := by
    rw [List.map_map]
    exact List.map_congr_left hid
  have hnodes : (ts.map image).flatMap Term.preorder = ts.flatMap Term.preorder := by
    rw [List.flatMap_map]
    exact List.flatMap_congr hpreorder
  refine ⟨ts.map image, ⟨⟨⟨fun y hy => ?_, ?_, fun y hy => ?_, ?_, ?_, ?_⟩, fun u hu => ?_, ?_⟩,
    fun y hy => ?_, hh⟩, hids, ?_⟩
  · rw [hold y (hne hy), hts.pending.grows.kept y hy]
  · rw [hnodes]
    exact hts.pending.grows.fresh
  · rw [hnodes]
    refine hts.pending.grows.made y fun hnone => hy ?_
    have hplace := hgh.place_eq y
    rw [hnone] at hplace
    simpa using hplace
  · exact hgh.entry_eq.trans hts.pending.grows.entry_eq
  · exact hgh.statements_eq.trans hts.pending.grows.statements_eq
  · exact hgh.blocks_eq.trans hts.pending.grows.blocks_eq
  · obtain ⟨t, ht, rfl⟩ := List.mem_map.1 hu
    exact hstands t ht
  · rw [hids]
    exact hts.pending.distinct
  · exact (hts.records y hy).trans (hgh.extends_ne y (hne hy))
  · rw [List.map_map]
    refine List.map_congr_left fun t ht => ?_
    exact hgh.marks.strip_eq (hts.pending.stands t ht) (hstands t ht) (hid t ht)

section Inserts

variable {block : Address} {position : Nat} {s : StatementId} {t : Term}

/-- A drafted tree that becomes a statement leaves the flow sound. -/
theorem sound_of_inserts (hfg : Drafts V f g [t]) (hf : f.Sound V) (hgh : f.Inserts g h block position s t) :
    h.Sound V := by
  refine (hfg.wired.congr hgh.exprAt_eq hgh.linkOf_eq).sound hgh.forest fun x hx => ?_
  rw [hgh.linkOf_eq] at hx
  rcases hfg.pending.grows_of_singleton.made x (hfg.wired.typed.exists_node hx) with hold | hnew
  · obtain ⟨s₀, u, ⟨st, hst, hremoved⟩, hu, hxu⟩ := hf.held x fun hunlinked =>
      hx ((hfg.records x hold).unlinked_iff.2 hunlinked)
    exact ⟨s₀, u, ⟨st, hgh.statement s₀ st hst, hremoved⟩, hgh.holds_old s₀ u hu, hxu⟩
  · exact ⟨s, t, hgh.live, hgh.holds, hnew⟩

theorem kept_of_inserts (hfg : Drafts V f g [t]) (hgh : f.Inserts g h block position s t) {e : Expr NodeId}
    (hx : f.exprAt x = some e) : h.exprAt x = some e ∧ (f.linkOf x).Extends (h.linkOf x) := by
  rw [hgh.exprAt_eq, hgh.linkOf_eq, hfg.pending.grows.retains.exprAt_eq (by simp [hx])]
  exact ⟨hx, hfg.records x (exprAt_ne_none.1 (by simp [hx]))⟩

theorem later_of_inserts (hfg : Drafts V f g [t]) (hgh : f.Inserts g h block position s t) : f.Later kind h := by
  refine ⟨hfg.marks.trans (.of_eq hgh.exprAt_eq hgh.linkOf_eq), fun y e p hy => ?_, fun r d y hr hr' => ?_,
    hgh.statement, hgh.graph⟩
  · exact ⟨e, by rw [hgh.kept y (by simp [hy]), hy]⟩
  · exact hfg.pending.exprAt_child hr (hgh.exprAt_eq ▸ hr') (by simp [Expr.children])

end Inserts

end Drafts

end Flow

namespace Tagging

open Flow

variable {f g : Flow} {V : Locations} {kind : LocationKind} {s : StatementId} {S : Term} {like : NodeId}
  {E : Expr Term} {l : Location} {ts : List Term}

private theorem not_assigned {h : Flow} {x : NodeId} {e : Expr NodeId} (hg : g.Wired V)
    (hnone : g.exprAt x = none) (hx : h.exprAt x = some e) (he : e.isAssignable = true)
    (hmade : ∀ r, h.exprAt r ≠ none → g.exprAt r = h.exprAt r ∨ r = x) (r y : NodeId) :
    h.exprAt r ≠ some (.assign x y) := by
  intro hr
  rcases hmade r (by simp [hr]) with hold | rfl
  · exact hg.typed.closed r _ (hold.trans hr) x (by simp [Expr.children]) hnone
  · rw [hx] at hr
    cases hr
    cases he

/-- A new untagged operand for the location of the operand `like`, and a copy of its address. -/
theorem freshLike_gives (hg : g.Wired V) (hS : g.Holds s S) (hwithin : Term.Within (.node like E) S)
    (hfits : kind.Fits l none (E.map Term.id))
    (hplain : ∀ x ∈ (Term.node like E).preorder, ∀ d y, g.exprAt x ≠ some (.assign d y)) :
    Gives (freshLike like) g fun x h => ∃ t, t.id = x ∧ t.form = (Term.node like E).form ∧
      Drafts V g h [t] ∧ g.exprAt x = none ∧ (∃ e, h.exprAt x = some e ∧ kind.Fits l none e) ∧
      (∀ r y, h.exprAt r ≠ some (.assign x y)) ∧ g.Inert h ∧ Echoes g S.preorder [] g h := by
  obtain ⟨q, hstands⟩ := hS.stands.exists_of_within hwithin
  unfold freshLike
  refine .of_bind (.of_view (expr_eq hstands.shape_id) ?_)
  cases kind with
  | registers =>
    obtain rfl : E = .register l none := by
      cases E <;> simp_all [LocationKind.Fits, Expr.map]
    have hadmits := hg.typed.location _ _ (exprAt_eq_some hstands.shape_id)
    refine (@Drafts.alloc_gives _ _ _ .registers (.register l none) (Drafts.refl hg) hadmits
      (by simp)).mono ?_
    rintro x h ⟨hdrafts, -, hnone, hmade, hlink⟩
    have hx : h.exprAt x = some (.register l none) :=
      exprAt_eq_some (hdrafts.pending.stands (.node x (.register l none)) (by simp)).shape_id
    exact ⟨_, rfl, by simp [Expr.map], hdrafts, hnone, ⟨_, hx, rfl⟩, not_assigned hg hnone hx rfl hmade,
      .of_made hx (by simp) hmade hlink, .of_linkOf_eq hlink⟩
  | derefs =>
    obtain ⟨A, rfl⟩ : ∃ A, E = .deref A none := by
      obtain ⟨a, ha⟩ := hfits
      cases E <;> simp_all [Expr.map]
    have hA : Term.Within A S := (Term.Within.of_mem_children (by simp [Expr.children])).trans hwithin
    obtain ⟨qA, hAstands⟩ := hS.stands.exists_of_within hA
    refine .of_bind ((Edit.copy_gives hg.tied hAstands.spells).mono ?_)
    rintro _ g₁ ⟨t, R, rfl, hcopies, htied, hrecords, hread⟩
    have hwired := hg.copies hcopies hAstands hrecords htied hread
    have hdrafts₁ : Drafts V g g₁ [t] := ⟨hcopies.pending, hrecords, hwired⟩
    have hadmits := hg.typed.location _ _ (exprAt_eq_some hstands.shape_id)
    refine (@Drafts.alloc_gives _ _ _ .derefs (.deref t none) hdrafts₁ hadmits (by simp)).mono ?_
    rintro x h ⟨hdrafts, -, hnone, hmade, hlink⟩
    have hx : h.exprAt x = some (.deref t.id none) :=
      exprAt_eq_some (hdrafts.pending.stands (.node x (.deref t none)) (by simp)).shape_id
    have hcopied : g.Inert g₁ := by
      refine ⟨fun r d y hr => ?_, fun y us hy => ?_⟩
      on_goal 2 =>
        have hold := hcopies.old_of_definition hAstands hrecords hread htied hy
        rcases hrecords y hold with heq | ⟨us', vs, hus', -⟩
        · exact ⟨us, heq ▸ hy⟩
        · exact ⟨us', hus'⟩
      rcases hcopies.grows.made r (exprAt_ne_none.1 (by simp [hr])) with hold | hnew
      · exact ⟨y, by rw [← hr, hcopies.grows.retains.exprAt_eq (exprAt_ne_none.2 hold)]⟩
      · obtain ⟨x₀, e, e₀, hx₀, he, he₀, hhead, -⟩ :=
          hcopies.exists_source hAstands hrecords hread hnew
        rw [hr] at he
        cases he
        obtain ⟨d₀, y₀, rfl⟩ := Expr.eq_assign_of_head_eq hhead.symm
        refine absurd he₀ (hplain x₀ ?_ d₀ y₀)
        rw [Term.preorder_node]
        exact List.mem_cons_of_mem _ (List.mem_flatMap.2 ⟨A, by simp [Expr.children], hx₀⟩)
    refine ⟨_, rfl, ?_, hdrafts, ?_, ⟨_, hx, t.id, rfl⟩, not_assigned hwired hnone hx rfl hmade,
      hcopied.trans (.of_made hx (by simp) hmade hlink), fun z d hz => ?_⟩
    · simp [Expr.map, hcopies.form_eq hAstands]
    · by_contra hne
      rw [← hcopies.grows.retains.exprAt_eq hne] at hne
      exact hne hnone
    · rw [hlink] at hz
      rcases hcopies.grows.made z (htied.exists_node z (by simp [hz])) with hold | hnew
      · exact .inl ((hrecords z hold).use_iff.1 hz)
      · obtain ⟨y, -, -, hy, -, -, -, hread⟩ := hcopies.exists_source hAstands hrecords hread hnew
        exact .inr (.inr ⟨y, hA.preorder_subset hy, Link.eq_use_of_read (hread ▸ hz)⟩)

section Like

variable (hS : f.Holds s S) (hwithin : Term.Within (.node like E) S)
  (hfits : kind.Fits l none (E.map Term.id))
  (hplain : ∀ x ∈ (Term.node like E).preorder, ∀ d y, f.exprAt x ≠ some (.assign d y))
include hS hwithin hfits hplain

private theorem freshLike_gives_of_drafts (hts : Drafts V f g ts) :
    Gives (freshLike like) g fun x h => ∃ t, t.id = x ∧ t.form = (Term.node like E).form ∧
      Drafts V g h [t] ∧ g.exprAt x = none ∧ (∃ e, h.exprAt x = some e ∧ kind.Fits l none e) ∧
      (∀ r y, h.exprAt r ≠ some (.assign x y)) ∧ g.Inert h ∧ Echoes f S.preorder [] g h := by
  have hfresh : Gives (freshLike like) g _ :=
    freshLike_gives hts.wired (hS.grows hts.pending.grows) hwithin hfits fun x hx d y => by
      have hne := exprAt_ne_none.2 (hS.stands.shapeAt_ne_none (hwithin.preorder_subset hx))
      rw [hts.pending.grows.retains.exprAt_eq hne]
      exact hplain x hx d y
  refine hfresh.mono ?_
  rintro x h ⟨t, hid, hform, hdrafts, hnone, hfits, hnot, hinert, hechoes⟩
  refine ⟨t, hid, hform, hdrafts, hnone, hfits, hnot, hinert, fun z d hz => ?_⟩
  refine (hechoes z d hz).imp_right (Or.imp_right ?_)
  rintro ⟨y, hy, hlink⟩
  exact ⟨y, hy, (hts.records y (hS.stands.shapeAt_ne_none hy)).use_iff.1 hlink⟩

/-- A new operand of a merge reads the point it stands for. -/
theorem thetaInput_gives {p : Point} (hV : kind.Permits V) (hts : Drafts V f g ts)
    (hp : ∀ d, p = .definition d → ∃ v, g.Defines kind l d v) :
    Gives (thetaInput like p) g fun x h => ∃ us, us.map Term.id = ts.map Term.id ++ [x] ∧
      Drafts V f h us ∧ g.Marks kind h ∧ h.Reads kind l x (definitionAt p) ∧ g.Inert h ∧
      Echoes f S.preorder [x] g h := by
  unfold thetaInput
  refine .of_bind ((freshLike_gives_of_drafts hS hwithin hfits hplain hts).mono ?_)
  rintro x g₁ ⟨t, rfl, -, ht, hnone, ⟨e, he, hfits₁⟩, hnot, hinert, hechoes⟩
  have hdrafts := hts.snoc ht
  have hpoint : ∀ d, definitionAt p = some d → ∃ v, g₁.Defines kind l d v := by
    intro d hd
    cases p <;> simp only [definitionAt, reduceCtorEq, Option.some.injEq] at hd
    obtain ⟨v, hv⟩ := hp d (hd ▸ rfl)
    exact ⟨v, hv.marks ht.marks⟩
  refine .of_bind ((markRead_gives hV ht.wired he hfits₁ hpoint hnot).mono ?_)
  rintro - h ⟨hwired, htags, hreads⟩
  have hfresh : f.exprAt t.id = none := by
    by_contra hne
    rw [← hts.pending.grows.retains.exprAt_eq hne] at hne
    exact hne hnone
  obtain ⟨us, hus, hids, -⟩ := hdrafts.tags hfresh htags hwired
  obtain ⟨-, -, hlink, -⟩ := id hreads
  exact .of_pure ⟨us, by simpa using hids, hus, ht.marks.trans htags.marks, hreads,
    hinert.trans (htags.inert he hfits₁.isAssignable hlink), (hechoes.mono (by simp)).trans (.of_tags htags)⟩

theorem thetaInputs_gives (points : List Point) (hV : kind.Permits V) (hts : Drafts V f g ts)
    (hp : ∀ d, .definition d ∈ points → ∃ v, g.Defines kind l d v) :
    Gives (points.mapM (thetaInput like)) g fun xs h => ∃ us, us.map Term.id = ts.map Term.id ++ xs ∧
      Drafts V f h us ∧ g.Marks kind h ∧
      List.Forall₂ (fun p x => h.Reads kind l x (definitionAt p)) points xs ∧ g.Inert h ∧
      Echoes f S.preorder xs g h := by
  induction points generalizing g ts with
  | nil => exact .of_pure ⟨ts, by simp, hts, .refl g, .nil, .refl g, .of_linkOf_eq rfl⟩
  | cons p rest ih =>
    rw [List.mapM_cons]
    refine .of_bind ((thetaInput_gives hS hwithin hfits hplain hV hts fun d hd =>
      hp d (by simp [hd])).mono ?_)
    rintro x g₁ ⟨us, hus, hdrafts, hmarks, hreads, hinert, hechoes⟩
    have hrest : ∀ d, .definition d ∈ rest → ∃ v, g₁.Defines kind l d v := by
      intro d hd
      obtain ⟨v, hv⟩ := hp d (by simp [hd])
      exact ⟨v, hv.marks hmarks⟩
    refine .of_bind ((ih hdrafts hrest).mono ?_)
    rintro xs h ⟨us', hus', hdrafts', hmarks', hall, hinert', hechoes'⟩
    refine .of_pure ⟨us', ?_, hdrafts', hmarks.trans hmarks', .cons (hreads.marks hmarks') hall,
      hinert.trans hinert', (hechoes.mono (by simp)).trans (hechoes'.mono (List.subset_cons_self x xs))⟩
    rw [hus', hus, List.append_assoc]
    rfl

end Like

/-- The outcome of putting a merge of points into a block, with copies of an address in the tree
    `S`: nothing else changes, apart from the uses of the definitions that meet. -/
structure Merged (V : Locations) (g h : Flow) (kind : LocationKind) (l : Location) (S : Term)
    (block : Address) (position : Nat) (points : List Point) (version : Nat) (d : NodeId) : Prop where
  sound : h.Sound V
  rooted : h.Rooted
  later : g.Later kind h
  kept : ∀ y e, g.exprAt y = some e → h.exprAt y = some e ∧ (g.linkOf y).Extends (h.linkOf y)
  placed : ∃ s, g.statementAt s = none ∧ h.Merges kind l s d points ∧ ∀ a, h.statementsAt a =
    if a = block then (g.statementsAt a).insertIdx position s else g.statementsAt a
  reads : ∀ x d', h.linkOf x = .use (some d') → g.linkOf x = .use (some d') ∨ h.IsInput x ∨
    ∃ s T, g.statementAt s = none ∧ s ∈ h.statementsAt block ∧ h.Holds s T ∧ x ∈ T.preorder ∧
      h.Assigns s T.id d ∧ ∃ y ∈ S.preorder, g.linkOf y = .use (some d')
  fresh : g.exprAt d = none
  names : h.Names kind l d
  defines : h.Defines kind l d version
  definition : ∀ y us, h.linkOf y = .definition us → y = d ∨ ∃ us', g.linkOf y = .definition us'

/-- In the flow `k` the assignment of a merge of points to an operand was drafted, with copies of what is in the
    tree `S`. The operand, which is the top of the tree `D`, is like another one, and the operands `xs` of the merge
    read the points. -/
structure Drafted (V : Locations) (g k : Flow) (kind : LocationKind) (l : Location) (S like : Term)
    (points : List Point) (version : Nat) (root : NodeId) (D M : Term) (xs : List NodeId) : Prop where
  drafts : Drafts V g k [.node root (.assign D M)]
  merge : k.exprAt M.id = some (.theta xs)
  inputs : List.Forall₂ (fun p x => k.Reads kind l x (definitionAt p)) points xs
  echoes : Echoes g S.preorder xs g k
  defines : k.Defines kind l D.id version
  fresh : g.exprAt D.id = none
  form : (kind.strip D).form = (kind.strip like).form
  assign : ∀ r d y, k.exprAt r = some (.assign d y) → (∃ y', g.exprAt r = some (.assign d y')) ∨ r = root
  definition : ∀ y us, k.linkOf y = .definition us → y = D.id ∨ ∃ us', g.linkOf y = .definition us'

namespace Drafted

variable {k h : Flow} {block : Address} {position version : Nat} {points : List Point} {s' : StatementId}
  {root : NodeId} {D M : Term} {xs : List NodeId}
  (hk : Drafted V g k kind l S (.node like E) points version root D M xs)
  (hh : g.Inserts k h block position s' (.node root (.assign D M)))
include hk hh

theorem defines_inserted : h.Defines kind l D.id version :=
  hk.defines.marks (.of_eq hh.exprAt_eq hh.linkOf_eq)

theorem rooted (hg : g.Rooted) : h.Rooted := by
  intro r d y hr
  obtain ⟨y', hr'⟩ | rfl := hk.assign r d y (hh.exprAt_eq ▸ hr)
  · obtain ⟨s₀, u, hu, hid⟩ := hg r d y' hr'
    exact ⟨s₀, u, hh.holds_old s₀ u hu, hid⟩
  · exact ⟨s', _, hh.holds, rfl⟩

theorem merges : h.Merges kind l s' D.id points := by
  obtain ⟨st, hst, hroot, -⟩ := hh.holds
  refine ⟨st, M.id, xs, version, hst, ?_, hh.exprAt_eq ▸ hk.merge, hk.defines_inserted hh,
    hk.inputs.imp fun p x hx => hx.marks (.of_eq hh.exprAt_eq hh.linkOf_eq)⟩
  rw [hroot]
  exact hh.exprAt_top

/-- What reads a definition read it before, or is an operand of the merge, or was copied from what read it. -/
theorem reads (hb : position ≤ (g.statementsAt block).length) {x d : NodeId} (hx : h.linkOf x = .use (some d)) :
    g.linkOf x = .use (some d) ∨ h.IsInput x ∨ ∃ s T, g.statementAt s = none ∧ s ∈ h.statementsAt block ∧
      h.Holds s T ∧ x ∈ T.preorder ∧ h.Assigns s T.id D.id ∧ ∃ y ∈ S.preorder, g.linkOf y = .use (some d) := by
  rw [hh.linkOf_eq] at hx
  obtain hold | hinput | ⟨y, hy, hlink⟩ := hk.echoes x d hx
  · exact .inl hold
  · have hM := hh.stands_child (c := M) (by simp [Expr.children])
    have hmerge := exprAt_eq_some hM.shape_id
    rw [hh.exprAt_eq, hk.merge, Option.some.injEq] at hmerge
    obtain ⟨j, e⟩ := M
    cases e <;> simp only [Expr.map, Term.expr_node, reduceCtorEq, Expr.theta.injEq] at hmerge
    rw [hmerge] at hinput
    obtain ⟨u, hu, rfl⟩ := List.mem_map.1 hinput
    exact .inr (.inl (hM.isInput hu))
  · rcases hk.drafts.pending.grows_of_singleton.made x
      (hk.drafts.wired.typed.exists_node (by simp [hx])) with hold | hnew
    · exact .inl ((hk.drafts.records x hold).use_iff.1 hx)
    · obtain ⟨st, hst, hroot, -⟩ := id hh.holds
      refine .inr (.inr ⟨s', _, hh.fresh, ?_, hh.holds, hnew, ⟨⟨st, hst, hroot⟩, _, hh.exprAt_top⟩,
        y, hy, hlink⟩)
      rw [hh.statementsAt_eq, if_pos rfl]
      exact (List.mem_insertIdx hb).2 (.inl rfl)

/-- The operand that is assigned to is named like the one it was made from. -/
theorem names (hS : g.Holds s S) (hwithin : Term.Within (.node like E) S)
    (hfits : kind.Fits l none (E.map Term.id)) (hnames : g.Names kind l like) : h.Names kind l D.id := by
  obtain ⟨-, ⟨e, he, hfits'⟩, -⟩ := hk.defines_inserted hh
  cases kind with
  | registers => exact ⟨some version, hfits' ▸ he⟩
  | derefs =>
    obtain ⟨A, v, u, hlike, hA, hu, hAu⟩ := hnames
    obtain ⟨q, hstands⟩ := hS.stands.exists_of_within hwithin
    obtain ⟨A', rfl⟩ : ∃ A', E = .deref A' none := by
      obtain ⟨a, ha⟩ := hfits
      cases E <;> simp_all [Expr.map]
    have hexpr := exprAt_eq_some hstands.shape_id
    obtain ⟨-, -, below⟩ := hstands
    obtain rfl : A = A' := by
      refine hA.unique (below A' (by simp [Expr.children])) ?_
      rw [Term.id_node, hlike] at hexpr
      exact (by simpa [Expr.map] using hexpr : A.id = A'.id ∧ v = none).1
    have hform := hk.form
    have hD := hh.stands_child (c := D) (by simp [Expr.children])
    obtain ⟨i, ED⟩ := D
    obtain ⟨B, w, rfl⟩ : ∃ B w, ED = .deref B w := by
      obtain ⟨a, rfl⟩ := hfits'
      rw [exprAt_eq_some hD.shape_id, Term.expr_node, Option.some.injEq] at he
      cases ED <;> simp [Expr.map] at he
      exact ⟨_, _, rfl⟩
    simp only [LocationKind.strip_node, Expr.map, LocationKind.untag, Term.form_node, Term.node.injEq,
      Expr.deref.injEq, and_true, true_and] at hform
    obtain ⟨-, -, below'⟩ := id hD
    exact ⟨B, w, u, exprAt_eq_some hD.shape_id, below' B (by simp [Expr.children]), hu, hform.trans hAu⟩

theorem merged (hg : g.Sound V) (hrooted : g.Rooted) (hS : g.Holds s S) (hwithin : Term.Within (.node like E) S)
    (hfits : kind.Fits l none (E.map Term.id)) (hnames : g.Names kind l like)
    (hb : position ≤ (g.statementsAt block).length) :
    Merged V g h kind l S block position points version D.id where
  sound := hk.drafts.sound_of_inserts hg hh
  rooted := hk.rooted hh hrooted
  later := hk.drafts.later_of_inserts hh
  kept _ _ hy := hk.drafts.kept_of_inserts hh hy
  placed := ⟨s', hh.fresh, hk.merges hh, hh.statementsAt_eq⟩
  reads _ _ := hk.reads hh hb
  fresh := hk.fresh
  names := hk.names hh hS hwithin hfits hnames
  defines := hk.defines_inserted hh
  definition y us hy := hk.definition y us (hh.linkOf_eq ▸ hy)

end Drafted

/-- There is no assignment in an operand. -/
private theorem ne_assign_of_fits (hrooted : g.Rooted) (hS : g.Holds s S) (hwithin : Term.Within (.node like E) S)
    (hfits : kind.Fits l none (E.map Term.id)) {x : NodeId} (hx : x ∈ (Term.node like E).preorder) (d y : NodeId) :
    g.exprAt x ≠ some (.assign d y) := by
  by_cases hxl : x = like
  · subst hxl
    obtain ⟨q, hstands⟩ := hS.stands.exists_of_within hwithin
    have hlike : g.exprAt x = some (E.map Term.id) := exprAt_eq_some hstands.shape_id
    intro heq
    have hassignable := hfits.isAssignable
    rw [← Option.some.inj (hlike.symm.trans heq).symm] at hassignable
    cases hassignable
  · refine hrooted.ne_assign hS (hwithin.preorder_subset hx) (fun hid => hxl ?_) d y
    exact hid.trans (hwithin.eq_of_id_mem hS.nodup (hid ▸ hx) ▸ rfl)

theorem insertTheta_gives {block : Address} {position version : Nat} {points : List Point} {b : Block}
    (hV : kind.Permits V) (hg : g.Sound V) (hrooted : g.Rooted) (hS : g.Holds s S)
    (hwithin : Term.Within (.node like E) S) (hfits : kind.Fits l none (E.map Term.id))
    (hnames : g.Names kind l like)
    (hp : ∀ d, .definition d ∈ points → ∃ v, g.Defines kind l d v) (hb : g.block? block = some b)
    (hposition : position ≤ b.statements.length) (hversion : 1 ≤ version) :
    Gives (insertTheta block position like points version) g fun d h =>
      Merged V g h kind l S block position points version d := by
  have hplain : ∀ x ∈ (Term.node like E).preorder, ∀ d y, g.exprAt x ≠ some (.assign d y) := fun x =>
    ne_assign_of_fits hrooted hS hwithin hfits
  unfold insertTheta
  refine .of_bind ((thetaInputs_gives hS hwithin hfits hplain points hV (.refl hg.wired) hp).mono ?_)
  rintro xs g₁ ⟨us, rfl, hdrafts₁, hmarks₁, hinputs, hinert₁, hechoes₁⟩
  refine .of_bind ((@Drafts.alloc_gives _ _ _ kind (.theta us) hdrafts₁ trivial nofun).mono ?_)
  rintro theta g₂ ⟨hdrafts₂, hmarks₂, -, hmade₂, hlink₂⟩
  have htheta : g₂.exprAt theta = some (.theta (us.map Term.id)) :=
    exprAt_eq_some (hdrafts₂.pending.stands (.node theta (.theta us)) (by simp)).shape_id
  refine .of_bind ((freshLike_gives_of_drafts hS hwithin hfits hplain hdrafts₂).mono ?_)
  rintro _ g₃ ⟨t, rfl, hform, hfresh₃, hnone, ⟨e, he, hfits₃⟩, -, hinert₃, hechoes₃⟩
  refine .of_bind ((markDefinition_gives hV hfresh₃.wired he hfits₃ hversion).mono ?_)
  rintro - g₄ ⟨hwired₄, htags₄, hdefines₄⟩
  have hfresh : g.exprAt t.id = none := by
    by_contra hne
    rw [← hdrafts₂.pending.grows.retains.exprAt_eq hne] at hne
    exact hne hnone
  -- tagging the target changes the drafted trees
  obtain ⟨us₄, hdrafts₄, hids₄, hstrips₄⟩ := (hdrafts₂.snoc hfresh₃).tags hfresh htags₄ hwired₄
  obtain ⟨M, D, rfl, hM, hD, hstrip⟩ : ∃ M D, us₄ = [M, D] ∧ M.id = theta ∧ D.id = t.id ∧
      kind.strip D = kind.strip t := by
    rcases us₄ with _ | ⟨T₁, _ | ⟨T₂, _ | ⟨T₃, us₄⟩⟩⟩ <;> simp_all
  have hinert : g.Inert g₃ := (hinert₁.trans (.of_made htheta nofun hmade₂ hlink₂)).trans hinert₃
  have hmarks₄ : g₂.Marks kind g₄ := hfresh₃.marks.trans htags₄.marks
  have hechoes : Echoes g S.preorder (us.map Term.id) g g₄ := by
    intro z d hz
    by_cases hzt : z = t.id
    · obtain ⟨-, -, uses, huses⟩ := hdefines₄
      rw [hzt, huses] at hz
      cases hz
    · refine ((hechoes₃ z d ((htags₄.extends_ne z hzt).use_iff.1 hz)).imp_right (Or.imp_left nofun)).elim
        (fun hz₂ => ?_) .inr
      exact hechoes₁ z d (hlink₂ ▸ hz₂)
  subst hM
  rw [← hD] at hdefines₄ hfresh ⊢
  have hassignable : ∀ d y, Expr.assign D M = .assign d y →
      (∃ e', g₄.exprAt d.id = some e' ∧ e'.isAssignable = true) ∧ ∀ z, g₄.linkOf d.id ≠ .use z := by
    rintro d y heq
    cases heq
    obtain ⟨-, ⟨e', he', hfits'⟩, us', hus'⟩ := hdefines₄
    exact ⟨⟨e', he', hfits'.isAssignable⟩, by simp [hus']⟩
  refine .of_bind (Gives.mono (@Drafts.alloc_gives _ _ _ kind (.assign D M)
    (hdrafts₄.perm (List.Perm.swap D M [])) trivial hassignable) ?_)
  rintro root g₅ ⟨hdrafts₅, hmarks₅, -, hmade₅, hlink₅⟩
  have hdrafted : Drafted V g g₅ kind l S (.node like E) points version root D M (us.map Term.id) :=
    { drafts := hdrafts₅
      merge := (hmarks₄.trans hmarks₅).exprAt_eq htheta (.inr rfl)
      inputs := hinputs.imp fun p x hx => hx.marks (hmarks₂.trans (hmarks₄.trans hmarks₅))
      echoes := fun z d hz => hechoes z d (hlink₅ ▸ hz)
      defines := hdefines₄.marks hmarks₅
      fresh := hfresh
      form := by rw [hstrip, LocationKind.form_strip, hform, LocationKind.form_strip]
      assign := fun r d y hr => (hmade₅ r (by simp [hr])).imp_left fun hold =>
        hinert.assign.trans (htags₄.noNewAssign he hfits₃.isAssignable) r d y (hold.trans hr)
      definition := fun y us' hy => by
        by_cases hyD : y = D.id
        · exact .inl hyD
        · obtain ⟨us'', hy⟩ := htags₄.definition_of_ne (hD ▸ hyD) (hlink₅ ▸ hy)
          exact .inr (hinert.definition y us'' hy) }
  refine .of_bind (Gives.mono (insertStatement_gives hg.forest hdrafts₅.pending hb hposition) ?_)
  rintro s' h hinserts
  exact .of_pure (hdrafted.merged hinserts hg hrooted hS hwithin hfits hnames (statementsAt_eq hb ▸ hposition))

end Tagging

end FrameRecovery
