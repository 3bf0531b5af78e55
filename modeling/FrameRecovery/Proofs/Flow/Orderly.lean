import FrameRecovery.Proofs.Flow.Inserting
import FrameRecovery.Proofs.Pruning

namespace FrameRecovery

namespace Flow

variable {f g h : Flow} {s : StatementId} {t : Term} {x y : NodeId} {e : Expr NodeId} {p : Place}

/-- Every statement has its tree and is listed by its block, all other nodes have theirs, and control
    can reach every block. -/
structure Orderly (f : Flow) : Prop where
  forest : f.Forest
  grounded : f.Grounded
  connected : f.Connected

/-- The nodes of a flow `f` stand in a flow `g` where they stood, over the same children. -/
structure Similar (f g : Flow) : Prop where
  shape : ∀ y e p, f.shapeAt y = some (e, p) →
    ∃ e', g.shapeAt y = some (e', p) ∧ e'.children = e.children
  entry_eq : g.entry = f.entry
  statements_eq : g.statements = f.statements
  blocks_eq : g.blocks = f.blocks

namespace Similar

theorem refl (f : Flow) : f.Similar f :=
  ⟨fun _ e _ hy => ⟨e, hy, rfl⟩, rfl, rfl, rfl⟩

theorem trans (hfg : f.Similar g) (hgh : g.Similar h) : f.Similar h := by
  refine ⟨fun y e p hy => ?_, hgh.entry_eq.trans hfg.entry_eq, hgh.statements_eq.trans hfg.statements_eq,
    hgh.blocks_eq.trans hfg.blocks_eq⟩
  obtain ⟨e', hg, he'⟩ := hfg.shape y e p hy
  obtain ⟨e'', hh, he''⟩ := hgh.shape y e' p hg
  exact ⟨e'', hh, he''.trans he'⟩

theorem of_relinks (hfg : f.Relinks g) : f.Similar g :=
  ⟨fun _ e _ hy => ⟨e, hfg.shape_eq ▸ hy, rfl⟩, hfg.entry_eq, hfg.statements_eq, hfg.blocks_eq⟩

theorem statementAt_eq (hfg : f.Similar g) : g.statementAt = f.statementAt := by
  funext s
  rw [statementAt, hfg.statements_eq, statementAt]

theorem stands (hfg : f.Similar g) (ht : f.Stands p t) : ∃ t', g.Stands p t' ∧ t'.id = t.id := by
  obtain ⟨t', ht', hid, -⟩ := ht.exists_similar fun y _ e q hy => hfg.shape y e q hy
  exact ⟨t', ht', hid⟩

theorem forest (hfg : f.Similar g) (hf : f.Forest) : g.Forest := by
  refine hf.of_holds hfg.blocks_eq (fun s => by rw [hfg.statementAt_eq]) ?_
  rintro s t ⟨st, hst, hroot, hstands⟩
  obtain ⟨t', ht', hid⟩ := hfg.stands hstands
  exact ⟨t', st, hfg.statementAt_eq ▸ hst, hroot.trans hid.symm, ht'⟩

theorem graph (hfg : f.Similar g) : f.SameGraph g :=
  .of_blocks_eq hfg.entry_eq hfg.blocks_eq

theorem exprAt_ne_none (hfg : f.Similar g) (hx : f.exprAt x ≠ none) : g.exprAt x ≠ none := by
  obtain ⟨⟨e, p⟩, hx⟩ := Option.ne_none_iff_exists'.1 (Flow.exprAt_ne_none.1 hx)
  obtain ⟨e', hg, -⟩ := hfg.shape x e p hx
  simp [exprAt_eq_some hg]

theorem live (hfg : f.Similar g) (hs : f.Live s) : g.Live s :=
  hs.congr (by rw [hfg.statementAt_eq])

end Similar

/-- A node is at the top of a tree that no statement holds. -/
def Draft (f : Flow) (x : NodeId) : Prop :=
  ∃ t, f.Stands .detached t ∧ t.id = x

theorem Draft.exists_shape (hx : f.Draft x) : ∃ e, f.shapeAt x = some (e, .detached) := by
  obtain ⟨t, ht, rfl⟩ := hx
  exact ⟨_, ht.shape_id⟩

theorem Draft.exprAt_ne_none (hx : f.Draft x) : f.exprAt x ≠ none := by
  obtain ⟨e, hx⟩ := hx.exists_shape
  simp [exprAt_eq_some hx]

theorem Draft.similar (hx : f.Draft x) (hfg : f.Similar g) : g.Draft x := by
  obtain ⟨t, ht, rfl⟩ := hx
  exact hfg.stands ht

theorem Draft.grows (hx : f.Draft x) {xs : List NodeId} (hfg : f.Grows g xs) : g.Draft x := by
  obtain ⟨t, ht, rfl⟩ := hx
  exact ⟨t, hfg.stands ht, rfl⟩

/-- The nodes and the statements of a flow `f` are in a flow `g` too. -/
structure Persists (f g : Flow) : Prop where
  node : ∀ x, f.exprAt x ≠ none → g.exprAt x ≠ none
  statement : ∀ s, f.statementAt s ≠ none → g.statementAt s ≠ none

namespace Persists

theorem refl (f : Flow) : f.Persists f :=
  ⟨fun _ hx => hx, fun _ hs => hs⟩

theorem trans (hfg : f.Persists g) (hgh : g.Persists h) : f.Persists h :=
  ⟨fun x hx => hgh.node x (hfg.node x hx), fun s hs => hgh.statement s (hfg.statement s hs)⟩

theorem of_grows {xs : List NodeId} (hfg : f.Grows g xs) : f.Persists g :=
  ⟨fun _ hx => Flow.exprAt_ne_none.2 (hfg.ne_none (Flow.exprAt_ne_none.1 hx)), fun s hs => by rwa [hfg.statementAt_eq]⟩

theorem of_replaces {t' : Term} (hfg : f.Replaces g p t t') : f.Persists g := by
  refine ⟨fun _ hx => Flow.exprAt_ne_none.2 (hfg.ne_none _ (Flow.exprAt_ne_none.1 hx)), fun s hs => ?_⟩
  rw [hfg.statementAt_eq]
  split
  · simpa using hs
  · exact hs

end Persists

/-- Some statements of an orderly flow are still to be visited, each of them once. -/
structure Awaits (f : Flow) (rest : List StatementId) : Prop where
  orderly : f.Orderly
  live : ∀ s ∈ rest, f.Live s
  nodup : rest.Nodup

theorem Orderly.awaits (hf : f.Orderly) : f.Awaits f.liveStatements :=
  ⟨hf, fun _ => hf.forest.mem_liveStatements.1, hf.forest.nodup_liveStatements⟩

theorem Awaits.next {rest : List StatementId} (hf : f.Awaits (s :: rest)) (hg : g.Orderly)
    (hlive : ∀ s', s' ≠ s → f.Live s' → g.Live s') : g.Awaits rest := by
  obtain ⟨hs, hnodup⟩ := List.nodup_cons.1 hf.nodup
  refine ⟨hg, fun s' hs' => hlive s' ?_ (hf.live s' (List.mem_cons_of_mem _ hs')), hnodup⟩
  rintro rfl
  exact hs hs'

namespace Orderly

theorem exists_root (hf : f.Orderly) (hs : f.statementAt s ≠ none) :
    ∃ st t, f.statementAt s = some st ∧ f.Holds s t ∧ st.root = t.id := by
  obtain ⟨st, hst⟩ := Option.ne_none_iff_exists'.1 hs
  obtain ⟨t, ht⟩ := hf.forest.holds s st hst
  obtain ⟨st', hst', hroot, -⟩ := id ht
  obtain rfl := Option.some.inj (hst.symm.trans hst')
  exact ⟨st, t, hst, ht, hroot⟩

theorem relinks (hf : f.Orderly) (hfg : f.Relinks g) (hg : g.LinkClosed) : g.Orderly := by
  have hsimilar := Similar.of_relinks hfg
  exact ⟨hsimilar.forest hf.forest, hf.grounded.relinks hfg hg, hsimilar.graph.connected hf.connected⟩

theorem reversion {e' : Expr NodeId} {v : Option Nat} (hf : f.Orderly) (hx : f.shapeAt x = some (e, p))
    (hv : e.withVersion? v = some e')
    (hg : f.Becomes g (Function.update f.shapeAt x (some (e', p))) f.linkOf) : g.Orderly ∧ f.Similar g := by
  have hexpr := exprAt_eq_some hx
  have hchildren : e'.children = e.children ∧ e'.origin? = e.origin? := by
    cases e <;> cases hv <;> exact ⟨rfl, rfl⟩
  have hplace : ∀ {y ey r}, g.shapeAt y = some (ey, r) → ∃ e₀, f.shapeAt y = some (e₀, r) := by
    intro y ey r hy
    rw [hg.shape_eq] at hy
    by_cases hyx : y = x
    · rw [hyx, Function.update_self, Option.some.injEq, Prod.mk.injEq] at hy
      exact ⟨e, hyx ▸ hy.2 ▸ hx⟩
    · exact ⟨ey, by rwa [Function.update_of_ne hyx] at hy⟩
  have hsimilar : f.Similar g := by
    refine ⟨fun y ey q hy => ?_, hg.entry_eq, hg.statements_eq, hg.blocks_eq⟩
    rw [hg.shape_eq]
    by_cases hyx : y = x
    · rw [hyx, hx, Option.some.injEq, Prod.mk.injEq] at hy
      obtain ⟨rfl, rfl⟩ := hy
      exact ⟨e', by rw [hyx, Function.update_self], hchildren.1⟩
    · exact ⟨ey, by rwa [Function.update_of_ne hyx], rfl⟩
  refine ⟨⟨hsimilar.forest hf.forest, ?_, hsimilar.graph.connected hf.connected⟩, hsimilar⟩
  refine hf.grounded.update x e' ?_ (fun c hc => ?_) (fun o ho => ?_) hg.link_eq
    (fun y ey q hy => ?_) fun y ey s hy => ?_
  · funext y
    rw [exprAt, hg.shape_eq]
    by_cases hyx : y = x
    · simp [hyx]
    · rw [Function.update_of_ne hyx, Function.update_of_ne hyx, exprAt]
  · exact hf.grounded.spelledWithout hexpr (hchildren.1 ▸ hc)
  · exact hf.grounded.origin x e o hexpr (hchildren.2 ▸ ho)
  · obtain ⟨e₀, hy⟩ := hplace hy
    by_cases hq : q = x
    · obtain ⟨e₁, he₁, hmem⟩ := hf.grounded.parent y e₀ q hy
      obtain rfl := Option.some.inj ((hq ▸ hexpr).symm.trans he₁)
      exact .inl ⟨hq, hchildren.1 ▸ hmem⟩
    · exact .inr ⟨hq, e₀, hy⟩
  · obtain ⟨e₀, hy⟩ := hplace hy
    rw [hsimilar.statementAt_eq]
    exact hf.grounded.statement y e₀ s hy

theorem grows {xs : List NodeId} (hf : f.Orderly) (hfg : f.Grows g xs) (hg : g.Grounded) : g.Orderly :=
  ⟨hf.forest.grows hfg, hg, (SameGraph.of_blocks_eq hfg.entry_eq hfg.blocks_eq).connected hf.connected⟩

theorem replaces {t' : Term} (hf : f.Orderly) (ht : f.Holds s t) (hfg : f.Replaces g (.root s) t t')
    (hg : g.Grounded) : g.Orderly :=
  ⟨hf.forest.replaces ht hfg, hg, (SameGraph.of_blocks_eq hfg.entry_eq hfg.blocks_eq).connected hf.connected⟩

end Orderly

end Flow

namespace Edit

open Flow

variable {f : Flow} {s : StatementId} {x : NodeId} {e : Expr NodeId}

theorem setLink_orderly {l : Link} (hf : f.Orderly) (hx : f.exprAt x ≠ none)
    (hl : ∀ y ∈ l.mentions, f.exprAt y ≠ none) :
    Gives (setLink x l) f fun _ g => g.Orderly ∧ f.Relinks g :=
  (setLink_linkClosed hf.grounded.link hx hl).mono fun _ _ ⟨hfg, hg⟩ => ⟨hf.relinks hfg hg, hfg⟩

theorem linkUse_orderly {D : Option NodeId} (hf : f.Orderly) (hx : f.exprAt x ≠ none)
    (hD : ∀ d, D = some d → f.exprAt d ≠ none) :
    Gives (linkUse x D) f fun _ g => g.Orderly ∧ f.Relinks g :=
  (linkUse_linkClosed hf.grounded.link hx hD).mono fun _ _ ⟨hfg, hg⟩ => ⟨hf.relinks hfg hg, hfg⟩

theorem unlink_orderly (hf : f.Orderly) (hx : f.exprAt x ≠ none) :
    Gives (unlink x) f fun _ g => g.Orderly ∧ f.Relinks g :=
  (unlink_linkClosed hf.grounded.link hx).mono fun _ _ ⟨hfg, hg⟩ => ⟨hf.relinks hfg hg, hfg⟩

theorem unlinkSubtree_orderly (hf : f.Orderly) (hx : f.exprAt x ≠ none) :
    Gives (unlinkSubtree x) f fun _ g => g.Orderly ∧ f.Relinks g := by
  obtain ⟨t, hterm, ht, -⟩ := hf.grounded.term_eq hx
  unfold unlinkSubtree
  refine .of_bind (.of_view hterm ?_)
  refine (Gives.of_forM (I := fun rest g => g.Orderly ∧ f.Relinks g ∧ rest ⊆ t.postorder) ?_ t.postorder
    ⟨hf, .refl f, fun _ h => h⟩).mono fun _ g ⟨hg, hfg, _⟩ => ⟨hg, hfg⟩
  rintro y rest g ⟨hg, hfg, hrest⟩
  have hy : g.exprAt y ≠ none := by
    rw [hfg.exprAt_eq]
    exact ht.exprAt_ne_none (Term.mem_postorder.1 (hrest (by simp)))
  refine (unlink_orderly hg hy).mono fun _ h ⟨hh, hgh⟩ => ?_
  exact ⟨hh, hfg.trans hgh, fun z hz => hrest (List.mem_cons_of_mem _ hz)⟩

/-- A location can get another version. -/
theorem setVersion_orderly {v : Option Nat} {e' : Expr NodeId} (hf : f.Orderly) (hx : f.exprAt x = some e)
    (hv : e.withVersion? v = some e') :
    Gives (setVersion x v) f fun _ g => g.Orderly ∧ f.Similar g ∧
      g.exprAt = Function.update f.exprAt x (some e') := by
  obtain ⟨p, hshape⟩ := exists_shapeAt_of_exprAt hx
  refine (setVersion_gives hshape hv).mono fun _ g hg => ?_
  obtain ⟨horderly, hsimilar⟩ := hf.reversion hshape hv hg
  refine ⟨horderly, hsimilar, ?_⟩
  funext y
  rw [exprAt, hg.shape_eq]
  by_cases hyx : y = x
  · simp [hyx]
  · rw [Function.update_of_ne hyx, Function.update_of_ne hyx, exprAt]

/-- A copy is a draft, whatever is copied. -/
theorem copy_orderly (hf : f.Orderly) (hx : f.exprAt x ≠ none) :
    Gives (copy x) f fun y g => ∃ t, t.id = y ∧ g.Orderly ∧ f.Grows g t.preorder ∧ g.Stands .detached t := by
  obtain ⟨t, ht, rfl⟩ := hf.grounded.spelled x hx
  refine (copy_linkClosed hf.grounded.link ht).mono ?_
  rintro y g ⟨t', R, rfl, hcopies, hg⟩
  exact ⟨t', rfl, hf.grows hcopies.grows (hf.grounded.copies ht hcopies hg), hcopies.grows, hcopies.stands⟩

theorem snapshot_orderly (hf : f.Orderly) (hx : f.exprAt x ≠ none) :
    Gives (snapshot x) f fun y g => ∃ t, t.id = y ∧ g.Orderly ∧ f.Grows g t.preorder ∧ g.Stands .detached t := by
  obtain ⟨t, ht, rfl⟩ := hf.grounded.spelled x hx
  refine (snapshot_gives ht).mono ?_
  rintro y g ⟨t', R, rfl, hcopies, hlink⟩
  have hg : g.LinkClosed := fun z w hw => by
    have hold := hf.grounded.link z w (hlink ▸ hw)
    rwa [hcopies.grows.retains.exprAt_eq hold]
  exact ⟨t', rfl, hf.grows hcopies.grows (hf.grounded.copies ht hcopies hg), hcopies.grows, hcopies.stands⟩

/-- A new node over drafts is a draft, and the other drafts stay. -/
theorem alloc_orderly (hf : f.Orderly) (hdrafts : ∀ c ∈ e.children, f.Draft c) (hnodup : e.children.Nodup)
    (horigin : ∀ o, e.origin? = some o → f.exprAt o ≠ none) :
    Gives (alloc e) f fun x g => g.Orderly ∧ g.Draft x ∧ f.exprAt x = none ∧ g.exprAt x = some e ∧
      (∀ y, f.exprAt y ≠ none → g.exprAt y = f.exprAt y) ∧
      (∀ y, f.Draft y → y ∉ e.children → g.Draft y) ∧ f.SameGraph g ∧ g.blocks = f.blocks := by
  have hchildren : ∀ c ∈ e.children, f.exprAt c ≠ none := fun c hc => (hdrafts c hc).exprAt_ne_none
  refine ((alloc_gives fun c hc => exprAt_ne_none.1 (hchildren c hc)).and
    (alloc_grounded hf.grounded hchildren horigin)).mono ?_
  rintro x g ⟨⟨hx, hg⟩, hgrounded⟩
  have hnone : f.shapeAt x = none := hx ▸ shapeAt_nextNode f
  have hgraph : f.SameGraph g := .of_blocks_eq hg.entry_eq hg.blocks_eq
  have hold : ∀ y, f.shapeAt y ≠ none → y ∉ e.children → g.shapeAt y = f.shapeAt y := by
    intro y hy hmem
    have hyx : y ≠ x := by
      rintro rfl
      exact hy hnone
    rw [hg.shape_eq, Function.update_of_ne hyx]
    simp only [placed, hmem, if_false]
  have hself : g.shapeAt x = some (e, .detached) := by rw [hg.shape_eq, Function.update_self]
  have hcx : ∀ c ∈ e.children, c ≠ x := by
    rintro c hc rfl
    exact exprAt_ne_none.1 (hchildren c hc) hnone
  -- a draft among the children can only be at the top of the tree of a draft
  have hinner : ∀ {t : Term}, f.Stands .detached t → ∀ d ∈ t.expr.children, ∀ y ∈ d.preorder,
      g.shapeAt y = f.shapeAt y := by
    intro t ht d hd y hy
    obtain ⟨i, et⟩ := t
    have hyt : y ∈ (Term.node i et).preorder := (Term.Within.of_mem_children hd).preorder_subset hy
    refine hold y (ht.shapeAt_ne_none hyt) fun hmem => ?_
    obtain ⟨u, hu, rfl⟩ := hdrafts y hmem
    have hid : i = u.id := ht.id_eq_of_mem hu Place.top_detached Place.top_detached hyt u.id_mem_preorder
    have hnodup := ht.nodup_preorder Place.top_detached
    rw [Term.preorder_node, List.nodup_cons] at hnodup
    exact hnodup.1 (List.mem_flatMap.2 ⟨d, hd, hid ▸ hy⟩)
  refine ⟨⟨?_, hgrounded, hgraph.connected hf.connected⟩, ?_, ?_, exprAt_eq_some hself, fun y hy => ?_,
    fun y hy hmem => ?_, hgraph, hg.blocks_eq⟩
  · refine hf.forest.of_holds hg.blocks_eq (fun s => by rw [hg.statementAt_eq]) fun s t ht => ⟨t, ?_⟩
    refine ht.congr (by rw [hg.statementAt_eq]) fun y hy => hold y (ht.stands.shapeAt_ne_none hy) fun hmem => ?_
    obtain ⟨u, hu, rfl⟩ := hdrafts y hmem
    exact ht.not_mem_detached hu u.id_mem_preorder hy
  · obtain ⟨e', rfl, hstands⟩ := Expr.exists_over hdrafts
    rw [Expr.children_map] at hnodup hcx
    refine ⟨.node x e', .node hself hnodup fun d hd => (hstands d hd).move ?_ (hinner (hstands d hd)), rfl⟩
    have hid := List.mem_map_of_mem (f := Term.id) hd
    rw [hg.shape_eq, Function.update_of_ne (hcx _ hid)]
    simp [placed, hid, (hstands d hd).shape_id]
  · rw [exprAt, hnone]
    rfl
  · have hyx : y ≠ x := by
      rintro rfl
      exact exprAt_ne_none.1 hy hnone
    rw [exprAt, hg.shape_eq, Function.update_of_ne hyx, map_fst_placed, exprAt]
  · obtain ⟨t, ht, rfl⟩ := hy
    refine ⟨t, ht.move ?_ (hinner ht), rfl⟩
    rw [hold _ (ht.shapeAt_ne_none t.id_mem_preorder) hmem, ht.shape_id]

theorem insertStatement_orderly {block address : Address} {position : Nat} {b : Block} (hf : f.Orderly)
    (hx : f.Draft x) (hb : f.block? block = some b) (hposition : position ≤ b.statements.length) :
    Gives (insertStatement block position address x) f fun s g => g.Orderly ∧ g.exprAt = f.exprAt ∧
      f.SameGraph g ∧ g.statementsAt block = (f.statementsAt block).insertIdx position s := by
  obtain ⟨t, ht, rfl⟩ := hx
  refine (insertStatement_places hf.forest ht hb hposition).mono fun s g hg => ?_
  have hexpr := hg.exprAt_eq ht
  refine ⟨⟨hg.forest, ?_, hg.graph.connected hf.connected⟩, hexpr, hg.graph, ?_⟩
  · obtain ⟨st, hst, hroot, -⟩ := hg.holds
    refine hf.grounded.congr hexpr (hg.linkOf_eq ▸ hf.grounded.link) (fun y ey q hy => ?_) fun y ey s' hy => ?_
    · rw [hg.shapeAt_eq] at hy
      by_cases hyt : y = t.id
      · rw [hyt, Function.update_self] at hy
        cases hy
      · exact ⟨ey, by rwa [Function.update_of_ne hyt] at hy⟩
    · rw [hg.shapeAt_eq] at hy
      by_cases hyt : y = t.id
      · rw [hyt, Function.update_self] at hy
        cases hy
        exact ⟨st, hst, hroot.trans hyt.symm⟩
      · rw [Function.update_of_ne hyt] at hy
        obtain ⟨st', hst', hroot'⟩ := hf.grounded.statement y ey s' hy
        refine ⟨st', ?_, hroot'⟩
        rw [hg.other s', hst']
        rintro rfl
        simp [hg.fresh] at hst'
  · rw [hg.statementsAt_eq, if_pos rfl]

theorem removeStatement_orderly (hf : f.Orderly) (hs : f.Live s) :
    Gives (removeStatement s) f fun _ g => g.Orderly ∧ ∀ s', s' ≠ s → f.Live s' → g.Live s' := by
  obtain ⟨st, hst, hremoved⟩ := hs
  refine (removeStatement_removes (.refl f) hst hremoved).mono fun _ g ⟨hg, hlink⟩ => ?_
  refine ⟨⟨hg.forest hf.forest hst, ?_, hg.graph.connected hf.connected⟩, fun s' hne hs' => hg.live hne hs'⟩
  refine hf.grounded.congr hg.exprAt_eq (hlink ▸ hf.grounded.link) (fun y ey q hy => ⟨ey, hg.shape_eq ▸ hy⟩)
    fun y ey s' hy => ?_
  obtain ⟨st', hst', hroot⟩ := hf.grounded.statement y ey s' (hg.shape_eq ▸ hy)
  rw [hg.statementAt_eq]
  by_cases hs : s' = s
  · rw [hs] at hst' ⊢
    obtain rfl := Option.some.inj (hst.symm.trans hst')
    exact ⟨_, Function.update_self .., hroot⟩
  · exact ⟨st', by rw [Function.update_of_ne hs, hst'], hroot⟩

/-- Any statement can be simplified. -/
theorem simplifyStatement_orderly (hf : f.Orderly) (hs : f.statementAt s ≠ none) :
    Gives (simplifyStatement s) f fun _ g => g.Orderly ∧ f.Persists g := by
  obtain ⟨st, t, hst, ht, hroot⟩ := hf.exists_root hs
  refine (simplifyStatement_reduces hst hroot ht.sits).mono ?_
  rintro - g ⟨t', hreduces, -, -⟩
  exact ⟨hf.replaces ht hreduces.replaces (hreduces.grounded hf.grounded), .of_replaces hreduces.replaces⟩

end Edit

namespace Pruning

open Flow

variable {f : Flow}

/-- A dead definition can be removed. -/
theorem prune_orderly (hf : f.Orderly) : Gives prune f fun _ g => g.Orderly := by
  unfold prune
  refine .of_bind (.of_get (.of_bind ?_))
  refine (Gives.of_mapM (I := fun rest _ g => g.Awaits rest) (fun s rest _ f hf => ?_) _ (b := [])
    hf.awaits).mono fun _ g hg => .of_pure hg.orderly
  have hs := hf.live s (by simp)
  obtain ⟨st, t, hst, ht, hroot⟩ := hf.orderly.exists_root hs.statementAt_ne_none
  obtain ⟨b, hb⟩ := isPrunable_eq ht
  unfold pruneStatement
  refine .of_bind (.of_view hb ?_)
  cases b with
  | false => exact .of_pure (hf.next hf.orderly fun _ _ h => h)
  | true =>
    refine .of_bind (.of_view (statement_eq hst) (.of_bind ?_))
    rw [hroot]
    refine (Edit.unlinkSubtree_orderly hf.orderly (by simp [exprAt_eq_some ht.stands.shape_id])).mono ?_
    rintro - g ⟨hg, hfg⟩
    have hlive : ∀ {s'}, f.Live s' → g.Live s' := (Similar.of_relinks hfg).live
    refine .of_bind ((Edit.removeStatement_orderly hg (hlive hs)).mono fun _ h ⟨hh, hkept⟩ => .of_pure ?_)
    exact hf.next hh fun s' hne hs' => hkept s' hne (hlive hs')

theorem rounds_orderly (n : Nat) (hf : f.Orderly) : Gives (rounds n) f fun _ g => g.Orderly := by
  induction n generalizing f with
  | zero => exact .of_pure hf
  | succ n ih =>
    unfold rounds
    refine .of_bind ((prune_orderly hf).mono fun removed g hg => ?_)
    split
    · exact .of_pure hg
    · exact .of_bind ((ih hg).mono fun _ h hh => .of_pure hh)

theorem pruneToFixedPoint_orderly (hf : f.Orderly) : Gives pruneToFixedPoint f fun _ g => g.Orderly :=
  .of_bind (.of_get (rounds_orderly _ hf))

end Pruning

end FrameRecovery
