import FrameRecovery.Proofs.RegisterLinks
import FrameRecovery.Proofs.Tagging.Restoring
import FrameRecovery.Proofs.Tagging.Retag

namespace FrameRecovery

namespace Tagging

open Flow

variable {f g : Flow} {kind : LocationKind} {locate : Term → Option Location} {s : StatementId} {a : Address}
  {t : Term}

/-- The numbers of a flow in a larger one. -/
def behind (f g : Flow) : Renumbering where
  nodes := f.nodes.size
  nodeGap := g.nodes.size - f.nodes.size
  statements := f.statements.size
  statementGap := g.statements.size - f.statements.size

/-- The old part of a flow has what there is to tag in it. -/
theorem fixedPlan_planAt (hf : f.Forest) (hconnected : f.Connected) (ha : f.block? a ≠ none) :
    FixedPlan (behind f g) (BlockPlan.planAt f kind a) := by
  have hlt : ∀ {s t x}, f.Holds s t → x ∈ t.preorder → x.index < f.nodes.size := fun ht hx =>
    Nat.lt_of_not_le fun hle => ht.stands.shapeAt_ne_none hx (shapeAt_eq_none_iff.2 hle)
  have hsite : ∀ {s t d}, f.Holds s t → Summary.definitionOf f kind.locate s = some d →
      d.site.index < f.nodes.size := by
    intro s t d ht hd
    obtain ⟨i, x, y, rfl, -, hsite, -⟩ := (Summary.mem_definitionOf ht).1 hd
    rw [hsite]
    exact hlt ht ((Term.Within.refl _).id_mem_of_mem_children (by simp [Expr.children]))
  refine ⟨fun l c hc => ?_, fun v hv r hr => ?_, fun v hv d hd => ?_⟩
  · rintro x rfl
    have hne := List.ne_nil_of_mem hc
    obtain ⟨d, hd, -, rfl⟩ := known_planAt hf hconnected ha l x ((Reach.brings_of_points_ne_nil hne).2 hc)
    obtain ⟨s, hs, hd⟩ := List.mem_filterMap.1 hd
    obtain ⟨t, ht⟩ := hf.holds_of_mem hs
    exact hsite ht hd
  · obtain ⟨s, hs, rfl⟩ := List.mem_map.1 hv
    obtain ⟨t, ht⟩ := hf.exists_holds hs
    exact hlt ht (List.mem_of_mem_tail (BlockPlan.operand_mem ht hr))
  · obtain ⟨s, hs, rfl⟩ := List.mem_map.1 hv
    obtain ⟨t, ht⟩ := hf.exists_holds hs
    exact hsite ht hd

section Undressed

variable (hfg : Undressed f g)
include hfg

theorem Undressed.holds (ht : f.Holds s t) : g.Holds s t := by
  obtain ⟨st, hst, hroot, hstands⟩ := ht
  exact ⟨st, hfg.statement s st hst, hroot,
    hstands.congr fun y hy => hfg.shape y (hstands.shapeAt_ne_none hy)⟩

theorem Undressed.block?_cases (a : Address) : (f.block? a = none ∧ g.block? a = none) ∨
    ∃ b b', f.block? a = some b ∧ g.block? a = some b' ∧ b'.successors = b.successors ∧ b'.statements = b.statements := by
  cases hb : f.block? a with
  | none =>
    refine .inl ⟨rfl, ?_⟩
    by_contra hne
    exact hfg.graph.symm.ne_none hne hb
  | some b =>
    obtain ⟨b', hb', hsuccessors⟩ := hfg.graph.exists_block hb
    have hlisted := hfg.statements a
    rw [statementsAt_eq hb, statementsAt_eq hb'] at hlisted
    exact .inr ⟨b, b', rfl, hb', hsuccessors, hlisted⟩

/-- What a tidy plain flow has kept its numbers. -/
theorem Undressed.embeds (hf : f.Plain) (htidy : f.Tidy) : (behind f g).Embeds f g := by
  have hid : ∀ {x}, f.shapeAt x ≠ none → (behind f g).id x = x := fun hx =>
    Renumbering.id_eq_self (Nat.lt_of_not_le fun hle => hx (shapeAt_eq_none_iff.2 hle))
  have hsid : ∀ {s}, f.statementAt s ≠ none → (behind f g).statementId s = s := fun hs =>
    Renumbering.statementId_eq_self (Nat.lt_of_not_le fun hle => hs (Array.getElem?_eq_none hle))
  have hnodes : f.nodes.size ≤ g.nodes.size := by
    by_contra hlt
    have hx : f.shapeAt g.nextNode ≠ none := fun hnone => hlt (shapeAt_eq_none_iff.1 hnone)
    exact hx (by rw [← hfg.shape _ hx, shapeAt_nextNode])
  have hstatements : f.statements.size ≤ g.statements.size := by
    by_contra hlt
    have hs : f.statementAt g.nextStatement ≠ none := by
      unfold statementAt nextStatement
      rw [ne_eq, Array.getElem?_eq_none_iff]
      exact hlt
    obtain ⟨st, hst⟩ := Option.ne_none_iff_exists'.1 hs
    have hst' := hfg.statement _ st hst
    rw [statementAt_nextStatement] at hst'
    cases hst'
  refine ⟨Nat.le_refl _, ?_, Nat.le_refl _, ?_, fun x n hn => ?_, fun s st hst => ?_, fun a => ?_⟩
  · exact (Nat.add_sub_of_le hnodes).symm
  · exact (Nat.add_sub_of_le hstatements).symm
  · obtain ⟨e, p, l⟩ := n
    have hshape : f.shapeAt x = some (e, p) := by simp [shapeAt, hn]
    obtain rfl : l = .unlinked := by
      have hlink := hf.unlinked x
      simpa [linkOf, hn] using hlink
    have hexpr : e.map (behind f g).id = e := by
      refine (Expr.map_congr fun c hc => ?_).trans e.map_id
      exact hid (exprAt_ne_none.1 (hf.closed x e (exprAt_eq_some hshape) c hc))
    have hplace : (behind f g).place p = p := by
      obtain ⟨s, t, -, ht, hxt⟩ := htidy x (by simp [hshape])
      by_cases hroot : x = t.id
      · subst hroot
        obtain ⟨st, hst, -, -⟩ := id ht
        rw [ht.stands.shape_id] at hshape
        cases hshape
        exact congrArg Place.root (hsid (by simp [hst]))
      · obtain ⟨i, E, u, hwithin, hu, rfl, hstands⟩ := ht.stands.exists_parent hxt hroot
        rw [hstands.shape_id] at hshape
        cases hshape
        obtain ⟨q, shape, -⟩ := ht.stands.exists_of_within hwithin
        exact congrArg Place.child (hid (by simp [shape]))
    have hx : f.shapeAt x ≠ none := by simp [hshape]
    rw [hid hx, exists_node_of_shapeAt ((hfg.shape x hx).trans hshape), hfg.link x hx]
    unfold Renumbering.node
    rw [hexpr, hplace]
    rfl
  · obtain ⟨t, st', hst', hroot, hstands⟩ := hf.forest.holds s st hst
    obtain rfl := Option.some.inj (hst.symm.trans hst')
    rw [hsid (by simp [hst]), hfg.statement s st hst, hid]
    simp [hroot, hstands.shape_id]
  · obtain ⟨hnone, hnone'⟩ | ⟨b, b', hb, hb', -, hlisted⟩ := hfg.block?_cases a
    · rw [hnone, hnone']
      rfl
    · rw [hb, hb', Option.map_some, Option.map_some, hlisted, Option.some.injEq]
      refine ((List.map_congr_left fun s hs => ?_).trans (List.map_id _)).symm
      obtain ⟨st, hst, -⟩ := (hf.forest.listed a b s hb).1 hs
      exact hsid (by simp [hst])

theorem Undressed.definitionOf_eq (hf : f.Forest) (hs : s ∈ f.statementsAt a) :
    Summary.definitionOf g locate s = Summary.definitionOf f locate s := by
  obtain ⟨t, ht⟩ := hf.exists_holds hs
  rw [Summary.definitionOf_eq ht, Summary.definitionOf_eq (hfg.holds ht)]

section Plans

variable (hf : f.Forest) (hg : g.Forest)
include hf hg

theorem Undressed.predecessors_eq (a : Address) : g.predecessors a = f.predecessors a := by
  have hvalues : g.blocks.values.map (fun b => (b.address, b.successors)) =
      f.blocks.values.map fun b => (b.address, b.successors) := by
    refine SortedMap.map_values_congr fun c => ?_
    change (g.block? c).map _ = (f.block? c).map _
    obtain ⟨hnone, hnone'⟩ | ⟨b, b', hb, hb', hsuccessors, -⟩ := hfg.block?_cases c
    · rw [hnone, hnone']
    · rw [hb, hb', Option.map_some, Option.map_some, hsuccessors, hf.address_eq c b hb, hg.address_eq c b' hb']
  have hpredecessors : ∀ h : Flow, h.predecessors a =
      ((h.blocks.values.map fun b => (b.address, b.successors)).filter fun e => e.2.contains a).map Prod.fst := by
    intro h
    unfold predecessors
    rw [List.filter_map, List.map_map]
    rfl
  rw [hpredecessors, hpredecessors, hvalues]

theorem Undressed.blockAt_eq (a : Address) : Summary.blockAt g locate a = Summary.blockAt f locate a := by
  unfold Summary.blockAt
  rw [hfg.predecessors_eq hf hg, hfg.graph.successors_eq, hfg.statements]
  congr 1
  exact List.filterMap_congr fun s hs => hfg.definitionOf_eq hf hs

theorem Undressed.planAt_eq (a : Address) : BlockPlan.planAt g kind a = BlockPlan.planAt f kind a := by
  have hblocks : g.blocks.keys.map (Summary.blockAt g kind.locate) =
      f.blocks.keys.map (Summary.blockAt f kind.locate) := by
    rw [hfg.graph.keys_eq]
    exact List.map_congr_left fun c _ => hfg.blockAt_eq hf hg c
  have hsummary : Summary.summaryOf g kind.locate = Summary.summaryOf f kind.locate := by
    unfold Summary.summaryOf
    rw [hblocks, hfg.graph.entry_eq]
  unfold BlockPlan.planAt
  rw [hsummary, hfg.blockAt_eq hf hg, hfg.statements]
  congr 1
  refine List.map_congr_left fun s hs => ?_
  obtain ⟨t, ht⟩ := hf.exists_holds hs
  unfold BlockPlan.visitAt
  rw [BlockPlan.readsAt_congr ht (hfg.holds ht), hfg.definitionOf_eq hf hs]

end Plans

/-- What was undressed is tagged as if it had never been dressed. -/
theorem Undressed.tag_eq {f' : Flow} {stats : TagStats} (hf : f.Plain) (htidy : f.Tidy) (hconnected : f.Connected)
    (hg : g.Forest) (hrun : tag kind f = .ok (stats, f')) :
    ∃ g', tag kind g = .ok (stats, g') ∧ (behind f g).Embeds f' g' := by
  have hplans : g.blocks.keys.map (BlockPlan.planAt g kind) = f.blocks.keys.map (BlockPlan.planAt f kind) := by
    rw [hfg.graph.keys_eq]
    exact List.map_congr_left fun a _ => hfg.planAt_eq hf.forest hg a
  refine tag_parallel (hfg.embeds hf htidy) (BlockPlan.ofFlow_eq hf.forest) (hplans ▸ BlockPlan.ofFlow_eq hg) ?_ hrun
  intro plan hplan
  obtain ⟨a, ha, rfl⟩ := List.mem_map.1 hplan
  obtain ⟨b, hb⟩ := SortedMap.mem_keys.1 ha
  exact fixedPlan_planAt hf.forest hconnected (Option.ne_none_iff_exists'.2 ⟨b, hb⟩)

end Undressed

/-- The texts of the statements of a block. -/
def textsAt (f : Flow) (a : Address) : Except Fault (List String) :=
  (f.statementsAt a).mapM f.statementText

theorem exists_textsAt (hf : f.Forest) (a : Address) : ∃ texts, textsAt f a = .ok texts := by
  have hall : ∀ ss ⊆ f.statementsAt a, ∃ texts, ss.mapM f.statementText = .ok texts := by
    intro ss hss
    induction ss with
    | nil => exact ⟨[], rfl⟩
    | cons s rest ih =>
      obtain ⟨t, ht⟩ := hf.exists_holds (hss (List.mem_cons_self ..))
      obtain ⟨texts, htexts⟩ := ih fun s' hs' => hss (List.mem_cons_of_mem _ hs')
      exact ⟨t.text :: texts, by rw [List.mapM_cons, ht.statementText_eq, htexts]; rfl⟩
  exact hall _ fun _ hs => hs

/-- Untagging is the inverse of tagging. After tags of any kinds, and untagging, the blocks have the
    statements of before, with the same trees of the same nodes, and no node of them has a version or a
    link. Tagging the result once more gives the same texts and counts as tagging the flow of before. -/
theorem untag_tags (hf : f.IsLowered) (kinds : List LocationKind) :
    ∃ g, (do kinds.forM (fun kind => do let _ ← tag kind); untag : Edit Unit) f = .ok ((), g) ∧
      g.liveStatements = f.liveStatements ∧
      (∀ a, (g.block? a).map Block.statements = (f.block? a).map Block.statements) ∧
      (∀ s ∈ f.liveStatements, ∃ t, f.statementTerm s = .ok t ∧ g.statementTerm s = .ok t ∧
        f.statementText s = .ok t.text ∧ g.statementText s = .ok t.text ∧
        ∀ x ∈ t.preorder, g.link x = .ok .unlinked ∧ ∃ e, g.expr x = .ok e ∧ e.version? = none) ∧
      ∀ kind, ∃ stats f' g', tag kind f = .ok (stats, f') ∧ tag kind g = .ok (stats, g') ∧
        ∀ a, ∃ texts, textsAt f' a = .ok texts ∧ textsAt g' a = .ok texts := by
  have hplain := hf.plain
  obtain ⟨_, h, htags, hdressed, hsound, hrooted⟩ := tags_dress hplain hf.tidy hf.connected kinds
  obtain ⟨_, g, huntag, hfg, hg⟩ := untag_dressed hdressed hplain hf.tidy hsound hrooted
  refine ⟨g, ?_, ?_, fun a => ?_, fun s hs => ?_, fun kind => ?_⟩
  · change (_ >>= fun r : Unit × Flow => untag r.2) = _
    rw [htags]
    exact huntag
  · rw [← flatMap_statementsAt, ← flatMap_statementsAt, hfg.graph.keys_eq]
    exact List.flatMap_congr fun a _ => hfg.statements a
  · obtain ⟨hnone, hnone'⟩ | ⟨b, b', hb, hb', -, hlisted⟩ := hfg.block?_cases a
    · rw [hnone, hnone']
    · rw [hb, hb', Option.map_some, Option.map_some, hlisted]
  · obtain ⟨t, ht⟩ := hplain.forest.holds_of_mem hs
    have ht' := hfg.holds ht
    refine ⟨t, ht.statementTerm_eq, ht'.statementTerm_eq, ht.statementText_eq, ht'.statementText_eq, fun x hx => ?_⟩
    obtain ⟨e, p, hshape⟩ := ht'.exists_shape hx
    have hold := ht.stands.shapeAt_ne_none hx
    refine ⟨by rw [link_eq hshape, hfg.link x hold], e, expr_eq hshape, ?_⟩
    exact Expr.version?_eq_none_of_isPlain (hplain.plain x e (exprAt_eq_some (hfg.shape x hold ▸ hshape)))
  · obtain ⟨stats, f', hrun, hf'⟩ := tag_gives kind.permits_any hplain.sound.any hplain.rooted hf.connected
    obtain ⟨g', hrun', hembeds⟩ := hfg.tag_eq hplain hf.tidy hf.connected hg.forest hrun
    refine ⟨stats, f', g', hrun, hrun', fun a => ?_⟩
    obtain ⟨texts, htexts⟩ := exists_textsAt hf'.sound.forest a
    refine ⟨texts, htexts, ?_⟩
    unfold textsAt
    rw [hembeds.statementsAt_eq]
    have hmapped : ((f'.statementsAt a).map (behind f g).statementId).mapM g'.statementText =
        .ok (texts.map fun text => text) :=
      mapM_ok_map htexts fun s _ text hs => hembeds.statementText_eq hs
    rwa [List.map_id'] at hmapped

/-- The loop is tagged three times, and is then as it was before. -/
theorem untag_tags_loop :
    ∃ g, (do [.registers, .derefs, .registers].forM (fun kind => do let _ ← tag kind); untag : Edit Unit) loopFlow =
        .ok ((), g) ∧
      g.liveStatements = loopFlow.liveStatements ∧
      (∀ a, (g.block? a).map Block.statements = (loopFlow.block? a).map Block.statements) ∧
      (∀ s ∈ loopFlow.liveStatements, ∃ t, loopFlow.statementTerm s = .ok t ∧ g.statementTerm s = .ok t ∧
        loopFlow.statementText s = .ok t.text ∧ g.statementText s = .ok t.text ∧
        ∀ x ∈ t.preorder, g.link x = .ok .unlinked ∧ ∃ e, g.expr x = .ok e ∧ e.version? = none) ∧
      ∀ kind, ∃ stats f' g', tag kind loopFlow = .ok (stats, f') ∧ tag kind g = .ok (stats, g') ∧
        ∀ a, ∃ texts, textsAt f' a = .ok texts ∧ textsAt g' a = .ok texts :=
  untag_tags loopFlow_isLowered [.registers, .derefs, .registers]

end Tagging

end FrameRecovery
