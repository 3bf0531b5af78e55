import FrameRecovery.Proofs.RegisterLinks
import FrameRecovery.Proofs.Tagging.Restoring

namespace FrameRecovery

open Flow

namespace Flow

variable {f g : Flow} {s : StatementId} {t : Term}

/-- Whether a statement assigns a merge can be read off its tree. -/
theorem Holds.isMerge_iff (h : f.Holds s t) : f.isMerge s = true ↔ f.AssignsTheta s := by
  rw [h.isMerge_eq]
  obtain ⟨st, hst, hroot, hstands⟩ := h
  obtain ⟨i, e⟩ := t
  have hi := exprAt_eq_some hstands.shape_id
  obtain ⟨-, -, below⟩ := hstands
  constructor
  · intro hmerge
    cases e with
    | assign x y =>
      have hy := exprAt_eq_some (below y (by simp [Expr.children])).shape_id
      obtain ⟨j, ey⟩ := y
      cases ey with
      | theta inputs => exact ⟨st, x.id, j, _, hst, hroot ▸ hi, hy⟩
      | _ => cases hmerge
    | _ => cases hmerge
  · rintro ⟨st', d, y, inputs, hst', hr, hy⟩
    obtain rfl := Option.some.inj (hst.symm.trans hst')
    rw [hroot, Term.id_node] at hr
    rw [Term.id_node, Term.expr_node, hr] at hi
    cases e with
    | assign X Y =>
      cases hi
      have hY := exprAt_eq_some (below Y (by simp [Expr.children])).shape_id
      rw [hy] at hY
      obtain ⟨j, ey⟩ := Y
      cases ey <;> cases hY
      rfl
    | _ => cases hi

end Flow

namespace Tagging

variable {f g h : Flow} {V : Locations} {s : StatementId} {t : Term} {rest : List StatementId} {xs : List NodeId}

/-- A merge has no version to lose. -/
theorem Bares.assignsTheta_iff (hfg : Bares f g) (hstatement : g.statementAt s = f.statementAt s) :
    g.AssignsTheta s ↔ f.AssignsTheta s := by
  have htheta : ∀ {y inputs}, g.exprAt y = some (.theta inputs) ↔ f.exprAt y = some (.theta inputs) := by
    intro y inputs
    obtain hsame | ⟨e, e', he, hv, he'⟩ := hfg.exprAt_cases y
    · rw [hsame]
    · rw [he, he']
      refine iff_of_false (fun h => ?_) fun h => ?_
      · cases h
        cases e <;> cases hv
      · cases h
        cases hv
  unfold AssignsTheta
  simp only [hstatement, hfg.exprAt_assign_iff, htheta]

/-- The state of a flow, `f` before, in which the statements `rest` are still to be untagged: the
    merges among the others are gone, and the rest of them has no versions. -/
structure Baring (f : Flow) (rest : List StatementId) (g : Flow) : Prop where
  bares : Bares f g
  statement : ∀ s, g.Live s → g.statementAt s = f.statementAt s
  statements : ∀ a, g.statementsAt a = (f.statementsAt a).filter fun s => s ∈ rest || !f.isMerge s
  bare : ∀ s t, f.Live s → f.isMerge s = false → s ∉ rest → f.Holds s t →
    ∀ x ∈ t.preorder, ∀ e p, g.shapeAt x = some (e, p) → e.version? = none

namespace Baring

theorem start (hf : f.Forest) : Baring f f.liveStatements f := by
  have hmem : ∀ a, ∀ s ∈ f.statementsAt a, s ∈ f.liveStatements := fun a s hs =>
    hf.mem_liveStatements.2 (hf.live hs)
  refine ⟨.refl f, fun _ _ => rfl, fun a => ?_, fun s t hs _ hnot => absurd (hf.mem_liveStatements.2 hs) hnot⟩
  symm
  rw [List.filter_eq_self]
  intro s hs
  simp [hmem a s hs]

variable (hg : Baring f (s :: rest) g) (hnot : s ∉ rest)
include hg hnot

theorem merge {st : Statement} (hforest : g.Forest) (hst : g.statementAt s = some st) (hmerge : f.isMerge s = true)
    (hgh : g.Removes h s st) : Baring f rest h := by
  refine ⟨fun x => ?_, fun c hc => ?_, fun a => ?_, fun c t hc hplain hrest ht x hx e p he => ?_⟩
  · rw [hgh.shape_eq]
    exact hg.bares x
  · obtain ⟨hne, hlive⟩ := hgh.live_old hc
    rw [hgh.statementAt_eq, Function.update_of_ne hne, hg.statement c hlive]
  · rw [hgh.statementsAt_eq hforest hst, hg.statements, List.filter_filter]
    refine List.filter_congr fun c _ => ?_
    by_cases hc : c = s
    · simp [hc, hnot, hmerge]
    · simp [hc]
  · rw [hgh.shape_eq] at he
    have hne : c ≠ s := by
      rintro rfl
      rw [hplain] at hmerge
      cases hmerge
    exact hg.bare c t hc hplain (by simp [hne, hrest]) ht x hx e p he

theorem plain (hplain : f.isMerge s = false) (hsame : g.statementAt s = f.statementAt s)
    (ht : g.Holds s t) (hxs : ∀ x, x ∈ xs ↔ x ∈ t.preorder) (hgh : Strips g xs h) : Baring f rest h := by
  have hstatement : ∀ c, h.statementAt c = g.statementAt c := fun c => by
    simp [statementAt, hgh.statements_eq]
  refine ⟨hg.bares.trans hgh.bares, fun c hc => ?_, fun a => ?_, fun c T hc hplain' hrest hT x hx e p he => ?_⟩
  · rw [hstatement]
    exact hg.statement c (hc.congr (hstatement c).symm)
  · have hsame : h.statementsAt a = g.statementsAt a := by
      simp [statementsAt, block?, hgh.blocks_eq]
    rw [hsame, hg.statements]
    refine List.filter_congr fun c _ => ?_
    by_cases hc : c = s
    · simp [hc, hplain]
    · simp [hc]
  · by_cases hxt : x ∈ xs
    · exact hgh.bare x hxt e p he
    · rw [hgh.kept x hxt] at he
      refine hg.bare c T hc hplain' (fun hmem => ?_) hT x hx e p he
      obtain rfl | hmem := List.mem_cons.1 hmem
      · obtain ⟨st, hst, hroot, hstands⟩ := hT
        obtain ⟨T', hT', hid, hpreorder⟩ := hg.bares.exists_stands hstands
        have hholds : g.Holds c T' := ⟨st, hsame ▸ hst, hroot.trans hid.symm, hT'⟩
        exact hxt ((hxs x).2 (hholds.unique ht ▸ hpreorder ▸ hx))
      · exact hrest hmem

end Baring

/-- What is live on the way is what was live in the beginning, without the merges that are gone. -/
theorem Baring.mem_liveStatements_iff (hg : Baring f rest g) (hgraph : f.SameGraph g) :
    s ∈ g.liveStatements ↔ s ∈ f.liveStatements ∧ (s ∈ rest ∨ f.isMerge s = false) := by
  have heq : g.liveStatements = f.liveStatements.filter fun s => s ∈ rest || !f.isMerge s := by
    rw [← flatMap_statementsAt g, hgraph.keys_eq, List.flatMap_congr fun a _ => hg.statements a,
      ← List.filter_flatMap, flatMap_statementsAt]
  simp [heq]

/-- What is taken for a merge on the way is what was one in the beginning. -/
theorem Baring.isThetaAssignment_iff (hg : Baring f rest g) (hf : f.Forest) (hs : g.Live s) :
    isThetaAssignment g s = .ok true ↔ f.isMerge s = true := by
  have hsame := hg.statement s hs
  obtain ⟨st, hst, -⟩ := id hs
  obtain ⟨T, hT⟩ := hf.holds s st (hsame ▸ hst)
  rw [hT.isMerge_iff, ← hg.bares.assignsTheta_iff hsame]
  exact ⟨assignsTheta_of_isThetaAssignment, AssignsTheta.isThetaAssignment_eq⟩

/-- A tree on the way is the one in the beginning, versions apart. -/
theorem Baring.exists_holds (hg : Baring f rest g) (hf : f.Forest) (hs : g.Live s) (ht : g.Holds s t) :
    ∃ T, f.Holds s T ∧ T.preorder = t.preorder := by
  obtain ⟨st, hst, hroot, hstands⟩ := id ht
  obtain ⟨T, hT⟩ := hf.holds s st (hg.statement s hs ▸ hst)
  refine ⟨T, hT, ?_⟩
  obtain ⟨st', hst', hroot', hstands'⟩ := id hT
  obtain ⟨t', ht', hid, hpreorder⟩ := hg.bares.exists_stands hstands'
  obtain rfl : st = st' := Option.some.inj ((hg.statement s hs ▸ hst).symm.trans hst')
  rw [← hpreorder, ht.unique ⟨st, hst, hroot'.trans hid.symm, ht'⟩]

theorem Untags.isMerge_cases (huntags : Untags g s t h) (hg : Baring f rest g) (hf : f.Forest) (hs : g.Live s) :
    (f.isMerge s = true ∧ (∃ st, g.statementAt s = some st ∧ g.Removes h s st) ∧
        h.linkOf = t.postorder.foldl Edit.unlinked g.linkOf) ∨
      f.isMerge s = false ∧ ∃ xs, (∀ x, x ∈ xs ↔ x ∈ t.preorder) ∧ Strips g xs h := by
  rw [← hg.isThetaAssignment_iff hf hs, ← Bool.not_eq_true, ← hg.isThetaAssignment_iff hf hs]
  cases huntags with
  | merge hmerges hst hremoves hlink => exact .inl ⟨hmerges, ⟨_, hst, hremoves⟩, hlink⟩
  | plain hkeeps hnodes hstrips => exact .inr ⟨by rw [hkeeps]; nofun, _, hnodes, hstrips⟩

theorem Baring.untags (hg : Baring f (s :: rest) g) (hf : f.Forest) (huntagging : Untagging f (s :: rest) g)
    (ht : g.Holds s t) (huntags : Untags g s t h) : Baring f rest h := by
  have hnot := (List.nodup_cons.1 huntagging.nodup).1
  have hlive := huntagging.live s (by simp)
  obtain ⟨hmerge, ⟨st, hst, hremoves⟩, -⟩ | ⟨hplain, xs, hxs, hstrips⟩ := huntags.isMerge_cases hg hf hlive
  · exact hg.merge hnot huntagging.forest hst hmerge hremoves
  · exact hg.plain hnot hplain (hg.statement s hlive) ht hxs hstrips

/-- Untagging takes the merges away, and the versions from all other statements. -/
theorem untag_bares (hf : f.Sound V) (hrooted : f.Rooted) : Gives untag f fun _ g => g.Sound .any ∧
    f.SameGraph g ∧ Baring f [] g :=
  (untag_keeps hf hrooted (Baring.start hf.forest) fun _ _ _ _ _ huntagging ht huntags hg =>
    hg.untags hf.forest huntagging ht huntags).mono fun _ _ ⟨hg, hbaring⟩ => ⟨hg.sound, hg.graph, hbaring⟩

end Tagging

end FrameRecovery
