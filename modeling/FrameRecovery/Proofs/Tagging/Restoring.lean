import FrameRecovery.Proofs.Tagging.Dressed
import FrameRecovery.Proofs.Tagging.Untag

namespace FrameRecovery

namespace Edit

variable {link : NodeId → Link} {x y : NodeId} {us : List NodeId}

/-- What is a definition after a link was removed was one before, with those uses at least. -/
theorem exists_definition_of_unlinked (h : unlinked link x y = .definition us) :
    ∃ us₀, link y = .definition us₀ ∧ us ⊆ us₀ := by
  by_cases hyx : y = x
  · subst hyx
    unfold unlinked at h
    rcases hl : link y with _ | us₀ | _ | d
    · simp [hl] at h
    · by_cases hy : y ∈ us₀ <;> simp [hl, hy] at h
    · simp [hl] at h
    · simp [hl] at h
  · obtain ⟨_, -, -, heq⟩ | ⟨us₀, hus₀, heq⟩ | ⟨heq, -⟩ := Tagging.unlinked_cases link hyx
    · rw [heq] at h
      cases h
    · rw [heq] at h
      cases h
      exact ⟨us₀, hus₀, List.filter_subset_self _⟩
    · exact ⟨us, heq ▸ h, fun _ hu => hu⟩

/-- What is unlinked stays so unless it is recorded as a use. -/
theorem unlinked_eq_unlinked (hx : link x = .unlinked) (hy : ∀ us, link y = .definition us → x ∉ us) :
    unlinked link y x = .unlinked := by
  unfold unlinked
  rcases hl : link y with _ | us | _ | d
  · simp [hx]
  · simp [hx, hy us hl]
  · simp [hx]
  · simp [hx]

theorem exists_definition_of_foldl_unlinked (xs : List NodeId) (h : xs.foldl unlinked link y = .definition us) :
    ∃ us₀, link y = .definition us₀ ∧ us ⊆ us₀ := by
  induction xs generalizing link with
  | nil => exact ⟨us, h, fun _ hu => hu⟩
  | cons x rest ih =>
    obtain ⟨us₁, h₁, hsub⟩ := ih h
    obtain ⟨us₀, h₀, hsub'⟩ := exists_definition_of_unlinked h₁
    exact ⟨us₀, h₀, List.Subset.trans hsub hsub'⟩

theorem foldl_unlinked_eq_unlinked (xs : List NodeId) (hx : link x = .unlinked)
    (hxs : ∀ y ∈ xs, ∀ us, link y = .definition us → x ∉ us) : xs.foldl unlinked link x = .unlinked := by
  induction xs generalizing link with
  | nil => exact hx
  | cons y rest ih =>
    refine ih (unlinked_eq_unlinked hx (hxs y (by simp))) fun z hz us hus hmem => ?_
    obtain ⟨us₀, hus₀, hsub⟩ := exists_definition_of_unlinked hus
    exact hxs z (by simp [hz]) us₀ hus₀ (hsub hmem)

end Edit

namespace Flow

variable {f g h : Flow} {m s : StatementId} {st : Statement} {x : NodeId} {e : Expr NodeId} {a : Address}

theorem expr_eq_ok_iff : f.expr x = .ok e ↔ f.exprAt x = some e := by
  constructor
  · intro h
    obtain ⟨n, hn, heq⟩ := exists_of_except_bind h
    cases heq
    simp [exprAt, shapeAt, getElem?_of_node hn]
  · intro h
    obtain ⟨p, hp⟩ := exists_shapeAt_of_exprAt h
    exact expr_eq hp

/-- A statement assigns a merge. -/
def AssignsTheta (f : Flow) (m : StatementId) : Prop :=
  ∃ st d y inputs, f.statementAt m = some st ∧ f.exprAt st.root = some (.assign d y) ∧
    f.exprAt y = some (.theta inputs)

theorem MergesTo.assignsTheta {d : NodeId} (hm : f.MergesTo m d) : f.AssignsTheta m := by
  obtain ⟨st, y, inputs, -, hst, hroot, hy, -⟩ := hm
  exact ⟨st, d, y, inputs, hst, hroot, hy⟩

theorem AssignsTheta.isThetaAssignment_eq (hm : f.AssignsTheta m) : Tagging.isThetaAssignment f m = .ok true := by
  obtain ⟨st, d, y, inputs, hst, hroot, hy⟩ := hm
  obtain ⟨p, hp⟩ := exists_shapeAt_of_exprAt hroot
  unfold Tagging.isThetaAssignment
  rw [rootExpr_eq hst hp]
  change (f.expr y >>= fun e => Except.ok e.isTheta) = _
  rw [expr_eq_ok_iff.2 hy]
  rfl

theorem assignsTheta_of_isThetaAssignment (h : Tagging.isThetaAssignment f m = .ok true) : f.AssignsTheta m := by
  obtain ⟨r, hr, h⟩ := exists_of_except_bind h
  obtain ⟨st, hst, hroot⟩ := exists_of_except_bind hr
  split at h
  next d y =>
    obtain ⟨e, he, htheta⟩ := exists_of_except_bind h
    cases e with
    | theta inputs =>
      exact ⟨st, d, y, inputs, statementAt_of_statement hst, expr_eq_ok_iff.1 hroot, expr_eq_ok_iff.1 he⟩
    | _ => cases htheta
  next => cases h

/-- The statements of a plain flow assign no merges, also when they have versions. -/
theorem Wears.not_assignsTheta (hfg : Wears f g) (hf : f.Plain) (hs : f.statementAt s ≠ none) : ¬ g.AssignsTheta s := by
  rintro ⟨st, d, y, inputs, hst, hroot, hy⟩
  obtain ⟨st', hst'⟩ := Option.ne_none_iff_exists'.1 hs
  obtain rfl := Option.some.inj (hst.symm.trans (hfg.statement s st' hst'))
  obtain ⟨u, hu⟩ := hf.forest.holds s st hst'
  -- neither an assignment nor a merge has a version to lose
  have hsame : ∀ {z e e'}, f.exprAt z = some e → g.exprAt z = some e' → e'.isAssignable = false → e = e' := by
    intro z e e' he he' hkind
    obtain ⟨p, hz⟩ := exists_shapeAt_of_exprAt he
    obtain ⟨e₁, he₁, rfl | hversion⟩ := hfg.shape z e p hz
    · exact Option.some.inj ((exprAt_eq_some he₁).symm.trans he')
    · obtain rfl := Option.some.inj ((exprAt_eq_some he₁).symm.trans he')
      cases e₁ <;> simp_all [Expr.isAssignable, Expr.withVersion?]
  obtain ⟨st'', hst'', hid, hstands⟩ := hu
  obtain rfl := Option.some.inj (hst'.symm.trans hst'')
  obtain ⟨i, E⟩ := u
  have hE := hsame (exprAt_eq_some hstands.shape_id) (hid ▸ hroot) rfl
  cases E with
  | assign D Y =>
    cases hE
    obtain ⟨q, hY⟩ := hstands.exists_of_within (.of_mem_children (c := Y) (by simp [Expr.children]))
    have htheta := hsame (exprAt_eq_some hY.shape_id) hy rfl
    have hplain := hf.plain _ _ (exprAt_eq_some hY.shape_id)
    rw [htheta] at hplain
    cases hplain
  | _ => cases hE

end Flow

namespace Tagging

open Flow

variable {f g h : Flow} {V : Locations} {kind : LocationKind} {m s : StatementId} {x y : NodeId} {t u : Term}
  {rest : List StatementId}

theorem Bares.assignsTheta (hgh : Bares g h) (hstatement : h.statementAt = g.statementAt) (hm : g.AssignsTheta m) :
    h.AssignsTheta m := by
  obtain ⟨st, d, y, inputs, hst, hroot, hy⟩ := hm
  refine ⟨st, d, y, inputs, hstatement ▸ hst, hgh.exprAt_assign_iff.2 hroot, ?_⟩
  obtain hsame | ⟨e, e', he, hv, -⟩ := hgh.exprAt_cases y
  · exact hsame.trans hy
  · rw [hy] at he
    cases he
    cases hv

/-- What a flow `f` has is in a flow `g` as it is there, without links, and all that `g` has more is
    removed. -/
structure Undressed (f g : Flow) : Prop where
  graph : f.SameGraph g
  statements : ∀ a, g.statementsAt a = f.statementsAt a
  statement : ∀ s st, f.statementAt s = some st → g.statementAt s = some st
  shape : ∀ x, f.shapeAt x ≠ none → g.shapeAt x = f.shapeAt x
  link : ∀ x, f.shapeAt x ≠ none → g.linkOf x = .unlinked

/-- A node of a flow that is in one of some statements there. -/
def Awaits (f : Flow) (rest : List StatementId) (x : NodeId) : Prop :=
  ∃ s ∈ rest, ∃ u, f.Holds s u ∧ x ∈ u.preorder

/-- The state of a flow, `f` before it was tagged, in which the statements `rest` are still to be untagged.
    What `f` has is as it was, or its statement is still to come. What reads a merge that is still to
    come is in a statement after that. -/
structure Restoring (f : Flow) (rest : List StatementId) (g : Flow) : Prop where
  wears : Wears f g
  heads : ∀ a, ∃ ms, g.statementsAt a = ms ++ f.statementsAt a ∧
    ∀ m ∈ ms, m ∈ rest ∧ f.statementAt m = none ∧ g.AssignsTheta m
  restored : ∀ x, f.shapeAt x ≠ none →
    Awaits f rest x ∨ g.shapeAt x = f.shapeAt x ∧ g.linkOf x = .unlinked
  ordered : ∀ m t x y us, m ∈ rest → f.statementAt m = none → g.Holds m t → y ∈ t.preorder →
    g.linkOf y = .definition us → x ∈ us → f.shapeAt x ≠ none →
    ∃ s u, f.Holds s u ∧ x ∈ u.preorder ∧ [m, s].Sublist rest

namespace Restoring

/-- Everything that a flow was dressed in is still there in the beginning. -/
theorem start (hfg : Dressed f g) (hf : f.Plain) (htidy : f.Tidy) (hg : g.Sound V) : Restoring f g.liveStatements g := by
  have hlisted : ∀ {a s}, s ∈ g.statementsAt a → s ∈ g.liveStatements := fun hs =>
    hg.forest.mem_liveStatements.2 (hg.forest.live hs)
  refine ⟨hfg.toWears, fun a => ?_, fun x hx => .inl ?_, fun m t x y us hm hnew ht hy hlink hmem hx => ?_⟩
  · obtain ⟨ms, hms, hmerges⟩ := hfg.heads a
    refine ⟨ms, hms, fun m hm => ?_⟩
    obtain ⟨hnone, d, hd⟩ := hmerges m hm
    exact ⟨hlisted (a := a) (hms ▸ List.mem_append_left _ hm), hnone, hd.assignsTheta⟩
  · obtain ⟨s, u, ⟨st, hst, hremoved⟩, hu, hxu⟩ := htidy x hx
    obtain ⟨ms, hms, -⟩ := hfg.heads st.block
    refine ⟨s, hlisted (a := st.block) ?_, u, hu, hxu⟩
    rw [hms]
    exact List.mem_append_right _ (hf.forest.mem_statementsAt.2 ⟨st, hst, hremoved, rfl⟩)
  · obtain ⟨st, hst, hremoved⟩ := hg.forest.mem_liveStatements.1 hm
    have hma := hg.forest.mem_statementsAt.2 ⟨st, hst, hremoved, rfl⟩
    have hread : g.linkOf x = .use (some y) := (hg.mirrored.recorded x y).2 (by simpa [hlink] using hmem)
    obtain ⟨s, hs, u, hu, hxu⟩ := hfg.near st.block m t x y hma hnew ht hy hx hread
    obtain ⟨ms, hms, -⟩ := hfg.heads st.block
    have hmms := hf.forest.mem_of_append hms hma hnew
    refine ⟨s, u, hu, hxu, ?_⟩
    have hblock : [m, s].Sublist (g.statementsAt st.block) := by
      rw [hms]
      exact (List.singleton_sublist.2 hmms).append (List.singleton_sublist.2 hs)
    refine hblock.trans ?_
    obtain ⟨b, hb⟩ := hg.forest.homed m st hst
    rw [← flatMap_statementsAt]
    exact List.sublist_flatten_of_mem (List.mem_map_of_mem (SortedMap.mem_keys.2 ⟨b, hb⟩))

/-- What comes after another statement than the first is still to come without that. -/
private theorem sublist_rest {m s' : StatementId} (hsub : [m, s'].Sublist (s :: rest)) (hne : m ≠ s) :
    [m, s'].Sublist rest := by
  cases hsub with
  | cons _ h => exact h
  | cons_cons _ _ => exact absurd rfl hne

section Step

variable (hg : Restoring f (s :: rest) g)
include hg

/-- A merge goes. It is no statement of before, and what reads it is still to come. -/
theorem merge {st : Statement} (hf : f.Plain) (hforest : g.Forest) (hs : s ∉ rest) (ht : g.Holds s t)
    (hmerges : g.AssignsTheta s) (hst : g.statementAt s = some st) (hgh : g.Removes h s st)
    (hlink : h.linkOf = t.postorder.foldl Edit.unlinked g.linkOf) : Restoring f rest h := by
  have hnew : f.statementAt s = none := by
    by_contra hne
    exact hg.wears.not_assignsTheta hf hne hmerges
  have hne : ∀ {s'}, f.statementAt s' ≠ none → s' ≠ s := fun hs' heq => hs' (heq ▸ hnew)
  have hold : ∀ {s' u}, f.Holds s' u → s' ≠ s := by
    rintro s' u ⟨st', hst', -⟩
    exact hne (by simp [hst'])
  refine ⟨⟨hg.wears.graph.trans hgh.graph, by rw [hgh.shape_eq]; exact hg.wears.shape, fun s' st' hst' => ?_⟩,
    fun a => ?_, fun x hx => ?_, fun m u x y us hm hmnew hu hy hy' hmem hx => ?_⟩
  · rw [hgh.statementAt_eq, Function.update_of_ne (hne (by simp [hst']))]
    exact hg.wears.statement s' st' hst'
  · obtain ⟨ms, hms, hheads⟩ := hg.heads a
    refine ⟨ms.filter (· != s), ?_, fun m hm => ?_⟩
    · rw [hgh.statementsAt_eq hforest hst, hms, List.filter_append]
      congr 1
      rw [List.filter_eq_self]
      intro s' hs'
      obtain ⟨st', hst', -⟩ := hf.forest.mem_statementsAt.1 hs'
      exact bne_iff_ne.2 (hne (by simp [hst']))
    · rw [List.mem_filter, bne_iff_ne] at hm
      obtain ⟨hrest, hnone, st', d, y, inputs, hst', hroot, hy⟩ := hheads m hm.1
      refine ⟨(List.mem_cons.1 hrest).resolve_left hm.2, hnone, st', d, y, inputs, ?_, ?_, ?_⟩
      · rw [hgh.statementAt_eq, Function.update_of_ne hm.2, hst']
      · rw [hgh.exprAt_eq, hroot]
      · rw [hgh.exprAt_eq, hy]
  · rw [hgh.shape_eq, hlink]
    by_cases hread : ∃ y ∈ t.postorder, ∃ us, g.linkOf y = .definition us ∧ x ∈ us
    · obtain ⟨y, hy, us, hus, hmem⟩ := hread
      obtain ⟨s', u, hu, hxu, hsub⟩ :=
        hg.ordered s t x y us (by simp) hnew ht (Term.mem_postorder.1 hy) hus hmem hx
      refine .inl ⟨s', ?_, u, hu, hxu⟩
      exact (List.mem_cons.1 (hsub.subset (by simp))).resolve_left (hold hu)
    · obtain ⟨s', hs', u, hu, hxu⟩ | ⟨hshape, hunlinked⟩ := hg.restored x hx
      · exact .inl ⟨s', (List.mem_cons.1 hs').resolve_left (hold hu), u, hu, hxu⟩
      · refine .inr ⟨hshape, Edit.foldl_unlinked_eq_unlinked _ hunlinked fun y hy us hus hmem => ?_⟩
        exact hread ⟨y, hy, us, hus, hmem⟩
  · have hms : m ≠ s := fun heq => hs (heq ▸ hm)
    obtain ⟨us₀, hus₀, hsub⟩ := Edit.exists_definition_of_foldl_unlinked _ (hlink ▸ hy')
    obtain ⟨st', hst', -⟩ := id hu
    rw [hgh.statementAt_eq, Function.update_of_ne hms] at hst'
    obtain ⟨u', hu'⟩ := hforest.holds m st' hst'
    obtain rfl := hu.unique (hgh.holds hst hu')
    obtain ⟨s', w, hw, hxw, hlater⟩ := hg.ordered m u x y us₀ (by simp [hm]) hmnew hu' hy hus₀ (hsub hmem) hx
    exact ⟨s', w, hw, hxw, sublist_rest hlater hms⟩

/-- A statement of before loses what it was given. -/
theorem plain {xs : List NodeId} (hf : f.Plain) (hforest : g.Forest) (hlive : g.Live s) (ht : g.Holds s t)
    (hkeeps : ¬ g.AssignsTheta s) (hnodes : ∀ x, x ∈ xs ↔ x ∈ t.preorder) (hgh : Strips g xs h) :
    Restoring f rest h := by
  have hstatement : h.statementAt = g.statementAt := by
    funext s'
    simp [statementAt, hgh.statements_eq]
  have hstatements : ∀ a, h.statementsAt a = g.statementsAt a := fun a => by
    simp [statementsAt, block?, hgh.blocks_eq]
  obtain ⟨st, hst, hremoved⟩ := id hlive
  have hold : ∀ {m}, f.statementAt m = none → m ≠ s := by
    rintro m hm rfl
    obtain ⟨ms, hms, hheads⟩ := hg.heads st.block
    have hmem := hforest.mem_statementsAt.2 ⟨st, hst, hremoved, rfl⟩
    rw [hms, List.mem_append] at hmem
    obtain hmem | hmem := hmem
    · exact hkeeps (hheads m hmem).2.2
    · obtain ⟨st', hst', -⟩ := hf.forest.mem_statementsAt.1 hmem
      rw [hm] at hst'
      cases hst'
  -- what a plain flow has is without versions
  have hbare : ∀ {e : Expr NodeId} {z}, f.exprAt z = some e → ∀ e', e.withVersion? none = some e' → e' = e := by
    intro e z he e' he'
    have hversion := Expr.version?_eq_none_of_isPlain (hf.plain z e he)
    cases e <;> cases he' <;> cases hversion <;> rfl
  have hwears : Wears f h := by
    refine ⟨hg.wears.graph.trans (.of_blocks_eq hgh.entry_eq hgh.blocks_eq), fun x e p hx => ?_, fun s' st' hst' => ?_⟩
    · obtain ⟨e₁, he₁, heq⟩ := hg.wears.shape x e p hx
      obtain hsame | ⟨e₂, e₃, p', he₂, hv, he₃⟩ := hgh.bares x
      · exact ⟨e₁, hsame.trans he₁, heq⟩
      · obtain ⟨rfl, rfl⟩ := Prod.mk.inj (Option.some.inj (he₁.symm.trans he₂))
        refine ⟨e₃, he₃, .inl ?_⟩
        obtain rfl | hversion := heq
        · exact hbare (exprAt_eq_some hx) e₃ hv
        · exact Option.some.inj (hv.symm.trans hversion)
    · exact hstatement ▸ hg.wears.statement s' st' hst'
  refine ⟨hwears, fun a => ?_, fun x hx => ?_, fun m u x y us hm hnew hu hy hlink hmem hx => ?_⟩
  · obtain ⟨ms, hms, hheads⟩ := hg.heads a
    refine ⟨ms, (hstatements a).trans hms, fun m hm => ?_⟩
    obtain ⟨hrest, hnone, htheta⟩ := hheads m hm
    exact ⟨(List.mem_cons.1 hrest).resolve_left (hold hnone), hnone, hgh.bares.assignsTheta hstatement htheta⟩
  · obtain ⟨⟨e, p⟩, hshape⟩ := Option.ne_none_iff_exists'.1 hx
    by_cases hxt : x ∈ xs
    · refine .inr ⟨?_, by rw [hgh.link, if_pos hxt]⟩
      obtain ⟨e', he', heq⟩ := hwears.shape x e p hshape
      have hversion := hgh.bare x hxt e' p he'
      obtain rfl | hlost := heq
      · exact he'.trans hshape.symm
      · obtain rfl : e' = e := by cases e' <;> cases hversion <;> cases hlost <;> rfl
        exact he'.trans hshape.symm
    · rw [hgh.kept x hxt, hgh.link, if_neg hxt]
      obtain ⟨s', hs', u, hu, hxu⟩ | hdone := hg.restored x hx
      · refine .inl ⟨s', (List.mem_cons.1 hs').resolve_left ?_, u, hu, hxu⟩
        rintro rfl
        obtain ⟨u', hu', -, hpreorder⟩ := hg.wears.exists_holds hu
        exact hxt ((hnodes x).2 (hu'.unique ht ▸ hpreorder ▸ hxu))
      · exact .inr hdone
  · obtain ⟨st', hst', -⟩ := id hu
    obtain ⟨u', hu'⟩ := hforest.holds m st' (hstatement ▸ hst')
    obtain ⟨u'', hu'', -, hpreorder⟩ := hgh.bares.exists_holds hstatement hu'
    obtain rfl := hu.unique hu''
    rw [hgh.link] at hlink
    split at hlink
    · cases hlink
    · obtain ⟨s', w, hw, hxw, hlater⟩ :=
        hg.ordered m u' x y us (by simp [hm]) hnew hu' (hpreorder ▸ hy) hlink hmem hx
      exact ⟨s', w, hw, hxw, sublist_rest hlater (hold hnew)⟩

theorem step {f₀ : Flow} (hf : f.Plain) (huntagging : Untagging f₀ (s :: rest) g) (ht : g.Holds s t)
    (hgh : Untags g s t h) : Restoring f rest h := by
  cases hgh with
  | merge hmerges hst hremoves hlink =>
    exact hg.merge hf huntagging.forest (List.nodup_cons.1 huntagging.nodup).1 ht
      (assignsTheta_of_isThetaAssignment hmerges) hst hremoves hlink
  | plain hkeeps hnodes hstrips =>
    refine hg.plain hf huntagging.forest (huntagging.live s (by simp)) ht (fun htheta => ?_) hnodes hstrips
    rw [htheta.isThetaAssignment_eq] at hkeeps
    cases hkeeps

end Step

/-- In the end everything is as it was. -/
theorem undressed (hg : Restoring f [] g) : Undressed f g := by
  have hback : ∀ x, f.shapeAt x ≠ none → g.shapeAt x = f.shapeAt x ∧ g.linkOf x = .unlinked := by
    intro x hx
    refine (hg.restored x hx).resolve_left ?_
    rintro ⟨s, hs, -⟩
    cases hs
  refine ⟨hg.wears.graph, fun a => ?_, hg.wears.statement, fun x hx => (hback x hx).1, fun x hx => (hback x hx).2⟩
  obtain ⟨ms, hms, hheads⟩ := hg.heads a
  obtain rfl : ms = [] := List.eq_nil_iff_forall_not_mem.2 fun m hm => by
    obtain ⟨hrest, -⟩ := hheads m hm
    cases hrest
  exact hms

end Restoring

/-- Untagging takes away what tagging has put on a flow. -/
theorem untag_dressed (hfg : Dressed f g) (hf : f.Plain) (htidy : f.Tidy) (hg : g.Sound V) (hrooted : g.Rooted) :
    Gives untag g fun _ h => Undressed f h ∧ h.Sound .any :=
  (untag_keeps hg hrooted (Restoring.start hfg hf htidy hg) fun _ _ _ _ _ huntagging ht huntags hrestoring =>
    hrestoring.step hf huntagging ht huntags).mono fun _ _ ⟨huntagging, hrestoring⟩ =>
      ⟨hrestoring.undressed, huntagging.sound⟩

/-- Tags of any kinds, one after the other, dress a flow that comes from instructions. -/
theorem tags_dress (hf : f.Plain) (htidy : f.Tidy) (hconnected : f.Connected) (kinds : List LocationKind) :
    Gives (kinds.forM fun kind => do let _ ← tag kind) f fun _ g =>
      Dressed f g ∧ g.Sound .any ∧ g.Rooted := by
  refine Gives.of_forM (I := fun _ g => Dressed f g ∧ g.Sound .any ∧ g.Rooted) ?_ kinds
    ⟨.refl hf, hf.sound.any, hf.rooted⟩
  rintro kind rest g ⟨hfg, hg, hrooted⟩
  have hgconnected := hfg.graph.connected hconnected
  refine .of_bind ((tag_gives kind.permits_any hg hrooted hgconnected).mono fun _ h hh => .of_pure ?_)
  exact ⟨hfg.tagged hf htidy hg hgconnected hh, hh.sound, hh.rooted⟩

end Tagging

end FrameRecovery
