import FrameRecovery.Proofs.Precedence
import FrameRecovery.Proofs.Semantics

namespace FrameRecovery

open Flow

namespace Flow

variable {f : Flow} {s : StatementId} {ss before : List StatementId} {n : String} {d x : NodeId}
  {w : Surroundings} {σ : Store} {t y : Term}

theorem Forest.exists_holds_of_walk (hf : f.Forest) (h : f.Walk ss s) : ∃ t, f.Holds s t := by
  obtain ⟨as, a, pre, post, -, hblock, -⟩ := h
  exact hf.exists_holds (a := a) (by simp [hblock])

theorem definitionOf_of_sets (h : f.Sets s n none d) :
    Summary.definitionOf f LocationKind.registers.locate s = some ⟨s, d, n⟩ := by
  obtain ⟨i, y, hterm⟩ := h
  unfold Summary.definitionOf
  rw [hterm]
  rfl

/-- A register that nothing defines on the way holds what it did at the start. -/
theorem register_run_of_none (hnone : Definition.lastSite? n
    (ss.filterMap (Summary.definitionOf f LocationKind.registers.locate)) = none) :
    (f.run w σ ss).register n none = σ.register n none := by
  rw [Definition.lastSite?_eq_none_iff] at hnone
  refine register_run_of_not_sets fun s hs d hsets => ?_
  exact hnone _ (List.mem_filterMap.2 ⟨s, hs, definitionOf_of_sets hsets⟩) rfl

end Flow

namespace Tagging

variable {f g : Flow} {V : Locations} {s : StatementId} {ss : List StatementId} {t u : Term}
  {x d r : NodeId} {e : Expr Term} {e' : Expr NodeId} {v : Word} {w : Surroundings} {σ : Store}
  {n : String} {k : Option Nat}

/-- A node of an instruction differs from what it was before tagging in its version alone. -/
theorem Tagged.untag_eq (ht : Tagged V f .registers g) (hf : f.Plain) (hs : f.Holds s t)
    (hu : Term.Within u t) (hx : g.exprAt u.id = some e') :
    LocationKind.registers.untag e' = u.expr.map Term.id := by
  obtain ⟨q, hstands⟩ := hs.stands.exists_of_within hu
  have he := exprAt_eq_some hstands.shape_id
  have hplain := hf.plain _ _ he
  rw [ht.later.marks.untag_eq he hx]
  cases hexpr : u.expr <;> simp_all [LocationKind.untag, Expr.map, Expr.isPlain]

/-- A register of an instruction, once tagged, is a definition, or a read that is linked to what
    reaches it. -/
theorem Tagged.defines_or_reads (ht : Tagged V f .registers g) (hf : f.Plain) (hconnected : f.Connected)
    {a : Address} {pre post : List StatementId} (ha : f.statementsAt a = pre ++ s :: post)
    (hs : f.Holds s t) (hu : Term.Within (.node x (.register n none)) t) :
    (∃ v, g.Defines .registers n x v) ∨
      ∃ D heads, Exact f g .registers a heads ∧ g.Reads .registers n x D ∧
        Reaches f g .registers a heads pre n D := by
  have hmem : s ∈ f.statementsAt a := by simp [ha]
  have hblock : f.block? a ≠ none := by
    intro hnone
    simp [statementsAt, hnone] at hmem
  obtain hdefinition | hread := definition_or_read hf hs hu
  · have hlive := hf.forest.mem_liveStatements.2 (hf.forest.live hmem)
    exact .inl (ht.defined s hlive _ hdefinition)
  · obtain ⟨heads, hexact⟩ := ht.exact hf.forest hconnected hblock
    obtain ⟨D, hreads, hreaches⟩ := hexact.read pre s post ha _ hread
    exact .inr ⟨D, heads, hexact, hreads, hreaches⟩

/-- A register in a statement, once the registers are tagged, is what the statement assigns to, as a definition,
    or it is a read. -/
theorem Tagged.register_cases (ht : Tagged V f .registers g) (hf : f.Plain) (hconnected : f.Connected)
    (hs : g.Live s) (hholds : g.Holds s t) (hx : x ∈ t.preorder) (hexpr : g.exprAt x = some (.register n k)) :
    (∃ r v, g.Assigns s r x ∧ g.Defines .registers n x v) ∨ ∃ D, g.Reads .registers n x D := by
  obtain ⟨u, hu, rfl⟩ := Term.exists_within_of_mem_preorder hx
  obtain ⟨a, heads, hexact, hhead | hbefore⟩ := ht.exists_place hf.forest hconnected hs
  · obtain ⟨-, l, d, points, hjoins⟩ := hexact.head s hhead
    obtain ⟨i, v, j, xs, hholds', hv, hlink, hall⟩ := Merges.holds hjoins.merges ht.sound.forest
    obtain rfl := hholds.unique hholds'
    obtain ⟨_, _, _, _, heq, -, hregister⟩ := Merges.exists_eq hjoins.merges ht.sound.forest hholds
    cases heq
    obtain ⟨q, hq⟩ := hholds.stands.exists_of_within hu
    rw [exprAt_eq_some hq.shape_id, Option.some.injEq] at hexpr
    obtain rfl | ⟨hmem, w, hw⟩ | rfl := Term.within_merge hregister hu
    · cases hexpr
    · obtain ⟨rfl, rfl⟩ : l = n ∧ w = k := by simpa [hw, Expr.map] using hexpr
      obtain rfl | hmem := List.mem_cons.1 hmem
      · exact .inl ⟨i, v, hholds.assigns, hv, ⟨_, exprAt_eq_some hq.shape_id, rfl⟩, hlink⟩
      · obtain ⟨p, -, hreads⟩ := (exists_of_forall₂ hall).2 u hmem
        exact .inr ⟨_, hreads⟩
    · cases hexpr
  · obtain ⟨t₀, hholds₀⟩ := hf.forest.exists_holds hbefore
    obtain ⟨t', hholds', -, hpreorder⟩ := ht.later.exists_holds hholds₀
    obtain rfl := hholds.unique hholds'
    obtain ⟨⟨y, e⟩, hu₀, hid⟩ := Term.exists_within_of_mem_preorder (hpreorder ▸ hx)
    obtain rfl : y = u.id := hid
    have huntag := ht.untag_eq hf hholds₀ hu₀ hexpr
    obtain rfl : e = .register n none := by
      cases e <;> simp_all [LocationKind.untag, Expr.map]
    obtain ⟨pre, post, hsplit⟩ := List.append_of_mem hbefore
    obtain hdefinition | hread := definition_or_read hf hholds₀ hu₀
    · obtain ⟨i, X, Y, rfl, -, hX, -⟩ := (Summary.mem_definitionOf hholds₀).1 hdefinition
      have hassigns := hholds₀.assigns.later ht.later
      rw [← hX] at hassigns
      obtain ⟨v, hdefines⟩ := ht.defined s (hf.forest.mem_liveStatements.2 (hf.forest.live hbefore)) _ hdefinition
      exact .inl ⟨i, v, hassigns, hdefines⟩
    · obtain ⟨D, hreads, -⟩ := hexact.read pre s post hsplit _ hread
      exact .inr ⟨D, hreads⟩

/-- A definition of a register that is assigned last on a way is assigned the value there that is read
    at the end of it. -/
theorem Tagged.exists_assign (ht : Tagged V f .registers g) (hf : f.Plain)
    (hlast : Definition.lastSite? n
      (ss.filterMap (Summary.definitionOf f LocationKind.registers.locate)) = some d)
    (hwalk : f.Walk ss s) {y : NodeId} (hassign : g.exprAt r = some (.assign d y)) :
    ∃ before s' t' Y, f.Walk before s' ∧ f.Holds s' t' ∧ Term.Within Y t' ∧ Y.id = y ∧
      (f.run w σ ss).register n none = (Y.outcome (f.context w (f.run w σ before))).value := by
  obtain ⟨before, s', between, D, rfl, hD, rfl, rfl, hbetween⟩ :=
    Definition.exists_split_of_lastSite? hlast
  have hbefore := hf.forest.walk_before hwalk
  obtain ⟨t', ht'⟩ := hf.forest.exists_holds_of_walk hbefore
  obtain ⟨i, X, Y, rfl, hlocate, hid, -⟩ := (Summary.mem_definitionOf ht').1 hD
  obtain ⟨j, rfl⟩ : ∃ j, X = .node j (.register D.location none) := by
    unfold LocationKind.locate at hlocate
    split at hlocate <;> simp_all
  refine ⟨before, s', _, Y, hbefore, ht', Term.Within.of_mem_children (by simp [Expr.children]), ?_, ?_⟩
  · obtain ⟨st, hst, hroot, hstands⟩ := id ht'
    have hi : g.exprAt i = some (.assign j Y.id) :=
      ht.later.marks.exprAt_eq (exprAt_eq_some hstands.shape_id) (.inr rfl)
    have hassigns : g.Assigns s' i D.site :=
      ⟨⟨st, ht.later.statement s' st hst, hroot⟩, Y.id, by rw [hi, hid]; rfl⟩
    obtain rfl := ht.rooted.eq_of_assigns ht.sound.forest hassigns hassign
    rw [hi] at hassign
    exact (Expr.assign.inj (Option.some.inj hassign)).2
  · rw [← List.singleton_append, ← List.append_assoc, run_append, register_run_of_none hbetween, run_concat,
      register_execute_of_holds ht']

/-- Where control comes to a node that has a value everywhere, that is what it comes to, before the registers
    were tagged. -/
theorem Tagged.outcome_eq (ht : Tagged V f .registers g) (hf : f.Plain) (hconnected : f.Connected)
    (hx : g.ValueAt (fun n => σ.register n none) x v) (hwalk : f.Walk ss s) (hs : f.Holds s t)
    (hu : Term.Within u t) (hid : u.id = x) :
    (u.outcome (f.context w (f.run w σ ss))).value = v := by
  induction hx generalizing ss s t u with
  | constant h =>
    have he := ht.untag_eq hf hs hu (hid ▸ h)
    obtain ⟨i, e⟩ := u
    cases e <;> simp_all [LocationKind.untag, Expr.map, Term.outcome_node, Context.eval]
  | @entry x n h =>
    subst hid
    have he := ht.untag_eq hf hs hu h
    obtain ⟨i, e⟩ := u
    obtain rfl : e = .register n none := by
      cases e <;> simp_all [LocationKind.untag, Expr.map]
    obtain ⟨as, a, pre, post, hpath, hblock, rfl⟩ := hwalk
    -- definitions have later versions
    obtain ⟨k, hk, ⟨e, he, rfl⟩, -⟩ | ⟨D, heads, -, ⟨k, ⟨e, he, rfl⟩, hlink, hD⟩, hreaches⟩ :=
      ht.defines_or_reads hf hconnected hblock hs hu
    · rw [Term.id_node, he] at h
      cases h
      omega
    rw [Term.id_node, he] at h
    cases h
    cases D with
    | some d => exact absurd hD.1 (by decide)
    | none =>
      cases hreaches with
      | always hlast =>
        simp [Term.outcome_node, Expr.map, Context.eval, context,
          register_run_of_none (hlast as hpath)]
  | @read x d r y n k wy h hlink hassign hy ih =>
    subst hid
    have he := ht.untag_eq hf hs hu h
    obtain ⟨i, e⟩ := u
    obtain rfl : e = .register n none := by
      cases e <;> simp_all [LocationKind.untag, Expr.map]
    obtain ⟨as, a, pre, post, hpath, hblock, rfl⟩ := id hwalk
    obtain ⟨-, -, -, us, hus⟩ | ⟨D, heads, -, ⟨-, -, hlink', -⟩, hreaches⟩ :=
      ht.defines_or_reads hf hconnected hblock hs hu
    · have h := hlink.symm.trans hus
      cases h
    obtain rfl : D = some d := Link.use.inj (hlink'.symm.trans hlink)
    cases hreaches with
    | always hlast =>
      obtain ⟨before, s', t', Y, hbefore, ht', hY, hid, hvalue⟩ :=
        ht.exists_assign (w := w) (σ := σ) hf (hlast as hpath) hwalk hassign
      simpa [Term.outcome_node, Expr.map, Context.eval, context, hvalue] using ih hbefore ht' hY hid
    | merged hm hjoins hpre =>
      obtain ⟨st, y', inputs, v, hst, hroot, hy', -⟩ := hjoins.merges
      obtain rfl := ht.rooted.eq_of_assigns ht.sound.forest ⟨⟨st, hst, rfl⟩, y', hroot⟩ hassign
      rw [hroot] at hassign
      cases hassign
      exact absurd hy' (hy.ne_theta inputs)
  | @binary x a b op wa wb h ha hb iha ihb =>
    subst hid
    have he := ht.untag_eq hf hs hu h
    obtain ⟨i, e⟩ := u
    obtain ⟨A, B, rfl, rfl, rfl⟩ : ∃ A B, e = .binary op A B ∧ A.id = a ∧ B.id = b := by
      cases e <;> simp_all [LocationKind.untag, Expr.map]
    have hA := iha hwalk hs ((Term.Within.of_mem_children (by simp [Expr.children])).trans hu) rfl
    have hB := ihb hwalk hs ((Term.Within.of_mem_children (by simp [Expr.children])).trans hu) rfl
    simp [Term.outcome_node, Expr.map, Context.eval, hA, hB]
  | @unary x a op wa h ha ih =>
    subst hid
    have he := ht.untag_eq hf hs hu h
    obtain ⟨i, e⟩ := u
    obtain ⟨A, rfl, rfl⟩ : ∃ A, e = .unary op A ∧ A.id = a := by
      cases e <;> simp_all [LocationKind.untag, Expr.map]
    have hA := ih hwalk hs ((Term.Within.of_mem_children (by simp [Expr.children])).trans hu) rfl
    simp [Term.outcome_node, Expr.map, Context.eval, hA]

end Tagging

end FrameRecovery
