import FrameRecovery.Proofs.Flow.Embedding
import FrameRecovery.Proofs.Meaning

namespace FrameRecovery

open Flow

namespace Term

variable {R : Term → Term → Prop} {x y t' : Term} {i : NodeId}

theorem isReplaceable_form (t : Term) : t.form.isReplaceable = t.isReplaceable := by
  induction t using Term.induction with
  | step i e ih =>
    have hmap : e.map (isReplaceable ∘ form) = e.map isReplaceable := Expr.map_congr ih
    rw [form_node]
    unfold isReplaceable at hmap ⊢
    rw [fold_node, fold_node, Expr.map_map, ← hmap]

/-- An assignment that is changed below its operands assigns to the same, and a value that is as good to move. -/
theorem Somewhere.exists_assign (h : Somewhere R (node i (.assign x y)) t')
    (hroot : ¬ R (node i (.assign x y)) t') (htarget : ∀ x', ¬ R x x')
    (hR : ∀ u u', R u u' → u'.isReplaceable = u.isReplaceable) :
    ∃ x' y', t' = node i (.assign x' y') ∧ x'.id = x.id ∧ x'.expr.head = x.expr.head ∧
      y'.isReplaceable = y.isReplaceable := by
  obtain ⟨x', rfl, hx⟩ | ⟨y', rfl, hy⟩ := h.of_assign hroot
  · cases hx with
    | here hx => exact absurd hx (htarget x')
    | inside hhead _ _ _ => exact ⟨_, y, rfl, rfl, hhead, rfl⟩
  · exact ⟨x, y', rfl, rfl, rfl, hy.fold_eq hR⟩

theorem Rewrites.exists_assign (h : (node i (.assign x y)).Rewrites t') (hx : x.expr.isArithmetic = false) :
    ∃ x' y', t' = node i (.assign x' y') ∧ x'.id = x.id ∧ x'.expr.head = x.expr.head ∧
      y'.isReplaceable = y.isReplaceable := by
  induction h with
  | refl => exact ⟨x, y, rfl, rfl, rfl, rfl⟩
  | tail _ h ih =>
    obtain ⟨x₁, y₁, rfl, hid, hhead, hreplaceable⟩ := ih
    obtain ⟨x₂, y₂, rfl, hid', hhead', hreplaceable'⟩ := h.exists_assign
      (fun hrule => Bool.noConfusion (isArithmetic_of_rule hrule))
      (fun x' hrule => by
        have harith := isArithmetic_of_rule hrule
        rw [Expr.isArithmetic_eq_of_head_eq hhead, hx] at harith
        cases harith)
      (fun u u' hrule => by rw [isReplaceable_eq, isReplaceable_eq, isBuiltFrom_of_rule hrule])
    exact ⟨x₂, y₂, rfl, hid'.trans hid, hhead'.trans hhead, hreplaceable'.trans hreplaceable⟩

end Term

/-- Assignments that are there after a read was replaced were there before. -/
theorem Propagation.Substituted.assigns_of {V : Locations} {f g : Flow} {u : NodeId} (hg : Substituted V f g u)
    (hf : f.Rooted) {s : StatementId} {r d : NodeId} (h : g.Assigns s r d) :
    f.Assigns s r d := by
  obtain ⟨y, hr⟩ := id h.2
  obtain ⟨y₀, hr₀⟩ := hg.noNewAssign hf r d y hr
  obtain ⟨s₀, t₀, ⟨st₀, hst₀, hroot₀, -⟩, hid⟩ := hf r d y₀ hr₀
  have h₀ : f.Assigns s₀ r d := ⟨⟨st₀, hst₀, hroot₀.trans hid⟩, y₀, hr₀⟩
  -- the node is at the top of one statement
  obtain ⟨a, v, ht, -⟩ := h.exists_holds hg.sound.forest
  obtain ⟨a', v', ht', -⟩ := (hg.assigns s₀ r d h₀).exists_holds hg.sound.forest
  exact ht'.statement_unique ht (x := r) (by simp) (by simp) ▸ h₀

namespace Flow

variable {f g : Flow} {V : Locations} {m : Machine} {s around c : StatementId} {r u d x : NodeId}
  {a v t T T' : Term}

/-- A statement leaves nothing to do: if it gives the stack pointer a value that may be moved, merges alone read
    it. -/
def Exhausted (f : Flow) (m : Machine) (s : StatementId) : Prop :=
  ∀ r a v u, f.Holds s (.node r (.assign a v)) → m.isStackPointer a = true → v.isReplaceable = true →
    f.linkOf u = .use (some a.id) → f.IsInput u

/-- Every register in a statement is assigned to there, or read. -/
def ReadsLinked (f : Flow) : Prop :=
  ∀ s t x n k, f.Live s → f.Holds s t → x ∈ t.preorder → f.exprAt x = some (.register n k) →
    (∃ r, f.Assigns s r x) ∨ ∃ D, f.linkOf x = .use D

theorem Connected.exists_walk (hf : f.Connected) (hforest : f.Forest) (hs : f.Live s) : ∃ ss, f.Walk ss s := by
  obtain ⟨a, hmem⟩ := hforest.exists_statementsAt hs
  obtain ⟨pre, post, hsplit⟩ := List.append_of_mem hmem
  obtain ⟨as, has⟩ := hf.path a fun hnone => by simp [statementsAt, hnone] at hmem
  exact ⟨_, has.walk hsplit⟩

/-- What a statement assigns is not read in it. -/
theorem Ordered.linkOf_ne (hf : f.Ordered) (hforest : f.Forest) (hconnected : f.Connected) (hs : f.Live s)
    (hS : f.Holds s (.node r (.assign a v))) (hx : x ∈ (Term.node r (.assign a v)).preorder) (hinput : ¬ f.IsInput x) :
    f.linkOf x ≠ .use (some a.id) := by
  intro hlink
  obtain ⟨w, i, hassigns, hprecedes⟩ := (hf.reads s _ x a.id hs hS hx hlink).resolve_left hinput
  obtain ⟨t, ht, hmem⟩ := hassigns.exists_mem hforest
  obtain rfl := ht.statement_unique hS hmem (by simp [Expr.children, Term.id_mem_preorder])
  obtain ⟨ss, hwalk⟩ := hconnected.exists_walk hforest hs
  exact hprecedes.irrefl hforest hwalk

namespace Move

variable (h : Move V f g s around r u a v T T') (hpointer : m.isStackPointer a = true) (hrooted : f.Rooted)
include h hpointer hrooted

/-- An assignment assigned to the same before the move, and a value that was as good to move. -/
theorem exists_assign {i : NodeId} {X Y : Term} (hc : f.Live c) (ht : g.Holds c (.node i (.assign X Y))) :
    ∃ X₀ Y₀, f.Holds c (.node i (.assign X₀ Y₀)) ∧ X₀.id = X.id ∧ X.expr.head = X₀.expr.head ∧
      Y.isReplaceable = Y₀.isReplaceable := by
  by_cases hne : c = around
  · subst hne
    obtain rfl := ht.unique h.inlined.holds
    obtain ⟨X₀, Y₀, hT, -⟩ := (h.substituted.assigns_of hrooted ht.assigns).exists_holds h.sound.forest
    obtain rfl := h.holds.unique hT
    obtain ⟨n, k, b, T₁, -, hform, hchange, hrewrites⟩ := h.exists_change hpointer
    have hb : b.isReplaceable = true := by
      rw [← Term.isReplaceable_form, hform, Term.isReplaceable_form, h.replaceable]
    have htarget : X₀.expr.isArithmetic = false := by
      obtain ⟨⟨e, he, hassignable⟩, -⟩ := h.sound.typed.target _ _ _ (exprAt_eq_some hT.stands.shape_id)
      obtain ⟨q, hq⟩ := hT.stands.exists_of_within (.of_mem_children (c := X₀) (by simp [Expr.children]))
      rw [exprAt_eq_some hq.shape_id, Option.some.injEq] at he
      rw [← he, Expr.isAssignable_map] at hassignable
      exact Expr.isArithmetic_eq_false_of_isAssignable hassignable
    obtain ⟨X₁, Y₁, rfl, hid, hhead, hreplaceable⟩ := hchange.exists_assign
      (by rintro ⟨hnode, -⟩; cases hnode)
      (by rintro x' ⟨rfl, -⟩; exact h.target_ne rfl rfl)
      (by rintro _ _ ⟨rfl, rfl⟩; exact hb)
    obtain ⟨X₂, Y₂, heq, hid', hhead', hreplaceable'⟩ := hrewrites.exists_assign
      ((Expr.isArithmetic_eq_of_head_eq hhead).trans htarget)
    cases heq
    exact ⟨X₀, Y₀, hT, (hid'.trans hid).symm, hhead'.trans hhead, hreplaceable'.trans hreplaceable⟩
  · exact ⟨X, Y, h.holds_other hc hne ht, rfl, rfl, rfl⟩

/-- A statement that leaves nothing to do goes on to do so. -/
theorem exhausted (hc : f.Exhausted m c) : g.Exhausted m c := by
  intro i X Y x ht hX hY hlink
  by_contra hinput
  obtain ⟨y, c', t', ht', hy, hylink, hyinput⟩ := h.exists_read hlink hinput
  have hlive : f.Live c := by
    have hheld := h.substituted.sound.held X.id
      (by rw [Link.eq_definition_of_mem_uses ((h.substituted.sound.mirrored.recorded x _).1 hlink)]; nofun)
    obtain ⟨c₀, t₀, hc₀, ht₀, hmem⟩ := hheld
    exact h.live_iff.1 (ht₀.statement_unique ht hmem (by simp [Expr.children, Term.id_mem_preorder]) ▸ hc₀)
  obtain ⟨X₀, Y₀, ht₀, hid, hhead, hreplaceable⟩ := h.exists_assign hpointer hrooted hlive ht
  exact hyinput (hc i X₀ Y₀ y ht₀ (Machine.isStackPointer_eq_of_head_eq hhead ▸ hX) (hreplaceable ▸ hY) (hid ▸ hylink))

omit hpointer hrooted in
/-- The registers in a copy are read as they are where it comes from. -/
theorem readsLinked (hf : f.ReadsLinked) : g.ReadsLinked := by
  intro c t x n k hc ht hx hexpr
  have hkept : ∀ {c y}, (∃ r, f.Assigns c r y) → ∃ r, g.Assigns c r y :=
    fun ⟨r, hr⟩ => ⟨r, h.substituted.assigns _ _ _ hr⟩
  by_cases hne : c = around
  · subst hne
    obtain rfl := ht.unique h.inlined.holds
    obtain ⟨hmem, hxu, e₀, he₀, hhead⟩ | ⟨y, hy, ⟨e₀, he₀, hhead⟩, hlink⟩ := h.inlined.source x hx _ hexpr rfl
    · obtain rfl := Expr.eq_register_of_head_eq hhead.symm
      refine (hf c T x n k h.live_around h.holds hmem he₀).imp hkept fun ⟨D, hD⟩ => ⟨D, h.linkOf_eq hD hxu⟩
    · obtain rfl := Expr.eq_register_of_head_eq hhead.symm
      have hv : Term.Within v (.node r (.assign a v)) := .of_mem_children (by simp [Expr.children])
      obtain ⟨i, hassigns⟩ | ⟨D, hD⟩ := hf s _ y n k h.live h.source (hv.preorder_subset hy) he₀
      · -- what is assigned to is not in the value
        obtain rfl := h.source.assigns.eq hassigns
        have hnodup := h.source.nodup
        simp only [Term.preorder_node, Expr.children, List.flatMap_cons, List.flatMap_nil, List.append_nil,
          List.nodup_cons, List.nodup_append'] at hnodup
        exact absurd hy (hnodup.2.2.2 a.id_mem_preorder)
      · exact .inr ⟨D, hlink D hD⟩
  · have ht₀ := h.holds_other (h.live_iff.1 hc) hne ht
    have hexpr₀ : f.exprAt x = some (.register n k) := by
      obtain ⟨w, hw, rfl⟩ := Term.exists_within_of_mem_preorder hx
      obtain ⟨q, hq⟩ := ht.stands.exists_of_within hw
      obtain ⟨q₀, hq₀⟩ := ht₀.stands.exists_of_within hw
      rw [exprAt_eq_some hq₀.shape_id, ← exprAt_eq_some hq.shape_id, hexpr]
    refine (hf c t x n k (h.live_iff.1 hc) ht₀ hx hexpr₀).imp hkept fun ⟨D, hD⟩ => ⟨D, h.linkOf_eq hD ?_⟩
    rintro rfl
    exact hne (ht₀.statement_unique h.holds hx h.mem)

end Move

theorem ReadsLinked.steps (hf : f.ReadsLinked) (hordered : f.Ordered)
    (h : Relation.ReflTransGen (Propagation.Step (.stackPointer m) V) f g) : g.ReadsLinked := by
  suffices g.Ordered ∧ g.ReadsLinked from this.2
  induction h with
  | refl => exact ⟨hordered, hf⟩
  | tail _ hstep ih =>
    obtain ⟨s, around, r, u, a, v, T, T', -, hmove⟩ := ih.1.exists_move hstep
    exact ⟨hmove.ordered ih.1, hmove.readsLinked ih.2⟩

end Flow

namespace Tagging

variable {f g : Flow} {V : Locations}

/-- Tagging the registers of a listing links every one that is read. -/
theorem Tagged.readsLinked (ht : Tagged V f .registers g) (hf : f.Plain) (hconnected : f.Connected) :
    g.ReadsLinked := by
  intro s t x n k hs hholds hx hexpr
  obtain ⟨r, -, hassigns, -⟩ | ⟨D, -, -, hlink, -⟩ := ht.register_cases hf hconnected hs hholds hx hexpr
  · exact .inl ⟨r, hassigns⟩
  · exact .inr ⟨D, hlink⟩

end Tagging

namespace Propagation

variable {f₀ f₁ f : Flow} {V : Locations} {m : Machine} {s : StatementId} {r value : NodeId} {a v : Term}
  {stats : PropagationStats}

/-- On the reads of a definition of the stack pointer that are still to be visited all is left to do that there is to
    do for its statement. What other statements left nothing to do when the visits began still do not. -/
structure Drains (m : Machine) (V : Locations) (f₀ f₁ f : Flow) (s : StatementId) (r : NodeId) (a v : Term)
    (uses : List NodeId) : Prop where
  visits : Visits (.stackPointer m) V f₀ f s r a.id uses
  source : f.Holds s (.node r (.assign a v))
  remaining : m.isStackPointer a = true → v.isReplaceable = true → ∀ u, f.linkOf u = .use (some a.id) →
    ¬ f.IsInput u → u ∈ uses
  kept : ∀ c, f₁.Exhausted m c → f.Exhausted m c

section Run

variable (hordered : f₀.Ordered) (hrooted : f₀.Rooted) (hconnected : f₀.Connected)
include hordered hrooted hconnected

theorem propagateUse_drains {u : NodeId} {rest : List NodeId} (hs : s ∈ f₀.liveStatements)
    (hf : Drains m V f₀ f₁ f s r a v (u :: rest)) :
    Succeeds (propagateUse (.stackPointer m) s a.id value stats u) f fun _ g => Drains m V f₀ f₁ g s r a v rest := by
  have hpropagated := hf.visits.propagated
  have hsound := hpropagated.sound
  have hs : f.Live s := hsound.forest.mem_liveStatements.1 (hpropagated.liveStatements_eq ▸ hs)
  have hS := hf.source
  have hlink := hf.visits.reads u (by simp)
  have hordered := hordered.steps hpropagated.steps
  have hconnected := (SameGraph.of_blocks_eq hpropagated.entry_eq hpropagated.blocks_eq).connected hconnected
  obtain ⟨around, T, -, hT, hu, hcases⟩ := propagateUse_cases value stats
    (PropagationPolicy.careful_stackPointer m) hsound hS hlink
  refine hcases.mono ?_
  rintro stats' g (⟨hanswer, rfl, -⟩ | ⟨hanswer, hg, T', hinlined, hnormal⟩)
  · refine ⟨hf.visits.skip, hS, fun hpointer hreplaceable x hx hinput => ?_, hf.kept⟩
    obtain rfl | hmem := List.mem_cons.1 (hf.remaining hpointer hreplaceable x hx hinput)
    · -- the policy would have agreed
      rw [(PropagationPolicy.stackPointer_eq_true_iff hS hT hu).2 ⟨hpointer, hinput, hreplaceable⟩] at hanswer
      cases hanswer
    · exact hmem
  · obtain ⟨hpointer, hmove⟩ := hordered.move hsound hS hT hu hlink hanswer hg hinlined
    have hne : s ≠ around := by
      rintro rfl
      obtain rfl := hS.unique hT
      exact hordered.linkOf_ne hsound.forest hconnected hs hS hu (hS.not_isInput hmove.apart hu) hlink
    refine ⟨hf.visits.substituted hg (.intro hsound hS hT hu hlink hanswer hg hinlined hnormal),
      hinlined.others s _ hne hS, fun _ hreplaceable x hx hinput => ?_,
      fun c hc => hmove.exhausted hpointer (hpropagated.rooted hrooted) (hf.kept c hc)⟩
    obtain ⟨c, t, -, -, hx₀, hiff⟩ | ⟨y, hy, hlinky⟩ := hmove.read_cases hx
    · obtain rfl | hmem := List.mem_cons.1 (hf.remaining hpointer hreplaceable x hx₀ fun hi => hinput (hiff.2 hi))
      · rw [hg.unlinked] at hx
        cases hx
      · exact hmem
    · -- a value does not read what it is assigned to
      have hv : Term.Within v (.node r (.assign a v)) := .of_mem_children (by simp [Expr.children])
      have hy := hv.preorder_subset hy
      exact absurd hlinky (hordered.linkOf_ne hsound.forest hconnected hs hS hy
        (hS.not_isInput hmove.source_apart hy))

/-- After the visit of a statement it leaves nothing to do, and no other one leaves more to do than before. -/
theorem propagateStatement_exhausts (hf : Propagated (.stackPointer m) V f₀ f) (hs : s ∈ f.liveStatements) :
    Succeeds (propagateStatement (.stackPointer m) stats s) f fun _ g =>
      Propagated (.stackPointer m) V f₀ g ∧ g.Exhausted m s ∧ ∀ c, f.Exhausted m c → g.Exhausted m c := by
  have hmirrored := hf.sound.mirrored
  refine propagateStatement_of_holds hf.sound hs (fun hother => ⟨hf, ?_, fun _ hc => hc⟩) fun r a v hS => ?_
  · -- what has no version has no reads
    intro r a v u hS hpointer _ hlink
    have hversion := hother r a v hS
    obtain ⟨q, hq⟩ := hS.stands.exists_of_within (.of_mem_children (c := a) (by simp [Expr.children]))
    have huntagged : (a.expr.map Term.id).isUntagged = true := by
      obtain ⟨i, e⟩ := a
      cases e <;> simp_all [Machine.isStackPointer, Term.register?, Expr.version?, Expr.isUntagged, Expr.map]
    have hfree := hf.sound.untagged a.id _ (exprAt_eq_some hq.shape_id) huntagged
    have hmem := (hmirrored.recorded u a.id).1 hlink
    rw [hfree.uses_eq_nil] at hmem
    cases hmem
  · have hdrains : Drains m V f₀ f f s r a v (f.linkOf a.id).uses := by
      obtain ⟨st, hst, hroot, hstands⟩ := id hS
      exact ⟨⟨hf, fun u hu => (hmirrored.recorded u a.id).2 hu, hmirrored.nodup _, ⟨st, hst, hroot⟩, v.id,
        exprAt_eq_some hstands.shape_id⟩, hS, fun _ _ u hu _ => (hmirrored.recorded u a.id).1 hu, fun _ hc => hc⟩
    refine (Succeeds.of_foldlM (I := fun uses _ g => Drains m V f₀ f g s r a v uses)
      (fun u rest stats g hg => propagateUse_drains hordered hrooted hconnected (hf.liveStatements_eq ▸ hs) hg) _
      hdrains).mono ?_
    rintro _ g hg
    refine ⟨hg.visits.propagated, fun r' a' v' u ht hpointer hreplaceable hlink => ?_, hg.kept⟩
    cases ht.unique hg.source
    by_contra hinput
    cases hg.remaining hpointer hreplaceable u hlink hinput

/-- Propagating the stack pointer leaves nothing to do at any statement. -/
theorem propagate_exhausts (hf : f₀.Sound V) :
    Succeeds (propagate (.stackPointer m)) f₀ fun _ g =>
      Propagated (.stackPointer m) V f₀ g ∧ ∀ s, g.Live s → g.Exhausted m s := by
  unfold propagate
  refine .of_bind (.of_get ?_)
  refine (Succeeds.of_foldlM (I := fun rest _ g => Propagated (.stackPointer m) V f₀ g ∧
    rest ⊆ f₀.liveStatements ∧ ∀ s ∈ f₀.liveStatements, s ∉ rest → g.Exhausted m s) ?_ _
    ⟨.refl hf, fun _ h => h, fun s hs hnot => absurd hs hnot⟩).mono ?_
  · rintro s rest stats g ⟨hg, hrest, hdone⟩
    refine (propagateStatement_exhausts hordered hrooted hconnected hg
      (hg.liveStatements_eq ▸ hrest (by simp))).mono ?_
    rintro _ h ⟨hh, hs, hkept⟩
    refine ⟨hh, fun c hc => hrest (by simp [hc]), fun c hc hnot => ?_⟩
    by_cases hcs : c = s
    · exact hcs ▸ hs
    · exact hkept c (hdone c hc (by simp [hcs, hnot]))
  · rintro _ g ⟨hg, -, hdone⟩
    refine ⟨hg, fun s hs => hdone s ?_ (by simp)⟩
    exact hg.liveStatements_eq ▸ hg.sound.forest.mem_liveStatements.2 hs

end Run

/-- Where no statement leaves anything to do, propagating the stack pointer changes nothing. -/
theorem propagate_of_exhausted (hf : f.Sound V) (hexhausted : ∀ s, f.Live s → f.Exhausted m s) :
    Succeeds (propagate (.stackPointer m)) f fun stats g => g = f ∧ stats.substitutions = 0 := by
  unfold propagate
  refine .of_bind (.of_get ?_)
  refine (Succeeds.of_foldlM (I := fun rest stats g => rest ⊆ f.liveStatements ∧ g = f ∧ stats.substitutions = 0) ?_ _
    ⟨fun _ h => h, rfl, rfl⟩).mono fun _ _ h => h.2
  rintro s rest stats g ⟨hrest, rfl, hstats⟩
  have hs : s ∈ g.liveStatements := hrest (by simp)
  refine Succeeds.mono (Q := fun stats h => h = g ∧ stats.substitutions = 0) ?_ fun _ h hh =>
    ⟨fun c hc => hrest (by simp [hc]), hh⟩
  refine propagateStatement_of_holds hf hs (fun _ => ⟨rfl, hstats⟩) fun r a v hS => ?_
  refine (Succeeds.of_foldlM (I := fun uses stats h => uses ⊆ (g.linkOf a.id).uses ∧ h = g ∧ stats.substitutions = 0)
    ?_ _ ⟨fun _ h => h, rfl, hstats⟩).mono fun _ _ h => h.2
  rintro u uses stats h ⟨huses, rfl, hstats⟩
  have hlink := (hf.mirrored.recorded u a.id).2 (huses (by simp))
  obtain ⟨around, T, -, hT, hu, hcases⟩ := propagateUse_cases v.id stats
    (PropagationPolicy.careful_stackPointer m) hf hS hlink
  refine hcases.mono ?_
  rintro stats' g' (⟨-, rfl, hsubstitutions⟩ | ⟨hanswer, -⟩)
  · exact ⟨fun x hx => huses (by simp [hx]), rfl, hsubstitutions.trans hstats⟩
  · obtain ⟨hpointer, hinput, hreplaceable⟩ := (PropagationPolicy.stackPointer_eq_true_iff hS hT hu).1 hanswer
    exact absurd (hexhausted s (hf.forest.mem_liveStatements.1 hs) r a v u hS hpointer hreplaceable hlink) hinput

end Propagation

/-- The definition that a stack pointer reads is the stack pointer in an assignment. -/
theorem Tagging.Tagged.exists_assign_of_read {f g h : Flow} {V : Locations} {m : Machine} {x d : NodeId}
    {k : Option Nat} {s : StatementId} {t : Term} (hg : Tagged V f .registers g) (hf : f.Plain)
    (hconnected : f.Connected) (hh : Propagation.Propagated (.stackPointer m) V g h) (hs : h.Live s)
    (ht : h.Holds s t) (hx : x ∈ t.preorder) (hexpr : h.exprAt x = some (.register m.stackPointer k))
    (hlink : h.linkOf x = .use (some d)) (hinput : ¬ h.IsInput x) :
    ∃ c r a v, h.Live c ∧ h.Holds c (.node r (.assign a v)) ∧ d = a.id ∧ m.isStackPointer a = true := by
  have hordered := (Ordered.of_tagged hg hf hconnected).steps hh.steps
  obtain ⟨c, r, hassigns, -⟩ := (hordered.reads s t x d hs ht hx hlink).resolve_left hinput
  obtain ⟨a, v, hholds, rfl⟩ := hassigns.exists_holds hh.sound.forest
  have hdefinition := Link.eq_definition_of_mem_uses ((hh.sound.mirrored.recorded x _).1 hlink)
  obtain ⟨c', t', hlive, ht', hmem⟩ := hh.sound.held a.id (by rw [hdefinition]; nofun)
  obtain rfl := ht'.statement_unique hholds hmem (by simp [Expr.children, Term.id_mem_preorder])
  refine ⟨c', r, a, v, hlive, hholds, rfl, ?_⟩
  -- what is defined is a register, and what reads it is the same one
  obtain ⟨⟨us, hus⟩, e, e', he, he', hhead⟩ := hh.noNewDefinition hg.sound _ _ hdefinition
  obtain ⟨n, w, -, ⟨_, hw, rfl⟩, -⟩ := hg.exists_defines hf hus
  rw [hw, Option.some.injEq] at he
  subst he
  obtain rfl := Expr.eq_register_of_head_eq hhead
  rw [hh.sound.register x _ _ _ hlink he'] at hexpr
  cases hexpr
  obtain ⟨q, hq⟩ := hholds.stands.exists_of_within (.of_mem_children (c := a) (by simp [Expr.children]))
  rw [exprAt_eq_some hq.shape_id, Option.some.injEq] at he'
  obtain ⟨i, e⟩ := a
  cases e <;> simp_all [Expr.map, Machine.isStackPointer, Term.register?]

/-- Whatever function the text of a listing holds, once its registers are tagged one propagation of the stack pointer
    replaces every read that can be replaced. Merges apart, a stack pointer that is left in a statement is assigned
    to there, or is linked to the value on entry or to a definition whose value may not be moved, as that of a merge
    may not. Another propagation changes nothing. -/
theorem stackPointer_propagatedCompletely {f : Flow} (hf : f.IsLowered) (m : Machine) :
    ∃ tags f' stats g stats', (Tagging.tag .registers).run f = .ok (tags, f') ∧
      (propagate (.stackPointer m)).run f' = .ok (.ok stats, g) ∧
      (∀ s t u k, g.Live s → g.Holds s t → u ∈ t.preorder → g.exprAt u = some (.register m.stackPointer k) →
        ¬ g.IsInput u → (∃ r, g.Assigns s r u) ∨ ∃ D, g.linkOf u = .use D ∧
          (D = none ∨ ∃ c r a v, g.Live c ∧ g.Holds c (.node r (.assign a v)) ∧ D = some a.id ∧
            v.isReplaceable = false)) ∧
      (propagate (.stackPointer m)).run g = .ok (.ok stats', g) ∧ stats'.substitutions = 0 := by
  have hplain := hf.plain
  obtain ⟨tags, f', hrun, ht⟩ := Tagging.tag_gives (LocationKind.permits_registers _) hplain.sound hplain.rooted
    hf.connected
  have hordered := Ordered.of_tagged ht hplain hf.connected
  have hconnected := ht.later.graph.connected hf.connected
  obtain ⟨_, g, hrun', stats, rfl, hg, hexhausted⟩ :=
    Propagation.propagate_exhausts (m := m) hordered ht.rooted hconnected ht.sound
  obtain ⟨_, g', hrun'', stats', rfl, rfl, hstats⟩ := Propagation.propagate_of_exhausted hg.sound hexhausted
  have hlinked := (ht.readsLinked hplain hf.connected).steps hordered hg.steps
  refine ⟨tags, f', stats, g', stats', hrun, hrun', fun s t u k hs hT hu hexpr hinput => ?_, hrun'', hstats⟩
  refine (hlinked s t u _ k hs hT hu hexpr).imp_right fun ⟨D, hD⟩ => ⟨D, hD, ?_⟩
  cases D with
  | none => exact .inl rfl
  | some d =>
    obtain ⟨c, r, a, v, hc, hholds, rfl, hpointer⟩ :=
      ht.exists_assign_of_read hplain hf.connected hg hs hT hu hexpr hD hinput
    refine .inr ⟨c, r, a, v, hc, hholds, rfl, Bool.eq_false_iff.2 fun hreplaceable => ?_⟩
    exact hinput (hexhausted c hc r a v u hholds hpointer hreplaceable hD)

/-- A function in which the statement that reads the stack pointer stands before the one that assigns it. -/
def backwardText : String :=
  "0: esp = esp - 4\n1: goto 4\n2: ebx = [esp + 4]\n3: return ebx\n4: esp = esp - 8\n5: [esp] = eax\n6: goto 2"

/-- The flow of the function. -/
def backwardFlow : Flow :=
  (Flow.ofText? backwardText 0).get (by decide +kernel)

theorem backwardFlow_isLowered : backwardFlow.IsLowered :=
  ⟨backwardText, 0, (Option.some_get _).symm⟩

/-- Three reads are replaced there, and none is left to replace. -/
theorem stackPointer_propagatedCompletely_backward : ∃ tags f' stats g stats',
    (Tagging.tag .registers).run backwardFlow = .ok (tags, f') ∧
    (propagate (.stackPointer { name := "x86", stackPointer := "esp" })).run f' = .ok (.ok stats, g) ∧
    (∀ s t u k, g.Live s → g.Holds s t → u ∈ t.preorder → g.exprAt u = some (.register "esp" k) →
      ¬ g.IsInput u → (∃ r, g.Assigns s r u) ∨ ∃ D, g.linkOf u = .use D ∧
        (D = none ∨ ∃ c r a v, g.Live c ∧ g.Holds c (.node r (.assign a v)) ∧ D = some a.id ∧
          v.isReplaceable = false)) ∧
    (propagate (.stackPointer { name := "x86", stackPointer := "esp" })).run g = .ok (.ok stats', g) ∧
    stats.substitutions = 3 ∧ stats'.substitutions = 0 := by
  obtain ⟨tags, f', stats, g, stats', htag, hrun, hreads, hrun', hstats'⟩ :=
    stackPointer_propagatedCompletely backwardFlow_isLowered { name := "x86", stackPointer := "esp" }
  have hvalue : ∀ r ∈ ((Tagging.tag .registers).run backwardFlow).toOption,
      ∀ r' ∈ ((propagate (.stackPointer { name := "x86", stackPointer := "esp" })).run r.2).toOption,
        r'.1.toOption.map PropagationStats.substitutions = some 3 := by
    decide +kernel
  rw [htag] at hvalue
  have hstats := hvalue _ rfl _ (by rw [hrun]; rfl)
  exact ⟨tags, f', stats, g, stats', htag, hrun, hreads, hrun', Option.some.inj hstats, hstats'⟩

end FrameRecovery
