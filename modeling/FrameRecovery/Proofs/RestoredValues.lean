import FrameRecovery.Proofs.SingleAssignment
import FrameRecovery.Proofs.StoredValues
import FrameRecovery.Proofs.Traced

namespace FrameRecovery

open Flow Tagging

namespace Restored

variable {f g : Flow} {V : Locations} {s c : StatementId} {t u : Term} {x y z d r : NodeId} {n m : String}
  {k : Option Nat} {D : Option NodeId} {zs : List NodeId} {ss : List StatementId} {env : Surroundings} {σ : Store}

/-- An operand of the flow `g` stands for the value that the register `n` has on entry, in every execution of the
    flow `f`: it is linked to the entry, or to what is always assigned that value. -/
def ReadsEntry (f g : Flow) (env : Surroundings) (σ : Store) (n : String) (x : NodeId) : Prop :=
  (∃ k, g.exprAt x = some (.register n k) ∧ g.linkOf x = .use none) ∨
    ∃ d, g.linkOf x = .use (some d) ∧ f.AlwaysAssigns env σ d (σ.register n (some 0))

/-- The same, and if the operand is linked to a merge all operands of that do so. -/
structure LeadsToEntry (f g : Flow) (env : Surroundings) (σ : Store) (n : String) (x : NodeId) : Prop where
  reads : ReadsEntry f g env σ n x
  inputs : ∀ d r y zs, g.linkOf x = .use (some d) → g.exprAt r = some (.assign d y) → g.exprAt y = some (.theta zs) →
    ∀ z ∈ zs, ReadsEntry f g env σ n z

theorem ReadsEntry.exists_link (h : ReadsEntry f g env σ n x) : ∃ D, g.linkOf x = .use D := by
  obtain ⟨-, -, h⟩ | ⟨d, h, -⟩ := h
  · exact ⟨none, h⟩
  · exact ⟨some d, h⟩

/-- All memory that the links lead back through is read at addresses that are safe to move. -/
def LoadsSafely (f g : Flow) (n : String) : Prop :=
  ∀ c r D x X k, f.Live c → f.Holds c (.node r (.assign D (.node x (.deref X k)))) → Traced g n x → X.Movable

/-- The definitions of tagged registers are what sets them. -/
theorem definitionOf_eq_some_iff (hforest : f.Forest) (hs : f.Live s) {E : Definition} :
    Summary.definitionOf f locateTagged s = some E ↔ ∃ v, f.Sets s E.location (some v) E.site ∧ E.statement = s := by
  obtain ⟨t, hT⟩ := hforest.holds_of_live hs
  simp only [Summary.mem_definitionOf hT, hT.sets_iff]
  constructor
  · rintro ⟨i, ⟨j, e⟩, Y, rfl, hlocate, hsite, hstatement⟩
    obtain ⟨v, rfl⟩ : ∃ v, e = .register E.location (some v) := by
      unfold locateTagged at hlocate
      split at hlocate <;> simp_all
    exact ⟨v, ⟨i, Y, hsite ▸ rfl⟩, hstatement⟩
  · rintro ⟨v, ⟨i, Y, rfl⟩, hstatement⟩
    exact ⟨i, _, Y, rfl, rfl, rfl, hstatement⟩

theorem not_sets_of_lastSite? (hf : Prepared f) (hss : ∀ c ∈ ss, f.Live c)
    (hlast : Definition.lastSite? n (ss.filterMap (Summary.definitionOf f locateTagged)) = none) :
    ∀ c ∈ ss, ∀ k d, ¬ f.Sets c n k d := by
  intro c hc k d hset
  obtain ⟨v, rfl⟩ := hf.versioned.initial c n k d (hss c hc) hset
  have hE := (definitionOf_eq_some_iff hf.sound.forest (hss c hc) (E := ⟨c, d, n⟩)).2 ⟨_, hset, rfl⟩
  exact Definition.lastSite?_eq_none_iff.1 hlast _ (List.mem_filterMap.2 ⟨c, hc, hE⟩) rfl

section Derefs

variable (ht : Tagged V f .derefs g)
include ht

/-- Tagging the dereferences leaves the registers alone. -/
theorem exprAt_register (hx : f.exprAt x = some (.register n k)) : g.exprAt x = some (.register n k) := by
  obtain h | ⟨_, _, ⟨_, h⟩, -⟩ := ht.later.marks.expr x _ hx
  · exact h
  · cases h

theorem linkOf_register (hx : f.exprAt x = some (.register n k)) : g.linkOf x = .use D ↔ f.linkOf x = .use D := by
  obtain h | ⟨-, _, _, h⟩ := ht.later.marks.link x _ hx
  · exact h.use_iff
  · cases h

/-- A return stays one. -/
theorem isReturn_eq {t' : Term} (hT : f.Holds s t) (hT' : g.Holds s t') : t'.expr.isReturn = t.expr.isReturn := by
  have hstrip := ht.later.strip_eq hT hT'
  obtain ⟨i, e⟩ := t
  obtain ⟨i', e'⟩ := t'
  rw [LocationKind.strip_node, LocationKind.strip_node, Term.node.injEq] at hstrip
  have huntag : ∀ e : Expr Term, (LocationKind.derefs.untag e).isReturn = e.isReturn := by
    rintro (_ | _ | _) <;> rfl
  simpa [huntag] using congrArg Expr.isReturn hstrip.2

/-- What a statement assigns to is assigned to by the same statement afterwards. -/
theorem eq_of_assign {X Y : Term} (hT : f.Holds s (.node x (.assign X Y))) (hr : g.exprAt r = some (.assign X.id y)) :
    r = x ∧ y = Y.id := by
  have hassign : g.exprAt x = some (.assign X.id Y.id) :=
    ht.later.marks.exprAt_eq (exprAt_eq_some hT.stands.shape_id) (.inr rfl)
  obtain rfl := ht.rooted.eq_of_assign ht.sound.forest hassign hr
  rw [hassign] at hr
  exact ⟨rfl, (Expr.assign.inj (Option.some.inj hr)).2.symm⟩

theorem isAssignable_of_link {e : Expr NodeId} (hx : f.exprAt x = some e) (hlink : g.linkOf x ≠ .unlinked) :
    e.isAssignable = true := by
  obtain ⟨e', he', hassignable⟩ := ht.sound.typed.link x hlink
  obtain h | ⟨_, _, hfits, -⟩ := ht.later.marks.expr x e hx
  · rw [h] at he'
    cases he'
    exact hassignable
  · exact hfits.isAssignable

variable (hf : Prepared f)
include hf

/-- What is read of memory was stored last by something that assigns the value on entry. -/
theorem exists_stored {A : Term} (hT : f.Holds s t) (hx : Term.Within (.node x (.deref A k)) t)
    (hleads : LeadsToEntry f g env σ n x) (hwalk : f.Walk ss s) :
    ∃ d, Definition.lastSite? A.text (ss.filterMap (Summary.definitionOf f LocationKind.derefs.locate)) = some d ∧
      f.AlwaysAssigns env σ d (σ.register n (some 0)) := by
  have hforest := hf.sound.forest
  obtain ⟨q, hq⟩ := hT.stands.exists_of_within hx
  have hexpr : f.exprAt x = some (.deref A.id k) := exprAt_eq_some hq.shape_id
  obtain ⟨as, a, pre, post, hpath, hsplit, rfl⟩ := hwalk
  have hs : s ∈ f.statementsAt a := by simp [hsplit]
  obtain ⟨k', hx', -⟩ | ⟨d, hlink, halways⟩ := hleads.reads
  · have h := ht.later.marks.untag_eq hexpr hx'
    cases h
  have hread := ht.mem_readsAt_of_link hf hs hT hx hlink
  obtain ⟨heads, hexact⟩ := ht.exact hforest hf.connected (a := a) fun hnone => by
    simp [statementsAt, hnone] at hs
  obtain ⟨D, ⟨_, -, hlink', -⟩, hreaches⟩ := hexact.read pre s post hsplit _ hread
  obtain rfl : D = some d := Link.use.inj (hlink'.symm.trans hlink)
  cases hreaches with
  | always h => exact ⟨d, h as hpath, halways⟩
  | merged hm hjoins hpre =>
    -- the merge has an operand for what was stored last
    obtain ⟨st, y, inputs, v, hst, hroot, hy, -, hall⟩ := hjoins.merges
    obtain ⟨p, hp⟩ := exists_definitionAt (f.lastSite? .derefs A.text as [])
    obtain ⟨z, hz, v', ⟨e, he, y', rfl⟩, hlinkz, -⟩ :=
      (exists_of_forall₂ hall).1 p ((hjoins.mem_iff p).2 ⟨as, hpath, hp⟩)
    obtain ⟨k', hz', -⟩ | ⟨d', hd', halways'⟩ := hleads.inputs d st.root y inputs hlink hroot hy z hz
    · rw [he] at hz'
      cases hz'
    · refine ⟨d', ?_, halways'⟩
      have hlast : f.lastSite? .derefs A.text as pre = f.lastSite? .derefs A.text as [] := by
        rw [lastSite?_eq, hpre, Option.none_or]
      exact hlast.trans (hp.symm.trans (Link.use.inj (hlinkz.symm.trans hd')))

/-- A register is set by the same statements afterwards. -/
theorem sets_iff (hs : f.Live s) : g.Sets s n k d ↔ f.Sets s n k d := by
  constructor
  · obtain ⟨st, hst, hremoved⟩ := hs
    exact fun h => (ht.sets_of_sets hf ⟨st, ht.later.statement s st hst, hremoved⟩ h).2
  · intro h
    obtain ⟨t, hT⟩ := hf.sound.forest.holds_of_live hs
    obtain ⟨i, y, rfl⟩ := hT.sets_iff.1 h
    obtain ⟨q, hq⟩ := hT.stands.exists_of_within
      (.of_mem_children (c := .node d (.register n k)) (by simp [Expr.children]))
    exact (hT.assigns.later ht.later).sets ht.sound.forest (exprAt_register ht (exprAt_eq_some hq.shape_id))

/-- The merges at the head of a block define no registers, and the statements behind them define those that they
    defined before. -/
theorem filterMap_definitionOf_eq {a : Address} {heads pre : List StatementId} (hexact : Exact f g .derefs a heads)
    (hpre : ∀ c ∈ pre, f.Live c) : (heads ++ pre).filterMap (Summary.definitionOf g locateTagged) =
      pre.filterMap (Summary.definitionOf f locateTagged) := by
  have hheads : ∀ m ∈ heads, Summary.definitionOf g locateTagged m = none := by
    intro m hm
    have hlive := ht.sound.forest.live (a := a) (hexact.statements_eq ▸ List.mem_append_left _ hm)
    refine Option.eq_none_iff_forall_ne_some.2 fun E hE => ?_
    obtain ⟨v, hset, -⟩ := (definitionOf_eq_some_iff ht.sound.forest hlive).1 hE
    obtain ⟨⟨st, hst, -⟩, -⟩ := ht.sets_of_sets hf hlive hset
    simp [(hexact.head m hm).fresh] at hst
  rw [List.filterMap_append, List.filterMap_eq_nil_iff.2 hheads, List.nil_append]
  refine List.filterMap_congr fun c hc => Option.ext fun E => ?_
  obtain ⟨st, hst, hremoved⟩ := id (hpre c hc)
  rw [definitionOf_eq_some_iff ht.sound.forest ⟨st, ht.later.statement c st hst, hremoved⟩,
    definitionOf_eq_some_iff hf.sound.forest (hpre c hc)]
  simp only [sets_iff ht hf (hpre c hc)]

/-- A block defines the registers that it defined before. -/
theorem definitions_eq (a : Address) : (g.statementsAt a).filterMap (Summary.definitionOf g locateTagged) =
    (f.statementsAt a).filterMap (Summary.definitionOf f locateTagged) := by
  by_cases ha : f.block? a = none
  · have hg : g.block? a = none := by
      by_contra hne
      exact ht.later.graph.symm.ne_none hne ha
    simp [statementsAt, ha, hg]
  · obtain ⟨heads, hexact⟩ := ht.exact hf.sound.forest hf.connected ha
    rw [hexact.statements_eq]
    exact filterMap_definitionOf_eq ht hf hexact fun c hc => hf.sound.forest.live hc

/-- What was set last on the way to a return is traced if the register is found to be restored; for the same definition
    is the last one in the flow whose links are followed. -/
theorem assignsTraced_of_lastSite? {stackPointer : String} {rs : List String}
    (hrs : g.restoredRegisters stackPointer = .ok rs) (hn : n ∈ rs) (hwalk : f.Walk ss c) (hT : f.Holds c t)
    (hreturn : t.expr.isReturn = true)
    (hlast : Definition.lastSite? n (ss.filterMap (Summary.definitionOf f locateTagged)) = some d) :
    AssignsTraced g n d := by
  have hlive := (hf.sound.forest.live_of_walk hwalk).2
  obtain ⟨as, a, pre, post, hpath, hsplit, rfl⟩ := hwalk
  obtain ⟨heads, hexact⟩ := ht.exact hf.sound.forest hf.connected (hf.connected.ne_none_of_path hpath)
  obtain ⟨t', hT', -⟩ := ht.later.exists_holds hT
  have hreturn' : t'.expr.isReturn = true := (isReturn_eq ht hT hT').trans hreturn
  have hsplit' : g.statementsAt a = heads ++ pre ++ c :: post := by
    rw [hexact.statements_eq, hsplit, List.append_assoc]
  refine assignsTraced_of_restoredRegisters ht.sound.forest (ht.later.graph.connected hf.connected) hrs hn
    (ht.later.graph.path hpath) hsplit' hT' hreturn' ?_
  rw [List.filterMap_append, List.filterMap_flatMap, List.flatMap_congr fun b _ => definitions_eq ht hf b,
    filterMap_definitionOf_eq ht hf hexact fun c' hc' => hlive c' (List.mem_append_right _ hc'),
    ← List.filterMap_flatMap, ← List.filterMap_append]
  exact hlast

variable (hdefines : f.DefinesRegisters)
include hdefines

/-- A register that stands for the value on entry has it wherever its definition was executed. -/
theorem register_run_eq (hx : f.exprAt x = some (.register m k)) (harrives : f.Arrives ss x)
    (hreads : ReadsEntry f g env σ n x) (hwalk : f.Walk ss c) :
    (f.run env σ ss).register m k = σ.register n (some 0) := by
  have hforest := hf.sound.forest
  obtain ⟨D, hlink, hassigned⟩ := harrives
  have hlink' := (linkOf_register ht hx).2 hlink
  obtain ⟨k', hx', hnone⟩ | ⟨d, hd, halways⟩ := hreads
  · obtain rfl : D = none := Link.use.inj (hlink'.symm.trans hnone)
    rw [exprAt_register ht hx] at hx'
    cases hx'
    obtain rfl := hf.versioned.entry x _ _ hx hlink
    exact hf.versioned.register_run_entry hforest hwalk
  · obtain rfl : D = some d := Link.use.inj (hlink'.symm.trans hd)
    obtain ⟨c', hc', i, hassigns⟩ := hassigned d rfl
    -- what is defined is the register that is read
    obtain ⟨m', v, hm'⟩ := hdefines d _ (Link.eq_definition_of_mem_uses ((hf.sound.mirrored.recorded x d).1 hlink))
    have heq := hf.sound.register x d _ _ hlink hm'
    rw [hx] at heq
    cases heq
    exact hf.versioned.register_run_eq hforest hwalk hc' (hassigns.sets hforest hm') halways

/-- A copy of the value on entry always assigns that. -/
theorem alwaysAssigns_of_copy (hapart : f.StoresApart env σ) (hsafely : LoadsSafely f g n)
    (hr : g.exprAt r = some (.assign d y)) (htraced : Traced g n y) (hleads : LeadsToEntry f g env σ n y) :
    f.AlwaysAssigns env σ d (σ.register n (some 0)) := by
  rintro ss s r' X ⟨j, e⟩ hwalk hT rfl
  obtain ⟨rfl, rfl⟩ := eq_of_assign ht hT hr
  have hforest := hf.sound.forest
  have hlive := (hforest.live_of_walk hwalk).1
  have hY : Term.Within (.node y e) (.node r (.assign X (.node y e))) := .of_mem_children (by simp [Expr.children])
  obtain ⟨q, hq⟩ := hT.stands.exists_of_within hY
  have hexpr := exprAt_eq_some hq.shape_id
  obtain ⟨D, hlink⟩ := hleads.reads.exists_link
  obtain ⟨m, k, he⟩ | ⟨A, k, he⟩ :=
    hf.register_or_deref hexpr (isAssignable_of_link ht hexpr (by simp [hlink]))
  · obtain rfl : e = .register m k := by
      cases e <;> simp_all [Expr.map]
    have hcount := hf.ordered.count_isTheta hlive hT (by rw [hT.isMerge_eq]; rfl)
    have harrives := hf.ordered.arrives hforest hwalk hT hcount (hY.preorder_subset (Term.id_mem_preorder _))
      ((linkOf_register ht hexpr).1 hlink)
    simpa [Term.outcome_node, Expr.map, Context.eval, context] using
      register_run_eq ht hf hdefines hexpr harrives hleads.reads hwalk
  · obtain ⟨A, rfl⟩ : ∃ A, e = .deref A k := by
      cases e <;> simp_all [Expr.map]
    have hA := hsafely s r X y A k hlive hT htraced
    simpa [Term.outcome_node, Expr.map, Context.eval, context] using
      hf.memory_run_eq hlive hT hY hA hapart (fun ss hss => exists_stored ht hf hT hY hleads hss) hwalk

/-- An operand of a merge that has arrived has the value on entry. -/
theorem value_run_eq {X : Term} {us : List Term} (hs : f.Live s)
    (hT : f.Holds s (.node r (.assign X (.node y (.theta us))))) (hu : u ∈ us) (harrives : f.Arrives ss u.id)
    (hreads : ReadsEntry f g env σ n u.id) (hwalk : f.Walk ss s) :
    (u.outcome (f.context env (f.run env σ ss))).value = σ.register n (some 0) := by
  obtain ⟨i, e⟩ := u
  have hwithin : Term.Within (.node i e) (.node y (.theta us)) := .of_mem_children hu
  have hy : Term.Within (.node y (.theta us)) (.node r (.assign X (.node y (.theta us)))) :=
    .of_mem_children (by simp [Expr.children])
  obtain ⟨q, hq⟩ := hT.stands.exists_of_within (hwithin.trans hy)
  have hexpr := exprAt_eq_some hq.shape_id
  obtain ⟨D, hlink⟩ := hreads.exists_link
  have hlinked : g.linkOf i ≠ .unlinked := fun hunlinked => by cases hlink.symm.trans hunlinked
  obtain ⟨m, k, he⟩ | ⟨A, k, he⟩ := hf.register_or_deref hexpr (isAssignable_of_link ht hexpr hlinked)
  · obtain rfl : e = .register m k := by
      cases e <;> simp_all [Expr.map]
    simpa [Term.outcome_node, Expr.map, Context.eval, context] using
      register_run_eq ht hf hdefines hexpr harrives hreads hwalk
  · -- there are no merges of memory yet
    obtain ⟨A, rfl⟩ : ∃ A, e = .deref A k := by
      cases e <;> simp_all [Expr.map]
    have hcount := hf.count_isTheta hs hT (hwithin.trans hy)
    cases Term.count_eq_zero_iff.1 hcount _ hy

/-- A merge of values on entry always assigns that; for it gives the value of an operand that has arrived. -/
theorem alwaysAssigns_of_merge (hσ : σ.assigned = []) (hr : g.exprAt r = some (.assign d y))
    (hy : g.exprAt y = some (.theta zs)) (hall : ∀ z ∈ zs, ReadsEntry f g env σ n z) :
    f.AlwaysAssigns env σ d (σ.register n (some 0)) := by
  rintro ss s r' X ⟨j, e⟩ hwalk hT rfl
  obtain ⟨rfl, rfl⟩ := eq_of_assign ht hT hr
  have hforest := hf.sound.forest
  obtain ⟨hs, hss⟩ := hforest.live_of_walk hwalk
  have hY : Term.Within (.node y e) (.node r (.assign X (.node y e))) := .of_mem_children (by simp [Expr.children])
  obtain ⟨q, hq⟩ := hT.stands.exists_of_within hY
  have huntag := ht.later.marks.untag_eq (exprAt_eq_some hq.shape_id) hy
  obtain ⟨us, rfl, rfl⟩ : ∃ us, e = .theta us ∧ us.map Term.id = zs := by
    cases e <;> simp_all [Expr.map, LocationKind.untag]
  let C := f.context env (f.run env σ ss)
  have hzip : (C.sources y).zip (us.map fun u => (u.outcome C).value) =
      us.map fun u => (f.linkOf u.id, (u.outcome C).value) := hT.zip_sources hY _
  have hmerge : C.merge y (us.map fun u => (u.outcome C).value) = σ.register n (some 0) := by
    refine Context.merge_eq (fun p hp harrived => ?_) ?_
    · rw [hzip] at hp
      obtain ⟨u, hu, rfl⟩ := List.mem_map.1 hp
      exact value_run_eq ht hf hdefines hs hT hu ((arrived_iff hforest hσ hss).1 harrived)
        (hall _ (List.mem_map_of_mem hu)) hwalk
    · obtain ⟨u, hu, harrives⟩ := hf.versioned.arrives s ss r X y us hwalk hT
      exact ⟨_, hzip ▸ List.mem_map_of_mem hu, (arrived_iff hforest hσ hss).2 harrives⟩
  simpa [Term.outcome_node, Expr.map, Context.eval, Function.comp_def] using hmerge

section Leads

variable (hapart : f.StoresApart env σ) (hσ : σ.assigned = []) (hsafely : LoadsSafely f g n)
include hapart hσ hsafely

/-- If the links lead back from an operand to the register on entry, the operand stands for the value that has. -/
theorem leadsToEntry_of_traced (h : Traced g n x) : LeadsToEntry f g env σ n x := by
  have hunique : ∀ {x d d' r r' y y'}, g.linkOf x = .use (some d) → g.linkOf x = .use (some d') →
      g.exprAt r = some (.assign d y) → g.exprAt r' = some (.assign d' y') → y' = y := by
    intro x d d' r r' y y' hlink hlink' hr hr'
    obtain rfl : d' = d := by simpa using hlink'.symm.trans hlink
    obtain rfl := ht.rooted.eq_of_assign ht.sound.forest hr hr'
    rw [hr] at hr'
    exact (Expr.assign.inj (Option.some.inj hr')).2.symm
  induction h with
  | entry hx hlink =>
    refine ⟨.inl ⟨_, hx, hlink⟩, fun d r y zs hd => ?_⟩
    rw [hlink] at hd
    cases hd
  | copy hlink hr hy ih =>
    refine ⟨.inr ⟨_, hlink, alwaysAssigns_of_copy ht hf hdefines hapart hsafely hr hy ih⟩,
      fun d' r' y' zs hd hr' hy' => ?_⟩
    -- a merge is not linked itself
    obtain rfl := hunique hlink hd hr hr'
    obtain ⟨D, hD⟩ := ih.reads.exists_link
    obtain ⟨e, he, hassignable⟩ := ht.sound.typed.link _ (by rw [hD]; nofun)
    rw [hy'] at he
    cases he
    cases hassignable
  | merge hlink hr hy h ih =>
    refine ⟨.inr ⟨_, hlink, alwaysAssigns_of_merge ht hf hdefines hσ hr hy fun z hz => (ih z hz).reads⟩,
      fun d' r' y' zs hd hr' hy' z hz => ?_⟩
    obtain rfl := hunique hlink hd hr hr'
    rw [hy] at hy'
    cases hy'
    exact (ih z hz).reads

theorem alwaysAssigns_of_assignsTraced (h : AssignsTraced g n d) :
    f.AlwaysAssigns env σ d (σ.register n (some 0)) := by
  have hleads : ∀ {x}, Traced g n x → LeadsToEntry f g env σ n x :=
    leadsToEntry_of_traced ht hf hdefines hapart hσ hsafely
  obtain ⟨r, y, hr, hy | ⟨inputs, hy, hall⟩⟩ := h
  · exact alwaysAssigns_of_copy ht hf hdefines hapart hsafely hr hy (hleads hy)
  · exact alwaysAssigns_of_merge ht hf hdefines hσ hr hy fun z hz => (hleads (hall z hz)).reads

/-- A register that is found to be restored has its value on entry at every return. -/
theorem register_run_of_restored {stackPointer : String} {rs : List String}
    (hrs : g.restoredRegisters stackPointer = .ok rs) (hn : n ∈ rs) (hwalk : f.Walk ss c) (hT : f.Holds c t)
    (hreturn : t.expr.isReturn = true) :
    (f.run env σ ss).register n (f.currentVersion n ss) = σ.register n (some 0) := by
  have hforest := hf.sound.forest
  have hlive := (hforest.live_of_walk hwalk).2
  cases hlast : Definition.lastSite? n (ss.filterMap (Summary.definitionOf f locateTagged)) with
  | none =>
    rw [currentVersion_of_not_sets (not_sets_of_lastSite? hf hlive hlast),
      hf.versioned.register_run_entry hforest hwalk]
  | some d =>
    have hassigned := assignsTraced_of_lastSite? ht hf hrs hn hwalk hT hreturn hlast
    obtain ⟨before, w, between, E, rfl, hE, rfl, rfl, hbetween⟩ := Definition.exists_split_of_lastSite? hlast
    obtain ⟨v, hset, -⟩ := (definitionOf_eq_some_iff hforest (hlive w (by simp))).1 hE
    rw [currentVersion_of_sets hset (not_sets_of_lastSite? hf (fun c' hc' => hlive c' (by simp [hc'])) hbetween)]
    exact hf.versioned.register_run_eq hforest hwalk (by simp) hset
      (alwaysAssigns_of_assignsTraced ht hf hdefines hapart hσ hsafely hassigned)

end Leads

end Derefs

end Restored

/-- The registers that a recovery reports as restored are those that are found in the flow with linked dereferences. -/
theorem Recovery.Course.restoredRegisters_eq {t : Task} {entry : Address} {S : Phase → Session}
    (h : Course t entry S) :
    (S .ssaDerefs).flow.restoredRegisters t.machine.stackPointer = .ok (S .ssaDerefs).restored := by
  obtain ⟨_, s, hrun, _, rfl, -, hrestored⟩ := Recovery.perform_derefs_succeeds (t := t) (V := .named)
    (fun _ _ => trivial) (h.propagated.sound.mono fun _ => Locations.named_of_listed)
    (h.propagated.rooted h.registers.rooted) h.connected_stackPropagated
  have hreach := Recovery.run_reach hrun
  rw [h.reach .stackPropagated .ssaDerefs rfl] at hreach
  obtain heq : S .ssaDerefs = _ := (Prod.mk.inj (Except.ok.inj hreach)).2
  rw [heq]
  exact hrestored

/-- A register that is reported as restored has its value on entry at every return: the version of it that was set
    last on the way there has that value. This holds where the memory that the value is followed through is read at
    addresses that are safe to move, and where dereferences whose addresses have different texts never touch the same
    cell. -/
theorem Session.restored_holds_entry {text name stackPointer : String} {l : Listing} {options : Options}
    {entry : Address} {s s' : Session} (hl : Listing.parse text = .ok l)
    (hs : (Task.mk l { name, stackPointer } options).sessionAt? entry .stackPropagated = some s)
    (hs' : (Task.mk l { name, stackPointer } options).sessionAt? entry .ssaDerefs = some s')
    {n : String} (hn : n ∈ s'.restored) (hsafely : Restored.LoadsSafely s.flow s'.flow n)
    {env : Surroundings} {σ : Store} (hσ : σ.assigned = []) (hapart : s.flow.StoresApart env σ)
    {ss : List StatementId} {c : StatementId} {t : Term} (hwalk : s.flow.Walk ss c) (ht : s.flow.Holds c t)
    (hreturn : t.expr.isReturn = true) :
    (s.flow.run env σ ss).register n (s.flow.currentVersion n ss) = σ.register n (some 0) := by
  obtain ⟨S, h, rfl⟩ := Recovery.exists_course_of_sessionAt?
    (t := ⟨l, { name, stackPointer }, options⟩) (Listing.wellFormed_of_parse hl) rfl (by decide) hs
  obtain rfl : S .ssaDerefs = s' := by
    rw [h.sessionAt?_eq .ssaDerefs] at hs'
    exact Option.some.inj hs'
  exact Restored.register_run_of_restored h.derefs (h.prepared hl) h.definesRegisters_stackPropagated hapart hσ hsafely
    h.restoredRegisters_eq hn hwalk ht hreturn

/-- An address in the frame is built from a register and constants. -/
theorem Machine.Locates.inlineable {m : Machine} {negate : Bool} {t : Term} {v : Option Nat} {w : Word}
    (h : m.Locates negate t v w) : t.Inlineable := by
  cases h with
  | pointer => exact .register _ _ _
  | sum => exact .binary _ _ (.register _ _ _) (.constant _ _)
  | difference => exact .binary _ _ (.register _ _ _) (.constant _ _)

namespace Flow

variable {f : Flow} {m : Machine} {spelling : Word → String}

/-- Whether a node, if it is a dereference, is one in the frame at an address that is written in the one way. -/
def isInFrame (f : Flow) (m : Machine) (spelling : Word → String) (n : Node) : Bool :=
  match n.expr with
  | .deref a _ => (f.term a).toOption.any fun A =>
    m.base? A == some (some 0) && (m.offset? true A).any fun w => A.text == spelling w
  | _ => true

theorem StaysInFrame.of_nodes (h : f.nodes.all (f.isInFrame m spelling)) : f.StaysInFrame m spelling := by
  intro c t x A k _ hT hx
  obtain ⟨q, hq⟩ := hT.stands.exists_of_within hx
  obtain ⟨n, hn, hshape⟩ := Option.map_eq_some_iff.1 hq.shape_id
  have hnode := Array.all_eq_true_iff_forall_mem.1 h n (Array.mem_of_getElem? hn)
  have hexpr : n.expr = .deref A.id k := (Prod.mk.inj hshape).1
  have hA : f.term A.id = .ok A := hT.term_eq (.trans (.of_mem_children (by simp [Expr.children])) hx)
  simp only [isInFrame, hexpr, hA, Except.toOption, Option.any_some, Bool.and_eq_true, beq_iff_eq,
    Option.any_eq_true] at hnode
  obtain ⟨hbase, w, hw, htext⟩ := hnode
  obtain ⟨v, hv⟩ := Machine.offset?_eq_some_iff.1 hw
  obtain rfl : v = some 0 := Option.some.inj (hv.base?_eq.symm.trans hbase)
  exact ⟨w, hv, htext⟩

end Flow

/-- In a function that accesses memory in its frame alone, the registers that are reported as restored have their
    values on entry at every return. -/
theorem Session.restored_holds_entry_of_frame {text name stackPointer : String} {l : Listing} {options : Options}
    {entry : Address} {s s' : Session} (hl : Listing.parse text = .ok l)
    (hs : (Task.mk l { name, stackPointer } options).sessionAt? entry .stackPropagated = some s)
    (hs' : (Task.mk l { name, stackPointer } options).sessionAt? entry .ssaDerefs = some s')
    {n : String} (hn : n ∈ s'.restored) {spelling : Word → String}
    (hframe : s.flow.StaysInFrame { name, stackPointer } spelling) {env : Surroundings} {σ : Store}
    (hσ : σ.assigned = []) {ss : List StatementId} {c : StatementId} {t : Term} (hwalk : s.flow.Walk ss c)
    (ht : s.flow.Holds c t) (hreturn : t.expr.isReturn = true) :
    (s.flow.run env σ ss).register n (s.flow.currentVersion n ss) = σ.register n (some 0) := by
  obtain ⟨S, h, hS⟩ := Recovery.exists_course_of_sessionAt?
    (t := ⟨l, { name, stackPointer }, options⟩) (Listing.wellFormed_of_parse hl) rfl (by decide) hs
  have hprepared : Prepared s.flow := hS ▸ h.prepared hl
  refine Session.restored_holds_entry hl hs hs' hn (fun c r D x X k hc hT _ => ?_) hσ
    (hprepared.versioned.storesApart hprepared.sound.forest hframe) hwalk ht hreturn
  have hx : Term.Within (.node x (.deref X k)) (.node r (.assign D (.node x (.deref X k)))) :=
    .of_mem_children (by simp [Expr.children])
  obtain ⟨w, hw, -⟩ := hframe c _ x X k hc hT hx
  exact hw.inlineable.movable

/-- A function that saves two registers in its frame, and restores them after a loop. -/
def loopedText : String :=
  "0: esp = esp - 8\n1: [esp + 4] = ebx\n2: [esp] = esi\n3: ebx = 8\n4: esi = ebx\n5: ebx = ebx - 1\n" ++
    "6: if ebx goto 4\n7: ebx = [esp + 4]\n8: esi = [esp]\n9: return"

/-- Both have their values on entry at the return, however often the loop was executed. -/
theorem Session.restored_holds_entry_looped : ∃ s s',
    Session.ofText? loopedText "x86" "esp" 0 .stackPropagated = some s ∧
    Session.ofText? loopedText "x86" "esp" 0 .ssaDerefs = some s' ∧ s'.restored = ["ebx", "esi"] ∧
    (∃ ss, s.flow.Walk ss ⟨9⟩) ∧ ∀ n ∈ s'.restored, ∀ env σ ss, σ.assigned = [] → s.flow.Walk ss ⟨9⟩ →
      (s.flow.run env σ ss).register n (s.flow.currentVersion n ss) = σ.register n (some 0) := by
  let spelling : Word → String := fun w => if w = -4 then "esp@0 - 4" else "esp@0 - 8"
  obtain ⟨hcheck, hcheck'⟩ : ((Session.ofText? loopedText "x86" "esp" 0 .stackPropagated).any fun s =>
      s.flow.nodes.all (s.flow.isInFrame { name := "x86", stackPointer := "esp" } spelling) &&
        (s.flow.liveStatements.contains ⟨9⟩ &&
          (s.flow.statementTerm ⟨9⟩).toOption.any fun t => t.expr.isReturn)) = true ∧
      (Session.ofText? loopedText "x86" "esp" 0 .ssaDerefs).map Session.restored = some ["ebx", "esi"] := by
    decide +kernel
  obtain ⟨s, hs, hchecks⟩ := Option.any_eq_true _ _ |>.1 hcheck
  rw [Bool.and_eq_true, Bool.and_eq_true, List.contains_iff_mem] at hchecks
  obtain ⟨hnodes, hmem, hreturn⟩ := hchecks
  obtain ⟨s', hs', hrestored⟩ := Option.map_eq_some_iff.1 hcheck'
  obtain ⟨l, hl, hsl⟩ := Session.exists_parse_of_ofText? hs
  obtain ⟨l', hl', hsl'⟩ := Session.exists_parse_of_ofText? hs'
  obtain rfl : l = l' := Except.ok.inj (hl.symm.trans hl')
  obtain ⟨S, h, rfl⟩ := Recovery.exists_course_of_sessionAt? (t := ⟨l, { name := "x86", stackPointer := "esp" }, {}⟩)
    (Listing.wellFormed_of_parse hl) rfl (by decide) hsl
  have hforest := (h.prepared hl).sound.forest
  have hlive := hforest.mem_liveStatements.1 hmem
  obtain ⟨t, ht⟩ := hforest.holds_of_live hlive
  rw [ht.statementTerm_eq] at hreturn
  exact ⟨_, s', hs, hs', hrestored, h.connected_stackPropagated.exists_walk hforest hlive,
    fun n hn env σ ss hσ hwalk =>
      Session.restored_holds_entry_of_frame hl hsl hsl' hn (.of_nodes hnodes) hσ hwalk ht hreturn⟩

end FrameRecovery
