import FrameRecovery.Proofs.Meaning
import FrameRecovery.Proofs.Pruned

namespace FrameRecovery

open Flow

namespace Term

variable {C C' : Context} {t : Term}

/-- Without versions and merges, what comes of a tree depends on the registers in it, on memory and on
    what is outside of the function. -/
theorem outcome_congr_plain (hmemory : C'.store.memory = C.store.memory) (hcall : C'.call = C.call)
    (haddress : C'.address = C.address) (hplain : ∀ u, Within u t → u.expr.isPlain = true)
    (hregister : ∀ i n, Within (.node i (.register n none)) t →
      C'.store.register n none = C.store.register n none) : t.outcome C' = t.outcome C := by
  induction t using Term.induction with
  | step i e ih =>
    have hmap : e.map (outcome C') = e.map (outcome C) := by
      apply Expr.ext_children (by simp)
      simp only [Expr.children_map, List.map_inj_left]
      exact fun c hc => ih c hc (fun u hu => hplain u (.inside hc hu)) fun j n hj => hregister j n (.inside hc hj)
    rw [outcome_node, outcome_node, hmap]
    have hself := hplain _ (.refl _)
    cases e with
    | register n v =>
      obtain rfl : v = none := by simpa [Expr.isPlain] using hself
      simp [Expr.map, Context.eval, hregister i n (.refl _)]
    | deref x v => simp [Expr.map, Context.eval, hmemory]
    | addressOf x => simp [Expr.map, Context.eval, haddress]
    | call x ys => simp [Expr.map, Context.eval, hcall]
    | var => cases hself
    | theta => cases hself
    | ret x => cases x <;> rfl
    | _ => rfl

end Term

namespace Flow

variable {f g : Flow} {s : StatementId} {ss rest : List StatementId} {t : Term} {w : Surroundings} {σ : Store}
  {a : Address} {as : List Address}

/-- What comes of the statements that are executed in order. -/
def trace (f : Flow) (w : Surroundings) : Store → List StatementId → List (StatementId × Option Outcome)
  | _, [] => []
  | σ, s :: rest =>
    (s, (f.statementTerm s).toOption.map fun t => t.outcome (f.context w σ)) :: f.trace w (f.execute w σ s) rest

theorem trace_append (ss ss' : List StatementId) :
    f.trace w σ (ss ++ ss') = f.trace w σ ss ++ f.trace w (f.run w σ ss) ss' := by
  induction ss generalizing σ with
  | nil => rfl
  | cons s rest ih => exact congrArg (_ :: ·) ih

/-- Every statement that is executed on some way ends a way of its own. -/
theorem Path.walk_of_split (hpath : f.Path as a)
    (hsplit : (as ++ [a]).flatMap f.statementsAt = ss ++ s :: rest) : f.Walk ss s := by
  rw [List.flatMap_append, List.flatMap_singleton] at hsplit
  induction hpath generalizing rest with
  | entry => exact Path.walk .entry hsplit
  | @step as b c block hpath hb hc ih =>
    obtain ⟨k, hss, hk⟩ | ⟨k, hbefore, hk⟩ := List.append_eq_append_iff.1 hsplit
    · exact hss ▸ (hpath.step hb hc).walk hk
    · cases k with
      | nil =>
        obtain rfl : (as ++ [b]).flatMap f.statementsAt = ss := by simpa using hbefore
        have hk : f.statementsAt c = [] ++ s :: rest := hk.symm
        simpa using (hpath.step hb hc).walk hk
      | cons x k =>
        obtain ⟨rfl, -⟩ : s = x ∧ rest = k ++ f.statementsAt c := by simpa using hk
        rw [List.flatMap_append, List.flatMap_singleton] at hbefore
        exact ih hbefore

/-- What comes of a statement depends on the registers that it reads, on memory and on what is outside of
    the function. -/
theorem Holds.outcome_congr {τ : Store} (hf : f.Plain) (ht : f.Holds s t) (hmemory : τ.memory = σ.memory)
    (hcall : w.call τ.time = w.call σ.time)
    (hread : ∀ u n, ⟨u, n⟩ ∈ BlockPlan.readsAt f .registers s → τ.register n none = σ.register n none) :
    t.outcome (g.context w τ) = t.outcome (f.context w σ) := by
  have haction := hf.action s t ht
  have hregister : ∀ {u n}, Term.Within (.node u (.register n none)) t →
      Summary.definitionOf f LocationKind.registers.locate s = some ⟨s, u, n⟩ ∨
        τ.register n none = σ.register n none :=
    fun hu => (Tagging.definition_or_read hf ht hu).imp_right (hread _ _)
  have hcongr : ∀ {u}, Term.Within u t → (∀ i n, Term.Within (.node i (.register n none)) u →
      τ.register n none = σ.register n none) → u.outcome (g.context w τ) = u.outcome (f.context w σ) :=
    fun hu hsame => Term.outcome_congr_plain (C := f.context w σ) hmemory hcall rfl
      (fun x hx => haction.plain (hx.trans hu)) hsame
  cases hD : Summary.definitionOf f LocationKind.registers.locate s with
  | none =>
    refine hcongr (.refl t) fun i n hi => (hregister hi).resolve_left ?_
    simp [hD]
  | some D =>
    obtain ⟨i, X, Y, rfl, hlocate, -, -⟩ := (Summary.mem_definitionOf ht).1 hD
    obtain ⟨j, rfl⟩ : ∃ j, X = .node j (.register D.location none) := by
      unfold LocationKind.locate at hlocate
      split at hlocate <;> simp_all
    have hin : Term.Within Y (.node i (.assign (.node j (.register D.location none)) Y)) :=
      .of_mem_children (by simp [Expr.children])
    have hY : Y.outcome (g.context w τ) = Y.outcome (f.context w σ) := by
      refine hcongr hin fun k n hk => (hregister (hk.trans hin)).resolve_left fun hdefinition => ?_
      -- the register that is assigned is not among those of the value
      obtain ⟨i', X', Y', heq, -, hid, -⟩ := (Summary.mem_definitionOf ht).1 hdefinition
      cases heq
      obtain rfl : k = j := hid
      have hmem : k ∈ Y.preorder := hk.preorder_subset (Term.id_mem_preorder _)
      have hnodup := ht.nodup
      simp only [Term.preorder_node, Expr.children, List.flatMap_cons, List.flatMap_nil, List.append_nil,
        List.nodup_cons, List.cons_append, List.nil_append] at hnodup
      exact hnodup.2.1 hmem
    simp [Term.outcome_node, Expr.map, Context.eval, hY]

/-- A flow `g` is a flow `f` without some dead definitions, none of which is read by what is left. -/
structure Omits (f g : Flow) : Prop where
  graph : f.SameGraph g
  statements : ∀ a, g.statementsAt a = (f.statementsAt a).filter (· ∈ g.liveStatements)
  holds : ∀ s t, s ∈ g.liveStatements → f.Holds s t → g.Holds s t
  gone : ∀ s t, f.Live s → f.Holds s t → s ∉ g.liveStatements → t.IsDead
  sources : ∀ as a pre s post r d c t, f.Path as a → f.statementsAt a = pre ++ s :: post → s ∈ g.liveStatements →
    r ∈ BlockPlan.readsAt f .registers s → f.lastSite? .registers r.location as pre = some d →
    f.Holds c t → d ∈ t.preorder → c ∈ g.liveStatements

namespace Omits

theorem flatMap_statementsAt_eq (hfg : f.Omits g) (as : List Address) :
    as.flatMap g.statementsAt = (as.flatMap f.statementsAt).filter (· ∈ g.liveStatements) := by
  rw [List.filter_flatMap]
  exact List.flatMap_congr fun a _ => hfg.statements a

variable (hfg : f.Omits g) (hf : f.Plain)
include hfg hf

/-- A statement that is left sets what it did. -/
theorem sets_iff {n : String} {k : Option Nat} {d : NodeId} (hs : s ∈ g.liveStatements) (hlive : f.Live s) :
    g.Sets s n k d ↔ f.Sets s n k d := by
  obtain ⟨t, ht⟩ := hf.forest.holds_of_live hlive
  rw [ht.sets_iff, (hfg.holds s t hs ht).sets_iff]

/-- A register that nothing defines on the way holds what it did at the start, also when dead
    definitions on the way are left out. -/
theorem register_run_of_none {n : String} (hss : ∀ s ∈ ss, f.Live s) (hnone : Definition.lastSite? n
    (ss.filterMap (Summary.definitionOf f LocationKind.registers.locate)) = none) :
    (g.run w σ (ss.filter (· ∈ g.liveStatements))).register n none = σ.register n none := by
  rw [Definition.lastSite?_eq_none_iff] at hnone
  refine register_run_of_not_sets fun s hs d hsets => ?_
  obtain ⟨hs, hleft⟩ := List.mem_filter.1 hs
  rw [hfg.sets_iff hf (by simpa using hleft) (hss s hs)] at hsets
  exact hnone _ (List.mem_filterMap.2 ⟨s, hs, definitionOf_of_sets hsets⟩) rfl

/-- Where the statements that are left come to the same, memory is the same. -/
theorem memory_run (hss : ∀ s ∈ ss, f.Live s) (hsame : ∀ before s between t, ss = before ++ s :: between →
      s ∈ g.liveStatements → f.Holds s t →
      t.outcome (g.context w (g.run w σ (before.filter (· ∈ g.liveStatements)))) =
        t.outcome (f.context w (f.run w σ before))) :
    (g.run w σ (ss.filter (· ∈ g.liveStatements))).memory = (f.run w σ ss).memory := by
  induction ss using List.reverseRecOn with
  | nil => simp only [List.filter_nil, run_nil]
  | append_singleton ss s ih =>
    have hmemory := ih (fun c hc => hss c (by simp [hc])) fun before c between t hsplit hc ht =>
      hsame before c (between ++ [s]) t (by simp [hsplit]) hc ht
    obtain ⟨t, ht⟩ := hf.forest.holds_of_live (hss s (by simp))
    rw [List.filter_append, run_append, run_append]
    by_cases hs : s ∈ g.liveStatements
    · have houtcome := hsame ss s [] t rfl hs ht
      rw [List.filter_singleton, decide_eq_true hs, cond_true, run_cons, run_nil, run_cons, run_nil, ht.execute_eq,
        (hfg.holds s t hs ht).execute_eq, houtcome]
      unfold Store.after Store.write
      split
      · split <;> simp [hmemory]
      · exact hmemory
    · -- what is gone assigned to a register
      obtain ⟨i, d, n, k, v, rfl, -⟩ := hfg.gone s t (hss s (by simp)) ht hs
      rw [List.filter_singleton, decide_eq_false hs, cond_false, run_nil, run_cons, run_nil, ht.execute_eq]
      exact hmemory

/-- What a statement that is left comes to does not depend on the dead definitions before it. -/
theorem outcome_eq (hcall : ∀ m n, w.call m = w.call n) (hwalk : f.Walk ss s) (hs : s ∈ g.liveStatements)
    (ht : f.Holds s t) :
    t.outcome (g.context w (g.run w σ (ss.filter (· ∈ g.liveStatements)))) =
      t.outcome (f.context w (f.run w σ ss)) := by
  -- by induction on the length of the way: what is read was assigned earlier
  induction hn : ss.length using Nat.strong_induction_on generalizing ss s t with
  | _ n ih =>
    subst hn
    have hearlier : ∀ before c between u, ss = before ++ c :: between → c ∈ g.liveStatements → f.Holds c u →
        u.outcome (g.context w (g.run w σ (before.filter (· ∈ g.liveStatements)))) =
          u.outcome (f.context w (f.run w σ before)) := by
      rintro before c between u rfl hc hu
      exact ih before.length (by simp) (hf.forest.walk_before hwalk) hc hu rfl
    obtain ⟨-, hlive⟩ := hf.forest.live_of_walk hwalk
    have hmemory := hfg.memory_run hf hlive hearlier
    have hread : ∀ u n, ⟨u, n⟩ ∈ BlockPlan.readsAt f .registers s →
        (g.run w σ (ss.filter (· ∈ g.liveStatements))).register n none = (f.run w σ ss).register n none := by
      intro u n hu
      obtain ⟨as, a, pre, post, hpath, hsplit, hss⟩ := id hwalk
      cases hlast : Definition.lastSite? n (ss.filterMap (Summary.definitionOf f LocationKind.registers.locate)) with
      | none => rw [hfg.register_run_of_none hf hlive hlast, Flow.register_run_of_none hlast]
      | some d =>
        obtain ⟨before, c, between, D, rfl, hD, rfl, rfl, hbetween⟩ := Definition.exists_split_of_lastSite? hlast
        obtain ⟨T, hT⟩ := hf.forest.exists_holds_of_walk (hf.forest.walk_before hwalk)
        obtain ⟨i, X, Y, rfl, hlocate, hX, -⟩ := (Summary.mem_definitionOf hT).1 hD
        obtain ⟨j, rfl⟩ : ∃ j, X = .node j (.register D.location none) := by
          unfold LocationKind.locate at hlocate
          split at hlocate <;> simp_all
        have hc : c ∈ g.liveStatements := by
          refine hfg.sources as a pre s post _ D.site c _ hpath hsplit hs hu ?_ hT ?_
          · rw [lastSite?, ← hss]
            exact hlast
          · simp [hX, Expr.children]
        have hvalue := congrArg Outcome.value (hearlier before c between _ rfl hc hT)
        have hrest : ∀ c' ∈ between, f.Live c' := fun c' hc' => hlive c' (by simp [hc'])
        rw [List.filter_append, List.filter_cons_of_pos (by simpa using hc), run_append, run_append, run_cons,
          run_cons, hfg.register_run_of_none hf hrest hbetween, Flow.register_run_of_none hbetween,
          register_execute_of_holds hT, register_execute_of_holds (hfg.holds c _ hc hT)]
        simpa [Term.outcome_node, Expr.map, Context.eval] using hvalue
    exact ht.outcome_congr hf hmemory (hcall _ _) hread

/-- The statements that are left come to what they did, on every way. -/
theorem trace_eq (hcall : ∀ m n, w.call m = w.call n) (hpath : f.Path as a)
    (hsplit : (as ++ [a]).flatMap f.statementsAt = ss ++ rest) :
    g.trace w σ (ss.filter (· ∈ g.liveStatements)) =
      (f.trace w σ ss).filter fun e => e.1 ∈ g.liveStatements := by
  induction ss using List.reverseRecOn generalizing rest with
  | nil => simp only [List.filter_nil, trace]
  | append_singleton ss s ih =>
    rw [List.append_assoc, List.singleton_append] at hsplit
    have hwalk := hpath.walk_of_split hsplit
    obtain ⟨t, ht⟩ := hf.forest.exists_holds_of_walk hwalk
    rw [List.filter_append, trace_append, trace_append, List.filter_append, ih hsplit]
    congr 1
    simp only [trace]
    by_cases hs : s ∈ g.liveStatements
    · rw [List.filter_singleton, decide_eq_true hs, List.filter_singleton, decide_eq_true hs]
      simp only [cond_true, trace, ht.statementTerm_eq, (hfg.holds s t hs ht).statementTerm_eq]
      simp only [Except.toOption, Option.map_some, hfg.outcome_eq hf hcall hwalk hs ht]
    · simp [hs, trace]

/-- Memory ends up the same on every way. -/
theorem memory_eq (hcall : ∀ m n, w.call m = w.call n) (hpath : f.Path as a) :
    (g.run w σ ((as ++ [a]).flatMap g.statementsAt)).memory =
      (f.run w σ ((as ++ [a]).flatMap f.statementsAt)).memory := by
  rw [hfg.flatMap_statementsAt_eq]
  refine hfg.memory_run hf (fun s hs => ?_) fun before s between t hsplit hs ht => ?_
  · obtain ⟨b, -, hs⟩ := List.mem_flatMap.1 hs
    exact hf.forest.live hs
  · exact hfg.outcome_eq hf hcall (hpath.walk_of_split hsplit) hs ht

end Omits

end Flow

theorem LocationKind.containsCall_strip (kind : LocationKind) (t : Term) :
    (kind.strip t).containsCall = t.containsCall := by
  rw [Bool.eq_iff_iff, ← not_iff_not]
  simp only [Bool.not_eq_true, Term.containsCall_eq_false_iff, kind.count_isCall_strip]

theorem Term.IsDead.strip {t : Term} (h : t.IsDead) : (LocationKind.registers.strip t).IsDead := by
  obtain ⟨i, d, n, k, v, rfl, hcall⟩ := h
  refine ⟨i, d, n, none, LocationKind.registers.strip v, by simp [Expr.map, LocationKind.untag], ?_⟩
  rwa [LocationKind.containsCall_strip]

namespace Tagging

variable {f g h k : Flow} {V : Locations} {s : StatementId} {t : Term} {a : Address}

section Omitted

variable (ht : Tagged V f .registers g) (hf : f.Plain) (hgh : g.Pares h) (hhk : Baring h [] k)
include ht hf hgh

/-- What was there before the registers were tagged is no merge. -/
theorem Tagged.isMerge_pared (hholds : f.Holds s t) : h.isMerge s = false := by
  obtain ⟨t', ht', -⟩ := ht.later.exists_holds hholds
  rw [(hgh.holds s t' ht').isMerge_eq, ← ht'.isMerge_eq]
  exact (assigned?_of_later ht.later hf hholds).1

include hhk

/-- A statement that is left after untagging is as it was before the registers were tagged. -/
theorem Tagged.holds_bared (hs : h.Live s) (hk : k.Live s) (hholds : f.Holds s t) : k.Holds s t := by
  obtain ⟨st, hst, hroot, hstands⟩ := id hholds
  obtain ⟨t', ht', -, hpreorder⟩ := ht.later.exists_holds hholds
  have hstatement : k.statementAt s = some st := by
    rw [hhk.statement s hk, hgh.statement s hs]
    exact ht.later.statement s st hst
  refine ⟨st, hstatement, hroot, hstands.congr fun x hx => ?_⟩
  obtain ⟨e, p, he⟩ := hholds.exists_shape hx
  obtain ⟨e₁, he₁, hworn⟩ := ((Wears.refl f).later ht.later).shape x e p he
  rw [← hgh.shape_eq] at he₁
  -- whether or not it was tagged, it has no version in the end
  have hnone := hhk.bare s t' hs (ht.isMerge_pared hf hgh hholds) (by simp) (hgh.holds s t' ht') x (hpreorder ▸ hx)
  have hbefore := Expr.version?_eq_none_of_isPlain (hf.plain x e (exprAt_eq_some he))
  rw [he]
  obtain hsame | ⟨e₂, e₃, q, he₂, hlost, he₃⟩ := hhk.bares x
  · rw [hsame, he₁]
    rw [hsame] at hnone
    have hnone := hnone e₁ p he₁
    obtain rfl | hworn := hworn
    · rfl
    · cases e₁ <;> cases hworn <;> simp_all [Expr.version?]
  · obtain ⟨rfl, rfl⟩ := Prod.mk.inj (Option.some.inj (he₁.symm.trans he₂))
    rw [he₃]
    obtain rfl | hworn := hworn
    · cases e₁ <;> cases hlost <;> simp_all [Expr.version?]
    · rw [Option.some.inj (hworn.symm.trans hlost)]

/-- Tagging the registers, removing dead definitions and untagging omits dead definitions, none of which is
    read by what is left. -/
theorem Tagged.omits (hconnected : f.Connected) (hh : h.Sound V) (hk : k.Forest) (hgraph : h.SameGraph k) :
    f.Omits k := by
  have hleft : ∀ {s t}, f.Holds s t → (s ∈ k.liveStatements ↔ h.Live s) := by
    intro s t hholds
    rw [hhk.mem_liveStatements_iff hgraph, hh.forest.mem_liveStatements]
    exact and_iff_left (.inr (ht.isMerge_pared hf hgh hholds))
  refine ⟨ht.later.graph.trans (hgh.graph.trans hgraph), fun a => ?_, fun s t hs hholds => ?_,
    fun s t hs hholds hnot => ?_, fun as a pre s post r d c t hpath hsplit hs hr hlast hholds hd => ?_⟩
  · obtain ⟨heads, hheads, hmerges⟩ := ht.exists_heads hf.forest hconnected a
    have hnil : heads.filter (fun s => (s ∈ [] || !h.isMerge s) && s ∈ h.liveStatements) = [] := by
      rw [List.filter_eq_nil_iff]
      intro m hm
      obtain ⟨-, d, hd⟩ := hmerges m hm
      obtain ⟨T, hT⟩ := ht.sound.forest.exists_holds (a := a) (s := m) (by simp [hheads, hm])
      have hmerge := hT.isMerge_iff.2 hd.assignsTheta
      rw [hT.isMerge_eq, ← (hgh.holds m T hT).isMerge_eq] at hmerge
      simp [hmerge]
    rw [hhk.statements, hgh.statements, hheads, List.filter_filter, List.filter_append, hnil, List.nil_append]
    refine List.filter_congr fun s _ => ?_
    rw [Bool.eq_iff_iff]
    simp [hhk.mem_liveStatements_iff hgraph, and_comm]
  · exact ht.holds_bared hf hgh hhk ((hleft hholds).1 hs) (hk.mem_liveStatements.1 hs) hholds
  · obtain ⟨t', ht', -⟩ := ht.later.exists_holds hholds
    obtain ⟨st, hst, hremoved⟩ := hs
    have hdead := hgh.gone s t' ⟨st, ht.later.statement s st hst, hremoved⟩ ht' (mt (hleft hholds).2 hnot)
    exact ht.later.strip_eq_of_plain hf hholds ht' ▸ hdead.strip
  · obtain ⟨S, hS⟩ := hf.forest.exists_holds (a := a) (s := s) (by simp [hsplit])
    exact (hleft hholds).2 <|
      ht.live_of_lastSite? hf hconnected hgh hh hpath hsplit ((hleft hS).1 hs) hr hlast hholds hd

end Omitted

end Tagging

/-- Calls that are made in the same place on the same values have the same result. -/
def Surroundings.oracle (call : NodeId → Word → List Word → Word) (address : Word → Word) : Surroundings :=
  ⟨fun _ => call, address⟩

/-- The statements of a flow `g` are statements of a flow `f`, in the same order on the same graph, and come to the
    same on every way and from every state: they assign, write to memory, branch on, call with and return the same
    values. Only assignments to registers without calls in the values are gone. -/
structure Flow.SameBehaviour (f g : Flow) : Prop where
  graph : f.SameGraph g
  statements : ∀ a, g.statementsAt a = (f.statementsAt a).filter (· ∈ g.liveStatements)
  tree : ∀ s ∈ g.liveStatements, ∃ t, f.statementTerm s = .ok t ∧ g.statementTerm s = .ok t
  gone : ∀ s ∈ f.liveStatements, s ∉ g.liveStatements → ∃ t, f.statementTerm s = .ok t ∧ t.IsDead
  trace : ∀ call address σ as a, f.Path as a →
    g.trace (.oracle call address) σ ((as ++ [a]).flatMap g.statementsAt) =
      (f.trace (.oracle call address) σ ((as ++ [a]).flatMap f.statementsAt)).filter fun e => e.1 ∈ g.liveStatements
  memory : ∀ call address σ as a, f.Path as a →
    (g.run (.oracle call address) σ ((as ++ [a]).flatMap g.statementsAt)).memory =
      (f.run (.oracle call address) σ ((as ++ [a]).flatMap f.statementsAt)).memory

theorem Flow.Omits.sameBehaviour {f g : Flow} (hfg : f.Omits g) (hf : f.Plain) : f.SameBehaviour g := by
  refine ⟨hfg.graph, hfg.statements, fun s hs => ?_, fun s hs hnot => ?_, fun call address σ as a hpath => ?_,
    fun call address σ as a hpath => hfg.memory_eq hf (fun _ _ => rfl) hpath⟩
  · have hs' : s ∈ f.liveStatements := by
      rw [← flatMap_statementsAt, hfg.flatMap_statementsAt_eq, hfg.graph.keys_eq, flatMap_statementsAt] at hs
      exact List.mem_of_mem_filter hs
    obtain ⟨t, ht⟩ := hf.forest.holds_of_mem hs'
    exact ⟨t, ht.statementTerm_eq, (hfg.holds s t hs ht).statementTerm_eq⟩
  · obtain ⟨t, ht⟩ := hf.forest.holds_of_mem hs
    exact ⟨t, ht.statementTerm_eq, hfg.gone s t (hf.forest.mem_liveStatements.1 hs) ht hnot⟩
  · rw [hfg.flatMap_statementsAt_eq]
    exact hfg.trace_eq hf (fun _ _ => rfl) hpath (List.append_nil _).symm

namespace Pruning

/-- Removes dead definitions from a flow without versions: its registers are tagged for that only. -/
def cleanup (prune : Edit Nat) : Edit Nat := do
  let _ ← Tagging.tag .registers
  let removed ← prune
  Tagging.untag
  return removed

/-- Whatever function the text of a listing holds, removing its dead definitions, once or as long as there are any,
    leaves what it does. -/
theorem cleanup_preserves {f : Flow} (hf : f.IsLowered) {prune : Edit Nat}
    (hprune : prune = Pruning.prune ∨ prune = pruneToFixedPoint) :
    ∃ removed k, (cleanup prune).run f = .ok (removed, k) ∧ f.SameBehaviour k := by
  have hplain := hf.plain
  have hprunes : ∀ {V : Locations} {g : Flow}, g.Sound V → Gives prune g fun _ h => Pruned V g h := by
    rintro V g hg
    obtain rfl | rfl := hprune
    · exact prune_gives (.refl hg)
    · exact pruneToFixedPoint_gives (.refl hg)
  have hgives : Gives (cleanup prune) f fun _ k => f.Omits k := by
    refine .of_bind ((Tagging.tag_gives (LocationKind.permits_registers _) hplain.sound hplain.rooted
      hf.connected).mono fun _ g ht => ?_)
    refine .of_bind ((hprunes ht.sound).mono fun _ h hh => ?_)
    have hgh := Pares.of_pruned ht.sound.forest (ht.anchored hplain hf.connected) hh
    refine .of_bind ((Tagging.untag_bares hh.sound (hh.rooted ht.rooted)).mono fun _ k ⟨hk, hgraph, hhk⟩ => ?_)
    exact .of_pure (ht.omits hplain hgh hhk hf.connected hh.sound hk.forest hgraph)
  obtain ⟨removed, k, hrun, homits⟩ := hgives
  exact ⟨removed, k, hrun, homits.sameBehaviour hplain⟩

/-- A loop with a call and a write to memory, and before it two registers that nothing else is computed from. -/
def deadText : String :=
  "0: ecx = 1\n1: ebx = ecx\n2: edx = ebx\n3: eax = call 9(ecx)\n4: [ecx] = eax\n5: if eax goto 3\n" ++
    "6: eax = call 9(eax)\n7: return ecx"

/-- Both registers are dead, one only when the other is gone. The call is made although nothing reads its result. -/
theorem cleanup_preserves_dead : ∃ f k, Flow.ofText? deadText 0 = some f ∧
    (cleanup pruneToFixedPoint).run f = .ok (2, k) ∧ f.liveStatements = [⟨0⟩, ⟨1⟩, ⟨2⟩, ⟨3⟩, ⟨4⟩, ⟨5⟩, ⟨6⟩, ⟨7⟩] ∧
      k.liveStatements = [⟨0⟩, ⟨3⟩, ⟨4⟩, ⟨5⟩, ⟨6⟩, ⟨7⟩] ∧ f.SameBehaviour k := by
  have hvalues : ((Flow.ofText? deadText 0).any fun f =>
      f.liveStatements = [⟨0⟩, ⟨1⟩, ⟨2⟩, ⟨3⟩, ⟨4⟩, ⟨5⟩, ⟨6⟩, ⟨7⟩] &&
        ((cleanup pruneToFixedPoint).run f).toOption.any fun r =>
          r.1 = 2 && r.2.liveStatements = [⟨0⟩, ⟨3⟩, ⟨4⟩, ⟨5⟩, ⟨6⟩, ⟨7⟩]) = true := by
    decide +kernel
  obtain ⟨f, hf, hvalues⟩ := Option.any_eq_true _ _ |>.1 hvalues
  obtain ⟨removed, k, hrun, hsame⟩ := cleanup_preserves ⟨deadText, 0, hf⟩ (.inr rfl)
  rw [hrun] at hvalues
  simp only [Except.toOption, Option.any_some, Bool.and_eq_true, decide_eq_true_eq] at hvalues
  obtain ⟨hbefore, rfl, hafter⟩ := hvalues
  exact ⟨f, k, hf, hrun, hbefore, hafter, hsame⟩

end Pruning

end FrameRecovery
