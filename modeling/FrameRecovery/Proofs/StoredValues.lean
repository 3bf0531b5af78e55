import FrameRecovery.Proofs.MemoryLinks

namespace FrameRecovery

open Flow

/-- An operand of a merge may be chosen: it has the value on entry, or what its definition was assigned last. -/
def Context.Arrived (C : Context) (l : Link) : Prop :=
  ∃ D, l = .use D ∧ ∀ d, D = some d → d ∈ C.store.assigned

/-- A merge has a value if all operands that may be chosen have it. -/
theorem Context.merge_eq {C : Context} {i : NodeId} {values : List Word} {v : Word}
    (hall : ∀ p ∈ (C.sources i).zip values, C.Arrived p.1 → p.2 = v)
    (hsome : ∃ p ∈ (C.sources i).zip values, C.Arrived p.1) : C.merge i values = v := by
  have hchosen : ∀ {D w}, ((C.sources i).zip values).lookup (.use D) = some w →
      (∀ d, D = some d → d ∈ C.store.assigned) → w = v := by
    intro D w hlookup hD
    obtain ⟨before, after, heq, -⟩ := List.lookup_eq_some_iff.1 hlookup
    exact hall (.use D, w) (by simp [heq]) ⟨D, rfl, hD⟩
  unfold merge
  simp only
  split
  next w hw =>
    obtain ⟨d, hd, hlookup⟩ := List.exists_of_findSome?_eq_some hw
    exact hchosen hlookup fun _ heq => Option.some.inj heq ▸ hd
  next hnone =>
    -- no definition was assigned, so there is an operand for the entry
    obtain ⟨⟨_, u⟩, hp, D, rfl, hD⟩ := hsome
    cases D with
    | some d =>
      have hlookup := List.lookup_eq_none_iff.1 (List.findSome?_eq_none_iff.1 hnone d (hD d rfl)) _ hp
      simp at hlookup
    | none =>
      cases hlookup : ((C.sources i).zip values).lookup (.use none) with
      | some w => exact hchosen hlookup nofun
      | none => simpa using List.lookup_eq_none_iff.1 hlookup _ hp

namespace Flow

variable {f : Flow} {s c : StatementId} {n : String} {k : Option Nat} {d : NodeId} {ss : List StatementId}
  {env : Surroundings} {σ : Store} {v : Word}

/-- Whatever way control takes, what is assigned to `d` is the value `v`. -/
def AlwaysAssigns (f : Flow) (env : Surroundings) (σ : Store) (d : NodeId) (v : Word) : Prop :=
  ∀ ss s r X Y, f.Walk ss s → f.Holds s (.node r (.assign X Y)) → X.id = d →
    (Y.outcome (f.context env (f.run env σ ss))).value = v

/-- The version of a register that a statement sets, if it sets one. -/
def versionSet? (f : Flow) (n : String) (s : StatementId) : Option (Option Nat) :=
  match f.statementTerm s with
  | .ok (.node _ (.assign (.node _ (.register m k)) _)) => if m = n then some k else none
  | _ => none

/-- The version of a register that holds its value after some statements were executed: the one that was set last,
    or the version on entry if none was. -/
def currentVersion (f : Flow) (n : String) (ss : List StatementId) : Option Nat :=
  (ss.reverse.findSome? (f.versionSet? n)).getD (some 0)

/-- Dereferences whose addresses have different texts never touch the same cell of memory: none is read at an
    address that was written to under another text. -/
def StoresApart (f : Flow) (env : Surroundings) (σ : Store) : Prop :=
  ∀ before w between c t x A k B d, f.Walk (before ++ w :: between) c → f.Writes w B d → f.Holds c t →
    Term.Within (.node x (.deref A k)) t → B.text ≠ A.text →
      (B.outcome (f.context env (f.run env σ before))).value ≠
        (A.outcome (f.context env (f.run env σ (before ++ w :: between)))).value

/-- Memory is accessed at constant distances from the stack pointer on entry alone, and every distance is written in
    one way. -/
def StaysInFrame (f : Flow) (m : Machine) (spelling : Word → String) : Prop :=
  ∀ c t x A k, f.Live c → f.Holds c t → Term.Within (.node x (.deref A k)) t →
    ∃ w, m.Locates true A (some 0) w ∧ A.text = spelling w

/-- What assigns to a register sets it. -/
theorem Assigns.sets {r : NodeId} (h : f.Assigns s r d) (hforest : f.Forest)
    (hd : f.exprAt d = some (.register n k)) : f.Sets s n k d := by
  obtain ⟨⟨i, e⟩, y, hT, rfl⟩ := h.exists_holds hforest
  obtain ⟨q, hq⟩ := hT.stands.exists_of_within (.of_mem_children (c := .node i e) (by simp [Expr.children]))
  rw [exprAt_eq_some hq.shape_id, Option.some.injEq] at hd
  obtain rfl : e = .register n k := by
    cases e <;> simp_all [Expr.map]
  exact hT.sets_iff.2 ⟨r, y, rfl⟩

theorem versionSet?_eq_some_iff : f.versionSet? n s = some k ↔ ∃ d, f.Sets s n k d := by
  unfold versionSet? Sets
  constructor
  · intro h
    split at h
    next i d m k' y hterm =>
      split at h
      next hm =>
        cases h
        exact ⟨d, i, y, hm ▸ hterm⟩
      · cases h
    · cases h
  · rintro ⟨d, i, y, hterm⟩
    simp [hterm]

theorem versionSet?_eq_none_iff : f.versionSet? n s = none ↔ ∀ k d, ¬ f.Sets s n k d := by
  rw [Option.eq_none_iff_forall_ne_some]
  simp [versionSet?_eq_some_iff]

theorem currentVersion_of_sets {w : StatementId} {before between : List StatementId} (hw : f.Sets w n k d)
    (hbetween : ∀ c ∈ between, ∀ k d, ¬ f.Sets c n k d) : f.currentVersion n (before ++ w :: between) = k := by
  have hnone : between.reverse.findSome? (f.versionSet? n) = none :=
    List.findSome?_eq_none_iff.2 fun c hc => versionSet?_eq_none_iff.2 (hbetween c (List.mem_reverse.1 hc))
  simp [currentVersion, List.findSome?_append, hnone, versionSet?_eq_some_iff.2 ⟨d, hw⟩]

theorem currentVersion_of_not_sets (h : ∀ c ∈ ss, ∀ k d, ¬ f.Sets c n k d) : f.currentVersion n ss = some 0 := by
  have hnone : ss.reverse.findSome? (f.versionSet? n) = none :=
    List.findSome?_eq_none_iff.2 fun c hc => versionSet?_eq_none_iff.2 (h c (List.mem_reverse.1 hc))
  simp [currentVersion, hnone]

theorem Holds.mem_assigned_execute {t : Term} (ht : f.Holds s t) (hforest : f.Forest) :
    d ∈ (f.execute env σ s).assigned ↔ d ∈ σ.assigned ∨ ∃ i, f.Assigns s i d := by
  rw [assigned_execute_of_holds ht]
  obtain ⟨i, e⟩ := t
  cases e with
  | assign X Y =>
    have hassigns : (∃ i, f.Assigns s i d) ↔ d = X.id :=
      ⟨fun ⟨_, h⟩ => h.eq ht.assigns, fun h => ⟨i, h ▸ ht.assigns⟩⟩
    rw [hassigns, or_comm]
    exact List.mem_cons
  | _ =>
    refine (or_iff_left ?_).symm
    rintro ⟨j, h⟩
    obtain ⟨a, v, ht', -⟩ := h.exists_holds hforest
    cases ht.unique ht'

theorem mem_assigned_run (hforest : f.Forest) (hss : ∀ c ∈ ss, ∃ t, f.Holds c t) :
    d ∈ (f.run env σ ss).assigned ↔ d ∈ σ.assigned ∨ ∃ c ∈ ss, ∃ i, f.Assigns c i d := by
  induction ss generalizing σ with
  | nil => simp
  | cons s rest ih =>
    obtain ⟨t, ht⟩ := hss s (by simp)
    rw [run_cons, ih fun c hc => hss c (by simp [hc]), ht.mem_assigned_execute hforest]
    simp [or_assoc]

/-- If nothing was assigned at the start, what may be chosen is what has arrived. -/
theorem arrived_iff {x : NodeId} (hforest : f.Forest) (hσ : σ.assigned = []) (hss : ∀ c ∈ ss, f.Live c) :
    (f.context env (f.run env σ ss)).Arrived (f.linkOf x) ↔ f.Arrives ss x := by
  have hassigned : ∀ d, d ∈ (f.run env σ ss).assigned ↔ ∃ c ∈ ss, ∃ i, f.Assigns c i d := fun d => by
    simp [mem_assigned_run hforest fun c hc => hforest.holds_of_live (hss c hc), hσ]
  unfold Context.Arrived Arrives
  simp only [← hassigned]
  rfl

namespace Versioned

variable (hf : f.Versioned) (hforest : f.Forest) (hwalk : f.Walk ss s)
include hf hforest hwalk

/-- A version of a register that was set keeps the value that is always assigned to it. -/
theorem register_run_eq (hc : c ∈ ss) (hset : f.Sets c n k d) (hd : f.AlwaysAssigns env σ d v) :
    (f.run env σ ss).register n k = v := by
  obtain ⟨before, between, rfl, hlast⟩ := exists_last_of_mem hc
  have hlive := (hforest.live_of_walk hwalk).2
  have hbefore := hforest.walk_before hwalk
  obtain ⟨t, ht⟩ := hforest.exists_holds_of_walk hbefore
  obtain ⟨i, y, rfl⟩ := ht.sets_iff.1 hset
  rw [run_append, run_cons, register_run_of_not_sets, register_execute_of_holds ht]
  · exact hd before c i _ y hbefore ht rfl
  · intro c' hc' d' hset'
    have heq := hf.unique c' c n k d' d (hlive c' (by simp [hc'])) (hlive c (by simp)) hset' hset
    exact hlast (heq ▸ hc')

/-- A register keeps the value on entry. -/
theorem register_run_entry : (f.run env σ ss).register n (some 0) = σ.register n (some 0) := by
  refine register_run_of_not_sets fun c hc d hset => ?_
  obtain ⟨v, hv⟩ := hf.initial c n _ d ((hforest.live_of_walk hwalk).2 c hc) hset
  cases hv

/-- An address in the frame is at its distance from the stack pointer on entry, whatever way control takes. -/
theorem value_run_eq {m : Machine} {A : Term} {w : Word} (h : m.Locates true A (some 0) w) :
    (A.outcome (f.context env (f.run env σ ss))).value = σ.register m.stackPointer (some 0) + w := by
  have hentry : (f.run env σ ss).register m.stackPointer (some 0) = σ.register m.stackPointer (some 0) :=
    hf.register_run_entry hforest hwalk
  cases h with
  | pointer => simp [Term.outcome_node, Expr.map, Context.eval, context, hentry]
  | sum => simp [Term.outcome_node, Expr.map, Context.eval, context, hentry, BinaryOp.eval]
  | difference => simp [Term.outcome_node, Expr.map, Context.eval, context, hentry, BinaryOp.eval, Int64.sub_eq_add_neg]

omit hwalk

/-- Where memory is accessed in the frame alone, dereferences with different texts never touch the same cell. -/
theorem storesApart {m : Machine} {spelling : Word → String} (h : f.StaysInFrame m spelling) :
    f.StoresApart env σ := by
  rintro before w between c t x A k B d hwalk ⟨i, v, y, hterm⟩ hT hx htext heq
  have hlive := hforest.live_of_walk hwalk
  obtain ⟨T, hT'⟩ := hforest.holds_of_live (hlive.2 w (by simp))
  obtain rfl := Except.ok.inj (hT'.statementTerm_eq.symm.trans hterm)
  obtain ⟨a, ha, hA⟩ := h c t x A k hlive.1 hT hx
  obtain ⟨b, hb, hB⟩ := h w _ d B v (hlive.2 w (by simp)) hT'
    (.of_mem_children (c := .node d (.deref B v)) (by simp [Expr.children]))
  rw [hf.value_run_eq hforest (hforest.walk_before hwalk) hb, hf.value_run_eq hforest hwalk ha] at heq
  obtain rfl : b = a := by simpa using heq
  exact htext (hB.trans hA.symm)

end Versioned

end Flow

namespace Tagging

variable {f : Flow} {s w : StatementId} {t A B y b : Term} {x d r : NodeId} {k : Option Nat} {D : Definition}
  {before between ss : List StatementId} {env : Surroundings} {σ : Store} {v : Word}

namespace Prepared

variable (hf : Prepared f)
include hf

/-- What can be assigned to is a register, or memory. -/
theorem register_or_deref {e : Expr NodeId} (hx : f.exprAt x = some e) (hassignable : e.isAssignable = true) :
    (∃ n k, e = .register n k) ∨ ∃ y k, e = .deref y k := by
  have hadmits := hf.sound.typed.location x e hx
  cases e with
  | register => exact .inl ⟨_, _, rfl⟩
  | deref => exact .inr ⟨_, _, rfl⟩
  | var => exact hadmits.elim
  | _ => cases hassignable

/-- All stores at the text of an address have that address, apart from the numbers of its nodes. -/
theorem store_form_eq (hs : f.Live s) (hT : f.Holds s t) (hx : Term.Within (.node x (.deref A k)) t) (hlive : f.Live w)
    (hw : f.Holds w (.node r (.assign (.node d (.deref B none)) b))) (htext : B.text = A.text) : B.form = A.form :=
  hf.form_eq hs hT hx hlive hw (.of_mem_children (c := .node d (.deref B none)) (by simp [Expr.children])) htext

/-- Between a store and a read at the same text, nothing sets a register in the address; for what does so, if it were
    executed again, could be followed to the read without any store. -/
theorem not_sets_between (hs : f.Live s) (hT : f.Holds s t) (hx : Term.Within (.node x (.deref A k)) t)
    (hstored : ∀ ss, f.Walk ss s → Definition.lastSite? A.text
      (ss.filterMap (Summary.definitionOf f LocationKind.derefs.locate)) ≠ none)
    (hwalk : f.Walk (before ++ w :: between) s) (hbetween : Definition.lastSite? A.text
      (between.filterMap (Summary.definitionOf f LocationKind.derefs.locate)) = none)
    {y : String × Option Nat} (hy : y ∈ A.cells) {e : StatementId} (he : e ∈ between) {d' : NodeId} :
    ¬ f.Sets e y.1 y.2 d' := by
  intro hset
  have hforest := hf.sound.forest
  have hlive := (hforest.live_of_walk hwalk).2
  obtain ⟨first, rest, hsplit, hfirst⟩ := List.eq_append_cons_of_mem
    (show e ∈ before ++ w :: between by simp [he])
  have hwalkfirst : f.Walk first e := hforest.walk_before (hsplit ▸ hwalk)
  obtain ⟨pre, post, rfl⟩ := List.append_of_mem he
  have hwalk' : f.Walk (first ++ e :: post) s := by
    rw [← List.cons_append, ← List.append_assoc] at hwalk
    exact hforest.walk_join hwalk hwalkfirst
  -- the last store on that way comes before all that sets the register
  obtain ⟨z, hlast⟩ := Option.ne_none_iff_exists'.1 (hstored _ hwalk')
  obtain ⟨before', w', between', D, hsplit', hD, hl, -⟩ := Definition.exists_split_of_lastSite? hlast
  have hmem : w' ∈ first ++ e :: post := by simp [hsplit']
  have hw' := (hforest.live_of_walk hwalk').2 w' hmem
  obtain ⟨r', B', b', hT', htext'⟩ := hf.exists_store hw' hD
  have hne : e ≠ w' := by
    rintro rfl
    obtain ⟨i, y, heq⟩ := hT'.sets_iff.1 hset
    cases heq
  have hpost : w' ∉ post := fun hmem =>
    Definition.lastSite?_eq_none_iff.1 hbetween D (List.mem_filterMap.2 ⟨w', by simp [hmem], hD⟩) hl
  have hfirst' : w' ∈ first := by simpa [hne.symm, hpost] using hmem
  have hcells : y ∈ B'.cells := by
    rw [← Term.cells_form, hf.store_form_eq hs hT hx hw' hT' (htext'.trans hl), Term.cells_form]
    exact hy
  have hcount := hf.count_isTheta hw' hT'
    (.of_mem_children (c := .node D.site (.deref B' none)) (by simp [Expr.children]))
  obtain rfl | hprecedes := hf.versioned.before w' _ hw' hT' hcount y (by simp [Expr.children, hcells]) e d'
    (hlive e (by simp)) hset
  · exact hne rfl
  · obtain ⟨p, q, rfl⟩ := List.append_of_mem hfirst'
    exact hfirst (List.mem_append_left _ (hprecedes p (hforest.walk_before hwalkfirst)))

/-- Between a store and a read at the same text, the address stays the same. -/
theorem address_eq (hs : f.Live s) (hT : f.Holds s t) (hx : Term.Within (.node x (.deref A k)) t) (hA : A.Movable)
    (hstored : ∀ ss, f.Walk ss s → Definition.lastSite? A.text
      (ss.filterMap (Summary.definitionOf f LocationKind.derefs.locate)) ≠ none)
    (hwalk : f.Walk (before ++ w :: between) s) (hw : f.Holds w (.node r (.assign (.node d (.deref B none)) b)))
    (htext : B.text = A.text) (hbetween : Definition.lastSite? A.text
      (between.filterMap (Summary.definitionOf f LocationKind.derefs.locate)) = none) :
    (A.outcome (f.context env (f.run env σ (before ++ w :: between)))).value =
      (B.outcome (f.context env (f.run env σ before))).value := by
  have hlive := (hf.sound.forest.live_of_walk hwalk).2
  have hB := hf.store_form_eq hs hT hx (hlive w (by simp)) hw htext
  have hforeign : B.count Expr.isForeign = 0 := by
    rw [← Term.count_form, hB, Term.count_form, hf.count_isForeign hs hT hx]
  have halike : (LocationKind.derefs.strip B).form = (LocationKind.derefs.strip A).form := by
    rw [LocationKind.form_strip, LocationKind.form_strip, hB]
  symm
  refine hA.value_eq_of_cells halike hforeign rfl fun y hy => ?_
  change (f.run env σ before).register y.1 y.2 = (f.run env σ (before ++ w :: between)).register y.1 y.2
  rw [run_append]
  refine (register_run_of_not_sets fun e he d' hset => ?_).symm
  obtain rfl | he := List.mem_cons.1 he
  · obtain ⟨i, y, heq⟩ := hw.sets_iff.1 hset
    cases heq
  · rw [← Term.cells_form, hB, Term.cells_form] at hy
    exact hf.not_sets_between hs hT hx hstored hwalk hbetween hy he hset

/-- What writes to memory defines a location. -/
theorem definitionOf_eq_of_writes (hw : f.Live w) (h : f.Writes w B d) :
    Summary.definitionOf f LocationKind.derefs.locate w = some ⟨w, d, B.text⟩ := by
  obtain ⟨T, hT⟩ := hf.sound.forest.holds_of_live hw
  obtain ⟨r, k, b, hterm⟩ := h
  obtain rfl := Except.ok.inj (hT.statementTerm_eq.symm.trans hterm)
  obtain ⟨q, hq⟩ := hT.stands.exists_of_within (.of_mem_children (c := .node d (.deref B k)) (by simp [Expr.children]))
  -- before, no dereference has a version
  obtain rfl : k = none := hf.sound.typed.location _ _ (exprAt_eq_some hq.shape_id)
  exact (Summary.mem_definitionOf hT).2 ⟨r, _, b, rfl, rfl, rfl, rfl⟩

/-- If the same value is stored last on all ways to a read of memory, it is what is read. -/
theorem memory_run_eq (hs : f.Live s) (hT : f.Holds s t) (hx : Term.Within (.node x (.deref A k)) t) (hA : A.Movable)
    (hapart : f.StoresApart env σ) (hstored : ∀ ss, f.Walk ss s → ∃ d, Definition.lastSite? A.text
      (ss.filterMap (Summary.definitionOf f LocationKind.derefs.locate)) = some d ∧ f.AlwaysAssigns env σ d v)
    (hwalk : f.Walk ss s) : (f.run env σ ss).memory (A.outcome (f.context env (f.run env σ ss))).value = v := by
  have hforest := hf.sound.forest
  obtain ⟨z, hlast, hz⟩ := hstored ss hwalk
  obtain ⟨before, w, between, D, rfl, hD, hl, rfl, hbetween⟩ := Definition.exists_split_of_lastSite? hlast
  have hlive := (hforest.live_of_walk hwalk).2
  obtain ⟨r, B, b, hW, htext⟩ := hf.exists_store (hlive w (by simp)) hD
  have hvalue := hz before w r _ b (hforest.walk_before hwalk) hW rfl
  have haddress : (A.outcome (f.context env (f.run env σ (before ++ w :: between)))).value =
      (B.outcome (f.context env (f.run env σ before))).value := by
    refine hf.address_eq hs hT hx hA (fun ss hss => ?_) hwalk hW (htext.trans hl) hbetween
    obtain ⟨d, hd, -⟩ := hstored ss hss
    simp [hd]
  rw [haddress, run_append, run_cons, memory_run_of_not_writes, memory_execute_of_holds hW, hvalue]
  -- the stores in between are at other texts
  rintro pre c post rfl B' d' hwrites
  rw [← run_cons, ← run_append, ← haddress, ← List.cons_append, ← List.append_assoc]
  rw [← List.cons_append, ← List.append_assoc] at hwalk
  refine hapart (before ++ w :: pre) c post s t x A k B' d' hwalk hwrites hT hx fun htext' => ?_
  have hdefinition := hf.definitionOf_eq_of_writes (hlive c (by simp)) hwrites
  exact Definition.lastSite?_eq_none_iff.1 hbetween _ (List.mem_filterMap.2 ⟨c, by simp, hdefinition⟩) htext'

end Prepared

end Tagging

end FrameRecovery
