import FrameRecovery.Proofs.Lowering
import FrameRecovery.Proofs.Tagging.Exact

namespace FrameRecovery

open Flow

namespace Expr

theorem untag_registers_eq_self {e : Expr Term} (h : e.isPlain = true) :
    LocationKind.registers.untag e = e := by
  cases e <;> simp_all [isPlain, LocationKind.untag]

end Expr

namespace Term

/-- A tree without versions has none that could be removed. -/
theorem strip_eq_self {kind : LocationKind} {t : Term} (h : ∀ u, Within u t → kind.untag u.expr = u.expr) :
    kind.strip t = t := by
  induction t using Term.induction with
  | step i e ih =>
    have hchildren : e.map kind.strip = e := by
      apply Expr.ext_children (by simp)
      rw [Expr.children_map]
      conv_rhs => rw [← List.map_id e.children]
      apply List.map_congr_left
      intro c hc
      exact ih c hc fun u hu => h u (.inside hc hu)
    have huntag := h (node i e) (.refl _)
    rw [LocationKind.strip_node, hchildren, ← expr_node i e, huntag]

/-- The register that an assignment assigns to, with the operand for it. -/
def assigned? : Term → Option (String × NodeId)
  | node _ (.assign (node d (.register n _)) _) => some (n, d)
  | _ => none

/-- Whether the tree is the assignment of a merge. -/
def isMerge : Term → Bool
  | node _ (.assign _ y) => y.expr.isTheta
  | _ => false

end Term

namespace Flow

variable {f g : Flow} {V : Locations} {a : Address} {as : List Address} {s m : StatementId}
  {pre post heads : List StatementId} {t t' : Term} {u d : NodeId} {n : String} {v : Option Nat}
  {D : Option NodeId}

/-- The register that a statement assigns to, with the operand for it. -/
def assigned? (f : Flow) (s : StatementId) : Option (String × NodeId) :=
  (f.statementTerm s).toOption.bind Term.assigned?

/-- Whether a statement assigns a merge. -/
def isMerge (f : Flow) (s : StatementId) : Bool :=
  (f.statementTerm s).toOption.any Term.isMerge

/-- The operand of the last assignment to a register in a run of statements, merges apart. -/
def lastAssignment? (f : Flow) (n : String) (ss : List StatementId) : Option NodeId :=
  ((((ss.filter fun s => !f.isMerge s).filterMap f.assigned?).reverse.find? fun x => x.1 == n)).map
    Prod.snd

/-- The merge `m` stands at the head of the block at `a`, the only one of its register there. The
    register is not assigned between it and the place that the statements in `pre` lead to, and
    its operands are linked one to one to all that was assigned last on some way to that place. -/
structure MergesExactly (f : Flow) (a : Address) (pre : List StatementId) (n : String)
    (m : StatementId) : Prop where
  head : ∃ before between, pre = before ++ m :: between ∧ (∀ s ∈ before, f.isMerge s = true) ∧
    ∀ s ∈ between, ∀ d, f.assigned? s ≠ some (n, d)
  only : ∀ s ∈ f.statementsAt a, f.isMerge s = true → ∀ d, f.assigned? s = some (n, d) → s = m
  operands : ∃ i d v j inputs, ∃ Ds : List (Option NodeId), f.Holds m (.node i (.assign
    (.node d (.register n v)) (.node j (.theta inputs)))) ∧ (inputs.map fun x => f.linkOf x.id) = Ds.map Link.use ∧
      Ds.Nodup ∧ 2 ≤ Ds.length ∧ ∀ D, D ∈ Ds ↔ ∃ as, f.Path as a ∧
        f.lastAssignment? n (as.flatMap f.statementsAt ++ pre) = D

/-- A read of a register in version `v`, at the place in the block at `a` that the statements in
    `pre` lead to, is linked to `D` as the ways to that place demand. -/
structure LinkedExactly (f : Flow) (a : Address) (pre : List StatementId) (n : String)
    (v : Option Nat) (D : Option NodeId) : Prop where
  version : match D with
    | none => v = some 0
    | some d => ∃ w, 1 ≤ w ∧ v = some w ∧ f.exprAt d = some (.register n (some w))
  entry : D = none → ∀ as, f.Path as a →
    f.lastAssignment? n (as.flatMap f.statementsAt ++ pre) = none
  definition : ∀ d, D = some d → (∀ m, f.isMerge m = true → f.assigned? m ≠ some (n, d)) →
    ∀ as, f.Path as a → f.lastAssignment? n (as.flatMap f.statementsAt ++ pre) = some d
  merge : ∀ d m, D = some d → f.isMerge m = true → f.assigned? m = some (n, d) →
    f.MergesExactly a pre n m

theorem Holds.assigned?_eq (h : f.Holds s t) : f.assigned? s = t.assigned? := by
  unfold assigned?
  rw [h.statementTerm_eq]
  rfl

theorem Holds.isMerge_eq (h : f.Holds s t) : f.isMerge s = t.isMerge := by
  unfold isMerge
  rw [h.statementTerm_eq]
  rfl

/-- What assigns to a register. -/
theorem Holds.assigned?_eq_some (h : f.Holds s t) : f.assigned? s = some (n, d) ↔
    ∃ i v y, t = .node i (.assign (.node d (.register n v)) y) := by
  rw [h.assigned?_eq]
  constructor
  · intro heq
    unfold Term.assigned? at heq
    split at heq
    next i d' n' v y =>
      obtain ⟨rfl, rfl⟩ := Prod.mk.inj (Option.some.inj heq)
      exact ⟨i, v, y, rfl⟩
    next => cases heq
  · rintro ⟨i, v, y, rfl⟩
    rfl

theorem Forest.exists_holds_of_assigned? (hf : f.Forest) {x : String × NodeId} (h : f.assigned? s = some x) :
    ∃ t, f.Holds s t := by
  obtain ⟨t, ht, -⟩ := Option.bind_eq_some_iff.1 h
  cases hst : f.statementAt s with
  | none =>
    have herror : f.statement s = .error (.noStatement s) := by
      unfold statement
      unfold statementAt at hst
      rw [hst]
    unfold statementTerm at ht
    rw [herror] at ht
    cases ht
  | some st => exact hf.holds s st hst

theorem mem_preorder_of_assigned? (ht : f.Holds s t) (h : f.assigned? s = some (n, d)) : d ∈ t.preorder := by
  obtain ⟨i, v, y, rfl⟩ := ht.assigned?_eq_some.1 h
  simp [Expr.children]

/-- A register operand is assigned by one statement. -/
theorem Forest.eq_of_assigned? (hf : f.Forest) {n' : String} (hs : f.assigned? s = some (n, d))
    (hm : f.assigned? m = some (n', d)) : s = m := by
  obtain ⟨t, ht⟩ := hf.exists_holds_of_assigned? hs
  obtain ⟨t', ht'⟩ := hf.exists_holds_of_assigned? hm
  exact ht.statement_unique ht' (mem_preorder_of_assigned? ht hs) (mem_preorder_of_assigned? ht' hm)

/-- A statement from before the registers were tagged has the same tree apart from versions. -/
theorem Later.strip_eq_of_plain (hfg : f.Later .registers g) (hf : f.Plain) (ht : f.Holds s t)
    (ht' : g.Holds s t') : LocationKind.registers.strip t' = t := by
  rw [hfg.strip_eq ht ht']
  exact Term.strip_eq_self fun u hu => Expr.untag_registers_eq_self ((hf.action s t ht).plain hu)

end Flow

namespace Tagging

variable {f g : Flow} {V : Locations} {a : Address} {as : List Address} {s m : StatementId}
  {pre post heads : List StatementId} {t t' : Term} {u d : NodeId} {n : String} {v : Option Nat}
  {D : Option NodeId} {points : List Point}

/-- A statement that was there before is no merge, and assigns what it did. -/
theorem assigned?_of_later (hfg : f.Later .registers g) (hf : f.Plain) (ht : f.Holds s t) :
    g.isMerge s = false ∧ g.assigned? s =
      (Summary.definitionOf f LocationKind.registers.locate s).map fun d => (d.location, d.site) := by
  obtain ⟨t', ht', -⟩ := hfg.exists_holds ht
  have hstrip := hfg.strip_eq_of_plain hf ht ht'
  have haction := hf.action s t ht
  obtain ⟨i, e⟩ := t'
  obtain rfl := hstrip.symm
  rw [ht'.isMerge_eq, ht'.assigned?_eq, Summary.definitionOf_eq ht]
  cases e with
  | assign x y =>
    have hy : (LocationKind.registers.strip y).expr.isPlainOperand = true := by
      refine (haction.children _ ?_ _ (.refl _)).1
      simp [Expr.map, LocationKind.untag, Expr.children]
    obtain ⟨d, ex⟩ := x
    obtain ⟨j, ey⟩ := y
    refine ⟨?_, ?_⟩
    · cases ey <;> simp_all [Expr.map, LocationKind.untag, Expr.isPlainOperand, Expr.isTheta, Term.isMerge]
    · cases ex <;> simp [Expr.map, LocationKind.untag, Term.definition?, LocationKind.locate, Term.assigned?]
  | _ => simp [Expr.map, LocationKind.untag, Term.definition?, Term.assigned?, Term.isMerge]

/-- What the head of a block assigns. -/
theorem Merges.holds {l : Location} (h : g.Merges .registers l m d points) (hg : g.Forest) :
    ∃ i v j inputs, g.Holds m (.node i (.assign (.node d (.register l (some v)))
      (.node j (.theta inputs)))) ∧ 1 ≤ v ∧ (∃ us, g.linkOf d = .definition us) ∧
        List.Forall₂ (fun p x => g.Reads .registers l x.id (definitionAt p)) points inputs := by
  obtain ⟨st, y, inputs, v, hst, hroot, hy, ⟨hv, ⟨e, he, hfits⟩, hlink⟩, hall⟩ := h
  obtain ⟨t, ht⟩ := hg.holds m st hst
  obtain ⟨st', hst', hid, hstands⟩ := id ht
  obtain rfl := Option.some.inj (hst.symm.trans hst')
  obtain ⟨i, e₁⟩ := t
  rw [hid, exprAt_eq_some hstands.shape_id, Option.some.injEq] at hroot
  obtain ⟨D, Y, rfl⟩ := Expr.eq_assign_of_head_eq (e := e₁) (by
    rw [← Expr.head_map (f := Term.id), ← Term.expr_node i e₁, hroot]
    rfl)
  obtain ⟨rfl, rfl⟩ : D.id = d ∧ Y.id = y := by simpa [Expr.map] using hroot
  obtain ⟨-, -, below⟩ := hstands
  have hD := exprAt_eq_some (below D (by simp [Expr.children])).shape_id
  have hY := exprAt_eq_some (below Y (by simp [Expr.children])).shape_id
  rw [he, hfits] at hD
  rw [hy] at hY
  obtain ⟨dd, eD⟩ := D
  obtain ⟨j, eY⟩ := Y
  obtain rfl : eD = .register l (some v) := by
    cases eD <;> simp_all [Expr.map]
  obtain ⟨xs, rfl⟩ : ∃ xs, eY = .theta xs := by
    cases eY <;> simp_all [Expr.map]
  obtain rfl : inputs = xs.map Term.id := by simpa [Expr.map] using hY
  refine ⟨i, v, j, xs, ht, hv, hlink, ?_⟩
  rwa [List.forall₂_map_right_iff] at hall

/-- A merge of a register has that register alone in it. -/
theorem Merges.exists_eq {l : Location} (h : g.Merges .registers l m d points) (hg : g.Forest)
    (ht : g.Holds m t) : ∃ i v j inputs, t = .node i (.assign (.node d (.register l v))
      (.node j (.theta inputs))) ∧ (∃ us, g.linkOf d = .definition us) ∧
        ∀ x ∈ inputs, ∃ w, x.expr = .register l w := by
  obtain ⟨i, v, j, inputs, hholds, -, hlink, hall⟩ := Merges.holds h hg
  obtain rfl := ht.unique hholds
  have hregister : ∀ x ∈ inputs, ∃ w, g.exprAt x.id = some (.register l w) := by
    intro x hx
    obtain ⟨p, -, w, ⟨e, he, hfits⟩, -⟩ := (exists_of_forall₂ hall).2 x hx
    exact ⟨some w, hfits ▸ he⟩
  obtain ⟨-, -, below⟩ := ht.stands
  obtain ⟨-, -, below⟩ := below (.node j (.theta inputs)) (by simp [Expr.children])
  refine ⟨i, some v, j, inputs, rfl, hlink, fun x hx => ?_⟩
  obtain ⟨w, hw⟩ := hregister x hx
  rw [exprAt_eq_some (below x hx).shape_id] at hw
  obtain ⟨k, e⟩ := x
  cases e <;> simp_all [Expr.map]

/-- A register in an instruction is assigned to or read. -/
theorem definition_or_read (hf : f.Plain) (hholds : f.Holds s t)
    (hu : Term.Within (.node u (.register n none)) t) :
    Summary.definitionOf f LocationKind.registers.locate s = some ⟨s, u, n⟩ ∨
      ⟨u, n⟩ ∈ BlockPlan.readsAt f .registers s := by
  refine hf.rooted.definition_or_read hholds hu ?_ rfl nofun
  rintro rfl
  exact absurd (hf.action s _ hholds).action (by simp [Expr.isAction])

section Exact

variable (ht : Tagged V f .registers g) (hf : f.Plain) (hconnected : f.Connected)
include ht hf

/-- A register that is linked as a read was found as one, unless a merge reads it. -/
theorem Tagged.mem_readsAt (hs : f.Live s) (hholds : g.Holds s t') (hu : u ∈ t'.preorder)
    (hexpr : g.exprAt u = some (.register n v)) (hlink : g.linkOf u = .use D) :
    ⟨u, n⟩ ∈ BlockPlan.readsAt f .registers s := by
  obtain ⟨st, hst, hremoved⟩ := id hs
  obtain ⟨t, hholds₀⟩ := hf.forest.holds s st hst
  obtain ⟨t₁, ht₁, -, hpreorder⟩ := ht.later.exists_holds hholds₀
  obtain rfl := ht₁.unique hholds
  rw [hpreorder] at hu
  obtain ⟨⟨x, e⟩, hwithin, rfl⟩ := Term.exists_within_of_mem_preorder hu
  -- the register had no version before
  obtain ⟨q, hstands⟩ := hholds₀.stands.exists_of_within hwithin
  have he := exprAt_eq_some hstands.shape_id
  have hbefore : e = .register n none := by
    have huntag := ht.later.marks.untag_eq he hexpr
    have hplain := hf.plain _ _ he
    cases e <;> simp_all [LocationKind.untag, Expr.isPlain, Expr.map]
  subst hbefore
  obtain hdefinition | hread := definition_or_read hf hholds₀ hwithin
  · -- what is assigned is a definition and no read
    obtain ⟨w, -, -, us, hus⟩ := ht.defined s (hf.forest.mem_liveStatements.2 hs) _ hdefinition
    have h := hlink.symm.trans hus
    cases h
  · exact hread

omit ht hf in
theorem isMerge_of_merges {kind : LocationKind} {l : Location} (h : g.Merges kind l m d points) (hholds : g.Holds m t) :
    g.isMerge m = true := by
  obtain ⟨st, y, inputs, v, hst, hroot, hy, -⟩ := h
  obtain ⟨st', hst', hid, hstands⟩ := id hholds
  obtain rfl := Option.some.inj (hst.symm.trans hst')
  rw [hholds.isMerge_eq]
  obtain ⟨i, e⟩ := t
  rw [hid, exprAt_eq_some hstands.shape_id, Option.some.injEq] at hroot
  obtain ⟨-, -, below⟩ := hstands
  cases e <;> simp only [Term.expr_node, Expr.map, reduceCtorEq, Expr.assign.injEq] at hroot
  next X Y =>
    obtain ⟨-, rfl⟩ := hroot
    have hY := exprAt_eq_some (below Y (by simp [Expr.children])).shape_id
    obtain ⟨j, e⟩ := Y
    rw [hy, Option.some.injEq] at hY
    cases e <;> simp_all [Expr.map, Term.isMerge, Expr.isTheta]

omit ht hf in
theorem Head.isMerge {kind : LocationKind} (hm : Head f g kind a m) (hholds : g.Holds m t) : g.isMerge m = true := by
  obtain ⟨l, d, points, hjoins⟩ := hm.joins
  exact isMerge_of_merges hjoins.merges hholds

omit hf in
theorem Tagged.isMerge_of_head (hexact : Exact f g .registers a heads) (hm : m ∈ heads) : g.isMerge m = true := by
  obtain ⟨t, hholds⟩ := ht.sound.forest.exists_holds (a := a) (s := m) (by simp [hexact.statements_eq, hm])
  exact (hexact.head m hm).isMerge hholds

include hconnected in
/-- In the tagged flow, merges apart, the last assignment to a register is that of before. -/
theorem Tagged.lastAssignment?_eq {pre' : List StatementId} (hheads : ∀ m ∈ heads, g.isMerge m = true)
    (hpre : ∀ s ∈ pre, f.Live s) (hpre' : pre' = heads ++ pre) :
    g.lastAssignment? n (as.flatMap g.statementsAt ++ pre') = f.lastSite? .registers n as pre := by
  have hrun : ∀ heads pre : List StatementId, (∀ m ∈ heads, g.isMerge m = true) →
      (∀ s ∈ pre, f.Live s) → ((heads ++ pre).filter fun s => !g.isMerge s).filterMap g.assigned? =
        (pre.filterMap (Summary.definitionOf f LocationKind.registers.locate)).map
          fun d => (d.location, d.site) := by
    intro heads pre hheads hpre
    have hassigned : ∀ s ∈ pre, g.isMerge s = false ∧ g.assigned? s =
        (Summary.definitionOf f LocationKind.registers.locate s).map fun d => (d.location, d.site) := by
      intro s hs
      obtain ⟨t, hholds⟩ := hf.forest.holds_of_live (hpre s hs)
      exact assigned?_of_later ht.later hf hholds
    rw [List.filter_append, List.filter_eq_nil_iff.2 (by simpa using hheads), List.nil_append,
      List.filter_eq_self.2 (by simpa using fun s hs => (hassigned s hs).1), List.map_filterMap]
    exact List.filterMap_congr fun s hs => (hassigned s hs).2
  have hblocks : ((as.flatMap g.statementsAt).filter fun s => !g.isMerge s).filterMap g.assigned? =
      ((as.flatMap f.statementsAt).filterMap (Summary.definitionOf f LocationKind.registers.locate)).map
        fun d => (d.location, d.site) := by
    rw [List.filter_flatMap, List.filterMap_flatMap, List.filterMap_flatMap, List.map_flatMap]
    apply List.flatMap_congr
    intro c hc
    by_cases hblock : f.block? c = none
    · have hnone : g.block? c = none := by
        by_contra hne
        exact ht.later.graph.symm.ne_none hne hblock
      simp [statementsAt, hblock, hnone]
    · obtain ⟨heads, hexact⟩ := ht.exact hf.forest hconnected hblock
      rw [hexact.statements_eq]
      exact hrun heads _ (fun m hm => ht.isMerge_of_head hexact hm)
        fun s hs => hf.forest.live hs
  unfold lastAssignment? lastSite? Definition.lastSite?
  rw [List.filter_append, List.filterMap_append, hblocks, hpre', hrun heads pre hheads hpre,
    ← List.map_append, ← List.filterMap_append, ← List.map_reverse, List.find?_map, Option.map_map]
  rfl

omit hf in
theorem Tagged.assigned?_of_head (hm : Joins f g .registers a n m d points) :
    g.assigned? m = some (n, d) := by
  obtain ⟨i, v, j, inputs, hholds, -⟩ := Merges.holds hm.merges ht.sound.forest
  exact hholds.assigned?_eq_some.2 ⟨i, _, _, rfl⟩

/-- The merges at the head of a block are of different registers. -/
theorem Tagged.eq_of_isMerge (hexact : Exact f g .registers a heads)
    (hm : m ∈ heads) (hmerge : g.assigned? m = some (n, d)) (hs : s ∈ g.statementsAt a)
    (hsmerge : g.isMerge s = true) {d' : NodeId} (hassigned : g.assigned? s = some (n, d')) : s = m := by
  have hjoin : ∀ {m d}, m ∈ heads → g.assigned? m = some (n, d) → ∃ points, Joins f g .registers a n m d points := by
    intro m d hm hassigned
    obtain ⟨-, l, d₁, points, hjoins⟩ := hexact.head m hm
    have h := ht.assigned?_of_head hjoins
    rw [hassigned] at h
    cases h
    exact ⟨points, hjoins⟩
  have hheads : s ∈ heads := by
    rw [hexact.statements_eq] at hs
    obtain hs | hs := List.mem_append.1 hs
    · exact hs
    · obtain ⟨t, hholds⟩ := hf.forest.exists_holds hs
      rw [(assigned?_of_later ht.later hf hholds).1] at hsmerge
      cases hsmerge
  obtain ⟨points, hjoins⟩ := hjoin hm hmerge
  obtain ⟨points', hjoins'⟩ := hjoin hheads hassigned
  obtain rfl := hexact.unique n m s d d' points points' hm hheads hjoins.merges hjoins'.merges rfl
  exact ht.sound.forest.eq_of_assigned? hassigned hmerge

/-- Nothing in a block assigns to a register after its merge as long as nothing did before the
    registers were tagged. -/
theorem Tagged.mergesExactly (hexact : Exact f g .registers a heads) (hconnected : f.Connected)
    (hpre : ∀ s ∈ pre, f.Live s) (hnodup : heads.Nodup) (hheads : ∀ m ∈ heads, m ∈ g.statementsAt a)
    (hm : m ∈ heads) (hjoins : Joins f g .registers a n m d points)
    (hnone : Definition.lastSite? n (pre.filterMap
      (Summary.definitionOf f LocationKind.registers.locate)) = none) :
    g.MergesExactly a (heads ++ pre) n m := by
  have hmerge := ht.assigned?_of_head hjoins
  have hisMerge : ∀ s ∈ heads, g.isMerge s = true := fun s hs => ht.isMerge_of_head hexact hs
  obtain ⟨before, after, rfl⟩ := List.append_of_mem hm
  refine ⟨⟨before, after ++ pre, by simp, fun s hs => hisMerge s (by simp [hs]), ?_⟩, ?_, ?_⟩
  · intro s hs d' hassigned
    obtain hs | hs := List.mem_append.1 hs
    · obtain rfl : s = m := ht.eq_of_isMerge hf hexact hm hmerge (hheads s (by simp [hs]))
        (hisMerge s (by simp [hs])) hassigned
      rw [List.nodup_append, List.nodup_cons] at hnodup
      exact hnodup.2.1.1 hs
    · obtain ⟨t, hholds⟩ := hf.forest.holds_of_live (hpre s hs)
      rw [(assigned?_of_later ht.later hf hholds).2] at hassigned
      obtain ⟨D, hD, heq⟩ := Option.map_eq_some_iff.1 hassigned
      obtain ⟨hl, -⟩ := Prod.mk.inj heq
      unfold Definition.lastSite? at hnone
      rw [Option.map_eq_none_iff, List.find?_eq_none] at hnone
      refine hnone D (List.mem_reverse.2 (List.mem_filterMap.2 ⟨s, hs, hD⟩)) ?_
      simpa using hl
  · intro s hs hsmerge d' hassigned
    exact ht.eq_of_isMerge hf hexact hm hmerge hs hsmerge hassigned
  · obtain ⟨i, v, j, inputs, hholds, -, -, hall⟩ := Merges.holds hjoins.merges ht.sound.forest
    refine ⟨i, d, some v, j, inputs, points.map definitionAt, hholds, ?_, ?_, ?_, fun D => ?_⟩
    · clear hholds hjoins
      induction hall with
      | nil => rfl
      | cons hreads _ ih =>
        obtain ⟨-, -, hlink, -⟩ := hreads
        rw [List.map_cons, List.map_cons, List.map_cons, hlink, ih]
    · exact hjoins.nodup.map fun p q => definitionAt_injective
    · rw [List.length_map]
      exact hjoins.several
    · rw [List.mem_map]
      have hlast : ∀ {as}, g.lastAssignment? n (as.flatMap g.statementsAt ++
          (before ++ m :: after ++ pre)) = f.lastSite? .registers n as pre :=
        ht.lastAssignment?_eq hf hconnected hisMerge hpre rfl
      simp only [hlast, lastSite?_eq pre, hnone, Option.none_or]
      constructor
      · rintro ⟨p, hp, rfl⟩
        obtain ⟨as, has, hp⟩ := (hjoins.mem_iff p).1 hp
        exact ⟨as, ht.later.graph.path has, hp.symm⟩
      · rintro ⟨as, has, rfl⟩
        obtain ⟨p, hp⟩ := exists_definitionAt (f.lastSite? .registers n as [])
        exact ⟨p, (hjoins.mem_iff p).2 ⟨as, ht.later.graph.symm.path has, hp⟩, hp⟩

omit hf in
/-- A read in a merge is an operand of it. -/
theorem Tagged.isInput_of_head (hexact : Exact f g .registers a heads) (hm : m ∈ heads)
    (hholds : g.Holds m t) (hu : u ∈ t.preorder) (hlink : g.linkOf u = .use D) : g.IsInput u := by
  obtain ⟨-, l, d, points, hjoins⟩ := hexact.head m hm
  obtain ⟨i, w, j, inputs, rfl, ⟨us, hus⟩, hregister⟩ := Merges.exists_eq hjoins.merges ht.sound.forest hholds
  obtain ⟨e, hexpr, hassignable⟩ := ht.sound.typed.link u (by simp [hlink])
  obtain ⟨shape, -, below⟩ := hholds.stands
  obtain ⟨jshape, -, jbelow⟩ := below (.node j (.theta inputs)) (by simp [Expr.children])
  -- the operands of a merge have nothing below them
  have hleaf : ∀ x ∈ inputs, x.preorder = [x.id] := by
    rintro ⟨k, e⟩ hx
    obtain ⟨w, rfl⟩ : ∃ w, e = .register l w := hregister _ hx
    simp [Expr.children]
  have hid : inputs.flatMap Term.preorder = inputs.map Term.id := by
    rw [List.flatMap_congr hleaf, ← List.map_eq_flatMap]
  simp only [Term.preorder_node, Expr.children, List.flatMap_cons, List.flatMap_nil, List.append_nil,
    List.cons_append, List.nil_append, List.mem_cons, hid] at hu
  obtain rfl | rfl | rfl | hu := hu
  · rw [exprAt_eq_some shape] at hexpr
    cases hexpr
    cases hassignable
  · rw [hus] at hlink
    cases hlink
  · rw [exprAt_eq_some jshape] at hexpr
    cases hexpr
    cases hassignable
  · obtain ⟨x, hx, rfl⟩ := List.mem_map.1 hu
    exact ⟨_, parentExpr?_eq_some (jbelow x hx).shape_id jshape⟩

/-- Every read of a register, apart from the operands of merges, is linked as the ways to it
    demand. -/
theorem Tagged.linkedExactly (hconnected : f.Connected) (hsplit : g.statementsAt a = pre ++ s :: post)
    (hholds : g.Holds s t) (hu : u ∈ t.preorder) (hexpr : g.exprAt u = some (.register n v))
    (hlink : g.linkOf u = .use D)
    (hnot : ∀ inputs, g.parentExpr? u ≠ .ok (some (.theta inputs))) :
    g.LinkedExactly a pre n v D := by
  have ha : f.block? a ≠ none := by
    refine ht.later.graph.symm.ne_none fun hnone => ?_
    simp [statementsAt, hnone] at hsplit
  obtain ⟨heads, hexact⟩ := ht.exact hf.forest hconnected ha
  have hisMerge : ∀ s ∈ heads, g.isMerge s = true := fun s hs => ht.isMerge_of_head hexact hs
  -- the statement is none of the merges
  obtain ⟨pre, rfl, hsplit'⟩ : ∃ pre', pre = heads ++ pre' ∧ f.statementsAt a = pre' ++ s :: post := by
    have heq := hexact.statements_eq.symm.trans hsplit
    obtain ⟨pre', hpre, hrest⟩ | ⟨rest, hheads, hrest⟩ := List.append_eq_append_iff.1 heq
    · exact ⟨pre', hpre, hrest⟩
    · cases rest with
      | nil => exact ⟨[], by simpa using hheads.symm, by simpa using hrest.symm⟩
      | cons s' rest =>
        obtain ⟨rfl, -⟩ := List.cons_eq_cons.1 hrest
        obtain ⟨inputs, hx⟩ := ht.isInput_of_head hexact (by simp [hheads]) hholds hu hlink
        exact absurd hx (hnot inputs)
  have hlive : ∀ s ∈ pre, f.Live s := fun s hs => hf.forest.live (a := a) (by simp [hsplit', hs])
  have hs : f.Live s := hf.forest.live (a := a) (by simp [hsplit'])
  have hlast : ∀ {as}, g.lastAssignment? n (as.flatMap g.statementsAt ++ (heads ++ pre)) =
      f.lastSite? .registers n as pre := ht.lastAssignment?_eq hf hconnected hisMerge hlive rfl
  obtain ⟨D', ⟨w, ⟨e, he, hfits⟩, hlink', hdefines⟩, hreaches⟩ :=
    hexact.read pre s post hsplit' _ (ht.mem_readsAt hf hs hholds hu hexpr hlink)
  obtain rfl : D = D' := Link.use.inj (hlink.symm.trans hlink')
  obtain rfl : v = some w := by
    rw [hexpr, hfits] at he
    cases he
    rfl
  have halways : ∀ D, (∀ as, f.Path as a → f.lastSite? .registers n as pre = D) →
      ∀ as, g.Path as a → g.lastAssignment? n (as.flatMap g.statementsAt ++ (heads ++ pre)) = D := by
    intro D h as has
    rw [hlast]
    exact h as (ht.later.graph.symm.path has)
  refine ⟨?_, fun hD => ?_, fun d hD hmerge => ?_, fun d m hD hmerge hassigned => ?_⟩
  · cases D with
    | none => exact congrArg some hdefines
    | some d =>
      obtain ⟨hw, ⟨e', he', hfits'⟩, -⟩ := hdefines
      exact ⟨w, hw, rfl, hfits' ▸ he'⟩
  · subst hD
    cases hreaches with
    | always h => exact halways none h
  · subst hD
    cases hreaches with
    | always h => exact halways (some d) h
    | merged hm hjoins hnone =>
      exact absurd (ht.assigned?_of_head hjoins) (hmerge _ (hisMerge _ hm))
  · subst hD
    cases hreaches with
    | always h =>
      -- what is assigned last on some way is no merge
      obtain ⟨as, has⟩ := hconnected.path a ha
      obtain ⟨s₀, D₀, ⟨st, hst, -⟩, hdefinition, hl, hsite⟩ := exists_of_lastSite? hf.forest (h as has) hlive
      obtain ⟨t₀, hholds₀⟩ := hf.forest.holds s₀ st hst
      obtain ⟨hnotMerge, hassigned₀⟩ := assigned?_of_later ht.later hf hholds₀
      rw [hdefinition, Option.map_some, hsite] at hassigned₀
      obtain rfl := ht.sound.forest.eq_of_assigned? hassigned₀ hassigned
      rw [hmerge] at hnotMerge
      cases hnotMerge
    | merged hm hjoins hnone =>
      obtain rfl := ht.sound.forest.eq_of_assigned? (ht.assigned?_of_head hjoins) hassigned
      have hnodup : heads.Nodup := by
        have h := ht.sound.forest.nodup_statementsAt a
        rw [hexact.statements_eq, List.nodup_append] at h
        exact h.1
      exact ht.mergesExactly hf hexact hconnected hlive hnodup
        (fun m hm => by simp [hexact.statements_eq, hm]) hm hjoins hnone

end Exact

end Tagging

/-- Whatever function the text of a listing holds, tagging its registers links every read of a
    register in a statement to what the ways through the function bring to it, merges apart. -/
theorem registers_linkedExactly {f : Flow} (hf : f.IsLowered) :
    ∃ stats g, (Tagging.tag .registers).run f = .ok (stats, g) ∧
      ∀ a pre s post t u n v D, g.statementsAt a = pre ++ s :: post → g.Holds s t → u ∈ t.preorder →
        g.exprAt u = some (.register n v) → g.linkOf u = .use D →
        (∀ inputs, g.parentExpr? u ≠ .ok (some (.theta inputs))) → g.LinkedExactly a pre n v D := by
  have hplain := hf.plain
  obtain ⟨stats, g, hrun, ht⟩ := Tagging.tag_gives (LocationKind.permits_registers _) hplain.sound hplain.rooted
    hf.connected
  exact ⟨stats, g, hrun, fun a pre s post t u n v D hsplit hholds hu hexpr hlink hnot =>
    ht.linkedExactly hplain hf.connected hsplit hholds hu hexpr hlink hnot⟩

/-- A loop in which a register is read that comes from before it or from its last round. -/
def loopText : String :=
  "0: eax = 1\n1: eax = eax + 1\n2: if eax goto 1\n3: return eax"

/-- The flow of the loop. -/
def loopFlow : Flow :=
  (Flow.ofText? loopText 0).get (by decide +kernel)

theorem loopFlow_isLowered : loopFlow.IsLowered :=
  ⟨loopText, 0, (Option.some_get _).symm⟩

/-- The read of the register in the loop is linked to a merge, as the ways to it demand. -/
theorem registers_linkedExactly_loop : ∃ f stats g t, f.IsLowered ∧
    (Tagging.tag .registers).run f = .ok (stats, g) ∧ g.statementsAt 1 = [⟨4⟩] ++ ⟨1⟩ :: [⟨2⟩] ∧
    g.Holds ⟨1⟩ t ∧ ⟨4⟩ ∈ t.preorder ∧ g.exprAt ⟨4⟩ = some (.register "eax" (some 3)) ∧
    g.linkOf ⟨4⟩ = .use (some ⟨15⟩) ∧ g.isMerge ⟨4⟩ = true ∧ g.assigned? ⟨4⟩ = some ("eax", ⟨15⟩) ∧
    g.LinkedExactly 1 [⟨4⟩] "eax" (some 3) (some ⟨15⟩) := by
  have hf := loopFlow_isLowered
  obtain ⟨stats, g, hrun, hall⟩ := registers_linkedExactly hf
  have hvalues : ∀ r ∈ ((Tagging.tag .registers).run loopFlow).toOption,
      r.2.statementsAt 1 = [⟨4⟩, ⟨1⟩, ⟨2⟩] ∧ (r.2.operands ⟨1⟩).toOption = some [⟨3⟩, ⟨6⟩, ⟨4⟩, ⟨5⟩] ∧
      r.2.exprAt ⟨4⟩ = some (.register "eax" (some 3)) ∧ r.2.linkOf ⟨4⟩ = .use (some ⟨15⟩) ∧
      (r.2.parentExpr? ⟨4⟩).toOption = some (some (.binary .add ⟨4⟩ ⟨5⟩)) ∧
      r.2.isMerge ⟨4⟩ = true ∧ r.2.assigned? ⟨4⟩ = some ("eax", ⟨15⟩) := by
    decide +kernel
  rw [hrun] at hvalues
  obtain ⟨hstatements, hoperands, hexpr, hlink, hparent, hmerge, hassigned⟩ := hvalues _ rfl
  have hplain := hf.plain
  obtain ⟨stats', g', hrun', ht⟩ := Tagging.tag_gives (LocationKind.permits_registers _) hplain.sound
    hplain.rooted hf.connected
  obtain ⟨rfl, rfl⟩ := Prod.mk.inj (Except.ok.inj (hrun.symm.trans hrun'))
  obtain ⟨t, hholds⟩ := ht.sound.forest.exists_holds (a := 1) (s := ⟨1⟩) (by simp [hstatements])
  have hu : ⟨4⟩ ∈ t.preorder := by
    rw [hholds.operands_eq] at hoperands
    exact List.mem_of_mem_tail (by simp [Option.some.inj hoperands])
  have hnot : ∀ inputs, g.parentExpr? ⟨4⟩ ≠ .ok (some (.theta inputs)) := by
    intro inputs heq
    simp [heq, Except.toOption] at hparent
  exact ⟨_, stats, g, t, hf, hrun, hstatements, hholds, hu, hexpr, hlink, hmerge, hassigned,
    hall 1 [⟨4⟩] ⟨1⟩ [⟨2⟩] t ⟨4⟩ "eax" (some 3) (some ⟨15⟩) hstatements hholds hu hexpr hlink hnot⟩

end FrameRecovery
