import FrameRecovery.Proofs.Flow.Paths
import FrameRecovery.Proofs.SummaryPaths

namespace FrameRecovery

variable {f : Flow} {kind : LocationKind} {locate : Term → Option Location} {a : Address}
  {s : StatementId} {t u : Term} {l : Location} {p : Point}

private theorem mapM_eq_ok {α β : Type} {k : α → Except Fault β} {g : α → β} {xs : List α}
    (h : ∀ x ∈ xs, k x = .ok (g x)) : xs.mapM k = .ok (xs.map g) := by
  induction xs with
  | nil => rfl
  | cons x rest ih =>
    rw [List.mapM_cons, h x (by simp), ih fun y hy => h y (by simp [hy])]
    rfl

private theorem reduceOption_map {α β : Type} (g : α → Option β) (xs : List α) :
    (xs.map g).reduceOption = xs.filterMap g := by
  change (xs.map g).filterMap id = _
  rw [List.filterMap_map]
  rfl

/-- The definition that a statement with a tree makes. -/
def Term.definition? (locate : Term → Option Location) (s : StatementId) :
    Term → Option Definition
  | .node _ (.assign target _) => (locate target).map fun l => ⟨s, target.id, l⟩
  | _ => none

namespace Summary

/-- The definition that a statement of a flow makes. -/
def definitionOf (f : Flow) (locate : Term → Option Location) (s : StatementId) :
    Option Definition :=
  ((f.statementTerm s).toOption).bind (Term.definition? locate s)

theorem definitionOf_eq (h : f.Holds s t) : definitionOf f locate s = t.definition? locate s := by
  unfold definitionOf
  rw [h.statementTerm_eq]
  rfl

theorem definitionAt?_eq (h : f.Holds s t) :
    definitionAt? f locate s = .ok (definitionOf f locate s) := by
  rw [definitionOf_eq h]
  unfold definitionAt?
  rw [h.rootExpr_eq]
  obtain ⟨i, e⟩ := t
  cases e with
  | assign x y =>
    have hx : f.term x.id = .ok x := h.term_eq (.of_mem_children (by simp [Expr.children]))
    change (f.term x.id >>= fun x' => _) = _
    rw [hx]
    rfl
  | _ => rfl

theorem mem_definitionOf {d : Definition} (h : f.Holds s t) :
    definitionOf f locate s = some d ↔ ∃ i x y, t = .node i (.assign x y) ∧
      locate x = some d.location ∧ d.site = x.id ∧ d.statement = s := by
  rw [definitionOf_eq h]
  obtain ⟨i, e⟩ := t
  cases e with
  | assign x y =>
    simp only [Term.definition?, Option.map_eq_some_iff, Term.node.injEq, Expr.assign.injEq]
    constructor
    · rintro ⟨l, hl, rfl⟩
      exact ⟨i, x, y, ⟨rfl, rfl, rfl⟩, hl, rfl, rfl⟩
    · rintro ⟨_, _, _, ⟨rfl, rfl, rfl⟩, hl, hsite, hs⟩
      exact ⟨_, hl, by cases d; simp_all⟩
  | _ => simp [Term.definition?]

/-- What an analysis knows of the block at an address. -/
def blockAt (f : Flow) (locate : Term → Option Location) (a : Address) : BlockSummary where
  address := a
  predecessors := f.predecessors a
  successors := ((f.block? a).map Block.successors).getD []
  definitions := (f.statementsAt a).filterMap (definitionOf f locate)

theorem ofBlock_eq (hf : f.Forest) {b : Block} (hb : f.block? a = some b) :
    ofBlock f locate b = .ok (blockAt f locate b.address) := by
  have ha := hf.address_eq a b hb
  unfold ofBlock
  rw [mapM_eq_ok (g := definitionOf f locate) fun s hs => ?_]
  · simp only [blockAt, ha, hb, Flow.statementsAt_eq hb, ← reduceOption_map]
    rfl
  · obtain ⟨t, ht⟩ := hf.exists_holds (Flow.statementsAt_eq hb ▸ hs)
    exact definitionAt?_eq ht

/-- The summary of a flow, which is always found. -/
def summaryOf (f : Flow) (locate : Term → Option Location) : Summary where
  entry := f.entry
  blocks := f.blocks.keys.map (blockAt f locate)
  locations := .ofList ((f.blocks.keys.map (blockAt f locate)).flatMap
    fun b => b.definitions.map Definition.location)

theorem ofFlow_eq (hf : f.Forest) : ofFlow f locate = .ok (summaryOf f locate) := by
  unfold ofFlow
  rw [mapM_eq_ok (g := fun b => blockAt f locate b.address) fun b hb => ?_]
  · have hmap : f.blocks.values.map (fun b => blockAt f locate b.address) =
        f.blocks.keys.map (blockAt f locate) := by
      rw [← hf.keyed.map_address_values, List.map_map]
      rfl
    rw [hmap]
    rfl
  · obtain ⟨a, ha⟩ := SortedMap.mem_values.1 hb
    exact ofBlock_eq hf ha

theorem mem_blocks {b : BlockSummary} :
    b ∈ (summaryOf f locate).blocks ↔ ∃ a, f.block? a ≠ none ∧ blockAt f locate a = b := by
  simp only [summaryOf, List.mem_map, SortedMap.mem_keys, Flow.block?, Option.ne_none_iff_exists']

theorem mem_predecessors (hf : f.Forest) {c : Address} :
    c ∈ (blockAt f locate a).predecessors ↔ ∃ b, f.block? c = some b ∧ a ∈ b.successors :=
  hf.keyed.mem_predecessors

theorem lawful (hf : f.Forest) : (summaryOf f locate).Lawful := by
  refine ⟨?_, fun b hb c => ?_, fun b hb d hd => ?_⟩
  · unfold summaryOf
    rw [List.map_map]
    exact (List.map_id _).symm ▸ f.blocks.nodup_keys
  · obtain ⟨a, ha, rfl⟩ := mem_blocks.1 hb
    rw [mem_predecessors hf]
    constructor
    · rintro ⟨b, hb, hsucc⟩
      refine ⟨blockAt f locate c, mem_blocks.2 ⟨c, by simp [hb], rfl⟩, rfl, ?_⟩
      simpa [blockAt, hb] using hsucc
    · rintro ⟨b, hb, rfl, hsucc⟩
      obtain ⟨c, hc, rfl⟩ := mem_blocks.1 hb
      obtain ⟨b, hb⟩ := Option.ne_none_iff_exists'.1 hc
      exact ⟨b, hb, by simpa [blockAt, hb] using hsucc⟩
  · rw [summaryOf, SortedSet.mem_ofList]
    exact List.mem_flatMap.2 ⟨b, hb, List.mem_map_of_mem hd⟩

/-- What the analysis has found at the start of a block is what reaches it. -/
theorem ins_summaryOf (hf : f.Forest) (ha : f.block? a ≠ none) :
    (summaryOf f locate).analyze.ins.find? a =
      some ((summaryOf f locate).reachIn (summaryOf f locate).reachOut (blockAt f locate a)) :=
  (lawful hf).ins_analyze (mem_blocks.2 ⟨a, ha, rfl⟩)

section Paths

variable (hf : f.Forest) (hconnected : f.Connected)
include hf hconnected

theorem isStart_iff (ha : f.block? a ≠ none) :
    (summaryOf f locate).isStart (blockAt f locate a) = true ↔ a = f.entry := by
  unfold isStart
  simp only [Bool.or_eq_true, beq_iff_eq, List.isEmpty_iff]
  refine or_iff_left_of_imp fun hnil => ?_
  obtain ⟨as, has⟩ := hconnected.path a ha
  cases has with
  | entry => rfl
  | step _ hb hc =>
    have hmem := (@mem_predecessors _ locate _ hf _).2 ⟨_, hb, hc⟩
    rw [hnil] at hmem
    cases hmem

/-- The ways through the summary of a flow are those through the flow. -/
theorem path_iff {bs : List BlockSummary} :
    (summaryOf f locate).Path bs (blockAt f locate a) ↔
      ∃ as, f.Path as a ∧ bs = as.map (blockAt f locate) := by
  constructor
  · intro h
    generalize hb : blockAt f locate a = b at h
    induction h generalizing a with
    | start hmem hstart =>
      subst hb
      obtain ⟨a', ha', heq⟩ := mem_blocks.1 hmem
      obtain rfl : a' = a := congrArg BlockSummary.address heq
      obtain rfl := (isStart_iff hf hconnected ha').1 hstart
      exact ⟨[], .entry, rfl⟩
    | step h hc hpred ih =>
      subst hb
      obtain ⟨a', -, rfl⟩ := mem_blocks.1 h.mem.1
      obtain ⟨as, has, rfl⟩ := ih rfl
      obtain ⟨b, hb, hsucc⟩ := (mem_predecessors hf).1 hpred
      exact ⟨as ++ [a'], .step has hb hsucc, by simp⟩
  · rintro ⟨as, has, rfl⟩
    have hmem : ∀ {as a}, f.Path as a → blockAt f locate a ∈ (summaryOf f locate).blocks :=
      fun h => mem_blocks.2 ⟨_, hconnected.ne_none_of_path h, rfl⟩
    induction has with
    | entry =>
      exact .start (hmem .entry) ((isStart_iff hf hconnected hconnected.entry).2 rfl)
    | step h hb hc ih =>
      rw [List.map_append]
      exact .step ih (hmem (.step h hb hc)) ((mem_predecessors hf).2 ⟨_, hb, hc⟩)

theorem connected : (summaryOf f locate).Connected := by
  refine ⟨lawful hf, fun b hb => ?_⟩
  · obtain ⟨a, ha, rfl⟩ := mem_blocks.1 hb
    obtain ⟨as, has⟩ := hconnected.path a ha
    exact ⟨_, (path_iff hf hconnected).2 ⟨as, has, rfl⟩⟩

/-- What reaches the start of a block is what was assigned last on some way to it. -/
theorem brings_iff (ha : f.block? a ≠ none) :
    ((summaryOf f locate).reachIn (summaryOf f locate).reachOut (blockAt f locate a)).Brings l p ↔
      ∃ as, f.Path as a ∧ Tagging.definitionAt p =
        Definition.lastSite? l ((as.flatMap f.statementsAt).filterMap (definitionOf f locate)) := by
  rw [brings_reachIn (connected hf hconnected) (mem_blocks.2 ⟨a, ha, rfl⟩)]
  have hflat : ∀ as : List Address, (as.map (blockAt f locate)).flatMap BlockSummary.definitions =
      (as.flatMap f.statementsAt).filterMap (definitionOf f locate) := by
    intro as
    rw [List.filterMap_flatMap, List.flatMap_map]
    rfl
  constructor
  · rintro ⟨bs, hbs, hp⟩
    obtain ⟨as, has, rfl⟩ := (path_iff hf hconnected).1 hbs
    exact ⟨as, has, hflat as ▸ hp⟩
  · rintro ⟨as, has, hp⟩
    exact ⟨_, (path_iff hf hconnected).2 ⟨as, has, rfl⟩, (hflat as).symm ▸ hp⟩

end Paths

end Summary

namespace BlockPlan

/-- The read that a node is. -/
def readAt (f : Flow) (kind : LocationKind) (x : NodeId) : Option Read :=
  ((kind.locateRead f x).toOption.getD none).map (Read.mk x)

/-- What a statement of a flow reads. -/
def readsAt (f : Flow) (kind : LocationKind) (s : StatementId) : List Read :=
  (readsOf f kind s).toOption.getD []

/-- What a statement of a flow reads and defines. -/
def visitAt (f : Flow) (kind : LocationKind) (s : StatementId) : Visit :=
  ⟨s, readsAt f kind s, Summary.definitionOf f kind.locate s⟩

/-- What there is to tag in the block at an address. -/
def planAt (f : Flow) (kind : LocationKind) (a : Address) : BlockPlan where
  block := a
  reach := (Summary.summaryOf f kind.locate).reachIn (Summary.summaryOf f kind.locate).reachOut
    (Summary.blockAt f kind.locate a)
  visits := (f.statementsAt a).map (visitAt f kind)

section Operands

variable (h : f.Holds s t)
include h

private theorem exists_parent {x : NodeId} (hx : x ∈ t.preorder.tail) :
    ∃ i e u, Term.Within (.node i e) t ∧ u ∈ e.children ∧ u.id = x := by
  have hnodup := h.nodup
  obtain ⟨j, e'⟩ := t
  rw [Term.preorder_node, List.tail_cons] at hx
  rw [Term.preorder_node, List.nodup_cons] at hnodup
  have hne : x ≠ j := fun heq => hnodup.1 (heq ▸ hx)
  obtain ⟨i, e, u, hi, hu, hid, -⟩ := h.stands.exists_parent (x := x) (by simp [hx]) hne
  exact ⟨i, e, u, hi, hu, hid⟩

private theorem locateRead_eq {i : NodeId} {e : Expr Term} (hi : Term.Within (.node i e) t)
    (hu : u ∈ e.children) : kind.locateRead f u.id =
      .ok (if kind.isUnread u.id (e.map Term.id) then none else kind.locate u) := by
  obtain ⟨q, hq⟩ := h.stands.exists_of_within hi
  obtain ⟨shape, -, below⟩ := id hq
  have hterm : f.term u.id = .ok u := h.term_eq ((Term.Within.of_mem_children hu).trans hi)
  unfold LocationKind.locateRead
  rw [Flow.parentExpr?_eq_some (below u hu).shape_id shape]
  change (if _ then _ else f.term u.id >>= fun t => Except.ok (kind.locate t)) = _
  rw [hterm]
  split <;> rfl

private theorem readsOf_eq_filterMap :
    readsOf f kind s = .ok (t.preorder.tail.filterMap (readAt f kind)) := by
  unfold readsOf
  rw [h.operands_eq]
  change (t.preorder.tail.mapM _ >>= fun reads => Except.ok reads.reduceOption) = _
  rw [mapM_eq_ok (g := readAt f kind) fun x hx => ?_, ← reduceOption_map]
  · rfl
  · obtain ⟨i, e, u, hi, hu, rfl⟩ := exists_parent h hx
    unfold readAt
    rw [locateRead_eq h hi hu]
    rfl

theorem readsAt_eq : readsAt f kind s = t.preorder.tail.filterMap (readAt f kind) := by
  unfold readsAt
  rw [readsOf_eq_filterMap h]
  rfl

theorem visitOf_eq : visitOf f kind s = .ok (visitAt f kind s) := by
  unfold visitOf visitAt
  rw [readsAt_eq h, readsOf_eq_filterMap h, Summary.definitionAt?_eq h]
  rfl

/-- A statement reads the operands below its topmost node that are untagged and not exempt. -/
theorem mem_readsAt {r : Read} : r ∈ readsAt f kind s ↔ ∃ i e u, Term.Within (.node i e) t ∧
    u ∈ e.children ∧ kind.isUnread u.id (e.map Term.id) = false ∧
    kind.locate u = some r.location ∧ u.id = r.operand := by
  rw [readsAt_eq h, List.mem_filterMap]
  have hread : ∀ {i e u}, Term.Within (.node i e) t → u ∈ e.children →
      (readAt f kind u.id = some r ↔ kind.isUnread u.id (e.map Term.id) = false ∧
        kind.locate u = some r.location ∧ u.id = r.operand) := by
    intro i e u hi hu
    unfold readAt
    rw [locateRead_eq h hi hu]
    obtain ⟨x, l⟩ := r
    cases kind.isUnread u.id (e.map Term.id) <;> simp [Except.toOption]
  constructor
  · rintro ⟨x, hx, hr⟩
    obtain ⟨i, e, u, hi, hu, rfl⟩ := exists_parent h hx
    exact ⟨i, e, u, hi, hu, (hread hi hu).1 hr⟩
  · rintro ⟨i, e, u, hi, hu, hr⟩
    refine ⟨u.id, ?_, (hread hi hu).2 hr⟩
    have hmem := ((Term.Within.of_mem_children hu).trans hi).preorder_subset u.id_mem_preorder
    have hne : u.id ≠ t.id := by
      intro heq
      obtain ⟨q, hq⟩ := h.stands.exists_of_within hi
      obtain ⟨-, -, below⟩ := hq
      have hshape := (below u hu).shape_id
      rw [heq, h.stands.shape_id] at hshape
      cases (Prod.mk.inj (Option.some.inj hshape)).2
    obtain ⟨j, e'⟩ := t
    rw [Term.preorder_node, List.tail_cons]
    rw [Term.preorder_node, List.mem_cons] at hmem
    exact hmem.resolve_left hne

theorem operand_mem {r : Read} (hr : r ∈ readsAt f kind s) : r.operand ∈ t.preorder.tail := by
  rw [readsAt_eq h] at hr
  obtain ⟨x, hx, hr⟩ := List.mem_filterMap.1 hr
  obtain ⟨l, -, rfl⟩ := Option.map_eq_some_iff.1 hr
  exact hx

/-- What a statement reads depends on its tree alone. -/
theorem readsAt_congr {g : Flow} (h' : g.Holds s t) : readsAt g kind s = readsAt f kind s := by
  rw [readsAt_eq h, readsAt_eq h']
  refine List.filterMap_congr fun x hx => ?_
  obtain ⟨i, e, u, hi, hu, rfl⟩ := exists_parent h hx
  unfold readAt
  rw [locateRead_eq h hi hu, locateRead_eq h' hi hu]

theorem nodup_readsAt : ((readsAt f kind s).map Read.operand).Nodup := by
  have hread : ∀ {x y}, (readAt f kind x).map Read.operand = some y → x = y := by
    intro x y hy
    obtain ⟨r, hr, rfl⟩ := Option.map_eq_some_iff.1 hy
    obtain ⟨l, -, rfl⟩ := Option.map_eq_some_iff.1 hr
    rfl
  rw [readsAt_eq h, List.map_filterMap]
  exact (h.nodup.sublist (List.tail_sublist _)).filterMap fun x x' y hx hx' =>
    (hread hx).trans (hread hx').symm

end Operands

theorem ofBlock_eq (hf : f.Forest) (ha : f.block? a ≠ none) :
    ofBlock f kind (Summary.summaryOf f kind.locate).analyze.ins (Summary.blockAt f kind.locate a) =
      .ok (planAt f kind a) := by
  unfold ofBlock
  rw [mapM_eq_ok (g := visitAt f kind) fun s hs => ?_]
  · change Except.ok (BlockPlan.mk a (((Summary.summaryOf f kind.locate).analyze.ins.find? a).getD .empty) _) = _
    rw [Summary.ins_summaryOf hf ha]
    rfl
  · obtain ⟨t, ht⟩ := hf.exists_holds hs
    exact visitOf_eq ht

theorem ofFlow_eq (hf : f.Forest) :
    ofFlow f kind = .ok (f.blocks.keys.map (planAt f kind)) := by
  unfold ofFlow
  rw [Summary.ofFlow_eq hf]
  change (f.blocks.keys.map (Summary.blockAt f kind.locate)).mapM _ = _
  rw [List.mapM_map]
  exact mapM_eq_ok fun a ha => ofBlock_eq hf (Option.ne_none_iff_exists'.2 (SortedMap.mem_keys.1 ha))

theorem definitions_planAt :
    (planAt f kind a).definitions = (f.statementsAt a).filterMap
      (Summary.definitionOf f kind.locate) := by
  unfold definitions planAt
  rw [List.map_map, reduceOption_map]
  rfl

end BlockPlan

end FrameRecovery
