import FrameRecovery.Proofs.Flow.Paths
import FrameRecovery.Proofs.Worklist

namespace FrameRecovery

variable {f : Flow} {locate : Term → Option Location} {l : Location} {p : Point} {x : NodeId}
  {a b c : Address} {st : StatementId} {ss : List StatementId} {s : Summary}

namespace Flow

/-- A statement assigns a location, at the given node. -/
def DefinesAt (f : Flow) (locate : Term → Option Location) (l : Location) (st : StatementId) (x : NodeId) :
    Prop :=
  ∃ value t, f.rootExpr st = .ok (.assign x value) ∧ f.term x = .ok t ∧ locate t = some l

/-- No statement of a list assigns a location. -/
def Spares (f : Flow) (locate : Term → Option Location) (l : Location) (ss : List StatementId) : Prop :=
  ∀ st ∈ ss, ∀ x, ¬ f.DefinesAt locate l st x

/-- An edge between two blocks. Edges to addresses without a block do not count. -/
def Edge (f : Flow) (a b : Address) : Prop :=
  f.block? b ≠ none ∧ ∃ block, f.block? a = some block ∧ b ∈ block.successors

/-- Control can come from the start of one block to the start of another through blocks that do not
    assign a location. -/
inductive FreeWay (f : Flow) (locate : Term → Option Location) (l : Location) : Address → Address → Prop
  | stay (a : Address) : FreeWay f locate l a a
  | step {a b c : Address} (h : FreeWay f locate l a b) (hspares : f.Spares locate l (f.statementsAt b))
    (hedge : f.Edge b c) : FreeWay f locate l a c

/-- Control can come to a block from outside: it is the entry, or no edge leads to it. -/
def Begins (f : Flow) (a : Address) : Prop :=
  f.block? a ≠ none ∧ (a = f.entry ∨ ∀ b, ¬ f.Edge b a)

/-- A statement of a block assigns a location at the given node, and no later one of the block assigns
    it. -/
def DefinesLast (f : Flow) (locate : Term → Option Location) (l : Location) (x : NodeId) (a : Address) : Prop :=
  ∃ before st after, f.statementsAt a = before ++ st :: after ∧ f.DefinesAt locate l st x ∧
    f.Spares locate l after

/-- What a location can hold at the start of a block: its value on entry, or that of a definition, if
    some way from there to the start of the block is free of later definitions. -/
def ReachesStart (f : Flow) (locate : Term → Option Location) (l : Location) : Point → Address → Prop
  | .entry, b => ∃ a, f.Begins a ∧ f.FreeWay locate l a b
  | .definition x, b => ∃ a c, f.DefinesLast locate l x a ∧ f.Edge a c ∧ f.FreeWay locate l c b

/-- What a location can hold at the end of a block. -/
def ReachesEnd (f : Flow) (locate : Term → Option Location) (l : Location) (p : Point) (b : Address) : Prop :=
  (∃ x, p = .definition x ∧ f.DefinesLast locate l x b) ∨
    (f.ReachesStart locate l p b ∧ f.Spares locate l (f.statementsAt b))

theorem Edge.block?_ne_none (h : f.Edge a b) : f.block? a ≠ none := by
  obtain ⟨-, block, hblock, -⟩ := h
  simp [hblock]

theorem ReachesStart.step (h : f.ReachesStart locate l p a)
    (hspares : f.Spares locate l (f.statementsAt a)) (hedge : f.Edge a b) : f.ReachesStart locate l p b := by
  cases p with
  | entry =>
    obtain ⟨c, hc, hway⟩ := h
    exact ⟨c, hc, hway.step hspares hedge⟩
  | definition x =>
    obtain ⟨c, d, hlast, hcd, hway⟩ := h
    exact ⟨c, d, hlast, hcd, hway.step hspares hedge⟩

theorem ReachesEnd.step (h : f.ReachesEnd locate l p a) (hedge : f.Edge a b) : f.ReachesStart locate l p b := by
  rcases h with ⟨x, rfl, hlast⟩ | ⟨h, hspares⟩
  · exact ⟨a, b, hlast, hedge, .stay b⟩
  · exact h.step hspares hedge

end Flow

/-- A reach records exactly the points that can reach a place, each tracked location with its own
    set, and is looked up accordingly. -/
structure Reach.Exactly (r : Reach) (tracked : SortedSet Location) (reaches : Location → Point → Prop) :
    Prop where
  definition : ∀ l x, r.Has l (.definition x) ↔ reaches l (.definition x)
  entry : ∀ l ∈ tracked, r.Has l .entry ↔ reaches l .entry
  untracked : ∀ l, l ∉ tracked → r.find? l = none
  points_of_reaches : ∀ l, (∃ p, reaches l p) → ∀ p, p ∈ r.points l ↔ reaches l p
  points_eq_entry : ∀ l, (∀ p, ¬ reaches l p) → r.points l = [.entry]

/-- It is enough to know the sets of the tracked locations, when no definition of another one can
    reach the place. -/
theorem Reach.Exactly.of_has {r : Reach} {tracked : SortedSet Location} {reaches : Location → Point → Prop}
    (hproper : r.Proper) (htracked : ∀ l p, r.Has l p → l ∈ tracked)
    (hdefinition : ∀ l x, reaches l (.definition x) → l ∈ tracked)
    (hhas : ∀ l ∈ tracked, ∀ p, r.Has l p ↔ reaches l p) : r.Exactly tracked reaches := by
  have huntracked : ∀ l, l ∉ tracked → r.find? l = none := by
    intro l hl
    cases h : r.find? l with
    | none => rfl
    | some ps =>
      obtain ⟨p, hp⟩ := hproper l ps h
      exact absurd (htracked l p ⟨ps, h, hp⟩) hl
  have hunseen : ∀ l, l ∉ tracked → r.points l = [.entry] := by
    intro l hl
    rw [Reach.points, huntracked l hl]
  refine ⟨fun l x => ⟨fun h => ?_, fun h => ?_⟩, fun l hl => hhas l hl _, huntracked,
    fun l h p => ?_, fun l h => ?_⟩
  · exact (hhas l (htracked l _ h) _).1 h
  · exact (hhas l (hdefinition l x h) _).2 h
  · by_cases hl : l ∈ tracked
    · obtain ⟨q, hq⟩ := h
      rcases hproper.points_eq l with ⟨-, hnot⟩ | ⟨-, hmem⟩
      · exact absurd ((hhas l hl q).2 hq) (hnot q)
      · exact (hmem p).trans (hhas l hl p)
    · have hentry : ∀ q, reaches l q → q = .entry := by
        intro q hq
        cases q with
        | entry => rfl
        | definition x => exact absurd (hdefinition l x hq) hl
      obtain ⟨q, hq⟩ := h
      obtain rfl := hentry q hq
      rw [hunseen l hl, List.mem_singleton]
      exact ⟨fun hp => hp ▸ hq, hentry p⟩
  · by_cases hl : l ∈ tracked
    · rcases hproper.points_eq l with ⟨hpoints, -⟩ | ⟨⟨q, hq⟩, -⟩
      · exact hpoints
      · exact absurd ((hhas l hl q).1 hq) (h q)
    · exact hunseen l hl

namespace Summary

/-- The definition that a statement makes, if it is found to make one. -/
def foundDefinition (f : Flow) (locate : Term → Option Location) (st : StatementId) : Option Definition :=
  (definitionAt? f locate st).toOption.join

theorem foundDefinition_eq_some {d : Definition} : foundDefinition f locate st = some d ↔
    d.statement = st ∧ f.DefinesAt locate d.location st d.site := by
  obtain ⟨st', x, l⟩ := d
  unfold foundDefinition definitionAt? Flow.DefinesAt
  cases hroot : f.rootExpr st with
  | error => simp [Except.toOption, bind, Except.bind]
  | ok e =>
    cases e with
    | assign target value =>
      change (f.term target >>= fun t => Except.ok ((locate t).map fun l => (⟨st, target, l⟩ : Definition))).toOption.join =
        _ ↔ _
      cases hterm : f.term target with
      | error =>
        constructor
        · intro h
          cases h
        · rintro ⟨-, v, t, h, ht, -⟩
          cases h
          rw [hterm] at ht
          cases ht
      | ok t =>
        change (locate t).map _ = _ ↔ _
        simp only [Option.map_eq_some_iff, Definition.mk.injEq, Except.ok.injEq, Expr.assign.injEq]
        constructor
        · rintro ⟨_, hl, rfl, rfl, rfl⟩
          exact ⟨rfl, value, t, ⟨rfl, rfl⟩, hterm, hl⟩
        · rintro ⟨rfl, _, t', ⟨rfl, rfl⟩, ht, hl⟩
          rw [hterm] at ht
          cases ht
          exact ⟨l, hl, rfl, rfl, rfl⟩
    | _ => simp [Except.toOption, bind, Except.bind, pure, Except.pure]

theorem lastSite?_eq_none : Definition.lastSite? l (ss.filterMap (foundDefinition f locate)) = none ↔
    f.Spares locate l ss := by
  rw [Definition.lastSite?_eq_none_iff]
  constructor
  · intro h st hst x hx
    exact h ⟨st, x, l⟩ (List.mem_filterMap.2 ⟨st, hst, foundDefinition_eq_some.2 ⟨rfl, hx⟩⟩) rfl
  · rintro h d hd rfl
    obtain ⟨st, hst, hd⟩ := List.mem_filterMap.1 hd
    exact h st hst _ (foundDefinition_eq_some.1 hd).2

theorem lastSite?_eq_some (a : Address) :
    Definition.lastSite? l ((f.statementsAt a).filterMap (foundDefinition f locate)) = some x ↔
      f.DefinesLast locate l x a := by
  constructor
  · intro h
    obtain ⟨before, st, after, d, hsplit, hd, rfl, rfl, hafter⟩ := Definition.exists_split_of_lastSite? h
    exact ⟨before, st, after, hsplit, (foundDefinition_eq_some.1 hd).2, lastSite?_eq_none.1 hafter⟩
  · rintro ⟨before, st, after, hsplit, hdefines, hspares⟩
    have hd : foundDefinition f locate st = some ⟨st, x, l⟩ := foundDefinition_eq_some.2 ⟨rfl, hdefines⟩
    rw [hsplit, List.filterMap_append, List.filterMap_cons_some hd, List.append_cons,
      Definition.lastSite?_append, Definition.lastSite?_append, Definition.lastSite?_singleton,
      lastSite?_eq_none.2 hspares]
    simp

private theorem eq_map_of_mapM {α β : Type} {k : α → Except Fault β} {g : α → β}
    (hk : ∀ x y, k x = .ok y → y = g x) {xs : List α} {ys : List β} (h : xs.mapM k = .ok ys) :
    ys = xs.map g := by
  induction xs generalizing ys with
  | nil =>
    cases h
    rfl
  | cons x rest ih =>
    rw [List.mapM_cons] at h
    cases hx : k x with
    | error => rw [hx] at h; cases h
    | ok y =>
      rw [hx] at h
      cases hrest : rest.mapM k with
      | error => rw [hrest] at h; cases h
      | ok zs =>
        rw [hrest] at h
        cases h
        rw [hk x y hx, ih hrest]
        rfl

/-- What an analysis knows of a block whose definitions can be found. -/
def summarise (f : Flow) (locate : Term → Option Location) (block : Block) : BlockSummary where
  address := block.address
  predecessors := f.predecessors block.address
  successors := block.successors
  definitions := block.statements.filterMap (foundDefinition f locate)

theorem eq_summarise_of_ofBlock {block : Block} {b : BlockSummary} (h : ofBlock f locate block = .ok b) :
    b = summarise f locate block := by
  unfold ofBlock at h
  cases hdefinitions : block.statements.mapM (definitionAt? f locate) with
  | error => rw [hdefinitions] at h; cases h
  | ok ds =>
    rw [hdefinitions] at h
    cases h
    have hds : ds = block.statements.map (foundDefinition f locate) := by
      refine eq_map_of_mapM (fun st d hd => ?_) hdefinitions
      rw [foundDefinition, hd]
      rfl
    have hreduce : ds.reduceOption = block.statements.filterMap (foundDefinition f locate) := by
      rw [hds]
      change (block.statements.map (foundDefinition f locate)).filterMap id = _
      rw [List.filterMap_map]
      rfl
    rw [hreduce]
    rfl

/-- A summary is one of a flow. -/
structure Of (s : Summary) (f : Flow) (locate : Term → Option Location) : Prop where
  entry : s.entry = f.entry
  blocks : s.blocks = f.blocks.values.map (summarise f locate)
  locations : ∀ l, l ∈ s.locations ↔ ∃ b ∈ s.blocks, ∃ d ∈ b.definitions, d.location = l

theorem of_ofFlow (h : ofFlow f locate = .ok s) : s.Of f locate := by
  unfold ofFlow at h
  cases hblocks : f.blocks.values.mapM (ofBlock f locate) with
  | error => rw [hblocks] at h; cases h
  | ok bs =>
    rw [hblocks] at h
    cases h
    refine ⟨rfl, eq_map_of_mapM (fun _ _ => eq_summarise_of_ofBlock) hblocks, fun l => ?_⟩
    simp [List.mem_flatMap]

namespace Of

variable (hs : s.Of f locate) (hf : f.Keyed)
include hs hf

theorem exists_block (ha : f.block? a ≠ none) : ∃ b ∈ s.blocks, b.address = a := by
  obtain ⟨block, hblock⟩ := Option.ne_none_iff_exists'.1 ha
  refine ⟨summarise f locate block, ?_, hf a block hblock⟩
  rw [hs.blocks]
  exact List.mem_map_of_mem (SortedMap.mem_values.2 ⟨a, hblock⟩)

theorem block_of_mem {b : BlockSummary} (hb : b ∈ s.blocks) :
    ∃ block, f.block? b.address = some block ∧ b = summarise f locate block := by
  rw [hs.blocks] at hb
  obtain ⟨block, hblock, rfl⟩ := List.mem_map.1 hb
  obtain ⟨a, ha⟩ := SortedMap.mem_values.1 hblock
  obtain rfl := hf a block ha
  exact ⟨block, ha, rfl⟩

theorem definitions_eq {b : BlockSummary} (hb : b ∈ s.blocks) :
    b.definitions = (f.statementsAt b.address).filterMap (foundDefinition f locate) := by
  obtain ⟨block, hblock, heq⟩ := hs.block_of_mem hf hb
  rw [Flow.statementsAt_eq hblock, heq]
  rfl

theorem edge_iff {b : BlockSummary} (hb : b ∈ s.blocks) : a ∈ b.predecessors ↔ f.Edge a b.address := by
  obtain ⟨block, hblock, rfl⟩ := hs.block_of_mem hf hb
  change a ∈ f.predecessors block.address ↔ _
  rw [hf.mem_predecessors]
  exact (and_iff_right (by simp [hblock])).symm

theorem edge_iff_successors {b : BlockSummary} (hb : b ∈ s.blocks) :
    f.Edge b.address a ↔ f.block? a ≠ none ∧ a ∈ b.successors := by
  obtain ⟨block, hblock, rfl⟩ := hs.block_of_mem hf hb
  unfold Flow.Edge
  rw [hblock]
  simp [summarise]

theorem lawful : s.Lawful := by
  refine ⟨?_, fun b hb a => ?_, fun b hb d hd => ?_⟩
  · rw [hs.blocks, List.map_map]
    exact hf.map_address_values ▸ f.blocks.nodup_keys
  · rw [hs.edge_iff hf hb]
    constructor
    · intro hedge
      obtain ⟨c, hc, rfl⟩ := hs.exists_block hf hedge.block?_ne_none
      exact ⟨c, hc, rfl, ((hs.edge_iff_successors hf hc).1 hedge).2⟩
    · rintro ⟨c, hc, rfl, hsucc⟩
      obtain ⟨block, hblock, -⟩ := hs.block_of_mem hf hb
      exact (hs.edge_iff_successors hf hc).2 ⟨by simp [hblock], hsucc⟩
  · exact (hs.locations _).2 ⟨b, hb, d, hd, rfl⟩

theorem isStart_iff {b : BlockSummary} (hb : b ∈ s.blocks) : s.isStart b = true ↔ f.Begins b.address := by
  obtain ⟨block, hblock, -⟩ := hs.block_of_mem hf hb
  unfold isStart Flow.Begins
  rw [hs.entry, Bool.or_eq_true, beq_iff_eq, List.isEmpty_iff, and_iff_right (by simp [hblock]),
    List.eq_nil_iff_forall_not_mem]
  simp only [hs.edge_iff hf hb]

/-- What reaches the end of a block through the summary reaches it through the flow. -/
theorem reachesEnd {b : BlockSummary} (h : s.Leaves l p b) : f.ReachesEnd locate l p b.address := by
  induction h with
  | assigned hb hlast =>
    rw [hs.definitions_eq hf hb] at hlast
    exact .inl ⟨_, rfl, (lastSite?_eq_some _).1 hlast⟩
  | entered hb hstart _ hnone =>
    rw [hs.definitions_eq hf hb] at hnone
    exact .inr ⟨⟨_, (hs.isStart_iff hf hb).1 hstart, .stay _⟩, lastSite?_eq_none.1 hnone⟩
  | passed _ hb hpred hnone ih =>
    rw [hs.definitions_eq hf hb] at hnone
    exact .inr ⟨ih.step ((hs.edge_iff hf hb).1 hpred), lastSite?_eq_none.1 hnone⟩

theorem reachesStart {b : BlockSummary} (hb : b ∈ s.blocks) (h : s.Arrives l p b) :
    f.ReachesStart locate l p b.address := by
  rcases h with ⟨hstart, -, rfl⟩ | ⟨c, hc, hpred⟩
  · exact ⟨_, (hs.isStart_iff hf hb).1 hstart, .stay _⟩
  · exact (hs.reachesEnd hf hc).step ((hs.edge_iff hf hb).1 hpred)

/-- What reaches the start of a block reaches whatever follows on a way free of definitions. -/
theorem arrives_of_freeWay (hway : f.FreeWay locate l a c) {b : BlockSummary} (hb : b ∈ s.blocks)
    (haddress : b.address = c)
    (h : ∀ b' ∈ s.blocks, b'.address = a → s.Arrives l p b') : s.Arrives l p b := by
  induction hway generalizing b with
  | stay => exact h b hb haddress
  | step _ hspares hedge ih =>
    subst haddress
    obtain ⟨b', hb', rfl⟩ := hs.exists_block hf hedge.block?_ne_none
    have harrives := ih hb' rfl
    refine .inr ⟨b', (leaves_iff hb').2 ?_, (hs.edge_iff hf hb).2 hedge⟩
    rw [hs.definitions_eq hf hb', lastSite?_eq_none.2 hspares]
    exact harrives

theorem arrives_of_reachesStart {b : BlockSummary} (hb : b ∈ s.blocks) (hl : l ∈ s.locations)
    (h : f.ReachesStart locate l p b.address) : s.Arrives l p b := by
  cases p with
  | entry =>
    obtain ⟨a, ha, hway⟩ := h
    refine hs.arrives_of_freeWay hf hway hb rfl fun b' hb' haddress => ?_
    exact .inl ⟨(hs.isStart_iff hf hb').2 (haddress ▸ ha), hl, rfl⟩
  | definition x =>
    obtain ⟨a, c, hlast, hedge, hway⟩ := h
    refine hs.arrives_of_freeWay hf hway hb rfl fun b' hb' haddress => ?_
    obtain ⟨d, hd, rfl⟩ := hs.exists_block hf hedge.block?_ne_none
    refine .inr ⟨d, .assigned hd ?_, (hs.edge_iff hf hb').2 (haddress ▸ hedge)⟩
    rw [hs.definitions_eq hf hd]
    exact (lastSite?_eq_some _).2 hlast

theorem leaves_of_reachesEnd {b : BlockSummary} (hb : b ∈ s.blocks) (hl : l ∈ s.locations)
    (h : f.ReachesEnd locate l p b.address) : s.Leaves l p b := by
  rw [leaves_iff hb, hs.definitions_eq hf hb]
  rcases h with ⟨x, rfl, hlast⟩ | ⟨h, hspares⟩
  · rw [(lastSite?_eq_some _).2 hlast]
  · rw [lastSite?_eq_none.2 hspares]
    exact hs.arrives_of_reachesStart hf hb hl h

theorem mem_locations_of_definesLast (h : f.DefinesLast locate l x a) : l ∈ s.locations := by
  have hlast := (lastSite?_eq_some a).2 h
  obtain ⟨d, hd, rfl, -⟩ := Definition.exists_of_lastSite? hlast
  have ha : f.block? a ≠ none := by
    intro hnone
    simp [Flow.statementsAt, hnone] at hd
  obtain ⟨b, hb, rfl⟩ := hs.exists_block hf ha
  exact (hs.locations _).2 ⟨b, hb, d, hs.definitions_eq hf hb ▸ hd, rfl⟩

theorem mem_locations_of_reachesStart (h : f.ReachesStart locate l (.definition x) a) : l ∈ s.locations := by
  obtain ⟨b, c, hlast, -⟩ := h
  exact hs.mem_locations_of_definesLast hf hlast

end Of

/-- The analysis comes to an end with exactly what can reach the start and the end of each block. -/
theorem analyze_exact (hf : f.Keyed) (h : ofFlow f locate = .ok s) : s.analyze.work = [] ∧
    ∀ a, f.block? a ≠ none → ∃ atStart atEnd,
      s.analyze.ins.find? a = some atStart ∧ s.analyze.outs.find? a = some atEnd ∧
      atStart.Exactly s.locations (fun l p => f.ReachesStart locate l p a) ∧
      atEnd.Exactly s.locations (fun l p => f.ReachesEnd locate l p a) := by
  have hs := of_ofFlow h
  have hlawful := hs.lawful hf
  refine ⟨hlawful.fair_analyze.2, fun a ha => ?_⟩
  obtain ⟨b, hb, rfl⟩ := hs.exists_block hf ha
  have hproper : (s.reachIn s.reachOut b).Proper := proper_reachIn hlawful.fair_analyze.1.proper
  refine ⟨_, _, hlawful.ins_analyze hb, hlawful.outs_analyze hb, ?_, ?_⟩
  · refine .of_has hproper (fun l p h => ?_) (fun l x h => hs.mem_locations_of_reachesStart hf h)
      fun l hl p => (hlawful.has_reachIn_iff hb).trans ⟨hs.reachesStart hf hb, hs.arrives_of_reachesStart hf hb hl⟩
    exact hlawful.mem_of_arrives ((hlawful.has_reachIn_iff hb).1 h)
  · refine .of_has hproper.foldl_after (fun l p h => ?_) (fun l x h => ?_)
      fun l hl p => (hlawful.has_through_iff hb).trans ⟨hs.reachesEnd hf, hs.leaves_of_reachesEnd hf hb hl⟩
    · exact hlawful.mem_of_leaves ((hlawful.has_through_iff hb).1 h)
    · rcases h with ⟨y, -, hlast⟩ | ⟨h, -⟩
      · exact hs.mem_locations_of_definesLast hf hlast
      · exact hs.mem_locations_of_reachesStart hf h

/-- A flow with a loop, two edges to one block, an edge to an address without a block and a block
    that control does not come to. -/
def tangledFlow : Flow where
  entry := 0
  nodes := #[
    ⟨.assign ⟨1⟩ ⟨2⟩, .root ⟨0⟩, .unlinked⟩, ⟨.register "x" none, .child ⟨0⟩, .unlinked⟩,
    ⟨.constant 1, .child ⟨0⟩, .unlinked⟩,
    ⟨.assign ⟨4⟩ ⟨5⟩, .root ⟨1⟩, .unlinked⟩, ⟨.register "x" none, .child ⟨3⟩, .unlinked⟩,
    ⟨.constant 2, .child ⟨3⟩, .unlinked⟩]
  statements := #[⟨4, ⟨0⟩, 4, false⟩, ⟨12, ⟨3⟩, 12, false⟩]
  blocks := .ofList [(0, ⟨0, [0], [], [4, 4, 20]⟩), (4, ⟨4, [4], [⟨0⟩], [8]⟩), (8, ⟨8, [8], [], [4, 8]⟩),
    (12, ⟨12, [12], [⟨1⟩], [12]⟩)]

theorem analyze_exact_tangled : ∃ s, ofFlow tangledFlow LocationKind.registers.locate = .ok s ∧
    tangledFlow.Keyed ∧ s.analyze.work = [] ∧
    ∀ a, tangledFlow.block? a ≠ none → ∃ atStart atEnd,
      s.analyze.ins.find? a = some atStart ∧ s.analyze.outs.find? a = some atEnd ∧
      atStart.Exactly s.locations (fun l p => tangledFlow.ReachesStart LocationKind.registers.locate l p a) ∧
      atEnd.Exactly s.locations (fun l p => tangledFlow.ReachesEnd LocationKind.registers.locate l p a) := by
  have hok : (ofFlow tangledFlow LocationKind.registers.locate).toOption.isSome = true := by decide +kernel
  have hkeyed : tangledFlow.Keyed := by
    have hall : ∀ e ∈ tangledFlow.blocks.entries, e.2.address = e.1 := by decide +kernel
    intro a b hb
    exact hall (a, b) (SortedMap.mem_entries_of_find? hb)
  cases h : ofFlow tangledFlow LocationKind.registers.locate with
  | error => simp [h, Except.toOption] at hok
  | ok s => exact ⟨s, rfl, hkeyed, analyze_exact hkeyed h⟩

end Summary

end FrameRecovery
