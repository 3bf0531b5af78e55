import FrameRecovery.Proofs.Flow.Shape
import FrameRecovery.Proofs.Sorted

namespace FrameRecovery

namespace Flow

variable {f g h : Flow}

theorem Becomes.trans {s s' : NodeId → Option (Expr NodeId × Place)} {l l' : NodeId → Link}
    (hfg : f.Becomes g s l) (hgh : g.Becomes h s' l') : f.Becomes h s' l' :=
  ⟨hgh.shape_eq, hgh.link_eq, hgh.entry_eq.trans hfg.entry_eq,
    hgh.statements_eq.trans hfg.statements_eq, hgh.blocks_eq.trans hfg.blocks_eq⟩

theorem Becomes.refl (f : Flow) : f.Becomes f f.shapeAt f.linkOf :=
  ⟨rfl, rfl, rfl, rfl, rfl⟩

theorem Becomes.statementAt_eq {s : NodeId → Option (Expr NodeId × Place)} {l : NodeId → Link}
    (hfg : f.Becomes g s l) : g.statementAt = f.statementAt := by
  funext i
  simp [statementAt, hfg.statements_eq]

theorem eq_nextNode_iff {y : NodeId} : y = f.nextNode ↔ y.index = f.nodes.size := by
  cases y
  simp [nextNode]

theorem shapeAt_push (f : Flow) (n : Node) :
    { f with nodes := f.nodes.push n }.shapeAt =
      Function.update f.shapeAt f.nextNode (some (n.expr, n.place)) := by
  funext y
  by_cases hy : y = f.nextNode
  · subst hy
    simp [shapeAt, nextNode]
  · have hne : y.index ≠ f.nodes.size := fun h => hy (eq_nextNode_iff.2 h)
    simp [shapeAt, Array.getElem?_push, hy, hne]

theorem linkOf_push (f : Flow) (n : Node) :
    { f with nodes := f.nodes.push n }.linkOf = Function.update f.linkOf f.nextNode n.link := by
  funext y
  by_cases hy : y = f.nextNode
  · subst hy
    simp [linkOf, nextNode]
  · have hne : y.index ≠ f.nodes.size := fun h => hy (eq_nextNode_iff.2 h)
    simp [linkOf, Array.getElem?_push, hy, hne]

theorem statementAt_modify {s : StatementId} {st : Statement} (h : f.statementAt s = some st)
    (change : Statement → Statement) :
    { f with statements := f.statements.modify s.index change }.statementAt =
      Function.update f.statementAt s (some (change st)) := by
  funext i
  by_cases hi : i = s
  · subst hi
    have h : f.statements[i.index]? = some st := h
    simp [statementAt, Array.getElem?_modify, h]
  · have hne : s.index ≠ i.index := fun h => hi (by cases i; cases s; simp_all)
    simp [statementAt, Array.getElem?_modify, hi, hne]

theorem statementAt_push (f : Flow) (st : Statement) :
    { f with statements := f.statements.push st }.statementAt =
      Function.update f.statementAt f.nextStatement (some st) := by
  funext i
  by_cases hi : i = f.nextStatement
  · subst hi
    simp [statementAt, nextStatement]
  · have hne : i.index ≠ f.statements.size := fun h => hi (by cases i; simp_all [nextStatement])
    simp [statementAt, Array.getElem?_push, hi, hne]

end Flow

namespace Edit

variable {f : Flow}

/-- The shapes of nodes after some of them were put into one place. -/
def placed (shape : NodeId → Option (Expr NodeId × Place)) (xs : List NodeId) (q : Place) :
    NodeId → Option (Expr NodeId × Place) :=
  fun y => if y ∈ xs then (shape y).map fun s => (s.1, q) else shape y

theorem placed_ne_none {shape : NodeId → Option (Expr NodeId × Place)} {xs : List NodeId}
    {q : Place} {y : NodeId} (h : shape y ≠ none) : placed shape xs q y ≠ none := by
  unfold placed
  split <;> simpa

theorem map_fst_placed (shape : NodeId → Option (Expr NodeId × Place)) (ys : List NodeId) (q : Place)
    (y : NodeId) : (placed shape ys q y).map Prod.fst = (shape y).map Prod.fst := by
  unfold placed
  split
  · rw [Option.map_map]
    rfl
  · rfl

theorem placed_eq_some {shape : NodeId → Option (Expr NodeId × Place)} {xs : List NodeId} {q r : Place}
    {y : NodeId} {e : Expr NodeId} (h : placed shape xs q y = some (e, r)) :
    y ∈ xs ∧ r = q ∨ y ∉ xs ∧ shape y = some (e, r) := by
  unfold placed at h
  split at h
  next hy =>
    obtain ⟨s, -, heq⟩ := Option.map_eq_some_iff.1 h
    exact .inl ⟨hy, (Prod.mk.inj heq).2.symm⟩
  next hy => exact .inr ⟨hy, h⟩

theorem setPlaces_gives (xs : List NodeId) (q : Place) (h : ∀ x ∈ xs, f.shapeAt x ≠ none) :
    Gives (xs.forM fun x => setPlace x q) f fun _ g =>
      f.Becomes g (placed f.shapeAt xs q) f.linkOf := by
  induction xs generalizing f with
  | nil =>
    have heq : placed f.shapeAt [] q = f.shapeAt := by
      funext y
      simp [placed]
    exact .of_pure (heq ▸ Flow.Becomes.refl f)
  | cons x rest ih =>
    obtain ⟨⟨e, p⟩, hx⟩ := Option.ne_none_iff_exists'.1 (h x (by simp))
    refine .of_bind ((setPlace_gives hx q).mono fun _ g hg => ?_)
    have hshape := hg.shape_eq
    refine (ih fun y hy => ?_).mono fun _ g' hg' => ?_
    · rw [hshape]
      by_cases hyx : y = x
      · simp [hyx]
      · simpa [hyx] using h y (by simp [hy])
    · have heq : placed g.shapeAt rest q = placed f.shapeAt (x :: rest) q := by
        funext y
        rw [hshape]
        by_cases hyx : y = x
        · subst hyx
          simp [placed, hx]
        · simp [placed, hyx]
      simpa [heq, hg.link_eq] using hg.trans hg'

/-- A new node stands nowhere, has its children below it, and is unlinked. -/
theorem alloc_gives {e : Expr NodeId} (h : ∀ c ∈ e.children, f.shapeAt c ≠ none) :
    Gives (alloc e) f fun x g => x = f.nextNode ∧
      f.Becomes g (Function.update (placed f.shapeAt e.children (.child x)) x (some (e, .detached)))
        f.linkOf := by
  unfold alloc
  refine .of_bind (.of_get ?_)
  refine .of_bind ((setPlaces_gives e.children _ h).mono fun _ g hg => ?_)
  have hnext : f.nextNode = g.nextNode := Flow.nextNode_eq_of_shapeAt fun y => by
    rw [hg.shape_eq]
    unfold placed
    split <;> simp
  refine .of_bind (.of_modify (.of_pure ⟨rfl, ?_, ?_, hg.entry_eq, hg.statements_eq, hg.blocks_eq⟩))
  · rw [Flow.shapeAt_push, hg.shape_eq, ← hnext]
    rfl
  · rw [Flow.linkOf_push, hg.link_eq, ← hnext, Function.update_eq_self_iff]
    exact (Flow.linkOf_eq_unlinked (Flow.shapeAt_nextNode f)).symm

variable {e e' : Expr NodeId} {p p' : Place} {x old new q : NodeId}

/-- A replaced expression leaves the children it had, unless it has them still. -/
theorem replace_gives (hx : f.shapeAt x = some (e, p)) (hxe : x ∉ e.children)
    (hxe' : x ∉ e'.children) (he : ∀ c ∈ e.children, f.shapeAt c ≠ none)
    (he' : ∀ c ∈ e'.children, f.shapeAt c ≠ none) :
    Gives (replace x e') f fun _ g =>
      f.Becomes g (Function.update
        (placed (placed f.shapeAt e.children .detached) e'.children (.child x)) x (some (e', p)))
        f.linkOf := by
  unfold replace
  refine .of_bind (.of_view (Flow.children_eq hx) ?_)
  refine .of_bind ((setPlaces_gives e.children _ he).mono fun _ g hg => ?_)
  have he' : ∀ c ∈ e'.children, g.shapeAt c ≠ none := fun c hc => by
    rw [hg.shape_eq]
    exact placed_ne_none (he' c hc)
  refine .of_bind ((setPlaces_gives e'.children _ he').mono fun _ g' hg' => ?_)
  have hx' : g'.shapeAt x = some (e, p) := by
    simp [hg'.shape_eq, hg.shape_eq, placed, hxe, hxe', hx]
  refine (setExpr_gives hx' e').mono fun _ g'' hg'' => ?_
  simpa [hg'.shape_eq, hg'.link_eq, hg.shape_eq, hg.link_eq] using hg.trans (hg'.trans hg'')

theorem replaceInParent_child_gives (hold : f.shapeAt old = some (e, .child q))
    {eq : Expr NodeId} {pq : Place} (hq : f.shapeAt q = some (eq, pq))
    (hnew : f.shapeAt new = some (e', p')) (hqold : q ≠ old) (hqnew : q ≠ new) (hne : old ≠ new) :
    Gives (replaceInParent old new) f fun _ g =>
      f.Becomes g (Function.update (Function.update (Function.update f.shapeAt q
        (some (eq.map fun c => if c = old then new else c, pq))) new (some (e', .child q)))
        old (some (e, .detached))) f.linkOf := by
  unfold replaceInParent
  refine .of_bind (.of_view (Flow.node_eq hold) ?_)
  refine .of_bind (.of_view (Flow.expr_eq hq) (.of_bind ?_))
  refine (setExpr_gives hq _).mono fun _ g₁ h₁ => ?_
  have hnew₁ : g₁.shapeAt new = some (e', p') := by
    rw [h₁.shape_eq, Function.update_of_ne hqnew.symm, hnew]
  refine .of_bind ((setPlace_gives hnew₁ _).mono fun _ g₂ h₂ => ?_)
  have hold₂ : g₂.shapeAt old = some (e, .child q) := by
    rw [h₂.shape_eq, Function.update_of_ne hne, h₁.shape_eq, Function.update_of_ne hqold.symm, hold]
  refine (setPlace_gives hold₂ _).mono fun _ g₃ h₃ => ?_
  simpa [h₂.shape_eq, h₂.link_eq, h₁.shape_eq, h₁.link_eq] using h₁.trans (h₂.trans h₃)

theorem replaceInParent_root_gives {s : StatementId} {st : Statement}
    (hold : f.shapeAt old = some (e, .root s)) (hst : f.statementAt s = some st)
    (hnew : f.shapeAt new = some (e', p')) (hne : old ≠ new) :
    Gives (replaceInParent old new) f fun _ g =>
      g.shapeAt = Function.update (Function.update f.shapeAt new (some (e', .root s)))
        old (some (e, .detached)) ∧ g.linkOf = f.linkOf ∧ g.entry = f.entry ∧
      g.blocks = f.blocks ∧
      g.statementAt = Function.update f.statementAt s (some { st with root := new }) := by
  unfold replaceInParent
  refine .of_bind (.of_view (Flow.node_eq hold) ?_)
  refine .of_bind (.of_modify (.of_bind ?_))
  have hnew₁ : ∀ f' : Flow, f'.nodes = f.nodes → f'.shapeAt new = some (e', p') := by
    intro f' hf'
    rw [← hnew, Flow.shapeAt, hf']
    rfl
  refine Gives.mono (setPlace_gives (hnew₁ _ (by rfl)) _) fun _ g₂ h₂ => ?_
  have hold₂ : g₂.shapeAt old = some (e, .root s) := by
    rw [h₂.shape_eq, Function.update_of_ne hne]
    exact hold
  refine (setPlace_gives hold₂ _).mono fun _ g₃ h₃ => ⟨?_, ?_, ?_, ?_, ?_⟩
  · rw [h₃.shape_eq, h₂.shape_eq]
    rfl
  · rw [h₃.link_eq, h₂.link_eq]
    rfl
  · rw [h₃.entry_eq, h₂.entry_eq]
  · rw [h₃.blocks_eq, h₂.blocks_eq]
  · rw [← Flow.statementAt_modify hst fun st => { st with root := new }]
    funext i
    simp [Flow.statementAt, h₃.statements_eq, h₂.statements_eq]

/-- A tree that stands nowhere makes way to another one, which then stands nowhere too. -/
theorem replaceInParent_detached_gives (hold : f.shapeAt old = some (e, .detached))
    (hnew : f.shapeAt new = some (e', p')) (hne : old ≠ new) :
    Gives (replaceInParent old new) f fun _ g =>
      f.Becomes g (Function.update (Function.update f.shapeAt new (some (e', .detached)))
        old (some (e, .detached))) f.linkOf := by
  unfold replaceInParent
  refine .of_bind (.of_view (Flow.node_eq hold) ?_)
  refine .of_bind ((setPlace_gives hnew _).mono fun _ g₁ h₁ => ?_)
  have hold₁ : g₁.shapeAt old = some (e, .detached) := by
    rw [h₁.shape_eq, Function.update_of_ne hne, hold]
  refine (setPlace_gives hold₁ _).mono fun _ g₂ h₂ => ?_
  simpa [h₁.shape_eq, h₁.link_eq] using h₁.trans h₂

theorem insertStatement_gives {block address : Address} {position : Nat} {b : Block}
    (hx : f.shapeAt x = some (e, p)) (hb : f.block? block = some b)
    (hposition : position ≤ b.statements.length) :
    Gives (insertStatement block position address x) f fun s g => s = f.nextStatement ∧
      g.shapeAt = Function.update f.shapeAt x (some (e, .root s)) ∧ g.linkOf = f.linkOf ∧
      g.entry = f.entry ∧
      g.statementAt = Function.update f.statementAt s (some ⟨address, x, block, false⟩) ∧
      g.blocks = f.blocks.modify block fun b =>
        { b with statements := b.statements.insertIdx position s } := by
  unfold insertStatement
  refine .of_bind (.of_get (.of_bind (.of_modify ?_)))
  have hx₁ : ∀ f' : Flow, f'.nodes = f.nodes → f'.shapeAt x = some (e, p) := by
    intro f' hf'
    rw [← hx, Flow.shapeAt, hf']
    rfl
  refine .of_bind (Gives.mono (setPlace_gives (hx₁ _ (by rfl)) _) fun _ g hg => ?_)
  have hgb : g.block? block = some b := by
    rw [← hb, Flow.block?, hg.blocks_eq]
    rfl
  refine .of_bind (.of_get ?_)
  rw [hgb]
  dsimp only
  rw [if_neg (by omega)]
  refine .of_bind (.of_modify (.of_pure ⟨rfl, ?_, ?_, ?_, ?_, ?_⟩))
  · exact hg.shape_eq
  · exact hg.link_eq
  · exact hg.entry_eq
  · refine Eq.trans ?_ (Flow.statementAt_push f _)
    funext i
    simp [Flow.statementAt, hg.statements_eq]
  · simp only [hg.blocks_eq]

theorem removeStatement_gives {s : StatementId} {st : Statement} (hst : f.statementAt s = some st)
    (hlive : st.removed = false) :
    Gives (removeStatement s) f fun _ g =>
      g.shapeAt = f.shapeAt ∧ g.linkOf = f.linkOf ∧ g.entry = f.entry ∧
      g.statementAt = Function.update f.statementAt s (some { st with removed := true }) ∧
      g.blocks = f.blocks.modify st.block fun b =>
        { b with statements := b.statements.filter (· != s) } := by
  unfold removeStatement
  refine .of_bind (.of_view (Flow.statement_eq hst) ?_)
  rw [hlive]
  refine .of_bind (.of_pure (.of_modify ⟨rfl, rfl, rfl, ?_, rfl⟩))
  rw [← Flow.statementAt_modify hst fun st => { st with removed := true }]
  rfl

theorem addBlock_gives {a : Address} {instructions successors : List Address}
    (h : f.block? a = none) :
    Gives (addBlock a instructions successors) f fun _ g =>
      g = { f with blocks := f.blocks.insert a ⟨a, instructions, [], successors⟩ } := by
  unfold addBlock
  refine .of_bind (.of_get ?_)
  rw [if_neg (by simpa [SortedMap.contains, Flow.block?] using h)]
  exact .of_modify rfl

end Edit

end FrameRecovery
