import FrameRecovery.Proofs.Renaming

namespace FrameRecovery

open Flow

/-- Asks for the numbers of values, one after another. -/
def Numbering.assignAll {α : Type} [DecidableEq α] (n : Numbering α) (vs : List α) : Numbering α :=
  vs.foldl (fun n v => (n.assign v).2) n

theorem Numbering.assignAll_append {α : Type} [DecidableEq α] (n : Numbering α) (vs ws : List α) :
    n.assignAll (vs ++ ws) = (n.assignAll vs).assignAll ws :=
  List.foldl_append

namespace Term

variable {β : Type} {pick pick' : NodeId → Option β} {i : NodeId} {e : Expr Term} {t : Term}

/-- What is picked at the nodes of a tree that are not below one at which something is, left to right. -/
def outermost (pick : NodeId → Option β) (t : Term) : List β :=
  t.fold fun i e => match pick i with
    | some b => [b]
    | none => e.children.flatten

theorem outermost_node : outermost pick (node i e) =
    match pick i with
    | some b => [b]
    | none => e.children.flatMap (outermost pick) := by
  unfold outermost
  rw [fold_node, Expr.children_map, List.flatMap_def]

theorem outermost_congr (h : ∀ x ∈ t.preorder, pick' x = pick x) : outermost pick' t = outermost pick t := by
  induction t using Term.induction with
  | step i e ih =>
    rw [outermost_node, outermost_node, h i (id_mem_preorder _)]
    split
    · rfl
    · refine List.flatMap_congr fun c hc => ih c hc fun x hx => h x ?_
      exact (Within.of_mem_children hc).preorder_subset hx

end Term

namespace StackRenaming

variable {m : Machine} {negate : Bool} {f g h : Flow} {s : StatementId} {p : NodeId} {parent : Expr NodeId}
  {t t' x y T : Term}

/-- The offset that an operand denotes, if it is renamed. -/
def selectedOffset? (m : Machine) (negate : Bool) (f : Flow) (x : NodeId) : Option Word :=
  match selects m f x, f.term x with
  | .ok true, .ok t => m.offset? negate (addressOf t)
  | _, _ => none

/-- The offsets that the operands of a statement denote, from left to right. What is below an operand that is renamed
    counts for nothing. -/
def statementOffsets (m : Machine) (negate : Bool) (f : Flow) (s : StatementId) : List Word :=
  match f.statementTerm s with
  | .ok t => t.expr.children.flatMap (Term.outermost (selectedOffset? m negate f))
  | .error _ => []

/-- The offsets that are met in a flow: blocks in address order, statements in execution order, and operands before
    those below them, left to right. -/
def offsetsMet (m : Machine) (negate : Bool) (f : Flow) : List Word :=
  f.liveStatements.flatMap (statementOffsets m negate f)

/-- Whether an operand is a register that the expression above it assigns to. -/
def isRegisterTarget : Expr NodeId → Term → Bool
  | .assign target _, .node i (.register _ _) => target == i
  | _, _ => false

/-- The offset that an operand below an expression denotes, if it is renamed there. -/
def offsetUnder? (m : Machine) (negate : Bool) (parent : Expr NodeId) (t : Term) : Option Word :=
  if parent.isTheta || isRegisterTarget parent t then none else m.offset? negate (addressOf t)

theorem isFrameAddress_eq (hm : m.Regular) (negate : Bool) :
    m.isFrameAddress t = (m.offset? negate t).isSome := by
  rw [Bool.eq_iff_iff, @Machine.Regular.isFrameAddress_iff m negate t hm, Option.isSome_iff_exists]
  simp only [Machine.offset?_eq_some_iff]
  exact exists_comm

theorem isRegisterTarget_eq_false (h : ∀ n v, t.expr ≠ .register n v) : isRegisterTarget parent t = false := by
  obtain ⟨i, e⟩ := t
  cases parent <;> cases e <;> first | rfl | exact absurd rfl (h _ _)

/-- Whether an operand is selected depends on what is below it and on the expression above it alone. -/
theorem selects_under (hm : m.Regular) (negate : Bool) (ht : f.Stands (.child p) t) (hp : f.exprAt p = some parent) :
    selects m f t.id = .ok (offsetUnder? m negate parent t).isSome := by
  obtain ⟨q, hq⟩ := exists_shapeAt_of_exprAt hp
  have hparent := parentExpr?_eq_some ht.shape_id hq
  have htheta : PropagationPolicy.isThetaInput f t.id = .ok parent.isTheta := by
    unfold PropagationPolicy.isThetaInput
    rw [hparent]
    rfl
  have hshape := ht.shape_id
  have hself := ht.term_eq
  have hbelow := fun {u} => ht.term_eq_of_within (u := u)
  obtain ⟨i, e⟩ := t
  unfold selects offsetUnder?
  rw [Term.id_node] at *
  rw [htheta, bind_ok]
  cases parent.isTheta with
  | true => rfl
  | false =>
    rw [Bool.false_or, if_neg Bool.false_ne_true, expr_eq hshape, bind_ok]
    -- only a register is asked whether it is assigned to
    have hother : (∀ n v, e ≠ .register n v) → Except.ok (m.isFrameAddress (addressOf (.node i e))) =
        (.ok (if isRegisterTarget parent (.node i e) then none else
          m.offset? negate (addressOf (.node i e))).isSome : Except Fault Bool) := fun he => by
      rw [isRegisterTarget_eq_false (t := .node i e) he, isFrameAddress_eq hm negate]
      rfl
    cases e with
    | deref a k =>
      change (f.term a.id >>= _) = _
      rw [hbelow (.of_mem_children (by simp [Expr.children])), bind_ok]
      exact hother nofun
    | register n k =>
      have hassigned : isAssigned f i = .ok (isRegisterTarget parent (.node i (.register n k))) := by
        unfold isAssigned
        rw [hparent]
        cases parent <;> rfl
      change (isAssigned f i >>= _) = _
      rw [hassigned, bind_ok, hself, bind_ok, isFrameAddress_eq hm negate]
      cases isRegisterTarget parent (.node i (.register n k)) <;> rfl
    | _ =>
      change (f.term i >>= _) = _
      rw [hself, bind_ok]
      exact hother nofun

theorem selectedOffset?_under (hm : m.Regular) (ht : f.Stands (.child p) t) (hp : f.exprAt p = some parent) :
    selectedOffset? m negate f t.id = offsetUnder? m negate parent t := by
  unfold selectedOffset?
  rw [selects_under hm negate ht hp, ht.term_eq]
  unfold offsetUnder?
  cases parent.isTheta || isRegisterTarget parent t with
  | true => rfl
  | false => cases h : m.offset? negate (addressOf t) <;> simp [h]

/-- An operand that is renamed denotes a place in the frame. No merge has it as an operand, and it is assigned to only
    if it is a write. -/
theorem locates_of_offsetUnder? {w : Word} (hf : f.Sound .any) (hrooted : f.Rooted) (ht : f.Stands (.child p) t)
    (hp : f.exprAt p = some parent) (h : offsetUnder? m negate parent t = some w) :
    ∃ v, m.Locates negate (addressOf t) v w ∧ ¬ f.IsInput t.id ∧
      ((∃ a k, t.expr = .deref a k) ∨ ∀ r y, f.exprAt r ≠ some (.assign t.id y)) := by
  unfold offsetUnder? at h
  split at h
  · cases h
  next hfree =>
    rw [Bool.or_eq_true, not_or] at hfree
    obtain ⟨v, hw⟩ := Machine.offset?_eq_some_iff.1 h
    obtain ⟨q, hq⟩ := exists_shapeAt_of_exprAt hp
    refine ⟨v, hw, ?_, ?_⟩
    · rintro ⟨inputs, hinputs⟩
      cases (parentExpr?_eq_some ht.shape_id hq).symm.trans hinputs
      exact hfree.1 rfl
    · by_contra hnot
      obtain ⟨hderef, hassigned⟩ := not_or.1 hnot
      simp only [ne_eq, not_forall, not_not] at hassigned
      obtain ⟨r, y, hr⟩ := hassigned
      -- what is assigned to is the first operand of its assignment, so this is the expression above
      obtain ⟨s', S, hS, rfl⟩ := hrooted r t.id y hr
      obtain ⟨D, Y, heq, hD, -⟩ := hS.exists_assign hr
      rw [heq] at hS
      obtain ⟨-, -, below⟩ := hS.stands
      have hbelow := (below D (by simp [Expr.children])).shape_id
      rw [hD, ht.shape_id] at hbelow
      obtain rfl := Place.child.inj (Prod.mk.inj (Option.some.inj hbelow)).2
      cases hp.symm.trans hr
      obtain ⟨⟨e', he', hassignable⟩, -⟩ := hf.typed.target _ t.id y hr
      rw [exprAt_eq_some ht.shape_id, Option.some.injEq] at he'
      obtain ⟨i, e⟩ := t
      cases e with
      | register n k => exact hfree.2 (beq_self_eq_true i)
      | deref a k => exact hderef ⟨a, k, rfl⟩
      | var n k o => cases hw
      | _ =>
        rw [← he'] at hassignable
        cases hassignable

theorem outermost_of_some {w : Word} (hm : m.Regular) (ht : f.Stands (.child p) t) (hp : f.exprAt p = some parent)
    (hsome : offsetUnder? m negate parent t = some w) : Term.outermost (selectedOffset? m negate f) t = [w] := by
  have hpick := (selectedOffset?_under hm ht hp).trans hsome
  obtain ⟨i, e⟩ := t
  rw [Term.id_node] at hpick
  rw [Term.outermost_node, hpick]

theorem outermost_of_none (hm : m.Regular) (ht : f.Stands (.child p) t) (hp : f.exprAt p = some parent)
    (hnone : offsetUnder? m negate parent t = none) : Term.outermost (selectedOffset? m negate f) t =
      t.expr.children.flatMap (Term.outermost (selectedOffset? m negate f)) := by
  have hpick := (selectedOffset?_under hm ht hp).trans hnone
  obtain ⟨i, e⟩ := t
  rw [Term.id_node] at hpick
  rw [Term.outermost_node, hpick]
  rfl

/-- What is selected among operands does not change as long as they and the expression above them stay. -/
theorem selectedOffset?_congr (hm : m.Regular) (hf : f.Stands (.child p) t) (hg : g.Stands (.child p) t)
    (hfp : f.exprAt p = some parent) (hgp : g.exprAt p = some parent) {x : NodeId} (hx : x ∈ t.preorder) :
    selectedOffset? m negate g x = selectedOffset? m negate f x := by
  by_cases hid : x = t.id
  · rw [hid, selectedOffset?_under hm hf hfp, selectedOffset?_under hm hg hgp]
  · obtain ⟨i, e, u, hwithin, hu, rfl, hstands⟩ := hf.exists_parent hx hid
    obtain ⟨q, hq⟩ := hf.exists_of_within hwithin
    obtain ⟨q', hq'⟩ := hg.exists_of_within hwithin
    obtain ⟨-, -, below⟩ := id hq'
    rw [selectedOffset?_under hm hstands (exprAt_eq_some hq.shape_id),
      selectedOffset?_under hm (below u hu) (exprAt_eq_some hq'.shape_id)]

theorem statementOffsets_eq (hT : f.Holds s T) :
    statementOffsets m negate f s = T.expr.children.flatMap (Term.outermost (selectedOffset? m negate f)) := by
  unfold statementOffsets
  rw [hT.statementTerm_eq]

theorem statementOffsets_congr (hm : m.Regular) (hf : f.Holds s T) (hg : g.Holds s T) :
    statementOffsets m negate g s = statementOffsets m negate f s := by
  obtain ⟨i, e⟩ := T
  obtain ⟨hshape, -, below⟩ := hf.stands
  obtain ⟨hshape', -, below'⟩ := hg.stands
  rw [statementOffsets_eq hf, statementOffsets_eq hg]
  refine List.flatMap_congr fun c hc => Term.outermost_congr fun x hx => ?_
  exact selectedOffset?_congr hm (below c hc) (below' c hc) (exprAt_eq_some hshape) (exprAt_eq_some hshape') hx

/-- A tree below an expression, and the same with a variable or the address of one in the place of every outermost
    operand that is renamed. -/
inductive Sweeps (m : Machine) (negate : Bool) : Expr NodeId → Term → Term → Prop
  | replaced {parent : Expr NodeId} {t t' : Term} (h : Renames m negate t t') : Sweeps m negate parent t t'
  | kept {parent : Expr NodeId} {i : NodeId} {e : Expr Term} {image : Term → Term}
    (hnone : offsetUnder? m negate parent (.node i e) = none)
    (h : ∀ c ∈ e.children, Sweeps m negate (e.map Term.id) c (image c)) :
    Sweeps m negate parent (.node i e) (.node i (e.map image))

theorem offset?_binary_eq_none {i : NodeId} {op : BinaryOp} (hx : m.isStackPointer x = false) :
    m.offset? negate (.node i (.binary op x y)) = none := by
  cases op <;> simp [Machine.offset?, hx]

theorem Renames.offset?_eq_none (h : Renames m negate t t') :
    addressOf t' = t' ∧ m.isStackPointer t' = false ∧ m.offset? negate t' = none := by
  obtain ⟨-, e, rfl, ⟨n, k, o, rfl⟩ | ⟨x, n, o, rfl⟩⟩ := h <;> exact ⟨rfl, rfl, rfl⟩

namespace Sweeps

/-- The stack pointer is gone wherever it is neither merged nor assigned to. -/
theorem isStackPointer_eq (h : Sweeps m negate parent t t')
    (hparent : ∀ t, offsetUnder? m negate parent t = m.offset? negate (addressOf t)) :
    m.isStackPointer t' = false := by
  cases h with
  | replaced h => exact h.offset?_eq_none.2.1
  | @kept _ i e image hnone =>
    rw [hparent] at hnone
    cases e with
    | register n k =>
      by_contra hpointer
      obtain ⟨j, v, heq⟩ := Machine.isStackPointer_iff.1 (Bool.not_eq_false _ ▸ hpointer)
      cases heq
      simp [addressOf, Machine.offset?] at hnone
    | _ => rfl

/-- There is no address in the frame left where none is merged. -/
theorem offset?_eq_none (h : Sweeps m negate parent t t')
    (hparent : ∀ t, offsetUnder? m negate parent t = m.offset? negate (addressOf t)) :
    m.offset? negate t' = none := by
  cases h with
  | replaced h => exact h.offset?_eq_none.2.2
  | @kept _ i e image hnone h =>
    cases e with
    | register n k =>
      rw [hparent] at hnone
      exact hnone
    | binary op x y => exact offset?_binary_eq_none ((h x (by simp [Expr.children])).isStackPointer_eq fun _ => rfl)
    | _ => rfl

/-- What takes the place of an operand is not renamed again. -/
theorem offsetUnder?_eq_none (h : Sweeps m negate parent t t') : offsetUnder? m negate parent t' = none := by
  have hrest : m.offset? negate (addressOf t') = none → offsetUnder? m negate parent t' = none := fun h => by
    unfold offsetUnder?
    rw [h, ite_self]
  cases h with
  | replaced h =>
    obtain ⟨haddress, -, hnone⟩ := h.offset?_eq_none
    exact hrest (haddress.symm ▸ hnone)
  | @kept _ i e image hnone h =>
    cases e with
    | register n k => exact hnone
    | deref a k => exact hrest ((h a (by simp [Expr.children])).offset?_eq_none fun _ => rfl)
    | binary op x y =>
      exact hrest (offset?_binary_eq_none ((h x (by simp [Expr.children])).isStackPointer_eq fun _ => rfl))
    | _ => exact hrest rfl

theorem id_eq (h : Sweeps m negate parent t t') : t'.id = t.id := by
  cases h with
  | replaced h =>
    obtain ⟨-, e, rfl, -⟩ := h
    rfl
  | kept => rfl

/-- The children of a node stay its children. -/
theorem map_id_eq {e : Expr Term} {image : Term → Term} {q : Expr NodeId}
    (h : ∀ c ∈ e.children, Sweeps m negate q c (image c)) : (e.map image).map Term.id = e.map Term.id := by
  rw [Expr.map_map]
  exact Expr.map_congr fun c hc => (h c hc).id_eq

/-- No operand is selected in what takes the place of one. -/
theorem outermost_eq_nil (hm : m.Regular) (h : Sweeps m negate parent t t') (ht : g.Stands (.child p) t')
    (hp : g.exprAt p = some parent) : Term.outermost (selectedOffset? m negate g) t' = [] := by
  rw [outermost_of_none hm ht hp h.offsetUnder?_eq_none, List.flatMap_eq_nil_iff]
  induction h generalizing p with
  | replaced h =>
    obtain ⟨-, e, rfl, ⟨n, k, o, rfl⟩ | ⟨x, n, o, rfl⟩⟩ := h
    · exact nofun
    · obtain ⟨shape, -, below⟩ := ht
      intro c hc
      obtain rfl := List.mem_singleton.1 hc
      exact outermost_of_none hm (below _ hc) (exprAt_eq_some shape) rfl
  | @kept parent i e image hnone h ih =>
    obtain ⟨shape, -, below⟩ := ht
    have hi := map_id_eq h ▸ exprAt_eq_some shape
    intro c' hc'
    have hstands := below c' hc'
    rw [Term.expr_node, Expr.children_map] at hc'
    obtain ⟨c, hc, rfl⟩ := List.mem_map.1 hc'
    rw [outermost_of_none hm hstands hi (h c hc).offsetUnder?_eq_none, List.flatMap_eq_nil_iff]
    exact ih c hc hstands hi

end Sweeps

/-- On the way from a flow `f` to a flow `g` the offsets `ws` are met, and each of the `n` replacements asks the
    frame for one. -/
structure Collects (ws : List Word) (f g : Flow) (frame frame' : Frame) (n : Nat) : Prop where
  count_eq : n = ws.length
  frame_eq : frame' = frame.assignAll ws
  unchanged : ws = [] → g = f

theorem Collects.refl (f : Flow) (frame : Frame) : Collects [] f f frame frame 0 :=
  ⟨rfl, rfl, fun _ => rfl⟩

theorem Collects.trans {ws ws' : List Word} {frame frame' frame'' : Frame} {n n' : Nat}
    (hfg : Collects ws f g frame frame' n) (hgh : Collects ws' g h frame' frame'' n') :
    Collects (ws ++ ws') f h frame frame'' (n + n') := by
  refine ⟨?_, ?_, fun hnil => ?_⟩
  · rw [List.length_append, hfg.count_eq, hgh.count_eq]
  · rw [hgh.frame_eq, hfg.frame_eq, Numbering.assignAll_append]
  · obtain ⟨hws, hws'⟩ := List.append_eq_nil_iff.1 hnil
    rw [hgh.unchanged hws', hfg.unchanged hws]

/-- The operands `ts` below a node `p` with the expression `parent` have been visited. -/
structure Visited (m : Machine) (negate : Bool) (f g : Flow) (frame frame' : Frame) (p : NodeId)
    (parent : Expr NodeId) (ts : List Term) (n : Nat) : Prop where
  collects : Collects (ts.flatMap (Term.outermost (selectedOffset? m negate f))) f g frame frame' n
  alters : f.Alters g (ts.flatMap Term.preorder)
  sweeps : ∀ t ∈ ts, ∃ t', Sweeps m negate parent t t' ∧ g.Stands (.child p) t' ∧
    ∀ x ∈ t'.preorder, x ∈ t.preorder ∨ f.shapeAt x = none

namespace Visited

variable {frame frame' frame'' : Frame} {ts : List Term} {n n' : Nat}

theorem nil : Visited m negate f f frame frame p parent [] 0 :=
  ⟨.refl f frame, .refl f _, by simp⟩

/-- After one operand those beside it are visited. -/
theorem cons (hm : m.Regular) (hfg : Visited m negate f g frame frame' p parent [t] n)
    (hgh : Visited m negate g h frame' frame'' p parent ts n') (hp : f.exprAt p = some parent)
    (hgp : g.exprAt p = some parent) (hts : ∀ u ∈ ts, f.Stands (.child p) u)
    (hapart : ((t :: ts).flatMap Term.preorder).Nodup) :
    Visited m negate f h frame frame'' p parent (t :: ts) (n + n') := by
  rw [List.flatMap_cons, List.nodup_append] at hapart
  have hout : ∀ {x}, x ∈ t.preorder → x ∉ ts.flatMap Term.preorder := fun hx hx' => hapart.2.2 _ hx _ hx' rfl
  have hstands : ∀ u ∈ ts, g.Stands (.child p) u := fun u hu => hfg.alters.stands (hts u hu) fun x hx hxt =>
    hout (by simpa using hxt) (List.mem_flatMap.2 ⟨u, hu, hx⟩)
  refine ⟨?_, ?_, fun u hu => ?_⟩
  · -- the others are selected as before, because the visit has left them and the node above them alone
    have hsame : ts.flatMap (Term.outermost (selectedOffset? m negate g)) =
        ts.flatMap (Term.outermost (selectedOffset? m negate f)) := List.flatMap_congr fun u hu =>
      Term.outermost_congr fun x hx => selectedOffset?_congr hm (hts u hu) (hstands u hu) hp hgp hx
    simpa [hsame] using hfg.collects.trans hgh.collects
  · simpa using hfg.alters.trans hgh.alters
  · obtain rfl | hu := List.mem_cons.1 hu
    · obtain ⟨u', hsweeps, hu', hfresh⟩ := hfg.sweeps u (by simp)
      refine ⟨u', hsweeps, hgh.alters.stands hu' fun x hx hxts => ?_, hfresh⟩
      obtain hxu | hnone := hfresh x hx
      · exact hout hxu hxts
      · obtain ⟨v, hv, hxv⟩ := List.mem_flatMap.1 hxts
        exact (hts v hv).shapeAt_ne_none hxv hnone
    · obtain ⟨u', hsweeps, hu', hfresh⟩ := hgh.sweeps u hu
      refine ⟨u', hsweeps, hu', fun x hx => (hfresh x hx).imp_right fun hnone => ?_⟩
      by_contra hne
      exact hfg.alters.ne_none x hne hnone

theorem of_replaced {w : Word} (hm : m.Regular) (ht : f.Stands (.child p) t) (hp : f.exprAt p = some parent)
    (hsome : offsetUnder? m negate parent t = some w) (hrenames : Renames m negate t t')
    (hswaps : Renaming.Swaps f g t t') : Visited m negate f g frame (frame.assign w).2 p parent [t] 1 := by
  have hws := outermost_of_some hm ht hp hsome
  refine ⟨⟨by simp [hws], by simp [hws, Numbering.assignAll], by simp [hws]⟩, by simpa using hswaps.alters, fun u hu => ?_⟩
  obtain rfl := List.mem_singleton.1 hu
  exact ⟨t', .replaced hrenames, hswaps.stands _ ht, hswaps.fresh⟩

/-- When the operands of a node have been visited, the node stands where it did, over what has taken their places. -/
theorem exists_image {q : Place} {i : NodeId} {e : Expr Term} (ht : f.Stands q (.node i e))
    (hnodup : (Term.node i e).preorder.Nodup)
    (h : Visited m negate f g frame frame' i (e.map Term.id) e.children n) :
    ∃ image, (∀ c ∈ e.children, Sweeps m negate (e.map Term.id) c (image c)) ∧
      g.Stands q (.node i (e.map image)) ∧
      ∀ x ∈ (Term.node i (e.map image)).preorder, x ∈ (Term.node i e).preorder ∨ f.shapeAt x = none := by
  rw [Term.preorder_node, List.nodup_cons] at hnodup
  obtain ⟨shape, distinct, -⟩ := ht
  choose! image hsweeps hstands hfresh using h.sweeps
  have hids := Sweeps.map_id_eq hsweeps
  refine ⟨image, hsweeps, .node ?_ ?_ fun c' hc' => ?_, fun x hx => ?_⟩
  · rw [h.alters.shapeAt_eq i (by simp [shape]) hnodup.1, shape, hids]
  · rw [← Expr.children_map, hids, Expr.children_map]
    exact distinct
  · obtain ⟨c, hc, rfl⟩ := List.mem_map.1 (Expr.children_map image e ▸ hc')
    exact hstands c hc
  · rw [Term.preorder_node, Expr.children_map, List.flatMap_map, List.mem_cons, List.mem_flatMap] at hx
    rw [Term.preorder_node, List.mem_cons, List.mem_flatMap]
    obtain rfl | ⟨c, hc, hx⟩ := hx
    · exact .inl (.inl rfl)
    · exact (hfresh c hc x hx).imp_left fun hx => .inr ⟨c, hc, hx⟩

/-- An operand that stays is visited when those below it are. -/
theorem of_children {i : NodeId} {e : Expr Term} (ht : f.Stands (.child p) (.node i e))
    (hnodup : (Term.node i e).preorder.Nodup) (hm : m.Regular) (hp : f.exprAt p = some parent)
    (hnone : offsetUnder? m negate parent (.node i e) = none)
    (h : Visited m negate f g frame frame' i (e.map Term.id) e.children n) :
    Visited m negate f g frame frame' p parent [.node i e] n := by
  have hsub : e.children.flatMap Term.preorder ⊆ (Term.node i e).preorder := by
    rw [Term.preorder_node]
    exact List.subset_cons_self _ _
  refine ⟨?_, by simpa using h.alters.mono hsub, fun u hu => ?_⟩
  · simpa [outermost_of_none hm ht hp hnone] using h.collects
  · obtain rfl := List.mem_singleton.1 hu
    obtain ⟨image, hsweeps, hstands, hfresh⟩ := h.exists_image ht hnodup
    exact ⟨_, .kept hnone hsweeps, hstands, hfresh⟩

end Visited

theorem foldl_add_cons (n : Nat) (ns : List Nat) : (n :: ns).foldl (· + ·) 0 = n + ns.foldl (· + ·) 0 := by
  have hassoc : Std.Associative (· + · : Nat → Nat → Nat) := ⟨Nat.add_assoc⟩
  have h : ns.foldl (· + ·) (n + 0) = n + ns.foldl (· + ·) 0 := List.foldl_assoc
  rwa [List.foldl_cons, Nat.zero_add]

section Visit

variable {frame : Frame} {f₀ : Flow} {others : List StatementId} {rest ts : List Term} {depth : Nat}

/-- Several operands are visited one after another. -/
theorem visits_gives (hm : m.Regular)
    (hvisit : ∀ {t : Term} {rest : List Term} {frame : Frame} {f : Flow} {p : NodeId} {parent : Expr NodeId},
      Visiting m negate f₀ s others (t :: rest) frame f → t.height ≤ depth → f.Stands (.child p) t →
      f.exprAt p = some parent → Renaming.Succeeds (Renaming.visit (policy m negate) depth t.id) frame f
        fun n frame' g => Visiting m negate f₀ s others rest frame' g ∧
          Visited m negate f g frame frame' p parent [t] n)
    (h : Visiting m negate f₀ s others (ts ++ rest) frame f) (hdepth : ∀ t ∈ ts, t.height ≤ depth)
    (hts : ∀ t ∈ ts, f.Stands (.child p) t) (hp : f.exprAt p = some parent) (hout : p ∉ ts.flatMap Term.preorder) :
    Renaming.Succeeds ((ts.map Term.id).mapM (Renaming.visit (policy m negate) depth)) frame f
      fun ns frame' g => Visiting m negate f₀ s others rest frame' g ∧
        Visited m negate f g frame frame' p parent ts (ns.foldl (· + ·) 0) := by
  induction ts generalizing frame f with
  | nil => exact .of_pure ⟨h, .nil⟩
  | cons t ts ih =>
    rw [List.flatMap_cons, List.mem_append, not_or] at hout
    have hapart := h.apart
    rw [List.flatMap_append] at hapart
    have hapart := hapart.of_append_left
    rw [List.map_cons, List.mapM_cons]
    refine .of_bind ((hvisit h (hdepth t (by simp)) (hts t (by simp)) hp).mono ?_)
    rintro n frame' g ⟨hg, hvisited⟩
    have hgp := hvisited.alters.exprAt_eq hp (by simpa using hout.1)
    have hstands : ∀ u ∈ ts, g.Stands (.child p) u := fun u hu =>
      hvisited.alters.stands (hts u (by simp [hu])) fun x hx hxt => by
        rw [List.flatMap_cons, List.nodup_append] at hapart
        exact hapart.2.2 x (by simpa using hxt) x (List.mem_flatMap.2 ⟨u, hu, hx⟩) rfl
    refine .of_bind ((ih hg (fun u hu => hdepth u (by simp [hu])) hstands hgp hout.2).mono ?_)
    rintro ns frame'' g' ⟨hg', hvisited'⟩
    refine .of_pure ⟨hg', ?_⟩
    rw [foldl_add_cons]
    exact hvisited.cons hm hvisited' hp hgp (fun u hu => hts u (by simp [hu])) hapart

/-- An operand is visited. -/
theorem visit_gives (hm : m.Regular) (depth : Nat) {t : Term} {rest : List Term} {frame : Frame} {f : Flow}
    {p : NodeId} {parent : Expr NodeId} (h : Visiting m negate f₀ s others (t :: rest) frame f)
    (hdepth : t.height ≤ depth) (ht : f.Stands (.child p) t) (hp : f.exprAt p = some parent) :
    Renaming.Succeeds (Renaming.visit (policy m negate) depth t.id) frame f fun n frame' g =>
      Visiting m negate f₀ s others rest frame' g ∧ Visited m negate f g frame frame' p parent [t] n := by
  induction depth generalizing t rest frame f p parent with
  | zero =>
    obtain ⟨i, e⟩ := t
    rw [Term.height_node] at hdepth
    omega
  | succ depth ih =>
    obtain ⟨T, hT, htodo⟩ := h.holds
    obtain ⟨hwithin, -⟩ := htodo t (by simp)
    unfold Renaming.visit
    refine .of_bind (.of_view (selects_under hm negate ht hp) ?_)
    cases hoffset : offsetUnder? m negate parent t with
    | some w =>
      obtain ⟨v, hw, hinput, hother⟩ := locates_of_offsetUnder? h.renamed.sound h.renamed.rooted ht hp hoffset
      have hboth := Renaming.Succeeds.of_bind (k := fun _ => pure 1)
        (Q := fun n frame' g => Visiting m negate f₀ s others rest frame' g ∧
          Visited m negate f g frame frame' p parent [t] n)
        ((visitSelected_succeeds h hw hinput hother).mono fun _ frame' g hg => .of_pure ?_)
      · simpa [policy] using hboth
      · obtain ⟨hvisiting, rfl, t', hrenames, hswaps⟩ := hg
        exact ⟨hvisiting, .of_replaced hm ht hp hoffset hrenames hswaps⟩
    | none =>
      obtain ⟨i, e⟩ := t
      refine .of_bind (.of_view (children_eq ht.shape_id) ?_)
      rw [Expr.children_map]
      have hnodup := hwithin.nodup_preorder hT.nodup
      have hchildren : ∀ c ∈ e.children, c.height ≤ depth := fun c hc => by
        have hlt := Term.height_lt_of_mem_children (i := i) hc
        omega
      obtain ⟨shape, -, below⟩ := id ht
      refine .of_bind ((visits_gives hm ih h.below hchildren below (exprAt_eq_some shape) ?_).mono ?_)
      · rw [Term.preorder_node, List.nodup_cons] at hnodup
        exact hnodup.1
      · rintro ns frame' g ⟨hvisiting, hvisited⟩
        exact .of_pure ⟨hvisiting, .of_children ht hnodup hm hp hoffset hvisited⟩

/-- The statements `ss` have been visited. -/
structure VisitedAll (m : Machine) (negate : Bool) (f g : Flow) (frame frame' : Frame) (ss : List StatementId)
    (n : Nat) : Prop where
  collects : Collects (ss.flatMap (statementOffsets m negate f)) f g frame frame' n
  others : ∀ s T, s ∉ ss → f.Holds s T → g.Holds s T
  done : ∀ s ∈ ss, ∃ T, g.Holds s T ∧ statementOffsets m negate g s = []

theorem VisitedAll.nil : VisitedAll m negate f f frame frame [] 0 :=
  ⟨.refl f frame, fun _ _ _ h => h, by simp⟩

/-- After one statement the others are visited. -/
theorem VisitedAll.cons {frame' frame'' : Frame} {ss : List StatementId} {n n' : Nat} (hm : m.Regular)
    (hfg : VisitedAll m negate f g frame frame' [s] n) (hgh : VisitedAll m negate g h frame' frame'' ss n')
    (hs : s ∉ ss) (hss : ∀ s' ∈ ss, ∃ T, f.Holds s' T) :
    VisitedAll m negate f h frame frame'' (s :: ss) (n + n') := by
  refine ⟨?_, fun s' T hs' hT => ?_, fun s' hs' => ?_⟩
  · have hsame : ss.flatMap (statementOffsets m negate g) = ss.flatMap (statementOffsets m negate f) := by
      refine List.flatMap_congr fun s' hs' => ?_
      obtain ⟨T, hT⟩ := hss s' hs'
      exact statementOffsets_congr hm hT (hfg.others s' T (fun h => hs (List.mem_singleton.1 h ▸ hs')) hT)
    simpa [hsame] using hfg.collects.trans hgh.collects
  · rw [List.mem_cons, not_or] at hs'
    exact hgh.others s' T hs'.2 (hfg.others s' T (by simpa using hs'.1) hT)
  · obtain rfl | hs' := List.mem_cons.1 hs'
    · obtain ⟨T, hT, hnil⟩ := hfg.done s' (by simp)
      have hT' := hgh.others s' T hs hT
      exact ⟨T, hT', (statementOffsets_congr hm hT hT').trans hnil⟩
    · exact hgh.done s' hs'

/-- The state of a flow, `f₀` before, in which some statements are still to be visited. -/
structure Waiting (m : Machine) (negate : Bool) (f₀ : Flow) (others : List StatementId) (frame : Frame)
    (f : Flow) : Prop where
  renamed : Renamed m negate f₀ f frame
  nodup : others.Nodup
  others : ∀ s ∈ others, f.Live s ∧ ∃ T, f₀.Holds s T ∧ f.Holds s T

/-- A statement is visited. -/
theorem visitStatement_gives (hm : m.Regular) (h : Waiting m negate f₀ (s :: others) frame f) :
    Renaming.Succeeds (Renaming.visitStatement (policy m negate) s) frame f fun n frame' g =>
      Waiting m negate f₀ others frame' g ∧ VisitedAll m negate f g frame frame' [s] n := by
  obtain ⟨hlive, ⟨i, e⟩, hT₀, hT⟩ := h.others s (by simp)
  obtain ⟨st, hst, hroot, -⟩ := id hT
  obtain ⟨hs, hnodup⟩ := List.nodup_cons.1 h.nodup
  have hnodupT := hT.nodup
  rw [Term.preorder_node, List.nodup_cons] at hnodupT
  have hvisiting : Visiting m negate f₀ s others (e.children ++ []) frame f := by
    refine ⟨h.renamed, hlive, ⟨_, hT, fun u hu => ?_⟩, by simpa using hnodupT.2, fun u hu => ?_,
      fun s' hs' => ⟨fun hss => hs (hss ▸ hs'), h.others s' (by simp [hs'])⟩⟩
    · rw [List.append_nil] at hu
      refine ⟨.of_mem_children hu, fun hid => hnodupT.1 ?_⟩
      have hid : u.id = i := hid
      exact List.mem_flatMap.2 ⟨u, hu, hid ▸ u.id_mem_preorder⟩
    · rw [List.append_nil] at hu
      exact hT₀.stands.exists_of_within (.of_mem_children hu)
  have hdepth : ∀ c ∈ e.children, c.height ≤ f.depthBound := fun c hc => by
    have hlt := Term.height_lt_of_mem_children (i := i) hc
    have hle := hT.stands.height_le
    unfold Flow.depthBound
    omega
  obtain ⟨shape, -, below⟩ := hT.stands
  unfold Renaming.visitStatement
  refine .of_bind (.of_view (statement_eq hst) (.of_bind (.of_view rfl ?_)))
  rw [hroot]
  refine .of_bind (.of_view (children_eq hT.stands.shape_id) ?_)
  rw [Expr.children_map]
  refine .of_bind ((visits_gives hm (visit_gives hm _) hvisiting hdepth below (exprAt_eq_some shape)
    hnodupT.1).mono ?_)
  rintro ns frame' g ⟨hg, hvisited⟩
  refine .of_pure ⟨⟨hg.renamed, hnodup, fun s' hs' => (hg.others s' hs').2⟩, ?_, fun s' U hs' hU => ?_, fun s' hs' => ?_⟩
  · simpa [statementOffsets_eq hT] using hvisited.collects
  · refine hvisited.alters.holds hU fun x hx hxT => hs' (List.mem_singleton.2 ?_)
    exact hU.statement_unique hT hx (by simpa using .inr (by simpa using hxT))
  · obtain rfl := List.mem_singleton.1 hs'
    obtain ⟨image, hsweeps, hstands, -⟩ := hvisited.exists_image hT.stands hT.nodup
    have hT' : g.Holds s' (.node i (e.map image)) :=
      ⟨st, by rw [hvisited.alters.statementAt_eq, hst], hroot, hstands⟩
    obtain ⟨shape', -, below'⟩ := hstands
    refine ⟨_, hT', ?_⟩
    rw [statementOffsets_eq hT', List.flatMap_eq_nil_iff]
    intro c' hc'
    have hc'stands := below' c' hc'
    rw [Term.expr_node, Expr.children_map] at hc'
    obtain ⟨c, hc, rfl⟩ := List.mem_map.1 hc'
    exact (hsweeps c hc).outermost_eq_nil hm hc'stands (Sweeps.map_id_eq hsweeps ▸ exprAt_eq_some shape')

/-- Statements are visited one after another. -/
theorem visitStatements_gives (hm : m.Regular) (ss : List StatementId) (h : Waiting m negate f₀ ss frame f) :
    Renaming.Succeeds (ss.mapM (Renaming.visitStatement (policy m negate))) frame f fun ns frame' g =>
      Renamed m negate f₀ g frame' ∧ VisitedAll m negate f g frame frame' ss (ns.foldl (· + ·) 0) := by
  induction ss generalizing frame f with
  | nil => exact .of_pure ⟨h.renamed, .nil⟩
  | cons s ss ih =>
    rw [List.mapM_cons]
    refine .of_bind ((visitStatement_gives hm h).mono ?_)
    rintro n frame' g ⟨hg, hvisited⟩
    refine .of_bind ((ih hg).mono ?_)
    rintro ns frame'' g' ⟨hg', hvisited'⟩
    refine .of_pure ⟨hg', ?_⟩
    rw [foldl_add_cons]
    refine hvisited.cons hm hvisited' (List.nodup_cons.1 h.nodup).1 fun s' hs' => ?_
    obtain ⟨-, T, -, hT⟩ := h.others s' (by simp [hs'])
    exact ⟨T, hT⟩

/-- Renaming succeeds on every sound flow. Every operand that is met in it is replaced, none that is met in the flow
    after it is left, and nothing is changed if none is met. -/
theorem rename_gives (hm : m.Regular) (hf : f.Sound .any) (hrooted : f.Rooted) :
    Renaming.Succeeds (Renaming.rename (policy m negate)) frame f fun n frame' g =>
      Renamed m negate f g frame' ∧ Collects (offsetsMet m negate f) f g frame frame' n ∧
        offsetsMet m negate g = [] := by
  have hwaiting : Waiting m negate f f.liveStatements frame f := by
    refine ⟨⟨hf, hrooted, rfl, rfl, fun x n k o hx => .inl hx, fun x us hx => ⟨us, hx⟩,
      fun x hx => hx, fun x hx => ⟨hx, rfl⟩, .refl fun _ => .refl⟩, hf.forest.nodup_liveStatements, fun s hs => ?_⟩
    obtain ⟨T, hT⟩ := hf.forest.holds_of_mem hs
    exact ⟨hf.forest.mem_liveStatements.1 hs, T, hT, hT⟩
  unfold Renaming.rename
  refine .of_bind (.of_view rfl (.of_bind ((visitStatements_gives hm _ hwaiting).mono ?_)))
  rintro ns frame' g ⟨hg, hvisited⟩
  refine .of_pure ⟨hg, hvisited.collects, ?_⟩
  have hlive : g.liveStatements = f.liveStatements := by
    unfold liveStatements
    rw [hg.blocks_eq]
  unfold offsetsMet
  rw [hlive, List.flatMap_eq_nil_iff]
  intro s hs
  obtain ⟨-, -, hnil⟩ := hvisited.done s hs
  exact hnil

/-- Renaming succeeds on every sound flow and keeps it sound. -/
theorem rename_succeeds (hm : m.Regular) (hf : f.Sound .any) (hrooted : f.Rooted) :
    Renaming.Succeeds (Renaming.rename (policy m negate)) frame f
      fun _ frame' g => Renamed m negate f g frame' :=
  (rename_gives hm hf hrooted).mono fun _ _ _ h => h.1

end Visit

end StackRenaming

end FrameRecovery
