import FrameRecovery.Proofs.Flow.Shape
import FrameRecovery.Proofs.Flow.Term
import Mathlib.Data.List.Perm.Subperm

namespace FrameRecovery

/-- A tree has trees of all smaller heights in it. -/
theorem Term.exists_within_of_lt_height {t : Term} {k : Nat} (hk : k < t.height) :
    ∃ u, Within u t ∧ u.height = k + 1 := by
  induction t using Term.induction with
  | step i e ih =>
    have hchild : ∀ ts : List Term, k < (ts.map height).foldr max 0 → ∃ c ∈ ts, k < c.height := by
      intro ts hts
      induction ts with
      | nil => simp at hts
      | cons c rest ih' =>
        rw [List.map_cons, List.foldr_cons] at hts
        by_cases hc : k < c.height
        · exact ⟨c, by simp, hc⟩
        · obtain ⟨d, hd, hkd⟩ := ih' (by omega)
          exact ⟨d, by simp [hd], hkd⟩
    by_cases hchildren : k < (e.children.map height).foldr max 0
    · obtain ⟨c, hc, hkc⟩ := hchild _ hchildren
      obtain ⟨u, hu, hheight⟩ := ih c hc hkc
      exact ⟨u, .inside hc hu, hheight⟩
    · refine ⟨_, .refl _, ?_⟩
      rw [height_node] at hk ⊢
      omega

/-- Trees below the children of a node make a node over them. -/
theorem Expr.exists_over {P : Term → Prop} {e : Expr NodeId} (h : ∀ x ∈ e.children, ∃ t, P t ∧ t.id = x) :
    ∃ e' : Expr Term, e'.map Term.id = e ∧ ∀ t ∈ e'.children, P t := by
  have : Nonempty Term := ⟨.node ⟨0⟩ (.goto 0)⟩
  choose! tree hP hid using h
  obtain ⟨hhead, hrefill⟩ := @Expr.refill_spec _ _ e (e.children.map tree) (by simp)
  refine ⟨e.refill (e.children.map tree), Expr.ext_children (by rw [Expr.head_map, hhead]) ?_, fun t ht => ?_⟩
  · rw [Expr.children_map, hrefill, List.map_map]
    exact (List.map_congr_left fun x hx => hid x hx).trans (List.map_id _)
  · rw [hrefill] at ht
    obtain ⟨x, hx, rfl⟩ := List.mem_map.1 ht
    exact hP x hx

namespace Flow

/-- A tree can be read in a flow from its topmost node down, wherever its nodes stand. A node may
    occur in it more than once. -/
inductive Spells (f : Flow) : Term → Prop
  | node {i : NodeId} {e : Expr Term} (expr : f.exprAt i = some (e.map Term.id))
    (below : ∀ c ∈ e.children, f.Spells c) : f.Spells (.node i e)

variable {f g : Flow} {t u : Term} {i : NodeId} {e : Expr Term}

namespace Spells

theorem exprAt_id (h : f.Spells t) : f.exprAt t.id = some (t.expr.map Term.id) := by
  cases h with
  | node expr => exact expr

theorem of_within (h : f.Spells t) (hu : Term.Within u t) : f.Spells u := by
  induction hu with
  | refl => exact h
  | inside hc _ ih =>
    cases h with
    | node _ below => exact ih (below _ hc)

theorem exprAt_ne_none (h : f.Spells t) {x : NodeId} (hx : x ∈ t.preorder) : f.exprAt x ≠ none := by
  obtain ⟨u, hu, rfl⟩ := Term.exists_within_of_mem_preorder hx
  simp [(h.of_within hu).exprAt_id]

/-- A node determines what is read from it down. -/
theorem unique (h : f.Spells t) (h' : f.Spells u) (hid : t.id = u.id) : t = u := by
  induction t using Term.induction generalizing u with
  | step i e ih =>
    obtain ⟨expr, below⟩ := h
    obtain ⟨expr', below'⟩ := h'
    next j e' =>
    obtain rfl : i = j := hid
    have heq : e.map Term.id = e'.map Term.id := Option.some.inj (expr.symm.trans expr')
    have hhead : e.head = e'.head := by simpa using congrArg Expr.head heq
    have hids : e.children.map Term.id = e'.children.map Term.id := by
      simpa using congrArg Expr.children heq
    congr 1
    refine Expr.ext_children hhead ?_
    have hlength : e.children.length = e'.children.length := by simpa using congrArg List.length hids
    refine List.ext_getElem hlength fun n hn hn' => ?_
    refine ih _ (List.getElem_mem hn) (below _ (List.getElem_mem hn))
      (below' _ (List.getElem_mem hn')) ?_
    have h := List.getElem_of_eq hids (by simpa using hn)
    simpa using h

/-- No node is below itself. -/
theorem not_mem_child (h : f.Spells (.node i e)) {c : Term} (hc : c ∈ e.children) : i ∉ c.preorder := by
  intro hi
  obtain ⟨u, hu, hid⟩ := Term.exists_within_of_mem_preorder hi
  have hwithin : Term.Within u (.node i e) := .inside hc hu
  have heq := (h.of_within hwithin).unique h hid
  have hheight := hu.height_le
  have hlt := Term.height_lt_of_mem_children (i := i) hc
  rw [heq] at hheight
  omega

/-- Of each height there is another node. -/
theorem height_le (h : f.Spells t) : t.height ≤ f.nodes.size := by
  have : Nonempty Term := ⟨t⟩
  choose! below hbelow hheight using fun k (hk : k < t.height) => Term.exists_within_of_lt_height hk
  have hnodup : ((List.range t.height).map fun k => (below k).id.index).Nodup := by
    refine List.nodup_range.map_on fun j hj k hk hindex => ?_
    have hid : (below j).id = (below k).id := congrArg NodeId.mk hindex
    have heq := (h.of_within (hbelow j (List.mem_range.1 hj))).unique
      (h.of_within (hbelow k (List.mem_range.1 hk))) hid
    have hj := hheight j (List.mem_range.1 hj)
    have hk := hheight k (List.mem_range.1 hk)
    rw [heq] at hj
    omega
  have hsubset : ((List.range t.height).map fun k => (below k).id.index) ⊆ List.range f.nodes.size := by
    intro n hn
    obtain ⟨k, hk, rfl⟩ := List.mem_map.1 hn
    obtain ⟨p, hshape⟩ := exists_shapeAt_of_exprAt (h.of_within (hbelow k (List.mem_range.1 hk))).exprAt_id
    exact List.mem_range.2 (lt_size_of_shapeAt hshape)
  simpa using (hnodup.subperm hsubset).length_le

theorem unfold_eq (h : f.Spells t) {depth : Nat} (hdepth : t.height ≤ depth) :
    f.unfold depth t.id = .ok t := by
  induction t using Term.induction generalizing depth with
  | step i e ih =>
    obtain ⟨expr, below⟩ := h
    obtain ⟨p, hshape⟩ := exists_shapeAt_of_exprAt expr
    cases depth with
    | zero => simp at hdepth
    | succ depth =>
      have hchildren : e.children.mapM (fun c => f.unfold depth c.id) = .ok e.children := by
        have hall : ∀ ts ⊆ e.children, ts.mapM (fun c => f.unfold depth c.id) = .ok ts := by
          intro ts hts
          induction ts with
          | nil => rfl
          | cons c rest ih' =>
            have hc : c ∈ e.children := hts (by simp)
            have hheight := Term.height_lt_of_mem_children (i := i) hc
            rw [List.mapM_cons, ih c hc (below c hc) (by omega),
              ih' fun d hd => hts (List.mem_cons_of_mem _ hd)]
            rfl
        exact hall _ fun _ h => h
      have hrefill : e.refill e.children = e := by
        obtain ⟨hhead, hchildren⟩ := @Expr.refill_spec _ _ e e.children rfl
        exact Expr.ext_children hhead hchildren
      simp only [unfold, Term.id_node, expr_eq hshape]
      change ((e.map Term.id).mapM (f.unfold depth) >>= fun e' => Except.ok (Term.node i e')) = _
      rw [Expr.mapM_map, Expr.mapM_eq, hchildren]
      change Except.ok (Term.node i (e.refill e.children)) = _
      rw [hrefill]

theorem term_eq (h : f.Spells t) : f.term t.id = .ok t :=
  h.unfold_eq (Nat.le_succ_of_le h.height_le)

theorem congr (h : f.Spells t) (heq : ∀ y ∈ t.preorder, g.exprAt y = f.exprAt y) : g.Spells t := by
  induction t using Term.induction with
  | step i e ih =>
    obtain ⟨expr, below⟩ := h
    refine .node ((heq i (Term.id_mem_preorder _)).trans expr) fun c hc => ih c hc (below c hc) ?_
    exact fun y hy => heq y ((Term.Within.of_mem_children hc).preorder_subset hy)

theorem text_eq (h : f.Spells t) : f.text t.id = .ok t.text := by
  unfold text
  rw [h.term_eq]
  rfl

end Spells

theorem text_of_register {x : NodeId} {n : String} {v : Option Nat} (h : f.exprAt x = some (.register n v)) :
    f.text x = .ok (n ++ versionText v) := by
  have hspells : f.Spells (.node x (.register n v)) := .node h fun c hc => by cases hc
  rw [show x = (Term.node x (.register n v)).id from rfl, hspells.text_eq, Term.text_node]
  rfl

/-- A node has a tree below it. -/
def Spelled (f : Flow) (x : NodeId) : Prop :=
  ∃ t, f.Spells t ∧ t.id = x

/-- A node has a tree below it in which another node does not occur. -/
def SpelledWithout (f : Flow) (x i : NodeId) : Prop :=
  ∃ t, f.Spells t ∧ t.id = x ∧ i ∉ t.preorder

theorem Spells.child (h : f.Spells (.node i e)) {x : NodeId} (hx : x ∈ (e.map Term.id).children) :
    f.SpelledWithout x i := by
  rw [Expr.children_map] at hx
  obtain ⟨c, hc, rfl⟩ := List.mem_map.1 hx
  exact ⟨c, h.of_within (.of_mem_children hc), rfl, h.not_mem_child hc⟩

/-- A node over nodes that have trees below them has one, unless it is below itself. -/
theorem Spelled.of_children {i : NodeId} {e' : Expr NodeId} (hi : f.exprAt i = some e')
    (hchildren : ∀ x ∈ e'.children, f.Spelled x) : f.Spelled i := by
  obtain ⟨e, rfl, hspells⟩ := Expr.exists_over hchildren
  exact ⟨.node i e, .node hi hspells, rfl⟩

/-- A node can get another expression over nodes that it does not occur below. -/
theorem Spelled.update {x : NodeId} {e' : Expr NodeId} (h : f.Spelled x)
    (hg : g.exprAt = Function.update f.exprAt i (some e'))
    (hchildren : ∀ y ∈ e'.children, f.SpelledWithout y i) : g.Spelled x := by
  have hself : g.Spelled i := by
    have hi : g.exprAt i = some e' := by rw [hg, Function.update_self]
    refine .of_children hi fun y hy => ?_
    obtain ⟨u, hu, rfl, hi⟩ := hchildren y hy
    refine ⟨u, hu.congr fun z hz => ?_, rfl⟩
    rw [hg, Function.update_of_ne]
    rintro rfl
    exact hi hz
  obtain ⟨t, ht, rfl⟩ := h
  induction t using Term.induction with
  | step j e ih =>
    by_cases hj : j = i
    · exact hj ▸ hself
    · obtain ⟨expr, below⟩ := ht
      refine .of_children (by rw [hg, Term.id_node, Function.update_of_ne hj, expr]) fun y hy => ?_
      rw [Expr.children_map] at hy
      obtain ⟨c, hc, rfl⟩ := List.mem_map.1 hy
      exact ih c hc (below c hc)

end Flow

end FrameRecovery
