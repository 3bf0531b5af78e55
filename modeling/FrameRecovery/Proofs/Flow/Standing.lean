import FrameRecovery.Proofs.Flow.Spelling

namespace FrameRecovery

/-- A place that is not below another node. -/
def Place.Top (p : Place) : Prop :=
  ∀ q, p ≠ .child q

theorem Place.top_root (s : StatementId) : (Place.root s).Top := nofun

theorem Place.top_detached : Place.detached.Top := nofun

namespace Flow

/-- A tree stands in a flow: its nodes have the expressions of the tree, each is below the
    node above it and the topmost one is at the given place, and siblings are distinct. -/
inductive Stands (f : Flow) : Place → Term → Prop
  | node {p : Place} {i : NodeId} {e : Expr Term} (shape : f.shapeAt i = some (e.map Term.id, p))
    (distinct : (e.children.map Term.id).Nodup)
    (below : ∀ c ∈ e.children, f.Stands (.child i) c) : f.Stands p (.node i e)

/-- The node above a node. -/
def parent? (f : Flow) (x : NodeId) : Option NodeId :=
  match f.shapeAt x with
  | some (_, .child q) => some q
  | _ => none

/-- The node a number of levels above a node. -/
def ancestor? (f : Flow) : Nat → NodeId → Option NodeId
  | 0, x => some x
  | n + 1, x => (f.parent? x).bind (f.ancestor? n)

variable {f g : Flow} {p q : Place} {t u : Term} {x y : NodeId} {e : Expr NodeId}

theorem parent?_eq_some (h : f.shapeAt x = some (e, .child y)) : f.parent? x = some y := by
  simp [parent?, h]

theorem parent?_eq_none (h : f.shapeAt x = some (e, p)) (hp : p.Top) : f.parent? x = none := by
  unfold parent?
  rw [h]
  cases p with
  | child q => exact absurd rfl (hp q)
  | _ => rfl

theorem ancestor?_add (m n : Nat) (x : NodeId) :
    f.ancestor? (m + n) x = (f.ancestor? m x).bind (f.ancestor? n) := by
  induction m generalizing x with
  | zero => simp [ancestor?]
  | succ m ih =>
    rw [Nat.succ_add, ancestor?, ancestor?, Option.bind_assoc]
    congr 1
    funext y
    exact ih y

theorem ancestor?_eq_none {n : Nat} (h : f.parent? x = none) (hn : n ≠ 0) :
    f.ancestor? n x = none := by
  obtain ⟨n, rfl⟩ := Nat.exists_eq_succ_of_ne_zero hn
  simp [ancestor?, h]

/-- A node has one topmost ancestor, at one height. -/
theorem ancestor?_unique {a b : NodeId} {m n : Nat} (ha : f.ancestor? m x = some a)
    (hb : f.ancestor? n x = some b) (hatop : f.parent? a = none) (hbtop : f.parent? b = none) :
    m = n ∧ a = b := by
  wlog hle : m ≤ n generalizing a b m n with H
  · obtain ⟨hmn, hab⟩ := H hb ha hbtop hatop (Nat.le_of_not_le hle)
    exact ⟨hmn.symm, hab.symm⟩
  obtain ⟨k, rfl⟩ := Nat.exists_eq_add_of_le hle
  rw [ancestor?_add, ha, Option.bind_some] at hb
  by_cases hk : k = 0
  · subst hk
    exact ⟨rfl, by simpa [ancestor?] using hb⟩
  · rw [ancestor?_eq_none hatop hk] at hb
    cases hb

namespace Stands

theorem shape_id (h : f.Stands p t) : f.shapeAt t.id = some (t.expr.map Term.id, p) := by
  cases h with
  | node shape => exact shape

theorem inside (h : f.Stands p t) (hu : Term.Within u t) :
    u = t ∨ ∃ i e, Term.Within (.node i e) t ∧ u ∈ e.children ∧ f.Stands (.child i) u := by
  induction hu generalizing p with
  | refl => exact .inl rfl
  | inside hc hwithin ih =>
    obtain ⟨-, -, below⟩ := h
    rcases ih (below _ hc) with rfl | ⟨i, e, hi, hu, hstands⟩
    · exact .inr ⟨_, _, .refl _, hc, below _ hc⟩
    · exact .inr ⟨i, e, hi.trans (.of_mem_children hc), hu, hstands⟩

theorem exists_of_within (h : f.Stands p t) (hu : Term.Within u t) : ∃ q, f.Stands q u := by
  rcases h.inside hu with rfl | ⟨i, -, -, -, hu⟩
  · exact ⟨p, h⟩
  · exact ⟨_, hu⟩

/-- Every node of a standing tree that is not the topmost one is below a node of the tree. -/
theorem exists_parent (h : f.Stands p t) (hx : x ∈ t.preorder) (hne : x ≠ t.id) :
    ∃ i e u, Term.Within (.node i e) t ∧ u ∈ e.children ∧ u.id = x ∧ f.Stands (.child i) u := by
  obtain ⟨u, hu, rfl⟩ := Term.exists_within_of_mem_preorder hx
  rcases h.inside hu with rfl | ⟨i, e, hi, hmem, hstands⟩
  · exact absurd rfl hne
  · exact ⟨i, e, u, hi, hmem, rfl, hstands⟩

theorem shapeAt_ne_none (h : f.Stands p t) (hx : x ∈ t.preorder) : f.shapeAt x ≠ none := by
  obtain ⟨u, hu, rfl⟩ := Term.exists_within_of_mem_preorder hx
  obtain ⟨q, hq⟩ := h.exists_of_within hu
  simp [hq.shape_id]

theorem move (h : f.Stands p t) (hid : g.shapeAt t.id = some (t.expr.map Term.id, q))
    (hrest : ∀ c ∈ t.expr.children, ∀ y ∈ c.preorder, g.shapeAt y = f.shapeAt y) :
    g.Stands q t := by
  induction t using Term.induction generalizing p q with
  | step i e ih =>
    obtain ⟨shape, distinct, below⟩ := h
    refine .node hid distinct fun c hc => ih c hc (below c hc) ?_ ?_
    · rw [hrest c hc _ c.id_mem_preorder]
      exact (below c hc).shape_id
    · intro d hd y hy
      obtain ⟨j, e'⟩ := c
      refine hrest _ hc y ?_
      rw [Term.preorder_node]
      exact List.mem_cons_of_mem _ (List.mem_flatMap.2 ⟨d, hd, hy⟩)

theorem congr (h : f.Stands p t) (heq : ∀ y ∈ t.preorder, g.shapeAt y = f.shapeAt y) :
    g.Stands p t := by
  refine h.move ?_ fun c hc y hy => heq y ?_
  · rw [heq _ t.id_mem_preorder]
    exact h.shape_id
  · obtain ⟨i, e⟩ := t
    rw [Term.preorder_node]
    exact List.mem_cons_of_mem _ (List.mem_flatMap.2 ⟨c, hc, hy⟩)

/-- A tree whose nodes keep their places and their children still stands, perhaps with other
    expressions. -/
theorem exists_similar (h : f.Stands p t) (hsimilar : ∀ y ∈ t.preorder, ∀ e q,
    f.shapeAt y = some (e, q) → ∃ e', g.shapeAt y = some (e', q) ∧ e'.children = e.children) :
    ∃ t', g.Stands p t' ∧ t'.id = t.id ∧ t'.preorder = t.preorder := by
  induction t using Term.induction generalizing p with
  | step i e ih =>
    obtain ⟨shape, distinct, below⟩ := h
    rw [Term.preorder_node] at hsimilar
    have hchildren : ∀ c ∈ e.children, ∃ c', g.Stands (.child i) c' ∧ c'.id = c.id ∧
        c'.preorder = c.preorder := fun c hc => ih c hc (below c hc) fun y hy =>
      hsimilar y (List.mem_cons_of_mem _ (List.mem_flatMap.2 ⟨c, hc, hy⟩))
    choose! image hstands hid hpreorder using hchildren
    obtain ⟨e', hg, he'⟩ := hsimilar i (by simp) _ _ shape
    rw [Expr.children_map] at he'
    obtain ⟨hhead, hrefill⟩ := @Expr.refill_spec _ _ e' (e.children.map image) (by simp [he'])
    have hids : (e.children.map image).map Term.id = e.children.map Term.id := by
      rw [List.map_map]
      exact List.map_congr_left fun c hc => hid c hc
    have hmap : (e'.refill (e.children.map image)).map Term.id = e' := by
      refine Expr.ext_children (by rw [Expr.head_map, hhead]) ?_
      rw [Expr.children_map, hrefill, hids, he']
    refine ⟨.node i (e'.refill (e.children.map image)), .node (hmap.symm ▸ hg) ?_ ?_, rfl, ?_⟩
    · rw [hrefill, hids]
      exact distinct
    · rw [hrefill]
      intro c' hc'
      obtain ⟨c, hc, rfl⟩ := List.mem_map.1 hc'
      exact hstands c hc
    · rw [Term.preorder_node, Term.preorder_node, hrefill, List.flatMap_map]
      exact congrArg _ (List.flatMap_congr fun c hc => hpreorder c hc)

theorem ancestor? (h : f.Stands p t) (hx : x ∈ t.preorder) :
    ∃ k < t.height, f.ancestor? k x = some t.id := by
  induction t using Term.induction generalizing p with
  | step i e ih =>
    obtain ⟨shape, distinct, below⟩ := h
    rw [Term.preorder_node, List.mem_cons, List.mem_flatMap] at hx
    rcases hx with rfl | ⟨c, hc, hx⟩
    · exact ⟨0, by simp, rfl⟩
    · obtain ⟨k, hk, hup⟩ := ih c hc (below c hc) hx
      have hheight := Term.height_lt_of_mem_children (i := i) hc
      refine ⟨k + 1, by omega, ?_⟩
      rw [ancestor?_add, hup, Option.bind_some]
      simp [Flow.ancestor?, parent?_eq_some (below c hc).shape_id]

theorem parent?_id (h : f.Stands p t) (hp : p.Top) : f.parent? t.id = none :=
  parent?_eq_none h.shape_id hp

theorem nodup_preorder (h : f.Stands p t) (hp : p.Top) : t.preorder.Nodup := by
  have hwithin : ∀ u : Term, ∀ q m, f.Stands q u → f.ancestor? m u.id = some t.id →
      u.preorder.Nodup := by
    intro u
    have htop := h.parent?_id hp
    induction u using Term.induction with
    | step i e ih =>
      intro q m hu hm
      obtain ⟨shape, distinct, below⟩ := hu
      have hroot : ∀ c ∈ e.children, ∀ y ∈ c.preorder, ∃ k, f.ancestor? k y = some c.id ∧
          f.ancestor? (k + (1 + m)) y = some t.id := by
        intro c hc y hy
        obtain ⟨k, -, hk⟩ := (below c hc).ancestor? hy
        refine ⟨k, hk, ?_⟩
        rw [ancestor?_add, hk, Option.bind_some, ancestor?_add]
        simpa [Flow.ancestor?, parent?_eq_some (below c hc).shape_id] using hm
      rw [Term.preorder_node, List.nodup_cons, List.nodup_flatMap]
      refine ⟨?_, fun c hc => ?_, ?_⟩
      · rw [List.mem_flatMap]
        rintro ⟨c, hc, hi⟩
        obtain ⟨k, -, hk⟩ := hroot c hc i hi
        have := ancestor?_unique hk hm htop htop
        omega
      · refine ih c hc (.child i) (1 + m) (below c hc) ?_
        rw [ancestor?_add]
        simpa [Flow.ancestor?, parent?_eq_some (below c hc).shape_id] using hm
      · refine ((List.pairwise_map.1 distinct).imp_of_mem ?_)
        intro c d hc hd hne y hyc hyd
        obtain ⟨k, hk, hkt⟩ := hroot c hc y hyc
        obtain ⟨k', hk', hkt'⟩ := hroot d hd y hyd
        obtain rfl : k = k' := by
          have := ancestor?_unique hkt hkt' htop htop
          omega
        exact hne (Option.some.inj (hk.symm.trans hk'))
  exact hwithin t p 0 h rfl

theorem spells (h : f.Stands p t) : f.Spells t := by
  induction t using Term.induction generalizing p with
  | step i e ih =>
    obtain ⟨shape, -, below⟩ := h
    exact .node (exprAt_eq_some shape) fun c hc => ih c hc (below c hc)

/-- Trees of the same topmost node are the same. -/
theorem unique (h : f.Stands p t) (h' : f.Stands q u) (hid : t.id = u.id) : t = u :=
  h.spells.unique h'.spells hid

/-- Trees that stand apart have no node in common. -/
theorem id_eq_of_mem (h : f.Stands p t) (h' : f.Stands q u) (hp : p.Top) (hq : q.Top)
    (hx : x ∈ t.preorder) (hx' : x ∈ u.preorder) : t.id = u.id := by
  obtain ⟨k, -, hk⟩ := h.ancestor? hx
  obtain ⟨k', -, hk'⟩ := h'.ancestor? hx'
  exact (ancestor?_unique hk hk' (h.parent?_id hp) (h'.parent?_id hq)).2

theorem place_eq_of_mem (h : f.Stands p t) (h' : f.Stands q u) (hp : p.Top) (hq : q.Top)
    (hx : x ∈ t.preorder) (hx' : x ∈ u.preorder) : p = q := by
  have hid := h.id_eq_of_mem h' hp hq hx hx'
  have hshape := h.shape_id
  rw [hid, h'.shape_id] at hshape
  exact (Prod.mk.inj (Option.some.inj hshape)).2.symm

theorem height_le (h : f.Stands p t) : t.height ≤ f.nodes.size :=
  h.spells.height_le

theorem term_eq (h : f.Stands p t) : f.term t.id = .ok t :=
  h.spells.term_eq

theorem term_eq_of_within (h : f.Stands p t) (hu : Term.Within u t) : f.term u.id = .ok u :=
  (h.spells.of_within hu).term_eq

end Stands

theorem climb_eq {n k : Nat} {s : StatementId} (hup : f.ancestor? k x = some y) (hn : k < n)
    (hy : f.shapeAt y = some (e, .root s)) : f.climb n x = .ok (some s) := by
  induction k generalizing n x with
  | zero =>
    obtain rfl : x = y := by simpa [ancestor?] using hup
    obtain ⟨n, rfl⟩ := Nat.exists_eq_succ_of_ne_zero (Nat.ne_of_gt hn)
    simp only [climb, node_eq hy]
    rfl
  | succ k ih =>
    obtain ⟨n, rfl⟩ := Nat.exists_eq_succ_of_ne_zero (Nat.ne_of_gt (Nat.lt_trans k.succ_pos hn))
    rw [ancestor?] at hup
    obtain ⟨z, hz, hup⟩ := Option.bind_eq_some_iff.1 hup
    have hshape : ∃ e', f.shapeAt x = some (e', .child z) := by
      unfold parent? at hz
      split at hz
      next e' q h => exact ⟨e', by cases hz; exact h⟩
      next => cases hz
    obtain ⟨e', hx⟩ := hshape
    have hstep : f.climb (n + 1) x = f.climb n z := by
      simp only [climb, node_eq hx]
      rfl
    rw [Nat.succ_eq_add_one, hstep]
    exact ih hup (by omega)

theorem Stands.statementOf?_root {s : StatementId} (h : f.Stands (.root s) t)
    (hx : x ∈ t.preorder) : f.statementOf? x = .ok (some s) := by
  obtain ⟨k, hk, hup⟩ := h.ancestor? hx
  exact climb_eq hup (Nat.lt_succ_of_lt (Nat.lt_of_lt_of_le hk h.height_le)) h.shape_id

end Flow

end FrameRecovery
