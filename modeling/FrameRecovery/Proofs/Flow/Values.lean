import FrameRecovery.Proofs.Flow.Growth

namespace FrameRecovery

namespace Flow

/-- The children of every node are nodes. -/
def Closed (f : Flow) : Prop :=
  ∀ x e, f.exprAt x = some e → ∀ c ∈ e.children, f.exprAt c ≠ none

/-- A node has a value that is the same wherever it is computed, given the registers on entry
    to the function: it is built by arithmetic from constants, registers on entry and reads of
    definitions that have such a value. -/
inductive ValueAt (f : Flow) (ρ : String → Word) : NodeId → Word → Prop
  | constant {x : NodeId} {w : Word} (h : f.exprAt x = some (.constant w)) : f.ValueAt ρ x w
  | entry {x : NodeId} {n : String} (h : f.exprAt x = some (.register n (some 0))) :
    f.ValueAt ρ x (ρ n)
  | read {x d r y : NodeId} {n : String} {v : Option Nat} {w : Word}
    (h : f.exprAt x = some (.register n v)) (hlink : f.linkOf x = .use (some d))
    (hassign : f.exprAt r = some (.assign d y)) (hy : f.ValueAt ρ y w) : f.ValueAt ρ x w
  | binary {x a b : NodeId} {op : BinaryOp} {wa wb : Word} (h : f.exprAt x = some (.binary op a b))
    (ha : f.ValueAt ρ a wa) (hb : f.ValueAt ρ b wb) : f.ValueAt ρ x (op.eval wa wb)
  | unary {x a : NodeId} {op : UnaryOp} {w : Word} (h : f.exprAt x = some (.unary op a))
    (ha : f.ValueAt ρ a w) : f.ValueAt ρ x (op.eval w)

/-- The address that a dereference reads or writes has such a value. -/
def AddressAt (f : Flow) (ρ : String → Word) (x : NodeId) (w : Word) : Prop :=
  ∃ a v, f.exprAt x = some (.deref a v) ∧ f.ValueAt ρ a w

/-- What the nodes of a flow `f` compute in a flow `g`, they compute in `f` as well. -/
structure Refines (f g : Flow) : Prop where
  retains : ∀ z, f.exprAt z ≠ none → g.exprAt z ≠ none
  value : ∀ {ρ z w}, f.exprAt z ≠ none → g.ValueAt ρ z w → f.ValueAt ρ z w
  address : ∀ {ρ x w}, f.exprAt x ≠ none → g.AddressAt ρ x w → f.AddressAt ρ x w

variable {f g h : Flow}

theorem Closed.pending {ts : List Term} (hf : f.Closed) (hfg : f.Pending g ts) : g.Closed := by
  intro x e hx c hc
  obtain ⟨p, hshape⟩ := exists_shapeAt_of_exprAt hx
  rcases hfg.grows.made x (by simp [hshape]) with hold | hnew
  · have hx' : f.exprAt x = some e := by
      rw [← hx, hfg.grows.retains.exprAt_eq (exprAt_ne_none.2 hold)]
    exact exprAt_ne_none.2 (hfg.grows.ne_none (exprAt_ne_none.1 (hf x e hx' c hc)))
  · obtain ⟨t, -, e', q, -, hstands⟩ := hfg.exists_stands hnew
    obtain ⟨hshape', -, below⟩ := hstands
    rw [exprAt_eq_some hshape', Option.some.injEq] at hx
    subst hx
    rw [Expr.children_map] at hc
    obtain ⟨d, hd, rfl⟩ := List.mem_map.1 hc
    exact exprAt_ne_none.2 ((below d hd).shapeAt_ne_none d.id_mem_preorder)

/-- The children of new nodes are new. -/
theorem Pending.exprAt_child {ts : List Term} (hfg : f.Pending g ts) {r c : NodeId} {e : Expr NodeId}
    (hr : f.exprAt r = none) (hge : g.exprAt r = some e) (hc : c ∈ e.children) :
    f.exprAt c = none := by
  obtain ⟨p, hshape⟩ := exists_shapeAt_of_exprAt hge
  rcases hfg.grows.made r (by simp [hshape]) with hold | hnew
  · exact absurd hr (exprAt_ne_none.2 hold)
  · obtain ⟨t, ht, e', q, hwithin, hstands⟩ := hfg.exists_stands hnew
    have he : e'.map Term.id = e := by
      have hshape' := hstands.shape_id
      rw [Term.id_node, hshape] at hshape'
      exact (Prod.mk.inj (Option.some.inj hshape')).1.symm
    rw [← he, Expr.children_map] at hc
    obtain ⟨u, hu, rfl⟩ := List.mem_map.1 hc
    have hmem : u.id ∈ t.preorder :=
      ((Term.Within.of_mem_children hu).trans hwithin).preorder_subset u.id_mem_preorder
    simp [exprAt, hfg.grows.fresh u.id (List.mem_flatMap.2 ⟨t, ht, hmem⟩)]

namespace ValueAt

theorem mono {ρ : String → Word} {x : NodeId} {w : Word} (hfg : f.Retains g)
    (hlink : ∀ z d, f.linkOf z = .use (some d) → g.linkOf z = .use (some d))
    (hx : f.ValueAt ρ x w) : g.ValueAt ρ x w := by
  have hexpr : ∀ {z e}, f.exprAt z = some e → g.exprAt z = some e := fun {z e} hz => by
    rw [hfg.exprAt_eq (by simp [hz]), hz]
  induction hx with
  | constant h => exact .constant (hexpr h)
  | entry h => exact .entry (hexpr h)
  | read h hd hassign _ ih => exact .read (hexpr h) (hlink _ _ hd) (hexpr hassign) ih
  | binary h _ _ iha ihb => exact .binary (hexpr h) iha ihb
  | unary h _ ih => exact .unary (hexpr h) ih

/-- A merge has no value of this kind. -/
theorem ne_theta {ρ : String → Word} {x : NodeId} {w : Word} (hx : f.ValueAt ρ x w)
    (xs : List NodeId) : f.exprAt x ≠ some (.theta xs) := by
  cases hx <;> simp_all

theorem eq_of_constant {ρ : String → Word} {x : NodeId} {w w' : Word} (hx : f.ValueAt ρ x w)
    (hexpr : f.exprAt x = some (.constant w')) : w = w' := by
  cases hx <;> simp_all

end ValueAt

namespace Refines

theorem refl (f : Flow) : f.Refines f :=
  ⟨fun _ h => h, fun _ h => h, fun _ h => h⟩

theorem trans (hfg : f.Refines g) (hgh : g.Refines h) : f.Refines h :=
  ⟨fun z hz => hgh.retains z (hfg.retains z hz),
    fun hz hw => hfg.value hz (hgh.value (hfg.retains _ hz) hw),
    fun hz hw => hfg.address hz (hgh.address (hfg.retains _ hz) hw)⟩

/-- The ways in which the expression `e` of a node `z` in a flow `g` can agree with what `z`
    computes in a flow `f`. -/
private def Agrees (f g : Flow) (ρ : String → Word) (z : NodeId) : Expr NodeId → Prop
  | .constant w => f.ValueAt ρ z w
  | .register n v => (v = some 0 → f.ValueAt ρ z (ρ n)) ∧ ∀ d, g.linkOf z = .use (some d) →
      f.exprAt d ≠ none ∧ f.linkOf z = .use (some d) ∧ ∃ n v, f.exprAt z = some (.register n v)
  | .binary op a b => f.exprAt a ≠ none ∧ f.exprAt b ≠ none ∧
      ∀ wa wb, f.ValueAt ρ a wa → f.ValueAt ρ b wb → f.ValueAt ρ z (op.eval wa wb)
  | .unary op a => f.exprAt a ≠ none ∧ ∀ w, f.ValueAt ρ a w → f.ValueAt ρ z (op.eval w)
  | .assign d y => f.exprAt y ≠ none ∧
      ∃ y', f.exprAt z = some (.assign d y') ∧ ∀ w, f.ValueAt ρ y w → f.ValueAt ρ y' w
  | .deref a _ => f.exprAt a ≠ none ∧
      ∃ a' v', f.exprAt z = some (.deref a' v') ∧ ∀ w, f.ValueAt ρ a w → f.ValueAt ρ a' w
  | _ => True

private theorem of_agrees (hretains : ∀ z, f.exprAt z ≠ none → g.exprAt z ≠ none)
    (hagrees : ∀ ρ z e, f.exprAt z ≠ none → g.exprAt z = some e → Agrees f g ρ z e)
    (hnew : ∀ r d y, f.exprAt r = none → g.exprAt r = some (.assign d y) → f.exprAt d = none) :
    f.Refines g := by
  have hvalue : ∀ {ρ z w}, f.exprAt z ≠ none → g.ValueAt ρ z w → f.ValueAt ρ z w := by
    intro ρ z w hz hw
    induction hw with
    | constant h => exact hagrees ρ _ _ hz h
    | entry h => exact (hagrees ρ _ _ hz h).1 rfl
    | @read x d r y n v w h hlink hassign hy ih =>
      obtain ⟨hd, hlink', n', v', hx⟩ := (hagrees ρ _ _ hz h).2 d hlink
      have hr : f.exprAt r ≠ none := fun hr => hd (hnew r d y hr hassign)
      obtain ⟨hy', y', hassign', hw⟩ := hagrees ρ r _ hr hassign
      exact .read hx hlink' hassign' (hw _ (ih hy'))
    | binary h ha hb iha ihb =>
      obtain ⟨hza, hzb, hw⟩ := hagrees ρ _ _ hz h
      exact hw _ _ (iha hza) (ihb hzb)
    | unary h ha ih =>
      obtain ⟨hza, hw⟩ := hagrees ρ _ _ hz h
      exact hw _ (ih hza)
  refine ⟨hretains, hvalue, ?_⟩
  rintro ρ x w hx ⟨a, v, hderef, ha⟩
  obtain ⟨hxa, a', v', hx', hw⟩ := hagrees ρ _ _ hx hderef
  exact ⟨a', v', hx', hw _ (hvalue hxa ha)⟩

private theorem agrees_of_exprAt (hclosed : f.Closed) {z : NodeId} {e : Expr NodeId}
    (hz : f.exprAt z = some e)
    (hlink : ∀ n v d, e = .register n v → g.linkOf z = .use (some d) →
      f.linkOf z = .use (some d) ∧ f.exprAt d ≠ none) (ρ : String → Word) : Agrees f g ρ z e := by
  have hchildren := hclosed z e hz
  cases e with
  | constant w => exact .constant hz
  | register n v =>
    refine ⟨fun hv => .entry (hv ▸ hz), fun d hd => ?_⟩
    obtain ⟨hlink, hd⟩ := hlink n v d rfl hd
    exact ⟨hd, hlink, n, v, hz⟩
  | binary op a b =>
    exact ⟨hchildren a (by simp [Expr.children]), hchildren b (by simp [Expr.children]),
      fun _ _ => .binary hz⟩
  | unary op a => exact ⟨hchildren a (by simp [Expr.children]), fun _ => .unary hz⟩
  | assign d y => exact ⟨hchildren y (by simp [Expr.children]), y, hz, fun _ h => h⟩
  | deref a v => exact ⟨hchildren a (by simp [Expr.children]), a, v, hz, fun _ h => h⟩
  | _ => trivial

/-- New nodes, fewer links and other versions of dereferences change nothing, unless there is
    a new assignment to an old node. -/
theorem of_exprs (hclosed : f.Closed)
    (hexpr : ∀ z e, f.exprAt z = some e → g.exprAt z = some e ∨
      ∃ a v v', e = .deref a v ∧ g.exprAt z = some (.deref a v'))
    (hlink : ∀ z n v d, f.exprAt z = some (.register n v) → g.linkOf z = .use (some d) →
      f.linkOf z = .use (some d) ∧ f.exprAt d ≠ none)
    (hnew : ∀ r d y, f.exprAt r = none → g.exprAt r = some (.assign d y) → f.exprAt d = none) :
    f.Refines g := by
  refine of_agrees (fun z hz => ?_) ?_ hnew
  · obtain ⟨e, hz⟩ := Option.ne_none_iff_exists'.1 hz
    rcases hexpr z e hz with h | ⟨a, v, v', -, h⟩ <;> simp [h]
  · intro ρ z e hz hge
    obtain ⟨e₀, hz⟩ := Option.ne_none_iff_exists'.1 hz
    rcases hexpr z e₀ hz with h | ⟨a, v, v', rfl, h⟩
    · rw [hge] at h
      cases h
      exact agrees_of_exprAt hclosed hz (fun n v d he => hlink z n v d (he ▸ hz)) ρ
    · rw [hge] at h
      cases h
      exact ⟨hclosed z _ hz a (by simp [Expr.children]), a, v, hz, fun _ h => h⟩

/-- New trees change nothing. -/
theorem of_pending {ts : List Term} (hclosed : f.Closed) (hfg : f.Pending g ts)
    (hlink : ∀ z n v d, f.exprAt z = some (.register n v) → g.linkOf z = .use (some d) →
      f.linkOf z = .use (some d) ∧ f.exprAt d ≠ none) : f.Refines g := by
  refine of_exprs hclosed (fun z e hz => .inl ?_) hlink fun r d y hr hassign => ?_
  · rw [hfg.grows.retains.exprAt_eq (by simp [hz]), hz]
  · exact hfg.exprAt_child hr hassign (by simp [Expr.children])

section InPlace

variable {e : Expr NodeId} (hclosed : f.Closed)
  (hlinked : ∀ z d, f.linkOf z = .use (some d) → f.exprAt d ≠ none)
include hclosed hlinked

/-- Changing the expression of a node changes nothing that is computed elsewhere. -/
private theorem of_update {q : NodeId} {e' : Expr NodeId} (hq : f.exprAt q = some e)
    (hexpr : g.exprAt = Function.update f.exprAt q (some e'))
    (hlink : ∀ z d, g.linkOf z = .use (some d) → f.linkOf z = .use (some d))
    (hagrees : ∀ ρ, Agrees f g ρ q e') : f.Refines g := by
  refine of_agrees (fun z hz => ?_) (fun ρ z e₁ hz he₁ => ?_) fun r d y hr hassign => ?_
  · rw [hexpr]
    by_cases hzq : z = q
    · simp [hzq]
    · rwa [Function.update_of_ne hzq]
  · by_cases hzq : z = q
    · subst hzq
      rw [hexpr, Function.update_self, Option.some.injEq] at he₁
      exact he₁ ▸ hagrees ρ
    · rw [hexpr, Function.update_of_ne hzq] at he₁
      refine agrees_of_exprAt hclosed he₁ (fun n v d _ hd => ?_) ρ
      exact ⟨hlink z d hd, hlinked z d (hlink z d hd)⟩
  · rw [hexpr] at hassign
    by_cases hrq : r = q
    · simp [hrq, hq] at hr
    · rw [Function.update_of_ne hrq, hr] at hassign
      cases hassign

/-- Below one node, a child is replaced by another node whose value it has. -/
theorem of_substitution {q old new : NodeId} (hq : f.exprAt q = some e)
    (hnew : f.exprAt new ≠ none)
    (hexpr : g.exprAt = Function.update f.exprAt q
      (some (e.map fun c => if c = old then new else c)))
    (hlink : ∀ z d, g.linkOf z = .use (some d) → f.linkOf z = .use (some d)) (htarget : ∀ d y, e = .assign d y → d ≠ old)
    (hvalue : ∀ ρ w, f.ValueAt ρ new w → f.ValueAt ρ old w) : f.Refines g := by
  refine of_update hclosed hlinked hq hexpr hlink fun ρ => ?_
  have hchildren : ∀ c ∈ e.children, f.exprAt (if c = old then new else c) ≠ none := by
    intro c hc
    split
    · exact hnew
    · exact hclosed q e hq c hc
  have hmap : ∀ c w, f.ValueAt ρ (if c = old then new else c) w → f.ValueAt ρ c w := by
    intro c w hw
    split at hw
    next h => exact h ▸ hvalue ρ w hw
    next => exact hw
  cases e with
  | constant w => exact .constant hq
  | register n v =>
    refine ⟨fun hv => .entry (hv ▸ hq), fun d hd => ?_⟩
    exact ⟨hlinked q d (hlink q d hd), hlink q d hd, n, v, hq⟩
  | binary op a b =>
    exact ⟨hchildren a (by simp [Expr.children]), hchildren b (by simp [Expr.children]),
      fun _ _ ha hb => .binary hq (hmap a _ ha) (hmap b _ hb)⟩
  | unary op a =>
    exact ⟨hchildren a (by simp [Expr.children]), fun _ ha => .unary hq (hmap a _ ha)⟩
  | assign d y =>
    refine ⟨hchildren y (by simp [Expr.children]), y, ?_, hmap y⟩
    have hd : (if d = old then new else d) = d := if_neg (htarget d y rfl)
    change f.exprAt q = some (.assign (if d = old then new else d) y)
    rw [hd, hq]
  | deref a v => exact ⟨hchildren a (by simp [Expr.children]), a, v, hq, hmap a⟩
  | _ => trivial

/-- A node becomes a constant that it has the value of. -/
theorem of_constant {q : NodeId} {w : Word} (hq : f.exprAt q = some e)
    (hexpr : g.exprAt = Function.update f.exprAt q (some (.constant w)))
    (hlink : g.linkOf = f.linkOf) (hvalue : ∀ ρ, f.ValueAt ρ q w) : f.Refines g :=
  of_update hclosed hlinked hq hexpr (fun _ _ h => hlink ▸ h) hvalue

/-- A node becomes an operation that computes the value it has. -/
theorem of_binary {q a b : NodeId} {op : BinaryOp} (hq : f.exprAt q = some e)
    (ha : f.exprAt a ≠ none) (hb : f.exprAt b ≠ none)
    (hexpr : g.exprAt = Function.update f.exprAt q (some (.binary op a b)))
    (hlink : g.linkOf = f.linkOf)
    (hvalue : ∀ ρ wa wb, f.ValueAt ρ a wa → f.ValueAt ρ b wb → f.ValueAt ρ q (op.eval wa wb)) :
    f.Refines g :=
  of_update hclosed hlinked hq hexpr (fun _ _ h => hlink ▸ h) fun ρ => ⟨ha, hb, hvalue ρ⟩

end InPlace

end Refines

end Flow

end FrameRecovery
