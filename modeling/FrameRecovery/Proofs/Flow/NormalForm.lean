import FrameRecovery.Proofs.Flow.Typing

namespace FrameRecovery

namespace Simplify

/-- What a tree is a constant offset from, and the offset. -/
def offsetOf? : Term → Option (Term × Word)
  | .node _ (.binary op x y) =>
    match x.constant?, y.constant? with
    | none, some w => (signedAmount op w).map fun amount => (x, amount)
    | _, _ => none
  | _ => none

/-- Whether a rule is to be applied at the top of a tree. An offset from something that is no offset
    itself stays as it is, unless it is zero or its constant could be positive. -/
def isReducible : Term → Bool
  | .node _ (.binary op x y) =>
    match x.constant?, y.constant? with
    | some _, some _ => true
    | some _, none => op == .add
    | none, some b => (signedAmount op b).isSome &&
      ((offsetOf? x).isSome || decide (b = 0 ∨ b < 0 ∧ b ≠ Int64.minValue))
    | none, none => false
  | .node _ (.unary _ x) => x.constant?.isSome
  | _ => false

/-- No rule is to be applied anywhere in a tree. -/
def Normal (t : Term) : Prop :=
  ∀ u, Term.Within u t → isReducible u = false

variable {t t' u x z : Term} {i : NodeId} {e : Expr Term} {amount : Word}

theorem exists_of_offsetOf? (h : offsetOf? x = some (z, amount)) : ∃ i op c w,
    x = .node i (.binary op z c) ∧ z.constant? = none ∧ c.constant? = some w ∧ signedAmount op w = some amount := by
  obtain ⟨i, e⟩ := x
  cases e with
  | binary op y c =>
    cases hy : y.constant? with
    | some _ => simp [offsetOf?, hy] at h
    | none =>
      cases hc : c.constant? with
      | none => simp [offsetOf?, hy, hc] at h
      | some w =>
        simp only [offsetOf?, hy, hc, Option.map_eq_some_iff, Prod.mk.injEq] at h
        obtain ⟨_, hw, rfl, rfl⟩ := h
        exact ⟨i, op, c, w, rfl, hy, hc, hw⟩
  | _ => cases h

theorem isArithmetic_of_isReducible (h : isReducible t = true) : t.expr.isArithmetic = true := by
  obtain ⟨i, e⟩ := t
  cases e <;> first | rfl | cases h

theorem normal_node_iff : Normal (.node i e) ↔ isReducible (.node i e) = false ∧ ∀ c ∈ e.children, Normal c := by
  constructor
  · exact fun h => ⟨h _ (.refl _), fun c hc u hu => h u (.inside hc hu)⟩
  · rintro ⟨htop, hbelow⟩ u hu
    cases hu with
    | refl => exact htop
    | inside hc hu => exact hbelow _ hc u hu

theorem Normal.within (h : Normal t) (hu : Term.Within u t) : Normal u :=
  fun v hv => h v (hv.trans hu)

theorem Normal.child (h : Normal t) {c : Term} (hc : c ∈ t.expr.children) : Normal c := by
  obtain ⟨i, e⟩ := t
  exact h.within (.of_mem_children hc)

theorem normal_constant {w : Word} : Normal (.node i (.constant w)) :=
  normal_node_iff.2 ⟨rfl, by simp [Expr.children]⟩

theorem IsOffset.normal_children (h : IsOffset i z amount t) (hz : Normal z) :
    ∀ c ∈ t.expr.children, Normal c := by
  obtain ⟨-, rfl⟩ | ⟨-, k, rfl⟩ := h
  · exact fun c => hz.child
  · simpa [Expr.children] using ⟨hz, normal_constant⟩

/-- A rule makes nothing below a node reducible that was not. -/
theorem Rule.normal_children (h : Rule t t') (ht : ∀ c ∈ t.expr.children, Normal c) :
    ∀ c ∈ t'.expr.children, Normal c := by
  cases h with
  | binary => simp [Expr.children]
  | unary => simp [Expr.children]
  | turn => simpa [Expr.children, and_comm] using ht
  | write _ hoffset => exact hoffset.normal_children (ht _ List.mem_cons_self)
  | join _ _ hoffset =>
    exact hoffset.normal_children ((ht _ List.mem_cons_self).child List.mem_cons_self)

end Simplify

end FrameRecovery
