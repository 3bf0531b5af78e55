import FrameRecovery.Proofs.Flow.NormalForm

namespace FrameRecovery

namespace Simplify

/-- A tree with an amount added to it, as offsets are written. -/
def shifted (z : Term) (amount : Word) : Term :=
  if amount = 0 then z else .node ⟨0⟩ (.binary (written amount).1 z (.node ⟨0⟩ (.constant (written amount).2)))

/-- What becomes of a sum or a difference with the constant `b` on its right, which adds an amount. -/
def settleOffset (op : BinaryOp) (x : Term) (b amount : Word) : Term :=
  match offsetOf? x with
  | some (z, inner) => shifted z (amount + inner)
  | none =>
    if b = 0 ∨ b < 0 ∧ b ≠ Int64.minValue then shifted x amount
    else .node ⟨0⟩ (.binary op x (.node ⟨0⟩ (.constant b)))

/-- What becomes of a binary operation on trees that are simplified. -/
def settleBinary (op : BinaryOp) (x y : Term) : Term :=
  match x.constant?, y.constant? with
  | some a, some b => .node ⟨0⟩ (.constant (op.eval a b))
  | some a, none => if op = .add then settleOffset .add y a a else .node ⟨0⟩ (.binary op x y)
  | none, some b =>
    match signedAmount op b with
    | some amount => settleOffset op x b amount
    | none => .node ⟨0⟩ (.binary op x y)
  | none, none => .node ⟨0⟩ (.binary op x y)

/-- What becomes of a node over trees that are simplified. -/
def settle : Expr Term → Term
  | .binary op x y => settleBinary op x y
  | .unary op x =>
    match x.constant? with
    | some w => .node ⟨0⟩ (.constant (op.eval w))
    | none => .node ⟨0⟩ (.unary op x)
  | e => .node ⟨0⟩ e

/-- The form that simplification gives a tree. -/
def simplest (t : Term) : Term :=
  t.fold fun _ e => settle e

variable {t t' x y z : Term} {i j k : NodeId} {e : Expr Term} {op : BinaryOp} {b amount inner : Word}

@[simp] theorem simplest_node : simplest (.node i e) = settle (e.map simplest) := by
  unfold simplest
  rw [Term.fold_node]

@[simp] theorem constant?_constant : (Term.node i (.constant b)).constant? = some b := rfl

@[simp] theorem constant?_form (t : Term) : t.form.constant? = t.constant? := by
  obtain ⟨i, e⟩ := t
  rw [Term.form_node]
  cases e <;> rfl

theorem form_of_constant? (h : y.constant? = some b) : y.form = .node ⟨0⟩ (.constant b) := by
  obtain ⟨j, e⟩ := y
  cases e <;> simp [Term.constant?] at h
  rw [h, Term.form_node]
  rfl

theorem offsetOf?_form (t : Term) : offsetOf? t.form = (offsetOf? t).map fun o => (o.1.form, o.2) := by
  obtain ⟨i, e⟩ := t
  rw [Term.form_node]
  cases e with
  | binary op x y =>
    simp only [Expr.map, offsetOf?, constant?_form]
    cases x.constant? <;> cases y.constant? <;> simp [Function.comp_def]
  | _ => rfl

theorem form_of_isOffset (h : IsOffset i z amount t) : t.form = shifted z.form amount := by
  obtain ⟨rfl, rfl⟩ | ⟨hne, k, rfl⟩ := h
  · exact (if_pos rfl).symm
  · rw [shifted, if_neg hne]
    simp [Expr.map]

/-- A written constant needs no other sign. -/
theorem written_nonneg (amount : Word) :
    ¬ ((written amount).2 < 0 ∧ (written amount).2 ≠ Int64.minValue) := by
  unfold written
  split
  next h =>
    rintro ⟨hneg, -⟩
    rcases (Int64.neg_nonpos_iff amount).1 (Int64.le_of_lt hneg) with hmin | hle
    · exact h.2 hmin
    · exact Int64.not_le.2 h.1 hle
  next h => exact h

theorem written_ne_zero (h : amount ≠ 0) : (written amount).2 ≠ 0 := by
  unfold written
  split
  · simpa using h
  · exact h

/-- What a simplified offset is an offset from is no constant, and no offset itself. -/
theorem Normal.base (hx : Normal x) (h : offsetOf? x = some (z, inner)) :
    Normal z ∧ z.constant? = none ∧ offsetOf? z = none := by
  obtain ⟨i, op, c, w, rfl, hz, hc, hw⟩ := exists_of_offsetOf? h
  have htop := hx _ (.refl _)
  simp only [isReducible, hz, hc, hw, Option.isSome_some, Bool.true_and, Bool.or_eq_false_iff,
    Option.isSome_eq_false_iff, Option.isNone_iff_eq_none] at htop
  exact ⟨hx.child List.mem_cons_self, hz, htop.1⟩

/-- An offset from something simplified that is no constant and no offset itself is simplified. -/
theorem IsOffset.normal (h : IsOffset i z amount t) (hz : Normal z) (hconstant : z.constant? = none)
    (hoffset : offsetOf? z = none) : Normal t := by
  have hbelow := h.normal_children hz
  obtain ⟨-, rfl⟩ | ⟨hne, k, rfl⟩ := h
  · exact hz
  · have hright : ¬ ((written amount).2 = 0 ∨ (written amount).2 < 0 ∧ (written amount).2 ≠ Int64.minValue) := by
      simpa [written_ne_zero hne] using written_nonneg amount
    refine normal_node_iff.2 ⟨?_, hbelow⟩
    simp only [isReducible, hconstant, constant?_constant, hoffset, Option.isSome_none, Bool.false_or, Bool.and_eq_false_imp,
      decide_eq_false_iff_not]
    exact fun _ => hright

/-- Nothing becomes of a node to which no rule is to be applied. -/
theorem settle_of_irreducible (h : isReducible (.node i e) = false) : settle (e.map Term.form) = (Term.node i e).form := by
  rw [Term.form_node]
  cases e with
  | binary op x y =>
    simp only [Expr.map, settle, settleBinary, constant?_form]
    simp only [isReducible] at h
    cases hx : x.constant? <;> cases hy : y.constant? <;> simp only [hx, hy] at h ⊢
    next b =>
      split
      next amount hamount =>
        rw [settleOffset, offsetOf?_form]
        simp only [hamount, Option.isSome_some, Bool.true_and, Bool.or_eq_false_iff, Option.isSome_eq_false_iff,
          Option.isNone_iff_eq_none, decide_eq_false_iff_not] at h
        rw [h.1]
        simp only [Option.map_none]
        rw [if_neg h.2, form_of_constant? hy]
      next => rfl
    next a => rw [if_neg (by simpa using h)]
    next => cases h
  | unary op x =>
    have hx : x.constant? = none := by simpa [isReducible] using h
    simp [Expr.map, settle, hx]
  | _ => rfl

/-- A simplified tree has the form that simplification gives it. -/
theorem Normal.simplest_eq (ht : Normal t) : simplest t = t.form := by
  induction t using Term.induction with
  | step i e ih =>
    obtain ⟨htop, hbelow⟩ := normal_node_iff.1 ht
    have hchildren : e.map simplest = e.map Term.form := Expr.map_congr fun c hc => ih c hc (hbelow c hc)
    rw [simplest_node, hchildren, settle_of_irreducible htop]

theorem simplest_binary {a b : Word} :
    simplest (.node i (.binary op (.node j (.constant a)) (.node k (.constant b)))) =
      .node ⟨0⟩ (.constant (op.eval a b)) := by
  simp [Expr.map, settle, settleBinary]

theorem simplest_unary {op : UnaryOp} {a : Word} :
    simplest (.node i (.unary op (.node j (.constant a)))) = .node ⟨0⟩ (.constant (op.eval a)) := by
  simp [Expr.map, settle]

/-- The same becomes of a sum when its constant goes to the right. -/
theorem simplest_turn {a : Word} :
    simplest (.node i (.binary .add y (.node j (.constant a)))) =
      simplest (.node i (.binary .add (.node j (.constant a)) y)) := by
  simp only [simplest_node, Expr.map, settle, settleBinary, constant?_constant]
  cases hy : (simplest y).constant? with
  | some b => simp [BinaryOp.eval, Int64.add_comm]
  | none => simp [signedAmount]

section Offset

variable (hx : x.constant? = none) (hamount : signedAmount op b = some amount) (hnormal : Normal x)
include hx hamount hnormal

/-- What becomes of an offset from something simplified. -/
theorem simplest_offset : simplest (.node i (.binary op x (.node j (.constant b)))) = settleOffset op x.form b amount := by
  have hx' : x.form.constant? = none := by rw [constant?_form, hx]
  simp only [simplest_node, Expr.map, hnormal.simplest_eq, settle, settleBinary, constant?_constant, hx', hamount]

/-- The same becomes of an offset that is written anew. -/
theorem simplest_write (hoffset : offsetOf? x = none) (hright : b = 0 ∨ b < 0 ∧ b ≠ Int64.minValue)
    (ht' : IsOffset i x amount t') : simplest t' = simplest (.node i (.binary op x (.node j (.constant b)))) := by
  rw [(ht'.normal hnormal hx hoffset).simplest_eq, form_of_isOffset ht', simplest_offset hx hamount hnormal, settleOffset,
    offsetOf?_form, hoffset]
  exact (if_pos hright).symm

/-- The same becomes of an offset that is joined with the one below it. -/
theorem simplest_join (hoffset : offsetOf? x = some (z, inner)) (ht' : IsOffset i z (amount + inner) t') :
    simplest t' = simplest (.node i (.binary op x (.node j (.constant b)))) := by
  obtain ⟨hz, hconstant, hplain⟩ := hnormal.base hoffset
  rw [(ht'.normal hz hconstant hplain).simplest_eq, form_of_isOffset ht', simplest_offset hx hamount hnormal, settleOffset,
    offsetOf?_form, hoffset]
  rfl

end Offset

end Simplify

end FrameRecovery
