import FrameRecovery.Proofs.Flow.Embedding
import FrameRecovery.Proofs.Simplify

namespace FrameRecovery

namespace Simplify

/-- A tree that is no constant and no offset. -/
def Plain (x : Term) : Prop :=
  x.constant? = none ∧ offsetOf? x = none

/-- A tree with the least word subtracted. As this is its own negation, the same is added. -/
def lessLeast (x : Term) : Term :=
  .node ⟨0⟩ (.binary .sub x (.node ⟨0⟩ (.constant Int64.minValue)))

/-- A tree is written as an offset of another one in the one way there is, or the least word is subtracted. -/
def WrittenAs (x : Term) (amount : Word) (u : Term) : Prop :=
  u = shifted x amount ∨ amount = Int64.minValue ∧ u = lessLeast x

variable {t u x y z : Term} {i j : NodeId} {e : Expr Term} {op : BinaryOp} {a b s w amount : Word}

theorem signedAmount_written (amount : Word) : signedAmount (written amount).1 (written amount).2 = some amount := by
  unfold written
  split
  · simp [signedAmount]
  · rfl

/-- An offset that is left as it is needs no other sign, or subtracts the least word. -/
theorem writtenAs_of_kept (hamount : signedAmount op b = some amount) (hb : ¬ (b = 0 ∨ b < 0 ∧ b ≠ Int64.minValue)) :
    WrittenAs x amount (.node ⟨0⟩ (.binary op x (.node ⟨0⟩ (.constant b)))) := by
  rw [not_or] at hb
  cases op <;> simp only [signedAmount, Option.some.injEq, reduceCtorEq] at hamount
  case add =>
    subst hamount
    exact .inl (by rw [shifted, if_neg hb.1, written, if_neg hb.2])
  case sub =>
    subst hamount
    by_cases hleast : b = Int64.minValue
    · exact .inr ⟨by rw [hleast]; rfl, by rw [hleast]; rfl⟩
    · have hneg : -b < 0 ∧ -b ≠ Int64.minValue := by
        have hnonneg : 0 ≤ b := Int64.not_lt.1 fun h => hb.2 ⟨h, hleast⟩
        refine ⟨Int64.lt_of_le_of_ne ((Int64.neg_nonpos_iff b).2 (.inr hnonneg)) fun h => hb.1 (Int64.neg_inj.1 h), ?_⟩
        exact fun h => hleast (Int64.neg_inj.1 h)
      exact .inl (by rw [shifted, if_neg (by simpa using hb.1), written, if_pos hneg, Int64.neg_neg])

section Plain

variable (hx : Plain x)
include hx

theorem offsetOf?_shifted : (amount = 0 ∧ shifted x amount = x) ∨ offsetOf? (shifted x amount) = some (x, amount) := by
  unfold shifted
  split
  next h => exact .inl ⟨h, rfl⟩
  next => exact .inr (by simp [offsetOf?, hx.1, signedAmount_written])

/-- However it is written, an offset is read as what it is. -/
theorem WrittenAs.offsetOf? (h : WrittenAs x amount u) : (amount = 0 ∧ u = x) ∨ offsetOf? u = some (x, amount) := by
  rcases h with rfl | ⟨rfl, rfl⟩
  · exact offsetOf?_shifted hx
  · have hneg : -Int64.minValue = Int64.minValue := rfl
    exact .inr (by simp [lessLeast, Simplify.offsetOf?, hx.1, signedAmount, hneg])

theorem WrittenAs.constant? (h : WrittenAs x amount u) : u.constant? = none := by
  rcases h.offsetOf? hx with ⟨-, rfl⟩ | h
  · exact hx.1
  · obtain ⟨_, _, _, _, rfl, -⟩ := exists_of_offsetOf? h
    rfl

theorem writtenAs_settleOffset (h : WrittenAs x s u) (hamount : signedAmount op b = some amount) :
    WrittenAs x (amount + s) (settleOffset op u b amount) := by
  unfold settleOffset
  rcases h.offsetOf? hx with ⟨rfl, rfl⟩ | h
  · rw [hx.2, Int64.add_zero]
    dsimp only
    split
    next => exact .inl rfl
    next hb => exact writtenAs_of_kept hamount hb
  · rw [h]
    exact .inl rfl

end Plain

theorem writtenAs_plain (hx : Plain x) : ∃ y amount, Plain y ∧ WrittenAs y amount x :=
  ⟨x, 0, hx, .inl (if_pos rfl).symm⟩

/-- What simplification gives is a constant or written as an offset of something plain. -/
theorem simplest_cases (t : Term) : (∃ w, simplest t = .node ⟨0⟩ (.constant w)) ∨
    ∃ x amount, Plain x ∧ WrittenAs x amount (simplest t) := by
  induction t using Term.induction with
  | step i e ih =>
    rw [simplest_node]
    cases e with
    | binary op x y =>
      have hkept : ∀ {x y : Term}, offsetOf? (.node ⟨0⟩ (.binary op x y)) = none →
          ∃ z amount, Plain z ∧ WrittenAs z amount (.node ⟨0⟩ (.binary op x y)) := fun h => writtenAs_plain ⟨rfl, h⟩
      simp only [Expr.map, settle, settleBinary]
      rcases ih x (by simp [Expr.children]) with ⟨v, hx⟩ | ⟨x', s, hx', hx⟩ <;>
        rcases ih y (by simp [Expr.children]) with ⟨w, hy⟩ | ⟨y', r, hy', hy⟩
      · rw [hx, hy]
        exact .inl ⟨_, rfl⟩
      · simp only [hx, constant?_constant, hy.constant? hy']
        split
        next => exact .inr ⟨y', _, hy', writtenAs_settleOffset hy' hy rfl⟩
        next => exact .inr (hkept (by simp [offsetOf?]))
      · simp only [hy, constant?_constant, hx.constant? hx']
        split
        next hamount => exact .inr ⟨x', _, hx', writtenAs_settleOffset hx' hx hamount⟩
        next hnone => exact .inr (hkept (by simp [offsetOf?, hx.constant? hx', hnone]))
      · simp only [hx.constant? hx', hy.constant? hy']
        exact .inr (hkept (by simp [offsetOf?, hx.constant? hx', hy.constant? hy']))
    | unary op x =>
      simp only [Expr.map, settle]
      split
      next => exact .inl ⟨_, rfl⟩
      next => exact .inr (writtenAs_plain ⟨rfl, rfl⟩)
    | constant w => exact .inl ⟨w, rfl⟩
    | _ => exact .inr (writtenAs_plain ⟨rfl, rfl⟩)

/-- The tree adds constants to a base, one after the other. The word is what they add up to. -/
inductive Tower (z : Term) : Word → Term → Prop
  | base {u : Term} (hu : u.form = z.form) : Tower z 0 u
  | right {i j : NodeId} {op : BinaryOp} {t : Term} {a b amount : Word} (ht : Tower z a t)
    (hamount : signedAmount op b = some amount) : Tower z (amount + a) (.node i (.binary op t (.node j (.constant b))))
  | left {i j : NodeId} {t : Term} {a b : Word} (ht : Tower z a t) :
    Tower z (b + a) (.node i (.binary .add (.node j (.constant b)) t))

@[simp] theorem simplest_form (t : Term) : simplest t.form = simplest t := by
  induction t using Term.induction with
  | step i e ih =>
    rw [Term.form_node, simplest_node, simplest_node, Expr.map_map]
    exact congrArg settle (Expr.map_congr ih)

namespace Tower

/-- A tower over what becomes a constant becomes a constant. -/
theorem simplest_eq_constant (ht : Tower z a t) (hz : simplest z = .node ⟨0⟩ (.constant w)) :
    simplest t = .node ⟨0⟩ (.constant (a + w)) := by
  have hright : ∀ {i j op t a b amount}, simplest t = .node ⟨0⟩ (.constant (a + w)) → signedAmount op b = some amount →
      simplest (.node i (.binary op t (.node j (.constant b)))) = .node ⟨0⟩ (.constant (amount + a + w)) := by
    intro i j op t a b amount ih hamount
    have heval : op.eval (a + w) b = amount + a + w := by
      rw [eval_of_signedAmount hamount, Int64.add_comm, Int64.add_assoc]
    simp [Expr.map, settle, settleBinary, ih, heval]
  induction ht with
  | base hu => rw [← simplest_form, hu, simplest_form, hz, Int64.zero_add]
  | right _ hamount ih => exact hright ih hamount
  | left _ ih => rw [← simplest_turn, hright ih rfl]

/-- A tower over what becomes an offset of something plain becomes one. -/
theorem writtenAs (ht : Tower z a t) (hx : Plain x) (hz : WrittenAs x s (simplest z)) : WrittenAs x (a + s) (simplest t) := by
  have hright : ∀ {i j op t a b amount}, WrittenAs x (a + s) (simplest t) → signedAmount op b = some amount →
      WrittenAs x (amount + a + s) (simplest (.node i (.binary op t (.node j (.constant b))))) := by
    intro i j op t a b amount ih hamount
    have hsettle := writtenAs_settleOffset hx ih hamount
    rw [← Int64.add_assoc] at hsettle
    simpa [Expr.map, settle, settleBinary, ih.constant? hx, hamount] using hsettle
  induction ht with
  | base hu => rwa [← simplest_form, hu, simplest_form, Int64.zero_add]
  | right _ hamount ih => exact hright ih hamount
  | left _ ih =>
    rw [← simplest_turn]
    exact hright ih rfl

/-- Towers over one base that add the same up become the same, unless the least word is added in one and
    subtracted in the other. -/
theorem simplest_eq (ht : Tower z a t) (hu : Tower z a u) : simplest t = simplest u ∨ ∃ x, Plain x ∧
    (simplest t = shifted x Int64.minValue ∧ simplest u = lessLeast x ∨
      simplest t = lessLeast x ∧ simplest u = shifted x Int64.minValue) := by
  rcases simplest_cases z with ⟨w, hz⟩ | ⟨x, s, hx, hz⟩
  · rw [ht.simplest_eq_constant hz, hu.simplest_eq_constant hz]
    exact .inl rfl
  · rcases ht.writtenAs hx hz with ht | ⟨hleast, ht⟩ <;> rcases hu.writtenAs hx hz with hu | ⟨hleast', hu⟩
    · exact .inl (ht.trans hu.symm)
    · exact .inr ⟨x, hx, .inl ⟨hleast' ▸ ht, hu⟩⟩
    · exact .inr ⟨x, hx, .inr ⟨ht, hleast ▸ hu⟩⟩
    · exact .inl (ht.trans hu.symm)

end Tower

theorem lessLeast_ne_shifted : lessLeast x ≠ shifted x Int64.minValue := by
  rw [shifted, if_neg (by decide)]
  intro h
  cases h

/-- Over a base that becomes something plain both ways to add the least word are left as they are, although they
    add the same. -/
theorem simplest_least (hx : Plain (simplest z)) :
    simplest (.node i (.binary .sub z (.node j (.constant Int64.minValue)))) = lessLeast (simplest z) ∧
      simplest (.node i (.binary .add z (.node j (.constant Int64.minValue)))) = shifted (simplest z) Int64.minValue := by
  have hkept : ¬ (Int64.minValue = 0 ∨ Int64.minValue < 0 ∧ Int64.minValue ≠ Int64.minValue) := by decide
  constructor <;> simp only [simplest_node, Expr.map, settle, settleBinary, constant?_constant, hx.1, signedAmount,
    settleOffset, hx.2, if_neg hkept]
  · rfl
  · rfl

/-- Only the first of `(esp - -0x8000000000000000) + 0` and `esp - -0x8000000000000000` is put in order. -/
example :
    let esp := Term.node ⟨0⟩ (.register "esp" none)
    let least := Term.node ⟨1⟩ (.constant Int64.minValue)
    (simplest (.node ⟨3⟩ (.binary .add (.node ⟨2⟩ (.binary .sub esp least)) (.node ⟨4⟩ (.constant 0))))).text =
        "esp + -0x8000000000000000" ∧
      (simplest (.node ⟨2⟩ (.binary .sub esp least))).text = "esp - -0x8000000000000000" := by
  decide

end Simplify

namespace Edit

open Flow Simplify

variable {f g : Flow} {p q : Place} {t u z : Term} {a : Word}

/-- Two towers over one base that add the same up are simplified to the same text, wherever they stand, unless
    one of them ends as the least word added to something and the other one as the least word subtracted from it. -/
theorem simplify_towers (hf : f.Sits p t) (hg : g.Sits q u) (ht : Tower z a t) (hu : Tower z a u) :
    ∃ t' u' n m f' g', (simplify t.id).run f = .ok ((t'.id, n), f') ∧ f.Replaces f' p t t' ∧
      (simplify u.id).run g = .ok ((u'.id, m), g') ∧ g.Replaces g' q u u' ∧
      (t'.text = u'.text ∨ ∃ x, Plain x ∧ (t'.form = shifted x Int64.minValue ∧ u'.form = lessLeast x ∨
        t'.form = lessLeast x ∧ u'.form = shifted x Int64.minValue)) := by
  obtain ⟨⟨_, n⟩, f', hrun, t', rfl, hreduces, -, hform, -⟩ := simplify_gives hf
  obtain ⟨⟨_, m⟩, g', hrun', u', rfl, hreduces', -, hform', -⟩ := simplify_gives hg
  refine ⟨t', u', n, m, f', g', hrun, hreduces.replaces, hrun', hreduces'.replaces, ?_⟩
  rw [hform, hform']
  refine (ht.simplest_eq hu).imp_left fun hsame => ?_
  rw [← Term.text_form t', hform, hsame, ← hform', Term.text_form]

end Edit

end FrameRecovery
