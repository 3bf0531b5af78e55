import FrameRecovery.Machine
import FrameRecovery.Proofs.Flow.Term

namespace FrameRecovery

namespace Machine

variable {m : Machine} {negate : Bool} {t t' : Term} {v v' : Option Nat} {w w' : Word}

/-- A tree is the address at a distance from a version of the stack pointer. -/
inductive Locates (m : Machine) (negate : Bool) : Term → Option Nat → Word → Prop
  | pointer {i : NodeId} {v : Option Nat} :
    m.Locates negate (.node i (.register m.stackPointer v)) v 0
  | sum {i j k : NodeId} {v : Option Nat} {w : Word} :
    m.Locates negate (.node i (.binary .add (.node j (.register m.stackPointer v))
      (.node k (.constant w)))) v w
  | difference {i j k : NodeId} {v : Option Nat} {w : Word} :
    m.Locates negate (.node i (.binary .sub (.node j (.register m.stackPointer v))
      (.node k (.constant w)))) v (if negate then -w else w)

theorem isStackPointer_iff :
    m.isStackPointer t = true ↔ ∃ i v, t = .node i (.register m.stackPointer v) := by
  obtain ⟨i, e⟩ := t
  unfold isStackPointer
  cases e <;> simp [Term.register?]

theorem constant?_eq_some_iff : t.constant? = some w ↔ ∃ i, t = .node i (.constant w) := by
  obtain ⟨i, e⟩ := t
  cases e <;> simp [Term.constant?]

theorem Locates.offset?_eq (h : m.Locates negate t v w) : m.offset? negate t = some w := by
  cases h <;> simp [offset?, isStackPointer, Term.register?, Term.constant?]

/-- The version of the stack pointer that an address starts from. -/
def base? (m : Machine) : Term → Option (Option Nat)
  | .node _ (.register n v) | .node _ (.binary _ (.node _ (.register n v)) _) =>
    if n = m.stackPointer then some v else none
  | _ => none

theorem Locates.base?_eq (h : m.Locates negate t v w) : m.base? t = some v := by
  cases h <;> simp [base?]

/-- The distance of an address is found exactly if there is one. -/
theorem offset?_eq_some_iff : m.offset? negate t = some w ↔ ∃ v, m.Locates negate t v w := by
  refine ⟨fun h => ?_, fun ⟨v, h⟩ => h.offset?_eq⟩
  unfold offset? at h
  split at h
  · split at h
    next hn =>
      cases hn
      cases h
      exact ⟨_, .pointer⟩
    next => cases h
  · split at h
    next hx =>
      obtain ⟨j, v, rfl⟩ := isStackPointer_iff.1 hx
      obtain ⟨k, rfl⟩ := constant?_eq_some_iff.1 h
      exact ⟨v, .sum⟩
    next => cases h
  · split at h
    next hx =>
      obtain ⟨j, v, rfl⟩ := isStackPointer_iff.1 hx
      obtain ⟨u, hu, rfl⟩ := Option.map_eq_some_iff.1 h
      obtain ⟨k, rfl⟩ := constant?_eq_some_iff.1 hu
      exact ⟨v, .difference⟩
    next => cases h
  · cases h

/-- What an address is does not depend on the numbers of its nodes. -/
theorem Locates.of_form_eq (h : m.Locates negate t v w) (hform : t'.form = t.form) :
    m.Locates negate t' v w := by
  have hregister : ∀ {u : Term} {n k}, u.form = .node ⟨0⟩ (.register n k) →
      ∃ i, u = .node i (.register n k) := by
    rintro ⟨i, e⟩ n k hu
    cases e <;> simp_all [Expr.map]
  have hconstant : ∀ {u : Term} {w}, u.form = .node ⟨0⟩ (.constant w) →
      ∃ i, u = .node i (.constant w) := by
    rintro ⟨i, e⟩ w hu
    cases e <;> simp_all [Expr.map]
  have hbinary : ∀ {u : Term} {op x y}, u.form = .node ⟨0⟩ (.binary op x y) →
      ∃ i a b, u = .node i (.binary op a b) ∧ a.form = x ∧ b.form = y := by
    rintro ⟨i, e⟩ op x y hu
    cases e <;> simp_all [Expr.map]
  cases h with
  | pointer =>
    obtain ⟨i, rfl⟩ := hregister (by simpa [Expr.map] using hform)
    exact .pointer
  | sum =>
    obtain ⟨i, a, b, rfl, ha, hb⟩ := hbinary (by simpa [Expr.map] using hform)
    obtain ⟨j, rfl⟩ := hregister ha
    obtain ⟨k, rfl⟩ := hconstant hb
    exact .sum
  | difference =>
    obtain ⟨i, a, b, rfl, ha, hb⟩ := hbinary (by simpa [Expr.map] using hform)
    obtain ⟨j, rfl⟩ := hregister ha
    obtain ⟨k, rfl⟩ := hconstant hb
    exact .difference

/-- There is no merge and no variable in such an address. -/
theorem Locates.plain (h : m.Locates negate t v w) {u : Term} (hu : Term.Within u t) :
    u.expr.isTheta = false ∧ ∀ n k o, u.expr ≠ .var n k o := by
  have hleaf : ∀ {i : NodeId} {e : Expr Term}, e.children = [] → Term.Within u (.node i e) →
      u = .node i e := by
    intro i e he hu
    cases hu with
    | refl => rfl
    | inside hc => simp [he] at hc
  cases h with
  | pointer =>
    obtain rfl := hleaf rfl hu
    exact ⟨rfl, fun _ _ _ h => by cases h⟩
  | sum | difference =>
    cases hu with
    | refl => exact ⟨rfl, fun _ _ _ h => by cases h⟩
    | inside hc hu =>
      obtain rfl | rfl : _ ∨ _ := by simpa [Expr.children] using hc
      · obtain rfl := hleaf rfl hu
        exact ⟨rfl, fun _ _ _ h => by cases h⟩
      · obtain rfl := hleaf rfl hu
        exact ⟨rfl, fun _ _ _ h => by cases h⟩

/-- The addresses in the frame are those at a distance from the stack pointer. -/
def Regular (m : Machine) : Prop :=
  m.isOffset = Term.isOffsetFrom m.stackPointer

theorem Regular.isFrameAddress_iff (hm : m.Regular) :
    m.isFrameAddress t = true ↔ ∃ v w, m.Locates negate t v w := by
  unfold isFrameAddress
  rw [hm, Bool.or_eq_true, isStackPointer_iff]
  constructor
  · rintro (⟨i, v, rfl⟩ | h)
    · exact ⟨v, 0, .pointer⟩
    · obtain ⟨i, e⟩ := t
      unfold Term.isOffsetFrom at h
      split at h
      next x y heq =>
        cases heq
        rw [Bool.and_eq_true] at h
        obtain ⟨j, v, rfl⟩ := isStackPointer_iff.1 h.1
        obtain ⟨w, hw⟩ := Option.isSome_iff_exists.1 h.2
        obtain ⟨k, rfl⟩ := constant?_eq_some_iff.1 hw
        exact ⟨v, w, .sum⟩
      next x y heq =>
        cases heq
        rw [Bool.and_eq_true] at h
        obtain ⟨j, v, rfl⟩ := isStackPointer_iff.1 h.1
        obtain ⟨w, hw⟩ := Option.isSome_iff_exists.1 h.2
        obtain ⟨k, rfl⟩ := constant?_eq_some_iff.1 hw
        exact ⟨v, _, .difference⟩
      next => cases h
  · rintro ⟨v, w, h⟩
    cases h with
    | pointer => exact .inl ⟨_, _, rfl⟩
    | sum => exact .inr (by simp [Term.isOffsetFrom, Term.register?, Term.constant?])
    | difference => exact .inr (by simp [Term.isOffsetFrom, Term.register?, Term.constant?])

end Machine

end FrameRecovery
