import FrameRecovery.Proofs.Flow.Typing
import Mathlib.Algebra.GroupWithZero.Nat

namespace FrameRecovery

/-- A test of the kind of an expression. -/
abbrev Expr.Test :=
  Expr Unit → Bool

/-- A test that no constant and no arithmetic passes. -/
def Expr.Test.IsApart (p : Expr.Test) : Prop :=
  ∀ e : Expr Unit, e.isArithmetic = true → p e = false

theorem Expr.Test.IsApart.eq_false {p : Expr.Test} (hp : p.IsApart) :
    (∀ w, p (Expr.constant w : Expr Term).head = false) ∧
    (∀ op (x y : Term), p (Expr.binary op x y).head = false) ∧
    ∀ op (x : Term), p (Expr.unary op x).head = false :=
  ⟨fun _ => hp _ rfl, fun _ _ _ => hp _ rfl, fun _ _ => hp _ rfl⟩

theorem Expr.isApart_isTheta : Expr.Test.IsApart Expr.isTheta := by
  intro e he
  cases e <;> simp_all [Expr.isArithmetic, Expr.isTheta]

theorem Expr.isApart_isCall : Expr.Test.IsApart Expr.isCall := by
  intro e he
  cases e <;> simp_all [Expr.isArithmetic, Expr.isCall]

namespace Term

variable {p : Expr.Test} {t t' u : Term} {i j k : NodeId} {e e' : Expr Term}

/-- How many nodes of a tree pass a test. -/
def count (p : Expr.Test) (t : Term) : Nat :=
  t.fold fun _ e => e.children.sum + (p e.head).toNat

@[simp] theorem count_node (i : NodeId) (e : Expr Term) :
    (node i e).count p = (e.children.map (count p)).sum + (p e.head).toNat := by
  unfold count
  rw [fold_node, Expr.children_map, Expr.head_map]

@[simp] theorem count_form (t : Term) : t.form.count p = t.count p := by
  induction t using Term.induction with
  | step i e ih =>
    rw [form_node, count_node, count_node, Expr.children_map, Expr.head_map, List.map_map]
    congr 2
    exact List.map_congr_left ih

theorem Within.count_le (h : Within u t) : u.count p ≤ t.count p := by
  induction h with
  | refl => exact Nat.le_refl _
  | @inside c i e hc _ ih =>
    obtain ⟨pre, post, hsplit⟩ := List.append_of_mem hc
    simp only [count_node, hsplit, List.map_append, List.map_cons, List.sum_append, List.sum_cons]
    omega

/-- A tree in which nothing passes a test has no tree in it that does. -/
theorem count_eq_zero_iff : t.count p = 0 ↔ ∀ u, Within u t → p u.expr.head = false := by
  constructor
  · intro h u hu
    have hle := hu.count_le (p := p)
    obtain ⟨i, e⟩ := u
    rw [count_node] at hle
    cases hp : p e.head with
    | false => exact hp
    | true =>
      rw [hp, Bool.toNat_true] at hle
      omega
  · intro h
    induction t using Term.induction with
    | step i e ih =>
      have hchildren : (e.children.map (count p)).sum = 0 := by
        refine List.sum_eq_zero_iff_forall_eq_nat.2 fun n hn => ?_
        obtain ⟨c, hc, rfl⟩ := List.mem_map.1 hn
        exact ih c hc fun u hu => h u (.inside hc hu)
      rw [count_node, hchildren, ← expr_node i e, h _ (.refl _)]
      rfl

theorem containsCall_eq_false_iff : t.containsCall = false ↔ t.count Expr.isCall = 0 := by
  induction t using Term.induction with
  | step i e ih =>
    have hself : e.isCall = e.head.isCall := by cases e <;> rfl
    have hfold : (node i e).containsCall = (e.isCall || e.children.any containsCall) := by
      unfold containsCall
      rw [fold_node, Expr.children_map, List.any_map]
      cases e <;> rfl
    rw [hfold, count_node, Bool.or_eq_false_iff, hself, List.any_eq_false, Nat.add_eq_zero_iff,
      List.sum_eq_zero_iff_forall_eq_nat, List.forall_mem_map, Bool.toNat_eq_zero, and_comm]
    refine and_congr_left' (forall₂_congr fun c hc => ?_)
    rw [Bool.not_eq_true]
    exact ih c hc

/-- A change at one place changes the number by as much as it changes there. -/
theorem Somewhere.exists_count {R : Term → Term → Prop} (h : Somewhere R t t') :
    ∃ u u', R u u' ∧ Within u t ∧ t'.count p + u.count p = t.count p + u'.count p := by
  induction h with
  | here h => exact ⟨_, _, h, .refl _, by omega⟩
  | inside hhead hold hnew _ ih =>
    obtain ⟨u, u', hR, hu, heq⟩ := ih
    refine ⟨u, u', hR, .inside (by simp [hold]) hu, ?_⟩
    simp only [count_node, hold, hnew, hhead, List.map_append, List.map_cons, List.sum_append,
      List.sum_cons]
    omega

/-- Whatever has its address taken is as `P` tells. -/
def Addresses (P : Term → Prop) (t : Term) : Prop :=
  ∀ i c, Within (node i (.addressOf c)) t → P c

section Addresses

variable {P : Term → Prop}

theorem addresses_node : (node i e).Addresses P ↔
    (∀ c ∈ e.children, c.Addresses P) ∧ ∀ c, e = .addressOf c → P c := by
  constructor
  · intro h
    refine ⟨fun c hc j d hd => h j d (.inside hc hd), ?_⟩
    rintro c rfl
    exact h i c (.refl _)
  · rintro ⟨hchildren, hself⟩ j d hd
    cases hd with
    | refl => exact hself d rfl
    | inside hc hd => exact hchildren _ hc j d hd

private theorem addresses_of_isOffset {z : Term} {amount : Word} (h : Simplify.IsOffset i z amount t)
    (hz : z.Addresses P) : t.Addresses P := by
  obtain ⟨-, rfl⟩ | ⟨-, k, rfl⟩ := h
  · exact hz
  · simp [addresses_node, Expr.children, hz]

/-- Simplification takes no addresses. -/
theorem Addresses.rule (ht : t.Addresses P) (h : Simplify.Rule t t') : t'.Addresses P := by
  cases h with
  | binary | unary => simp [addresses_node, Expr.children]
  | turn =>
    rw [addresses_node] at ht ⊢
    simpa [Expr.children, and_comm] using ht
  | write _ h | join _ _ h =>
    refine addresses_of_isOffset h ?_
    simp only [addresses_node, Expr.children, List.mem_cons, forall_eq_or_imp] at ht
    simp [ht]

/-- A change at one place that keeps what has its address taken as it should be. -/
theorem Addresses.somewhere {R : Term → Term → Prop} (h : Somewhere R t t') (ht : t.Addresses P)
    (hR : ∀ u u', R u u' → u.Addresses P → u'.Addresses P)
    (hP : ∀ c c', Somewhere R c c' → c.Addresses P → P c → P c') : t'.Addresses P := by
  induction h with
  | here h => exact hR _ _ h ht
  | @inside i e e' before after c c' hhead hold hnew h ih =>
    obtain ⟨hchildren, hself⟩ := addresses_node.1 ht
    have hc := hchildren c (by simp [hold])
    refine addresses_node.2 ⟨fun d hd => ?_, ?_⟩
    · rw [hnew, List.mem_append, List.mem_cons] at hd
      obtain hd | rfl | hd := hd
      · exact hchildren d (by simp [hold, hd])
      · exact ih hc
      · exact hchildren d (by simp [hold, hd])
    · rintro d rfl
      obtain ⟨d₀, rfl⟩ := Expr.eq_addressOf_of_head_eq hhead.symm
      obtain ⟨rfl, hold⟩ | ⟨-, hold⟩ := List.singleton_eq_append_iff.1 hold
      · obtain ⟨rfl, rfl⟩ : c = d₀ ∧ after = [] := by simpa [Expr.children, eq_comm] using hold
        obtain rfl : d = c' := by simpa [Expr.children] using hnew
        exact hP _ _ h hc (hself c rfl)
      · cases hold

end Addresses

/-- No address is taken of anything with a node in it that passes a test. -/
def NoneAddressed (p : Expr.Test) (t : Term) : Prop :=
  ∀ i c, Within (node i (.addressOf c)) t → c.count p = 0

theorem noneAddressed_node : (node i e).NoneAddressed p ↔
    (∀ c ∈ e.children, c.NoneAddressed p) ∧ ∀ c, e = .addressOf c → c.count p = 0 :=
  addresses_node

theorem NoneAddressed.within (h : t.NoneAddressed p) (hu : Within u t) : u.NoneAddressed p :=
  fun i c hc => h i c (hc.trans hu)

/-- A change at one place that keeps the number there takes no new addresses. -/
theorem NoneAddressed.somewhere {R : Term → Term → Prop} (h : Somewhere R t t') (ht : t.NoneAddressed p)
    (hR : ∀ u u', R u u' → u.NoneAddressed p → u'.count p = u.count p ∧ u'.NoneAddressed p) :
    t'.count p = t.count p ∧ t'.NoneAddressed p := by
  have hcount : ∀ {c c'}, Somewhere R c c' → c.NoneAddressed p → c'.count p = c.count p := by
    intro c c' h hc
    obtain ⟨u, u', hu, hwithin, heq⟩ := h.exists_count (p := p)
    have hsame := (hR u u' hu (hc.within hwithin)).1
    omega
  exact ⟨hcount h ht, Addresses.somewhere h ht (fun u u' hu hnone => (hR u u' hu hnone).2)
    fun c c' h hc hP => (hcount h hc).trans hP⟩

/-- A value that can be computed anywhere has no calls in it but below addresses. -/
theorem count_isCall_of_isReplaceable (h : t.isReplaceable = true) (hnone : t.NoneAddressed Expr.isCall) :
    t.count Expr.isCall = 0 := by
  induction t using Term.induction with
  | step i e ih =>
    obtain ⟨hchildren, hself⟩ := noneAddressed_node.1 hnone
    unfold isReplaceable at h ih
    rw [fold_node] at h
    rw [count_node]
    cases e with
    | register | constant | var => rfl
    | addressOf c => simp [Expr.children, hself c rfl, Expr.head, Expr.map, Expr.isCall]
    | binary op a b =>
      obtain ⟨ha, hb⟩ : a.isReplaceable = true ∧ b.isReplaceable = true := by
        simpa [Expr.map, isReplaceable] using h
      have ha := ih a (by simp [Expr.children]) ha (hchildren a (by simp [Expr.children]))
      have hb := ih b (by simp [Expr.children]) hb (hchildren b (by simp [Expr.children]))
      simp [Expr.children, ha, hb, Expr.head, Expr.map, Expr.isCall]
    | unary op a =>
      have ha := ih a (by simp [Expr.children]) (by simpa [Expr.map] using h) (hchildren a (by simp [Expr.children]))
      simp [Expr.children, ha, Expr.head, Expr.map, Expr.isCall]
    | _ => simp [Expr.map] at h

section Rules

variable (hp : p.IsApart)
include hp

private theorem count_of_isOffset {z : Term} {amount : Word} (h : Simplify.IsOffset i z amount t) :
    t.count p = z.count p := by
  obtain ⟨-, rfl⟩ | ⟨-, k, rfl⟩ := h
  · rfl
  · simp [hp.eq_false, Expr.children]

theorem count_of_rule (h : Simplify.Rule t t') : t'.count p = t.count p := by
  cases h with
  | binary | unary | turn => simp [hp.eq_false, Expr.children]
  | write _ ht | join _ _ ht =>
    rw [count_of_isOffset hp ht]
    simp [hp.eq_false, Expr.children]

/-- Simplification only moves what is no arithmetic. -/
theorem Rewrites.count_eq (h : t.Rewrites t') : t'.count p = t.count p := by
  induction h with
  | refl => rfl
  | tail _ h ih =>
    obtain ⟨u, u', hrule, -, heq⟩ := h.exists_count (p := p)
    have hsame := count_of_rule hp hrule
    omega

omit hp in
theorem NoneAddressed.rewrites (ht : t.NoneAddressed p) (h : t.Rewrites t') (hp : p.IsApart) :
    t'.NoneAddressed p := by
  induction h with
  | refl => exact ht
  | tail _ h ih => exact (ih.somewhere h fun u u' hu hnone => ⟨count_of_rule hp hu, Addresses.rule hnone hu⟩).2

end Rules

end Term

end FrameRecovery
