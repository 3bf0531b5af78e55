import FrameRecovery.Flow.Expr
import FrameRecovery.Proofs.Outcome
import Mathlib.Data.List.Basic

namespace FrameRecovery

namespace Expr

variable {α β γ : Type}

/-- The expression without its children: what kind it is, and all its other parts. -/
def head (e : Expr α) : Expr Unit :=
  e.map fun _ => ()

@[simp] theorem head_map (f : α → β) (e : Expr α) : (e.map f).head = e.head := by
  simp [head, map_map, Function.comp_def]

/-- Kind and children determine an expression. -/
theorem ext_children {e e' : Expr α} (hhead : e.head = e'.head)
    (hchildren : e.children = e'.children) : e = e' := by
  cases e <;> cases e' <;> simp_all [head, map, children]
  next x y => cases x <;> cases y <;> simp_all

theorem map_congr {f g : α → β} {e : Expr α} (h : ∀ c ∈ e.children, f c = g c) : e.map f = e.map g :=
  ext_children (by simp) (by simpa using h)

section Head

variable {e : Expr α}

theorem eq_register_of_head_eq {n : String} {v : Option Nat} (h : e.head = .register n v) :
    e = .register n v := by
  cases e <;> simp_all [head, map]

theorem eq_var_of_head_eq {n : String} {v : Option Nat} {o : NodeId} (h : e.head = .var n v o) :
    e = .var n v o := by
  cases e <;> simp_all [head, map]

theorem eq_constant_of_head_eq {w : Word} (h : e.head = .constant w) : e = .constant w := by
  cases e <;> simp_all [head, map]

theorem eq_binary_of_head_eq {op : BinaryOp} (h : e.head = .binary op () ()) :
    ∃ a b, e = .binary op a b := by
  cases e <;> simp_all [head, map]

theorem eq_unary_of_head_eq {op : UnaryOp} (h : e.head = .unary op ()) : ∃ a, e = .unary op a := by
  cases e <;> simp_all [head, map]

theorem eq_deref_of_head_eq {v : Option Nat} (h : e.head = .deref () v) : ∃ a, e = .deref a v := by
  cases e <;> simp_all [head, map]

theorem eq_addressOf_of_head_eq (h : e.head = .addressOf ()) : ∃ a, e = .addressOf a := by
  cases e <;> simp_all [head, map]

theorem eq_assign_of_head_eq (h : e.head = .assign () ()) : ∃ a b, e = .assign a b := by
  cases e <;> simp_all [head, map]

end Head

/-- Puts a list in the place of the children. It is meant for lists of the right length. -/
def refill (e : Expr α) (ys : List β) : Expr β :=
  match e, ys with
  | register n v, _ => register n v
  | var n v o, _ => var n v o
  | constant w, _ => constant w
  | goto a, _ => goto a
  | theta _, ys => theta ys
  | call _ _, y :: ys => call y ys
  | ret none, _ => ret none
  | ret (some _), y :: _ => ret (some y)
  | deref _ v, y :: _ => deref y v
  | addressOf _, y :: _ => addressOf y
  | unary op _, y :: _ => unary op y
  | branch _ a, y :: _ => branch y a
  | binary op _ _, y :: y' :: _ => binary op y y'
  | assign _ _, y :: y' :: _ => assign y y'
  | _, [] => goto 0
  | _, [_] => goto 0

theorem refill_spec (e : Expr α) {ys : List β} (h : ys.length = e.children.length) :
    (e.refill ys).head = e.head ∧ (e.refill ys).children = ys := by
  cases e with
  | register | var | constant | goto =>
    obtain rfl := List.length_eq_zero_iff.1 h
    exact ⟨rfl, rfl⟩
  | theta xs =>
    have h : ys.length = xs.length := h
    simp [refill, head, map, children, List.map_const', h]
  | call x xs =>
    obtain ⟨y, ys, rfl⟩ := List.exists_cons_of_length_eq_add_one h
    have h : ys.length = xs.length := by simpa [children] using h
    simp [refill, head, map, children, List.map_const', h]
  | ret x =>
    cases x with
    | none =>
      obtain rfl := List.length_eq_zero_iff.1 h
      exact ⟨rfl, rfl⟩
    | some x =>
      obtain ⟨y, rfl⟩ := List.length_eq_one_iff.1 h
      exact ⟨rfl, rfl⟩
  | deref | addressOf | unary | branch =>
    obtain ⟨y, rfl⟩ := List.length_eq_one_iff.1 h
    exact ⟨rfl, rfl⟩
  | binary | assign =>
    obtain ⟨y, y', rfl⟩ := List.length_eq_two.1 h
    exact ⟨rfl, rfl⟩

/-- A computation on the children of an expression is one on their list. -/
theorem mapM_eq {m : Type → Type} [Monad m] [LawfulMonad m] (k : α → m β) (e : Expr α) :
    e.mapM k = e.refill <$> e.children.mapM k := by
  cases e with
  | ret x => cases x <;> simp [mapM, children, refill]
  | theta xs =>
    have h : (theta xs : Expr α).refill (β := β) = theta := by
      funext ys
      cases ys <;> rfl
    simp [mapM, children, h]
  | _ => simp [mapM, children, refill]

theorem mapM_map {m : Type → Type} [Monad m] [LawfulMonad m] (f : α → β) (k : β → m γ)
    (e : Expr α) : (e.map f).mapM k = e.mapM fun a => k (f a) := by
  have h : (e.map f).refill (β := γ) = e.refill := by
    funext ys
    cases e with
    | ret x => cases x <;> rcases ys with _ | ⟨y, _ | ⟨y', ys⟩⟩ <;> rfl
    | _ => rcases ys with _ | ⟨y, _ | ⟨y', ys⟩⟩ <;> rfl
  rw [mapM_eq, mapM_eq, children_map, List.mapM_map, h]
  rfl

end Expr

theorem Gives.length_of_mapM {σ α β : Type} {s : σ} {k : α → StateT σ (Except Fault) β}
    {xs : List α} {Q : List β → σ → Prop} (h : Gives (xs.mapM k) s Q) :
    Gives (xs.mapM k) s fun ys t => ys.length = xs.length ∧ Q ys t := by
  obtain ⟨ys, t, hrun, hQ⟩ := h
  refine ⟨ys, t, hrun, ?_, hQ⟩
  clear hQ
  induction xs generalizing s ys with
  | nil =>
    cases hrun
    rfl
  | cons x rest ih =>
    rw [List.mapM_cons] at hrun
    obtain ⟨y, u, -, hrun⟩ := exists_of_bind_eq_ok hrun
    obtain ⟨ys', u', hrest, hrun⟩ := exists_of_bind_eq_ok hrun
    cases hrun
    simp [ih _ hrest]

/-- Running an edit on the children of an expression gives an expression of the same kind. -/
theorem Gives.of_mapM_expr {σ α β : Type} {s : σ} {k : α → StateT σ (Except Fault) β}
    {e : Expr α} {Q : Expr β → σ → Prop}
    (h : Gives (e.children.mapM k) s fun ys t =>
      ∀ e' : Expr β, e'.head = e.head → e'.children = ys → Q e' t) :
    Gives (e.mapM k) s Q := by
  rw [Expr.mapM_eq, map_eq_pure_bind]
  refine of_bind ((length_of_mapM h).mono ?_)
  intro ys t ⟨hlength, hQ⟩
  obtain ⟨hhead, hchildren⟩ := e.refill_spec hlength
  exact of_pure (hQ _ hhead hchildren)

end FrameRecovery
