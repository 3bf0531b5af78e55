import FrameRecovery.Operator

namespace FrameRecovery

/-- The number of a node of a flow. -/
structure NodeId where
  index : Nat
deriving DecidableEq, Repr

instance : Ord NodeId := ⟨fun a b => compare a.index b.index⟩

theorem NodeId.compare_def (a b : NodeId) : compare a b = compare a.index b.index := rfl

instance : Std.TransOrd NodeId where
  eq_swap {a b} := by
    rw [NodeId.compare_def, NodeId.compare_def]
    exact Std.OrientedCmp.eq_swap
  isLE_trans {a b c} h h' := by
    rw [NodeId.compare_def, Nat.isLE_compare] at *
    exact Nat.le_trans h h'

instance : Std.LawfulEqOrd NodeId where
  compare_self := Nat.compare_eq_eq.2 rfl
  eq_of_compare h := congrArg NodeId.mk (Nat.compare_eq_eq.1 h)

/-- The number of a statement of a flow. -/
structure StatementId where
  index : Nat
deriving DecidableEq, Repr

/-- One node of an expression, over children of type `α`. Registers, dereferences and
    variables are the locations that can be assigned; a tagged location has a version. -/
inductive Expr (α : Type) where
  | register (name : String) (version : Option Nat)
  | deref (address : α) (version : Option Nat)
  | addressOf (operand : α)
  /-- A recovered variable. Its origin is a record of the operand it stands for and not a
      child. -/
  | var (name : String) (version : Option Nat) (origin : NodeId)
  | constant (value : Word)
  | binary (op : BinaryOp) (lhs rhs : α)
  | unary (op : UnaryOp) (operand : α)
  | call (target : α) (arguments : List α)
  /-- The merge of several definitions of one location where control flow joins -/
  | theta (inputs : List α)
  | assign (target value : α)
  | branch (condition : α) (target : Address)
  | goto (target : Address)
  | ret (value : Option α)
deriving DecidableEq, Repr

namespace Expr

variable {α β : Type}

/-- The children, left to right. -/
def children : Expr α → List α
  | register _ _ | var _ _ _ | constant _ | goto _ => []
  | deref x _ | addressOf x | unary _ x | branch x _ => [x]
  | binary _ x y | assign x y => [x, y]
  | call x ys => x :: ys
  | theta xs => xs
  | ret x => x.toList

/-- The expression with every child replaced by its image. -/
def map (f : α → β) : Expr α → Expr β
  | register n v => register n v
  | deref x v => deref (f x) v
  | addressOf x => addressOf (f x)
  | var n v o => var n v o
  | constant w => constant w
  | binary op x y => binary op (f x) (f y)
  | unary op x => unary op (f x)
  | call x ys => call (f x) (ys.map f)
  | theta xs => theta (xs.map f)
  | assign x y => assign (f x) (f y)
  | branch x a => branch (f x) a
  | goto a => goto a
  | ret x => ret (x.map f)

/-- The expression with every child replaced by the result of running `f` on it, left to
    right. -/
def mapM {m : Type → Type} [Monad m] (f : α → m β) : Expr α → m (Expr β)
  | register n v => pure (register n v)
  | deref x v => return deref (← f x) v
  | addressOf x => return addressOf (← f x)
  | var n v o => pure (var n v o)
  | constant w => pure (constant w)
  | binary op x y => return binary op (← f x) (← f y)
  | unary op x => return unary op (← f x)
  | call x ys => return call (← f x) (← ys.mapM f)
  | theta xs => return theta (← xs.mapM f)
  | assign x y => return assign (← f x) (← f y)
  | branch x a => return branch (← f x) a
  | goto a => pure (goto a)
  | ret none => pure (ret none)
  | ret (some x) => return ret (some (← f x))

/-- Whether the expression is a location. -/
def isAssignable : Expr α → Bool
  | register _ _ | deref _ _ | var _ _ _ => true
  | _ => false

/-- Whether the expression is a call. -/
def isCall : Expr α → Bool
  | call _ _ => true
  | _ => false

/-- Whether the expression is a merge. -/
def isTheta : Expr α → Bool
  | theta _ => true
  | _ => false

/-- Whether the expression is a return. -/
def isReturn : Expr α → Bool
  | ret _ => true
  | _ => false

/-- The version of a tagged location. -/
def version? : Expr α → Option Nat
  | register _ v | deref _ v | var _ v _ => v
  | _ => none

/-- The location with another version; what is no location has none. -/
def withVersion? (v : Option Nat) : Expr α → Option (Expr α)
  | register n _ => some (register n v)
  | deref x _ => some (deref x v)
  | var n _ o => some (var n v o)
  | _ => none

@[simp] theorem children_map (f : α → β) (e : Expr α) :
    (e.map f).children = e.children.map f := by
  cases e <;> simp [map, children]
  next x => cases x <;> rfl

@[simp] theorem map_id (e : Expr α) : e.map id = e := by
  cases e <;> simp [map]

theorem map_map {γ : Type} (f : α → β) (g : β → γ) (e : Expr α) :
    (e.map f).map g = e.map (g ∘ f) := by
  cases e <;> simp [map]

end Expr

end FrameRecovery
