import FrameRecovery.Flow.Expr

namespace FrameRecovery

/-- An expression read out of a flow as a tree. Every node keeps its number in the flow. -/
inductive Term where
  | node (id : NodeId) (expr : Expr Term)

namespace Term

/-- The number of the outermost node. -/
def id : Term → NodeId
  | node i _ => i

/-- The outermost node. -/
def expr : Term → Expr Term
  | node _ e => e

variable {β : Type}

mutual

/-- The value of a tree, given how to find that of a node from those of its children. -/
def fold (f : NodeId → Expr β → β) : Term → β
  | node i (.register n v) => f i (.register n v)
  | node i (.deref x v) => f i (.deref (fold f x) v)
  | node i (.addressOf x) => f i (.addressOf (fold f x))
  | node i (.var n v o) => f i (.var n v o)
  | node i (.constant w) => f i (.constant w)
  | node i (.binary op x y) => f i (.binary op (fold f x) (fold f y))
  | node i (.unary op x) => f i (.unary op (fold f x))
  | node i (.call x ys) => f i (.call (fold f x) (foldList f ys))
  | node i (.theta xs) => f i (.theta (foldList f xs))
  | node i (.assign x y) => f i (.assign (fold f x) (fold f y))
  | node i (.branch x a) => f i (.branch (fold f x) a)
  | node i (.goto a) => f i (.goto a)
  | node i (.ret none) => f i (.ret none)
  | node i (.ret (some x)) => f i (.ret (some (fold f x)))

/-- The values of several trees. -/
def foldList (f : NodeId → Expr β → β) : List Term → List β
  | [] => []
  | x :: rest => fold f x :: foldList f rest

end

theorem foldList_eq_map (f : NodeId → Expr β → β) (xs : List Term) :
    foldList f xs = xs.map (fold f) := by
  induction xs with
  | nil => simp [foldList]
  | cons x rest ih => simp [foldList, ih]

theorem fold_node (f : NodeId → Expr β → β) (i : NodeId) (e : Expr Term) :
    fold f (node i e) = f i (e.map (fold f)) := by
  cases e with
  | ret x => cases x <;> simp [fold, Expr.map]
  | _ => simp [fold, Expr.map, foldList_eq_map]

/-- What holds of a node whenever it holds of its children holds of every tree. -/
theorem induction {P : Term → Prop}
    (step : ∀ i e, (∀ t ∈ e.children, P t) → P (node i e)) (t : Term) : P t := by
  refine @Term.rec P (fun e => ∀ t ∈ e.children, P t) (fun ts => ∀ t ∈ ts, P t)
    (fun o => ∀ t ∈ o, P t) (fun i e h => step i e h) ?_ ?_ ?_ ?_ ?_ ?_ ?_ ?_ ?_ ?_ ?_ ?_ ?_ ?_
    ?_ ?_ ?_ t
  all_goals simp_all [Expr.children]

/-- The numbers of all nodes, each before those below it, left to right. -/
def preorder (t : Term) : List NodeId :=
  t.fold fun i e => i :: e.children.flatten

/-- The numbers of all nodes, each after those below it, left to right. -/
def postorder (t : Term) : List NodeId :=
  t.fold fun i e => e.children.flatten ++ [i]

/-- Whether there is a call anywhere. -/
def containsCall (t : Term) : Bool :=
  t.fold fun _ e => e.isCall || e.children.any (fun b => b)

/-- Whether the value can be computed anywhere else with the same result: it is built by
    arithmetic from registers, variables, constants and addresses. -/
def isReplaceable (t : Term) : Bool :=
  t.fold fun _ e => match e with
    | .register _ _ | .constant _ | .var _ _ _ | .addressOf _ => true
    | .binary _ a b => a && b
    | .unary _ a => a
    | _ => false

/-- The register that the tree is, if it is one. -/
def register? : Term → Option String
  | node _ (.register n _) => some n
  | _ => none

/-- The constant that the tree is, if it is one. -/
def constant? : Term → Option Word
  | node _ (.constant w) => some w
  | _ => none

/-- Whether the tree is a constant added to a register or subtracted from it. -/
def isOffsetFrom (register : String) : Term → Bool
  | node _ (.binary .add x y) | node _ (.binary .sub x y) =>
    x.register? == some register && y.constant?.isSome
  | _ => false

end Term

end FrameRecovery
