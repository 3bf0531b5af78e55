import FrameRecovery.Flow.Edit

namespace FrameRecovery

namespace Simplify

/-- The constant at a node, if there is one. -/
def constant? (f : Flow) (id : NodeId) : Except Fault (Option Word) := do
  match ← f.expr id with
  | .constant w => return some w
  | _ => return none

/-- A node as a constant offset from another one that is no constant. -/
structure Offset where
  base : NodeId
  amount : Word
deriving DecidableEq, Repr

/-- What a sum or a difference adds, given the constant on its right. -/
def signedAmount (op : BinaryOp) (w : Word) : Option Word :=
  match op with
  | .add => some w
  | .sub => some (-w)
  | _ => none

/-- The offset that a node is: a sum or a difference with a constant on the right alone. -/
def offset? (f : Flow) (id : NodeId) : Except Fault (Option Offset) := do
  match ← f.expr id with
  | .binary op x y =>
    match ← constant? f y, ← constant? f x with
    | some w, none => return (signedAmount op w).map (Offset.mk x)
    | _, _ => return none
  | _ => return none

/-- The operator and the constant that write a non-zero offset: the constant is positive
    whenever its magnitude is a word. -/
def written (amount : Word) : BinaryOp × Word :=
  if amount < 0 ∧ amount ≠ Int64.minValue then (.sub, -amount) else (.add, amount)

/-- Makes a node the given offset. Returns the node that is in its position then, which is the
    base itself if the offset is zero. -/
def putOffset (id : NodeId) (o : Offset) : Edit NodeId := do
  if o.amount = 0 then
    Edit.replaceInParent id o.base
    return o.base
  else
    let (op, w) := written o.amount
    let right ← Edit.alloc (.constant w)
    Edit.replace id (.binary op o.base right)
    return id

/-- Rewrites an offset, by joining it with the one that its base is, by dropping it if it is
    zero, or by turning its sign. -/
def joinOffset (id : NodeId) (outer : Offset) (right : Word) : Edit (Option NodeId) := do
  match ← Edit.view (offset? · outer.base) with
  | some inner => return some (← putOffset id ⟨inner.base, outer.amount + inner.amount⟩)
  | none =>
    if right = 0 ∨ (right < 0 ∧ right ≠ Int64.minValue) then
      return some (← putOffset id outer)
    else
      return none

/-- Applies one rule to a binary operation: constants are computed, a constant goes to the
    right of a sum, and offsets are rewritten. -/
def stepBinary (id : NodeId) (op : BinaryOp) (x y : NodeId) : Edit (Option NodeId) := do
  match ← Edit.view (constant? · x), ← Edit.view (constant? · y) with
  | some a, some b =>
    Edit.replace id (.constant (op.eval a b))
    return some id
  | some _, none =>
    if op = .add then
      Edit.replace id (.binary op y x)
      return some id
    else
      return none
  | none, some b =>
    match signedAmount op b with
    | some amount => joinOffset id ⟨x, amount⟩ b
    | none => return none
  | none, none => return none

/-- Applies one rule at a node. Returns the node that is in its position then, or nothing if
    no rule applies. -/
def step (id : NodeId) : Edit (Option NodeId) := do
  match ← Edit.view (·.expr id) with
  | .binary op x y => stepBinary id op x y
  | .unary op x =>
    match ← Edit.view (constant? · x) with
    | some w =>
      Edit.replace id (.constant (op.eval w))
      return some id
    | none => return none
  | _ => return none

/-- Applies rules at a node until none applies, at most the given number of times. Returns the
    node that is in its position then, and how often a rule applied. -/
def steps : Nat → NodeId → Edit (NodeId × Nat)
  | 0, id => throw (.cyclic id)
  | n + 1, id => do
    match ← step id with
    | some next =>
      let (last, count) ← steps n next
      return (last, count + 1)
    | none => return (id, 0)

/-- A number of rule applications that no single position needs: for every node below it, one
    that orders it, one that joins it and one that turns its sign. -/
def stepBound (f : Flow) : Nat :=
  3 * f.depthBound + 1

/-- Simplifies the tree below a node, which has at most the given depth, from the leaves up. -/
def within : Nat → NodeId → Edit (NodeId × Nat)
  | 0, id => throw (.cyclic id)
  | depth + 1, id => do
    let counts ← (← Edit.view (·.children id)).mapM fun c => do return (← within depth c).2
    let (last, count) ← steps (stepBound (← get)) id
    return (last, counts.foldl (· + ·) count)

end Simplify

namespace Edit

/-- Simplifies the expression at a node. Returns the node that is in its position then, and the
    number of rewrites. -/
def simplify (id : NodeId) : Edit (NodeId × Nat) := do
  Simplify.within (← get).depthBound id

/-- Simplifies the expressions of a statement. Returns the number of rewrites. -/
def simplifyStatement (s : StatementId) : Edit Nat := do
  return (← simplify (← view (·.statement s)).root).2

end Edit

end FrameRecovery
