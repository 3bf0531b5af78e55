import FrameRecovery.Flow.Pass
import FrameRecovery.Frame
import FrameRecovery.Machine
import FrameRecovery.Propagation

namespace FrameRecovery

/-- A change of a flow and of a state beside it that can fail. What was changed before the
    failure stays. -/
abbrev Renaming (σ : Type) := ExceptT Error (StateT σ Edit)

/-- Decides which operands are replaced, and by what. -/
structure RenamePolicy (σ : Type) where
  selects : Flow → NodeId → Except Fault Bool
  /-- The expression to put at a selected operand -/
  replacement : NodeId → Renaming σ (Expr NodeId)

namespace Renaming

variable {σ : Type}

/-- Puts a new expression at an operand. The links below it go, and so does its own unless the
    new expression is a location. -/
def put (operand : NodeId) (new : Expr NodeId) : Edit Unit := do
  (← Edit.view (·.children operand)).forM Edit.unlinkSubtree
  if !new.isAssignable then
    Edit.unlink operand
  Edit.replace operand new

/-- Replaces the selected operands among a node and those below it, to at most the given
    depth; what is below a replaced operand is left alone. Returns the number of
    replacements. -/
def visit (policy : RenamePolicy σ) : Nat → NodeId → Renaming σ Nat
  | 0, id => throwThe Fault (.cyclic id)
  | depth + 1, id => do
    if ← Edit.view (policy.selects · id) then
      put id (← policy.replacement id)
      return 1
    else
      return (← (← Edit.view (·.children id)).mapM (visit policy depth)).foldl (· + ·) 0

/-- Replaces the selected operands of a statement. -/
def visitStatement (policy : RenamePolicy σ) (s : StatementId) : Renaming σ Nat := do
  let root := (← Edit.view (·.statement s)).root
  let bound ← Edit.view fun f => .ok f.depthBound
  return (← (← Edit.view (·.children root)).mapM (visit policy bound)).foldl (· + ·) 0

/-- Replaces the selected operands of all statements: blocks in address order, statements in
    execution order, and operands before those below them, left to right. Returns the number
    of replacements. -/
def rename (policy : RenamePolicy σ) : Renaming σ Nat := do
  let statements ← Edit.view fun f => .ok f.liveStatements
  return (← statements.mapM (visitStatement policy)).foldl (· + ·) 0

end Renaming

namespace StackRenaming

/-- Whether a node is assigned to. -/
def isAssigned (f : Flow) (id : NodeId) : Except Fault Bool := do
  match ← f.parentExpr? id with
  | some (.assign target _) => return target == id
  | _ => return false

/-- Whether an operand is renamed: reads and writes of the frame and addresses into it, but
    neither the operands of a merge nor a stack pointer that is assigned to. -/
def selects (m : Machine) (f : Flow) (id : NodeId) : Except Fault Bool := do
  if ← PropagationPolicy.isThetaInput f id then return false
  match ← f.expr id with
  | .deref x _ => return m.isFrameAddress (← f.term x)
  | .register _ _ => return !(← isAssigned f id) && m.isFrameAddress (← f.term id)
  | _ => return m.isFrameAddress (← f.term id)

/-- The address that an operand reads or writes, or else the operand itself. -/
def addressOf : Term → Term
  | .node _ (.deref x _) => x
  | t => t

/-- The address of the instruction that a node belongs to, or of the function. -/
def instructionOf (f : Flow) (id : NodeId) : Except Fault Address := do
  match ← f.statementOf? id with
  | some s => return (← f.statement s).address
  | none => return f.entry

/-- The offset in the frame that an operand denotes, directly or through one dereference. -/
def locate (m : Machine) (negate : Bool) (id : NodeId) : Pass Word := do
  let t ← Edit.view (·.term id)
  match m.offset? negate (addressOf t) with
  | some offset => return offset
  | none => throw (.unrecognizedLocation t.text (← Edit.view (instructionOf · id)))

/-- The variable that stands for a read or a write of the frame, or the address of it for an
    address. Only a definition keeps its version. -/
def replacement (m : Machine) (negate : Bool) (id : NodeId) : Renaming Frame (Expr NodeId) := do
  let offset ← ExceptT.mk (liftM (locate m negate id).run)
  let (slot, frame) := (← getThe Frame).assign offset
  set frame
  let origin ← Edit.snapshot id
  let name := Frame.variableName slot
  match ← Edit.view (·.expr id) with
  | .deref _ version => match ← Edit.view (·.link id) with
    | .definition _ => return .var name version origin
    | _ => return .var name none origin
  | _ => return .addressOf (← Edit.alloc (.var name none origin))

/-- Replaces what lies in the frame by variables. -/
def policy (m : Machine) (negate : Bool) : RenamePolicy Frame :=
  ⟨selects m, replacement m negate⟩

end StackRenaming

end FrameRecovery
