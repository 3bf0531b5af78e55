import FrameRecovery.Flow.Pass
import FrameRecovery.Listing.Basic

namespace FrameRecovery

namespace Lowering

mutual

/-- Adds the nodes of an operand to a flow, children first. -/
def operand : Operand → Edit NodeId
  | .register name => Edit.alloc (.register name none)
  | .constant w => Edit.alloc (.constant w)
  | .deref x => do Edit.alloc (.deref (← operand x) none)
  | .addressOf x => do Edit.alloc (.addressOf (← operand x))
  | .binary op x y => do Edit.alloc (.binary op (← operand x) (← operand y))
  | .unary op x => do Edit.alloc (.unary op (← operand x))
  | .call x ys => do Edit.alloc (.call (← operand x) (← operands ys))

/-- Adds the nodes of several operands to a flow, in order. -/
def operands : List Operand → Edit (List NodeId)
  | [] => pure []
  | x :: rest => return (← operand x) :: (← operands rest)

end

/-- Adds the nodes of an instruction to a flow. -/
def action : Action → Edit NodeId
  | .assign x y => do Edit.alloc (.assign (← operand x) (← operand y))
  | .call x => operand x
  | .goto a => Edit.alloc (.goto a)
  | .branch x a => do Edit.alloc (.branch (← operand x) a)
  | .ret none => Edit.alloc (.ret none)
  | .ret (some x) => do Edit.alloc (.ret (some (← operand x)))

/-- Makes the instruction at an address the last statement of a block. -/
def instruction (l : Listing) (block address : Address) : Pass Unit := do
  match l.instruction? address with
  | none => throw (.lowering address)
  | some i =>
    let root ← action i.action
    let _ ← Edit.pushStatement block address root

/-- Makes every instruction of every block a statement. -/
def lower (l : Listing) : Pass Unit := do
  (← get).blocks.values.forM fun b => b.instructions.forM (instruction l b.address)

end Lowering

end FrameRecovery
