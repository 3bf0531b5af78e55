import FrameRecovery.Operator

namespace FrameRecovery

/-- An operand of an instruction, as it was written. -/
inductive Operand where
  | register (name : String)
  | constant (value : Word)
  | deref (address : Operand)
  | addressOf (operand : Operand)
  | binary (op : BinaryOp) (lhs rhs : Operand)
  | unary (op : UnaryOp) (operand : Operand)
  | call (target : Operand) (arguments : List Operand)

namespace Operand

/-- Whether the operand may stand on the left of an assignment. -/
def isAssignable : Operand → Bool
  | register _ | deref _ => true
  | _ => false

/-- Whether the operand is a call. -/
def isCall : Operand → Bool
  | call _ _ => true
  | _ => false

mutual

/-- The structural form of an operand: the name of each node with its parts in parentheses. -/
def structuralText : Operand → String
  | register name => "Register(\"" ++ name ++ "\")"
  | constant value => "Value(" ++ value.signedDecimal ++ ")"
  | deref address => "Deref(" ++ address.structuralText ++ ")"
  | addressOf operand => "Address(" ++ operand.structuralText ++ ")"
  | binary op lhs rhs =>
    "Binary(" ++ op.label ++ ", " ++ lhs.structuralText ++ ", " ++ rhs.structuralText ++ ")"
  | unary op operand => "Unary(" ++ op.label ++ ", " ++ operand.structuralText ++ ")"
  | call target arguments =>
    "Call(" ++ target.structuralText ++ ", [" ++ ", ".intercalate (structuralTexts arguments) ++ "])"

/-- The structural forms of several operands. -/
def structuralTexts : List Operand → List String
  | [] => []
  | x :: rest => x.structuralText :: structuralTexts rest

end

end Operand

end FrameRecovery
