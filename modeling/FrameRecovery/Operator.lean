import FrameRecovery.Word

namespace FrameRecovery

/-- The binary operators of the register-transfer language. -/
inductive BinaryOp where
  | add | sub | mul | and | or | xor | shl | shr | eq | ne | lt | le
deriving DecidableEq, Repr

/-- The unary operators: two's complement negation, and the logical negation that is 1 on 0
    and 0 elsewhere. -/
inductive UnaryOp where
  | neg | not
deriving DecidableEq, Repr

namespace BinaryOp

/-- Every operator, in declaration order. -/
def all : List BinaryOp :=
  [add, sub, mul, and, or, xor, shl, shr, eq, ne, lt, le]

/-- The operator as it is written between its operands. -/
def symbol : BinaryOp → String
  | add => "+"
  | sub => "-"
  | mul => "*"
  | and => "&"
  | or => "|"
  | xor => "^"
  | shl => "<<"
  | shr => ">>"
  | eq => "=="
  | ne => "!="
  | lt => "<"
  | le => "<="

/-- The word for the operator in the structural form of an operand. -/
def label : BinaryOp → String
  | add => "Add"
  | sub => "Sub"
  | mul => "Mul"
  | and => "And"
  | or => "Or"
  | xor => "Xor"
  | shl => "Shl"
  | shr => "Shr"
  | eq => "Eq"
  | ne => "Ne"
  | lt => "Lt"
  | le => "Le"

/-- Binding strength; a higher operator binds tighter. -/
def precedence : BinaryOp → Nat
  | mul => 10
  | add | sub => 9
  | shl | shr => 8
  | lt | le => 7
  | eq | ne => 6
  | and => 5
  | xor => 4
  | or => 3

/-- The value of the operator on two words. Sums, differences and products wrap, a shift
    amount counts modulo 64, a right shift brings in zeros, and order is signed. -/
def eval : BinaryOp → Word → Word → Word
  | add, a, b => a + b
  | sub, a, b => a - b
  | mul, a, b => a * b
  | and, a, b => a &&& b
  | or, a, b => a ||| b
  | xor, a, b => a ^^^ b
  | shl, a, b => a <<< b
  | shr, a, b => (a.toUInt64 >>> b.toUInt64).toInt64
  | eq, a, b => Word.ofBool (a == b)
  | ne, a, b => Word.ofBool (a != b)
  | lt, a, b => Word.ofBool (decide (a < b))
  | le, a, b => Word.ofBool (decide (a ≤ b))

/-- The operator a symbol stands for. -/
def ofSymbol? (s : String) : Option BinaryOp :=
  all.find? fun op => op.symbol == s

end BinaryOp

namespace UnaryOp

/-- The operator as it is written in front of its operand. -/
def symbol : UnaryOp → String
  | neg => "-"
  | not => "!"

/-- The word for the operator in the structural form of an operand. -/
def label : UnaryOp → String
  | neg => "Neg"
  | not => "Not"

/-- The value of the operator on a word. -/
def eval : UnaryOp → Word → Word
  | neg, a => -a
  | not, a => Word.ofBool (a == 0)

/-- The operator a symbol stands for. -/
def ofSymbol? (s : String) : Option UnaryOp :=
  [neg, not].find? fun op => op.symbol == s

end UnaryOp

end FrameRecovery
