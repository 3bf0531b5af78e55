import FrameRecovery.Flow.Term

namespace FrameRecovery

/-- The mark behind a location that shows its version. -/
def versionText : Option Nat → String
  | some v => "@" ++ decimal v
  | none => ""

/-- The text of an expression, given the text of each child on its own and as the operand of
    an operator. -/
def Expr.layout {α : Type} (plain operand : α → String) : Expr α → String
  | register n v => n ++ versionText v
  | deref x v => "[" ++ plain x ++ "]" ++ versionText v
  | addressOf x => "&" ++ operand x
  | var n v _ => n ++ versionText v
  | constant w => w.text
  | binary op x y => operand x ++ " " ++ op.symbol ++ " " ++ operand y
  | unary op x => op.symbol ++ operand x
  | call x ys => "call " ++ plain x ++ "(" ++ ", ".intercalate (ys.map plain) ++ ")"
  | theta xs => "THETA(" ++ ", ".intercalate (xs.map plain) ++ ")"
  | assign x y => plain x ++ " = " ++ plain y
  | branch x a => "if " ++ plain x ++ " goto " ++ a.text
  | goto a => "goto " ++ a.text
  | ret none => "return"
  | ret (some x) => "return " ++ plain x

/-- Whether an expression needs parentheses as the operand of an operator. -/
def Expr.isCompound {α : Type} : Expr α → Bool
  | binary _ _ _ => true
  | _ => false

/-- The text of an expression on its own and as the operand of an operator. -/
structure Rendering where
  plain : String
  operand : String

namespace Term

/-- The two texts of a tree. -/
def rendering (t : Term) : Rendering :=
  t.fold fun _ e =>
    let plain := e.layout Rendering.plain Rendering.operand
    ⟨plain, if e.isCompound then "(" ++ plain ++ ")" else plain⟩

/-- The text of a tree. -/
def text (t : Term) : String :=
  t.rendering.plain

/-- The text of a tree as the operand of an operator: a binary operation is put into
    parentheses. -/
def operandText (t : Term) : String :=
  t.rendering.operand

theorem text_node (i : NodeId) (e : Expr Term) :
    (node i e).text = e.layout text operandText := by
  unfold text rendering
  rw [fold_node]
  cases e with
  | ret x => cases x <;> rfl
  | _ => simp only [Expr.layout, Expr.map, operandText, rendering, Function.comp_def, List.map_map]

theorem operandText_eq (t : Term) :
    t.operandText = if t.expr.isCompound then "(" ++ t.text ++ ")" else t.text := by
  obtain ⟨i, e⟩ := t
  simp only [operandText, text, rendering, fold_node, expr]
  cases e <;> rfl

end Term

end FrameRecovery
