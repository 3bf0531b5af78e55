import FrameRecovery.Flow.Term

namespace FrameRecovery

/-- A processor, as far as its stack is concerned. -/
structure Machine where
  name : String
  /-- The register that points to the stack -/
  stackPointer : String
  /-- Which addresses are inside the frame, apart from the stack pointer itself -/
  isOffset : Term → Bool := Term.isOffsetFrom stackPointer

namespace Machine

/-- The 32-bit x86. -/
def x86 : Machine :=
  { name := "x86", stackPointer := "esp" }

/-- The 64-bit x86. -/
def x86_64 : Machine :=
  { name := "x86_64", stackPointer := "rsp" }

/-- The machine that a listing names. -/
def ofName? (s : String) : Option Machine :=
  if s = "x86" ∨ s = "i386" then some x86
  else if s = "x86_64" ∨ s = "amd64" then some x86_64
  else none

/-- Whether a tree is the stack pointer itself, in any version. -/
def isStackPointer (m : Machine) (t : Term) : Bool :=
  t.register? == some m.stackPointer

/-- Whether a tree is an address inside the frame. -/
def isFrameAddress (m : Machine) (t : Term) : Bool :=
  m.isStackPointer t || m.isOffset t

/-- Whether a tree is a machine's stack pointer with a constant added or subtracted, in which
    case the distance is given; `negate` says whether a difference lies below the stack
    pointer. -/
def offset? (m : Machine) (negate : Bool) : Term → Option Word
  | .node _ (.register n _) => if n = m.stackPointer then some 0 else none
  | .node _ (.binary .add x y) => if m.isStackPointer x then y.constant? else none
  | .node _ (.binary .sub x y) =>
    if m.isStackPointer x then y.constant?.map fun w => if negate then -w else w else none
  | _ => none

end Machine

end FrameRecovery
