import FrameRecovery.Numbering
import FrameRecovery.Word

namespace FrameRecovery

/-- The variables of a stack frame: each offset from the stack pointer on entry has a number,
    given in the order in which the offsets were met. -/
abbrev Frame := Numbering Word

namespace Frame

/-- The name of the variable of a number. -/
def variableName (slot : Nat) : String :=
  "s" ++ decimal slot

/-- The name of the variable at an offset, if there is one. -/
def variableAt? (f : Frame) (offset : Word) : Option String :=
  (f.index? offset).map variableName

/-- The offsets with the names of their variables, in the order of their numbers. -/
def toPairs (f : Frame) : List (Word × String) :=
  f.toList.map fun (slot, offset) => (offset, variableName slot)

end Frame

end FrameRecovery
