import FrameRecovery.Tagging.Location

namespace FrameRecovery

namespace Restored

/-- The number of definitions that may be looked at to follow one value. -/
def chaseLimit : Nat := 100

/-- The register that an assigned operand is, if it is tagged. -/
def locateTagged : Term → Option Location
  | .node _ (.register n (some _)) => some n
  | _ => none

/-- The value of an assignment to the given node. -/
def assignedValue? (f : Flow) (d : NodeId) : Except Fault (Option NodeId) := do
  match ← f.parentExpr? d with
  | some (.assign target value) => return if target = d then some value else none
  | _ => return none

/-- Runs a test on the members of a list until one fails. The test is given the number of
    steps that are left, and returns it. -/
def allWithin {α : Type} (test : α → Nat → Except Fault (Bool × Nat)) :
    List α → Nat → Except Fault (Bool × Nat)
  | [], budget => return (true, budget)
  | x :: rest, budget => do
    match ← test x budget with
    | (true, budget) => allWithin test rest budget
    | (false, budget) => return (false, budget)

/-- Whether an operand has the value that a register has on entry, given how to tell that of
    a definition. -/
def holdsEntryValue (f : Flow) (register : String)
    (chase : NodeId → Nat → Except Fault (Bool × Nat)) (operand : NodeId) (budget : Nat) :
    Except Fault (Bool × Nat) := do
  let e ← f.expr operand
  if !e.isAssignable then return (false, budget)
  match ← f.link operand with
  | .use none => match e with
    | .register n _ => return (n == register, budget)
    | _ => return (false, budget)
  | .use (some d) => chase d budget
  | _ => return (false, budget)

/-- Whether a definition assigns the value that a register has on entry. Copies, merges and
    reads of memory are followed. Every definition looked at takes one step from the budget,
    which `depth` is not below, and without steps left the answer is no. -/
def definesEntryValue (f : Flow) (register : String) :
    Nat → NodeId → Nat → Except Fault (Bool × Nat)
  | depth + 1, d, budget + 1 => do
    match ← assignedValue? f d with
    | none => return (false, budget)
    | some value =>
      match ← f.expr value with
      | .theta inputs =>
        allWithin (holdsEntryValue f register (definesEntryValue f register depth)) inputs budget
      | _ => holdsEntryValue f register (definesEntryValue f register depth) value budget
  | _, _, budget => return (false, budget)

/-- Whether a point brings the value that a register has on entry. -/
def bringsEntryValue (f : Flow) (register : String) : Point → Except Fault Bool
  | .entry => return true
  | .definition d => return (← definesEntryValue f register chaseLimit d chaseLimit).1

/-- What reaches the returns among the given statements, from what reaches the first. -/
def returnsOf (f : Flow) : Reach → List StatementId → Except Fault (List Reach)
  | _, [] => return []
  | r, s :: rest => do
    let after := match ← Summary.definitionAt? f locateTagged s with
      | some d => r.after d
      | none => r
    let later ← returnsOf f after rest
    return if (← f.rootExpr s).isReturn then r :: later else later

/-- What reaches each return of a flow. -/
def allReturns (f : Flow) (s : Summary) : Except Fault (List Reach) := do
  let ins := s.analyze.ins
  let rs ← s.blocks.mapM fun b =>
    returnsOf f ((ins.find? b.address).getD .empty) (f.statementsAt b.address)
  return rs.flatten

/-- Whether a register has its value on entry wherever one of the given reaches applies. -/
def isRestored (f : Flow) (returns : List Reach) (register : String) : Except Fault Bool :=
  returns.allM fun r => (r.points register).allM (bringsEntryValue f register)

end Restored

/-- The registers that are assigned, and yet hold their value on entry at every return; the
    stack pointer is left out. Registers have to be tagged, and memory too if values saved
    there are to be recognised. A function that never returns restores nothing. -/
def Flow.restoredRegisters (f : Flow) (stackPointer : String) : Except Fault (List String) := do
  let s ← Summary.ofFlow f Restored.locateTagged
  let returns ← Restored.allReturns f s
  if returns.isEmpty then return []
  (s.locations.elements.filter (· != stackPointer)).filterM (Restored.isRestored f returns)

end FrameRecovery
