import FrameRecovery.Flow.Pass
import FrameRecovery.Machine
import FrameRecovery.Simplify

namespace FrameRecovery

/-- Decides whether the value of a definition may be put in the place of one of its reads. -/
abbrev PropagationPolicy :=
  Flow → (definition value use : NodeId) → Except Fault Bool

/-- What a propagation did. -/
structure PropagationStats where
  /-- The reads that the policy was asked about -/
  considered : Nat := 0
  /-- The reads that were replaced -/
  substitutions : Nat := 0
deriving DecidableEq, Repr

namespace PropagationPolicy

/-- Leaves every read alone. -/
def never : PropagationPolicy :=
  fun _ _ _ _ => .ok false

/-- Replaces every read whose value can be computed anywhere. -/
def replaceable : PropagationPolicy :=
  fun f _ value _ => return (← f.term value).isReplaceable

/-- Whether a node is an operand of a merge. -/
def isThetaInput (f : Flow) (id : NodeId) : Except Fault Bool := do
  match ← f.parentExpr? id with
  | some e => return e.isTheta
  | none => return false

/-- Replaces the reads of the stack pointer whose value can be computed anywhere, apart from
    those that a merge makes. -/
def stackPointer (m : Machine) : PropagationPolicy :=
  fun f definition value use => do
    if !m.isStackPointer (← f.term definition) then return false
    if ← isThetaInput f use then return false
    return (← f.term value).isReplaceable

end PropagationPolicy

namespace Propagation

/-- The value that a statement assigns now, or the given one if it assigns none. -/
def valueOf (f : Flow) (s : StatementId) (otherwise : NodeId) : Except Fault NodeId := do
  match ← f.rootExpr s with
  | .assign _ value => return value
  | _ => return otherwise

/-- The statement that holds a node, if it is not removed. -/
def liveStatementOf? (f : Flow) (id : NodeId) : Except Fault (Option StatementId) := do
  match ← f.statementOf? id with
  | some s => return if (← f.statement s).removed then none else some s
  | none => return none

/-- Puts a copy of a value in the place of a read, and simplifies the statement around it. -/
def substitute (value use : NodeId) (around : StatementId) : Edit Unit := do
  let new ← Edit.copy value
  Edit.unlink use
  Edit.replaceInParent use new
  let _ ← Edit.simplifyStatement around

/-- Refuses a recorded read that does not read the definition it is recorded for. -/
def checkUse (definition use : NodeId) : Pass Unit := do
  if (← Edit.view (·.link use)) ≠ .use (some definition) then
    throw (.inconsistentUses (← Edit.view (·.text definition))
      (.refersElsewhere (← Edit.view (·.text use))))

/-- Puts the value that a statement assigns in the place of one of its reads, if that is live
    and the policy agrees. -/
def propagateUse (policy : PropagationPolicy) (s : StatementId) (definition value : NodeId)
    (stats : PropagationStats) (use : NodeId) : Pass PropagationStats := do
  checkUse definition use
  match ← Edit.view (liveStatementOf? · use) with
  | none => return stats
  | some around =>
    let stats := { stats with considered := stats.considered + 1 }
    let value ← Edit.view (valueOf · s value)
    if ← Edit.view (policy · definition value use) then
      substitute value use around
      return { stats with substitutions := stats.substitutions + 1 }
    else
      return stats

/-- Puts the value that a statement assigns to a tagged location in the place of its reads. -/
def propagateStatement (policy : PropagationPolicy) (stats : PropagationStats)
    (s : StatementId) : Pass PropagationStats := do
  match ← Edit.view (·.rootExpr s) with
  | .assign target value =>
    if (← Edit.view (·.expr target)).version?.isNone then return stats
    (← Edit.view (·.uses target)).foldlM (propagateUse policy s target value) stats
  | _ => return stats

end Propagation

/-- Puts the values of definitions in the place of their reads, as far as the policy agrees. -/
def propagate (policy : PropagationPolicy) : Pass PropagationStats := do
  (← get).liveStatements.foldlM (Propagation.propagateStatement policy) {}

end FrameRecovery
