import FrameRecovery.Listing.Error
import FrameRecovery.Phase

namespace FrameRecovery

/-- Why the control flow of a function cannot be followed. -/
inductive ControlFlowFault where
  | entryMissing
  | targetMissing (target : Address)
  | runsOff

/-- How the record of a definition's uses can disagree with the flow. A use is given by its
    text. -/
inductive UseFault where
  | refersElsewhere (use : String)
  | definitionRemoved (use : String)
  | unrecorded (use : String)
  | stale (use : String)

/-- The failures that a recovery reports. -/
inductive Error where
  | listing (error : ListingError)
  | controlFlow (address : Address) (fault : ControlFlowFault)
  /-- An instruction of a block is gone from the listing -/
  | lowering (address : Address)
  /-- An operand that should be a stack location has no recognised shape -/
  | unrecognizedLocation (operand : String) (address : Address)
  | inconsistentUses (definition : String) (fault : UseFault)
  | phaseFailed (phase : Phase) (source : Error)
  /-- Nothing can be done after the failure of a phase -/
  | aborted (phase : Phase)

/-- The wording of a control flow fault. -/
def ControlFlowFault.message : ControlFlowFault → String
  | entryMissing => "entry point is not a decodable instruction"
  | targetMissing target => "branch to undecodable address " ++ target.text
  | runsOff => "execution falls through past the end of the function"

/-- The wording of a disagreement about uses. -/
def UseFault.message : UseFault → String
  | refersElsewhere use => "use `" ++ use ++ "` does not refer back to its definition"
  | definitionRemoved use => "live use `" ++ use ++ "` refers to a removed definition"
  | unrecorded use => "live use `" ++ use ++ "` is not recorded"
  | stale use => "recorded use `" ++ use ++ "` is stale"

namespace Error

/-- The shapes a stack location can have. -/
def locationShapes : String :=
  "`sp`, `sp + c`, `sp - c`, or a dereference of one of those"

/-- The wording of a failure. -/
def message : Error → String
  | listing e => "Malformed listing at line " ++ decimal e.line ++ ": " ++ e.fault.message
  | controlFlow a fault =>
    "Control flow recovery failed at " ++ a.text ++ ": " ++ fault.message
  | lowering a =>
    "IR lowering failed at " ++ a.text ++
      ": instruction disappeared after control flow recovery"
  | unrecognizedLocation operand a =>
    "Unrecognized stack location `" ++ operand ++ "` in statement at " ++ a.text ++
      "; expected one of " ++ locationShapes
  | inconsistentUses definition fault =>
    "Inconsistent use chain for definition `" ++ definition ++ "`: " ++ fault.message
  | phaseFailed phase _ => "Phase `" ++ phase.name ++ "` failed"
  | aborted phase => "Session was aborted while running phase `" ++ phase.name ++ "`"

/-- The failure that a failure reports on. -/
def source? : Error → Option Error
  | phaseFailed _ source => some source
  | _ => none

end Error

end FrameRecovery
