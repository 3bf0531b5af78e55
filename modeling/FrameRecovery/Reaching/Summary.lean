import FrameRecovery.Flow.Basic
import FrameRecovery.Sorted.Set

namespace FrameRecovery

/-- The name of a storage location that an analysis keeps apart from the others. -/
abbrev Location := String

/-- An assignment to a tracked location. -/
structure Definition where
  statement : StatementId
  /-- The node that is assigned -/
  site : NodeId
  location : Location
deriving DecidableEq, Repr

/-- What an analysis knows of a block. -/
structure BlockSummary where
  address : Address
  /-- The blocks that control may come from, in address order -/
  predecessors : List Address
  successors : List Address
  /-- Its definitions, in execution order -/
  definitions : List Definition
deriving DecidableEq, Repr

/-- What an analysis knows of a flow. -/
structure Summary where
  entry : Address
  /-- The blocks, in address order -/
  blocks : List BlockSummary
  /-- Every location that has a definition -/
  locations : SortedSet Location
deriving DecidableEq

namespace Summary

/-- The definition that a statement makes, if it assigns to a location that is tracked;
    `locate` names the location of an assigned operand. -/
def definitionAt? (f : Flow) (locate : Term → Option Location) (s : StatementId) :
    Except Fault (Option Definition) := do
  match ← f.rootExpr s with
  | .assign target _ =>
    return (locate (← f.term target)).map fun location => ⟨s, target, location⟩
  | _ => return none

/-- The summary of a block of a flow. -/
def ofBlock (f : Flow) (locate : Term → Option Location) (b : Block) :
    Except Fault BlockSummary := do
  let definitions ← b.statements.mapM (definitionAt? f locate)
  return ⟨b.address, f.predecessors b.address, b.successors, definitions.reduceOption⟩

/-- The summary of a flow. -/
def ofFlow (f : Flow) (locate : Term → Option Location) : Except Fault Summary := do
  let blocks ← f.blocks.values.mapM (ofBlock f locate)
  let locations := blocks.flatMap fun b => b.definitions.map Definition.location
  return ⟨f.entry, blocks, .ofList locations⟩

end Summary

end FrameRecovery
