import FrameRecovery.Flow.Pass

namespace FrameRecovery

namespace UseChains

/-- Fails with a disagreement about the uses of a definition. -/
def disagree {α : Type} (definition : NodeId) (fault : UseFault) : Pass α := do
  throw (.inconsistentUses (← Edit.view (·.text definition)) fault)

/-- Checks that a read is of a live definition that has recorded it. -/
def checkRead (operand definition : NodeId) : Pass Unit := do
  if !(← Edit.view (·.isLive definition)) then
    disagree definition (.definitionRemoved (← Edit.view (·.text operand)))
  if !(← Edit.view (·.uses definition)).contains operand then
    disagree definition (.unrecorded (← Edit.view (·.text operand)))

/-- Checks that a recorded use is a live read of the definition. -/
def checkRecord (definition use : NodeId) : Pass Unit := do
  let link ← Edit.view (·.link use)
  let live ← Edit.view (·.isLive use)
  if link ≠ .use (some definition) ∨ !live then
    disagree definition (.stale (← Edit.view (·.text use)))

/-- Checks the link of a node. -/
def checkNode (id : NodeId) : Pass Unit := do
  match ← Edit.view (·.link id) with
  | .use (some d) => checkRead id d
  | .definition uses => uses.forM (checkRecord id)
  | .use none | .unlinked => pure ()

/-- Checks the links in a statement. -/
def checkStatement (s : StatementId) : Pass Unit := do
  (← Edit.view (·.operands s)).forM checkNode
  checkNode (← Edit.view (·.statement s)).root

end UseChains

/-- Checks that every live read is recorded by its live definition, and that every recorded use
    is a live read of the definition. -/
def verifyUseChains : Pass Unit := do
  (← get).liveStatements.forM UseChains.checkStatement

end FrameRecovery
