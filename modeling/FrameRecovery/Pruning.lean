import FrameRecovery.Flow.Edit

namespace FrameRecovery

namespace Pruning

/-- Whether a statement is a dead definition: it assigns a value without calls to a tagged
    register that nothing reads. -/
def isPrunable (f : Flow) (s : StatementId) : Except Fault Bool := do
  match ← f.rootExpr s with
  | .assign target value =>
    if (← f.term value).containsCall then return false
    match ← f.expr target with
    | .register _ (some _) => return (← f.uses target).isEmpty
    | _ => return false
  | _ => return false

/-- Removes a statement if it is a dead definition. Returns how many were removed. -/
def pruneStatement (s : StatementId) : Edit Nat := do
  if ← Edit.view (isPrunable · s) then
    Edit.unlinkSubtree (← Edit.view (·.statement s)).root
    Edit.removeStatement s
    return 1
  else
    return 0

/-- Removes dead definitions, looking at every statement once. Returns how many were
    removed. -/
def prune : Edit Nat := do
  return (← (← get).liveStatements.mapM pruneStatement).foldl (· + ·) 0

/-- Repeats the removal until nothing is removed, at most the given number of times. -/
def rounds : Nat → Edit Nat
  | 0 => return 0
  | n + 1 => do
    let removed ← prune
    if removed = 0 then return 0
    return removed + (← rounds n)

/-- Removes dead definitions until there is none. Each round but the last removes a statement,
    so there are no more rounds than statements. Returns how many were removed. -/
def pruneToFixedPoint : Edit Nat := do
  rounds (← get).liveStatements.length

end Pruning

end FrameRecovery
