import FrameRecovery.Flow.Edit
import FrameRecovery.Tagging.Location

namespace FrameRecovery

/-- What a tagging pass did. -/
structure TagStats where
  definitions : Nat := 0
  uses : Nat := 0
  thetas : Nat := 0
deriving DecidableEq, Repr

namespace Tagging

/-- The last version given to each location. -/
abbrev Versions := SortedMap Location Nat

/-- Gives a location its next version. -/
def Versions.next (vs : Versions) (l : Location) : Nat × Versions :=
  let v := (vs.find? l).getD 0 + 1
  (v, vs.insert l v)

/-- Makes an operand the definition of a version that nothing reads so far. -/
def markDefinition (site : NodeId) (version : Nat) : Edit Unit := do
  Edit.setVersion site (some version)
  Edit.setLink site (.definition [])

/-- Makes an operand a read of a definition and gives it the version of that; a read of the
    value on entry has version 0. -/
def markRead (operand : NodeId) (definition : Option NodeId) : Edit Unit := do
  let version ← match definition with
    | some d => do pure (← Edit.view (·.expr d)).version?
    | none => pure (some 0)
  Edit.setVersion operand version
  Edit.linkUse operand definition

/-- A new untagged operand for the location of another operand. -/
def freshLike (operand : NodeId) : Edit NodeId := do
  match ← Edit.view (·.expr operand) with
  | .deref x _ => do Edit.alloc (.deref (← Edit.copy x) none)
  | .register n _ => Edit.alloc (.register n none)
  | e => Edit.alloc e

/-- The definition that a point stands for. -/
def definitionAt : Point → Option NodeId
  | .entry => none
  | .definition d => some d

/-- A new operand of a merge: a read of one of the points that meet. -/
def thetaInput (like : NodeId) (p : Point) : Edit NodeId := do
  let x ← freshLike like
  markRead x (definitionAt p)
  return x

/-- Puts a merge of several points into a block and returns the operand it defines. The
    location is that of the operand `like`. -/
def insertTheta (block : Address) (position : Nat) (like : NodeId) (points : List Point)
    (version : Nat) : Edit NodeId := do
  let inputs ← points.mapM (thetaInput like)
  let theta ← Edit.alloc (.theta inputs)
  let target ← freshLike like
  markDefinition target version
  let root ← Edit.alloc (.assign target theta)
  let _ ← Edit.insertStatement block position block root
  return target

/-- The state of tagging within a block. -/
structure Progress where
  versions : Versions
  /-- What reaches the current statement -/
  reach : Reach
  /-- The merges at the head of the block, at most one a location -/
  merges : SortedMap Location NodeId
deriving DecidableEq

/-- The definition for an operand that several points reach: the merge of its location at the
    head of the block, which is made when it is first needed. -/
def merge (block : Address) (points : List Point) (p : Progress) (r : Read) :
    Edit (NodeId × Progress) := do
  match p.merges.find? r.location with
  | some d => return (d, p)
  | none =>
    let (version, versions) := p.versions.next r.location
    let d ← insertTheta block p.merges.entries.length r.operand points version
    return (d, { p with versions, merges := p.merges.insert r.location d })

/-- Links a read to what reaches it. -/
def tagRead (block : Address) (p : Progress) (r : Read) : Edit Progress := do
  match p.reach.points r.location with
  | [] | [.entry] =>
    markRead r.operand none
    return p
  | [.definition d] =>
    markRead r.operand (some d)
    return p
  | points =>
    let (d, p) ← merge block points p r
    markRead r.operand (some d)
    return p

/-- Links the reads of a statement, and lets its definition reach what follows. -/
def tagVisit (block : Address) (p : Progress) (v : Visit) : Edit Progress := do
  let p ← v.reads.foldlM (tagRead block) p
  match v.definition with
  | some d => return { p with reach := p.reach.after d }
  | none => return p

/-- Links the reads of a block. Returns the versions given so far and the number of merges. -/
def tagBlock (versions : Versions) (plan : BlockPlan) : Edit (Versions × Nat) := do
  let p ← plan.visits.foldlM (tagVisit plan.block) ⟨versions, plan.reach, .empty⟩
  return (p.versions, p.merges.entries.length)

/-- Gives every definition the next version of its location. -/
def tagDefinitions (ds : List Definition) : Edit Versions :=
  ds.foldlM (fun vs d => do
    let (v, vs) := vs.next d.location
    markDefinition d.site v
    return vs) .empty

/-- Gives all locations of a kind versions, in such a way that every read is linked to the one
    definition that reaches it; where several meet, a merge is put in front. -/
def tag (kind : LocationKind) : Edit TagStats := do
  let plans ← Edit.view fun f => BlockPlan.ofFlow f kind
  let definitions := plans.flatMap BlockPlan.definitions
  let versions ← tagDefinitions definitions
  let (_, thetas) ← plans.foldlM (fun (versions, count) plan => do
    let (versions, merges) ← tagBlock versions plan
    return (versions, count + merges)) (versions, 0)
  return {
    definitions := definitions.length
    uses := (plans.flatMap fun p => p.visits.flatMap Visit.reads).length
    thetas := thetas }

/-- Whether a statement assigns a merge. -/
def isThetaAssignment (f : Flow) (s : StatementId) : Except Fault Bool := do
  match ← f.rootExpr s with
  | .assign _ value => return (← f.expr value).isTheta
  | _ => return false

/-- Removes link and version of a node. -/
def clear (id : NodeId) : Edit Unit := do
  Edit.setLink id .unlinked
  if (← Edit.view (·.expr id)).isAssignable then
    Edit.setVersion id none

/-- Removes a merge, or the links and versions of any other statement. -/
def untagStatement (s : StatementId) : Edit Unit := do
  let root := (← Edit.view (·.statement s)).root
  if ← Edit.view (isThetaAssignment · s) then
    Edit.unlinkSubtree root
    Edit.removeStatement s
  else
    (← Edit.view (·.operands s)).forM clear
    clear root

/-- Removes all versions and links, and the merges. -/
def untag : Edit Unit := do
  (← get).liveStatements.forM untagStatement

end Tagging

end FrameRecovery
