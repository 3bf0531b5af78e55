import FrameRecovery.Flow.Basic

namespace FrameRecovery

/-- A computation that changes a flow. It stops at the first misuse. -/
abbrev Edit := StateT Flow (Except Fault)

namespace Edit

/-- Reads from the flow. -/
def look {α : Type} (read : Flow → Except Fault α) : Edit α :=
  fun f => return (← read f, f)

/-- Reads from the flow, in any computation that can change it. -/
def view {m : Type → Type} [MonadLiftT Edit m] {α : Type} (read : Flow → Except Fault α) : m α :=
  liftM (look read)

/-- Changes a node. -/
def modifyNode (id : NodeId) (change : Node → Node) : Edit Unit := fun f =>
  match f.nodes[id.index]? with
  | some n => .ok ((), { f with nodes := f.nodes.setIfInBounds id.index (change n) })
  | none => .error (.noNode id)

/-- Changes where a node stands. -/
def setPlace (id : NodeId) (place : Place) : Edit Unit :=
  modifyNode id fun n => { n with place }

/-- Changes the expression at a node, and nothing else. -/
def setExpr (id : NodeId) (expr : Expr NodeId) : Edit Unit :=
  modifyNode id fun n => { n with expr }

/-- Changes the link of a node. -/
def setLink (id : NodeId) (link : Link) : Edit Unit :=
  modifyNode id fun n => { n with link }

/-- Changes the version of a location. -/
def setVersion (id : NodeId) (version : Option Nat) : Edit Unit := do
  match (← view (·.expr id)).withVersion? version with
  | some e => setExpr id e
  | none => throw (.notAssignable id)

/-- Adds a node that stands nowhere, and puts its children below it. -/
def alloc (expr : Expr NodeId) : Edit NodeId := do
  let id : NodeId := ⟨(← get).nodes.size⟩
  expr.children.forM fun c => setPlace c (.child id)
  modify fun f => { f with nodes := f.nodes.push ⟨expr, .detached, .unlinked⟩ }
  return id

/-- Puts another expression at a node, which keeps its place and its link. The old children
    stand nowhere unless they are children still. -/
def replace (id : NodeId) (expr : Expr NodeId) : Edit Unit := do
  (← view (·.children id)).forM fun c => setPlace c .detached
  expr.children.forM fun c => setPlace c (.child id)
  setExpr id expr

/-- Puts the node `new` where `old` stands; `old` then stands nowhere. -/
def replaceInParent (old new : NodeId) : Edit Unit := do
  let place := (← view (·.node old)).place
  match place with
  | .child p =>
    let e ← view (·.expr p)
    setExpr p (e.map fun c => if c = old then new else c)
  | .root s =>
    modify fun f => { f with statements := f.statements.modify s.index fun st => { st with root := new } }
  | .detached => pure ()
  setPlace new place
  setPlace old .detached

/-- Records a node among the uses of another one, if that is a definition. -/
def recordUse (definition use : NodeId) : Edit Unit := do
  match ← view (·.link definition) with
  | .definition uses => setLink definition (.definition (uses ++ [use]))
  | _ => pure ()

/-- Strikes a node from the uses of another one, if that is a definition. -/
def strikeUse (definition use : NodeId) : Edit Unit := do
  match ← view (·.link definition) with
  | .definition uses => setLink definition (.definition (uses.filter (· != use)))
  | _ => pure ()

/-- Links a node as a read of a definition, or of the value on entry, and records it there. -/
def linkUse (use : NodeId) (definition : Option NodeId) : Edit Unit := do
  setLink use (.use definition)
  if let some d := definition then
    recordUse d use

/-- Removes the link of a node. A read is struck from its definition; the reads of a
    definition come to read the value on entry. -/
def unlink (id : NodeId) : Edit Unit := do
  let link ← view (·.link id)
  setLink id .unlinked
  match link with
  | .unlinked | .use none => pure ()
  | .use (some d) => strikeUse d id
  | .definition uses => uses.forM fun u => setLink u (.use none)

/-- Removes the links of a node and of all nodes below it. -/
def unlinkSubtree (id : NodeId) : Edit Unit := do
  let t ← view (·.term id)
  t.postorder.forM unlink

/-- A copy of the tree below a node. Every copy of a read is a read of the same definition. -/
def copy (id : NodeId) : Edit NodeId := do
  let t ← view (·.term id)
  t.fold fun source e => do
    let new ← alloc (← e.mapM fun child => child)
    if let .use definition ← view (·.link source) then
      linkUse new definition
    return new

/-- A copy of the tree below a node, without links. -/
def snapshot (id : NodeId) : Edit NodeId := do
  let t ← view (·.term id)
  t.fold fun _ e => do alloc (← e.mapM fun child => child)

/-- Adds a block without statements. -/
def addBlock (address : Address) (instructions successors : List Address) : Edit Unit := do
  if (← get).blocks.contains address then throw (.blockExists address)
  modify fun f =>
    { f with blocks := f.blocks.insert address ⟨address, instructions, [], successors⟩ }

/-- Makes an expression a statement, at a position of a block. -/
def insertStatement (block : Address) (position : Nat) (address : Address) (root : NodeId) :
    Edit StatementId := do
  let s : StatementId := ⟨(← get).statements.size⟩
  modify fun f => { f with statements := f.statements.push ⟨address, root, block, false⟩ }
  setPlace root (.root s)
  match (← get).block? block with
  | none => throw (.noBlock block)
  | some b =>
    if b.statements.length < position then throw (.noPosition block position)
    modify fun f => { f with blocks := f.blocks.modify block fun b =>
      { b with statements := b.statements.insertIdx position s } }
    return s

/-- Makes an expression the last statement of a block. -/
def pushStatement (block address : Address) (root : NodeId) : Edit StatementId := do
  match (← get).block? block with
  | none => throw (.noBlock block)
  | some b => insertStatement block b.statements.length address root

/-- Removes a statement from its block. -/
def removeStatement (s : StatementId) : Edit Unit := do
  let st ← view (·.statement s)
  if st.removed then throw (.removedBefore s)
  modify fun f => { f with
    statements := f.statements.modify s.index fun st => { st with removed := true }
    blocks := f.blocks.modify st.block fun b =>
      { b with statements := b.statements.filter (· != s) } }

end Edit

end FrameRecovery
