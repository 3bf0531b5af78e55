import FrameRecovery.Flow.Text
import FrameRecovery.Sorted.Map

namespace FrameRecovery

/-- Where a node stands. -/
inductive Place where
  /-- Below no statement: a record, or what a replacement left over -/
  | detached
  | child (parent : NodeId)
  | root (statement : StatementId)
deriving DecidableEq, Repr

/-- How a node takes part in the flow of values. -/
inductive Link where
  | unlinked
  /-- A definition, with the nodes that read it -/
  | definition (uses : List NodeId)
  /-- A read of a definition; without one, of the value on entry to the function -/
  | use (definition : Option NodeId)
deriving DecidableEq, Repr

/-- A node of a flow. -/
structure Node where
  expr : Expr NodeId
  place : Place
  link : Link
deriving DecidableEq, Repr

/-- A statement of a flow. -/
structure Statement where
  /-- The address of the instruction it came from -/
  address : Address
  root : NodeId
  /-- The address of its block -/
  block : Address
  removed : Bool
deriving DecidableEq, Repr

/-- A basic block of a flow. -/
structure Block where
  address : Address
  /-- The addresses of its instructions -/
  instructions : List Address
  /-- Its statements that are not removed, in execution order -/
  statements : List StatementId
  successors : List Address
deriving DecidableEq, Repr

/-- The blocks of a function with their statements, over a store of expression nodes. Nodes
    and statements refer to each other by number, and their numbers never change: what is
    removed stays in the store. -/
structure Flow where
  /-- The address of the function's entry -/
  entry : Address
  nodes : Array Node
  statements : Array Statement
  blocks : SortedMap Address Block

/-- The ways to misuse a flow. -/
inductive Fault where
  | noNode (id : NodeId)
  | noStatement (id : StatementId)
  | noBlock (address : Address)
  | blockExists (address : Address)
  | noPosition (block : Address) (position : Nat)
  | removedBefore (id : StatementId)
  | notAssignable (id : NodeId)
  /-- The node is below itself -/
  | cyclic (id : NodeId)
deriving DecidableEq, Repr

/-- Whether a node is a definition, with the reads recorded for it. -/
def Link.uses : Link → List NodeId
  | definition us => us
  | _ => []

namespace Flow

/-- The flow without blocks of the function at an address. -/
def empty (entry : Address) : Flow :=
  ⟨entry, #[], #[], .empty⟩

/-- The node of a number. -/
def node (f : Flow) (id : NodeId) : Except Fault Node :=
  match f.nodes[id.index]? with
  | some n => .ok n
  | none => .error (.noNode id)

/-- The expression at a node. -/
def expr (f : Flow) (id : NodeId) : Except Fault (Expr NodeId) :=
  return (← f.node id).expr

/-- The link of a node. -/
def link (f : Flow) (id : NodeId) : Except Fault Link :=
  return (← f.node id).link

/-- The children of a node, left to right. -/
def children (f : Flow) (id : NodeId) : Except Fault (List NodeId) :=
  return (← f.expr id).children

/-- The expression above a node, if it is not the topmost one. -/
def parentExpr? (f : Flow) (id : NodeId) : Except Fault (Option (Expr NodeId)) := do
  match (← f.node id).place with
  | .child p => return some (← f.expr p)
  | _ => return none

/-- The statement of a number. -/
def statement (f : Flow) (s : StatementId) : Except Fault Statement :=
  match f.statements[s.index]? with
  | some st => .ok st
  | none => .error (.noStatement s)

/-- The topmost expression of a statement. -/
def rootExpr (f : Flow) (s : StatementId) : Except Fault (Expr NodeId) := do
  f.expr (← f.statement s).root

/-- The block at an address. -/
def block? (f : Flow) (a : Address) : Option Block :=
  f.blocks.find? a

/-- The statements of the block at an address, none if there is no such block. -/
def statementsAt (f : Flow) (a : Address) : List StatementId :=
  match f.block? a with
  | some b => b.statements
  | none => []

/-- The blocks from which control may come to an address. -/
def predecessors (f : Flow) (a : Address) : List Address :=
  (f.blocks.values.filter fun b => b.successors.contains a).map Block.address

/-- All statements that are not removed: blocks in address order, and each in execution
    order. -/
def liveStatements (f : Flow) : List StatementId :=
  f.blocks.values.flatMap Block.statements

/-- A number of steps that no chain of distinct nodes exceeds. -/
def depthBound (f : Flow) : Nat :=
  f.nodes.size + 1

/-- Follows the parents of a node to its statement, for at most the given number of steps. -/
def climb (f : Flow) : Nat → NodeId → Except Fault (Option StatementId)
  | 0, id => .error (.cyclic id)
  | steps + 1, id => do
    match (← f.node id).place with
    | .child p => f.climb steps p
    | .root s => return some s
    | .detached => return none

/-- The statement that holds a node, if any. -/
def statementOf? (f : Flow) (id : NodeId) : Except Fault (Option StatementId) :=
  f.climb f.depthBound id

/-- Whether a node is held by a statement that is not removed. -/
def isLive (f : Flow) (id : NodeId) : Except Fault Bool := do
  match ← f.statementOf? id with
  | some s => return !(← f.statement s).removed
  | none => return false

/-- The tree below a node, if it has at most the given depth. -/
def unfold (f : Flow) : Nat → NodeId → Except Fault Term
  | 0, id => .error (.cyclic id)
  | depth + 1, id => do
    let e ← f.expr id
    return .node id (← e.mapM (f.unfold depth))

/-- The tree below a node. -/
def term (f : Flow) (id : NodeId) : Except Fault Term :=
  f.unfold f.depthBound id

/-- The tree of a statement. -/
def statementTerm (f : Flow) (s : StatementId) : Except Fault Term := do
  f.term (← f.statement s).root

/-- The text of the expression at a node. -/
def text (f : Flow) (id : NodeId) : Except Fault String :=
  return (← f.term id).text

/-- The text of a statement. -/
def statementText (f : Flow) (s : StatementId) : Except Fault String :=
  return (← f.statementTerm s).text

/-- The nodes of a statement below its topmost one, each before those below it, left to
    right. -/
def operands (f : Flow) (s : StatementId) : Except Fault (List NodeId) :=
  return (← f.statementTerm s).preorder.tail

/-- The nodes that read a definition, as recorded there. -/
def uses (f : Flow) (id : NodeId) : Except Fault (List NodeId) :=
  return (← f.link id).uses

end Flow

end FrameRecovery
