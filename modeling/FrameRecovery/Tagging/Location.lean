import FrameRecovery.Reaching.Definitions

namespace FrameRecovery

/-- The kinds of location that are tagged, each in a pass of its own. -/
inductive LocationKind where
  | registers
  /-- Memory, where the text of the address stands for the cell -/
  | derefs
deriving DecidableEq, Repr

namespace LocationKind

/-- The location that an untagged operand of this kind refers to. -/
def locate (kind : LocationKind) (t : Term) : Option Location :=
  match kind, t with
  | registers, .node _ (.register n none) => some n
  | derefs, .node _ (.deref x none) => some x.text
  | _, _ => none

/-- Whether an operand below the given expression is not read: it is assigned to, or only the
    address of the cell is taken. -/
def isUnread (kind : LocationKind) (operand : NodeId) : Expr NodeId → Bool
  | .assign target _ => target == operand
  | .addressOf _ => kind == derefs
  | _ => false

/-- The location that an operand reads, if it is an untagged operand of this kind. -/
def locateRead (kind : LocationKind) (f : Flow) (operand : NodeId) :
    Except Fault (Option Location) := do
  match ← f.parentExpr? operand with
  | some e =>
    if kind.isUnread operand e then return none
    else return kind.locate (← f.term operand)
  | none => return kind.locate (← f.term operand)

end LocationKind

/-- A read of a location. -/
structure Read where
  operand : NodeId
  location : Location
deriving DecidableEq, Repr

/-- What a statement reads and defines, before anything is tagged. -/
structure Visit where
  statement : StatementId
  reads : List Read
  definition : Option Definition
deriving DecidableEq, Repr

/-- What the statements of a block read and define, with what reaches its start. -/
structure BlockPlan where
  block : Address
  reach : Reach
  visits : List Visit
deriving DecidableEq

namespace BlockPlan

/-- The reads of a statement, in operand order. -/
def readsOf (f : Flow) (kind : LocationKind) (s : StatementId) : Except Fault (List Read) := do
  let reads ← (← f.operands s).mapM fun x => do
    return (← kind.locateRead f x).map (Read.mk x)
  return reads.reduceOption

/-- What a statement reads and defines. -/
def visitOf (f : Flow) (kind : LocationKind) (s : StatementId) : Except Fault Visit := do
  return ⟨s, ← readsOf f kind s, ← Summary.definitionAt? f kind.locate s⟩

/-- What there is to tag in a block. -/
def ofBlock (f : Flow) (kind : LocationKind) (ins : Outs) (b : BlockSummary) :
    Except Fault BlockPlan := do
  let visits ← (f.statementsAt b.address).mapM (visitOf f kind)
  return ⟨b.address, (ins.find? b.address).getD .empty, visits⟩

/-- What there is to tag in a flow, block by block. -/
def ofFlow (f : Flow) (kind : LocationKind) : Except Fault (List BlockPlan) := do
  let s ← Summary.ofFlow f kind.locate
  let ins := s.analyze.ins
  s.blocks.mapM (ofBlock f kind ins)

/-- The definitions of a block, in execution order. -/
def definitions (p : BlockPlan) : List Definition :=
  (p.visits.map Visit.definition).reduceOption

end BlockPlan

end FrameRecovery
