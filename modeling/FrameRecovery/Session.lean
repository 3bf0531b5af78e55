import FrameRecovery.ControlFlow
import FrameRecovery.Lowering
import FrameRecovery.Options
import FrameRecovery.Pruning
import FrameRecovery.Renaming
import FrameRecovery.Tagging.Basic
import FrameRecovery.Tagging.Restored
import FrameRecovery.UseChains

namespace FrameRecovery

/-- What a recovery works on, and how. -/
structure Task where
  listing : Listing
  machine : Machine
  options : Options

/-- What the passes of a recovery did. -/
structure SessionStats where
  registerTags : TagStats := {}
  propagation : PropagationStats := {}
  derefTags : TagStats := {}
  pruned : Nat := 0
  renamed : Nat := 0
deriving DecidableEq, Repr

/-- The state of a recovery. -/
structure Session where
  flow : Flow
  /-- The phases that were reached, in order -/
  phases : List Phase
  frame : Frame
  /-- The registers that hold their value on entry at every return -/
  restored : List String
  stats : SessionStats
  /-- The phase that failed, if one did -/
  failed : Option Phase

/-- A step of a recovery. What was done before a failure stays. -/
abbrev Recovery := ExceptT Error (StateT Session (Except Fault))

namespace Session

/-- The state before a recovery of the function at an address. -/
def start (entry : Address) : Session where
  flow := .empty entry
  phases := [.nothingDone]
  frame := .empty
  restored := []
  stats := {}
  failed := none

/-- The last phase that was reached. -/
def current (s : Session) : Phase :=
  s.phases.getLast?.getD .nothingDone

end Session

namespace Recovery

/-- Runs a change of the flow. -/
def onFlow {α : Type} (pass : Pass α) : Recovery α :=
  ExceptT.mk fun s => do
    let (result, flow) ← pass.run.run s.flow
    return (result, { s with flow })

/-- Runs a change of the flow that cannot fail. -/
def onEdit {α : Type} (edit : Edit α) : Recovery α :=
  onFlow (ExceptT.lift edit)

/-- Runs a change of the flow and of the frame. -/
def onFrame {α : Type} (change : Renaming Frame α) : Recovery α :=
  ExceptT.mk fun s => do
    let ((result, frame), flow) ← (change.run.run s.frame).run s.flow
    return (result, { s with flow, frame })

/-- Changes the counts of what was done. -/
def record (change : SessionStats → SessionStats) : Recovery Unit :=
  modify fun s => { s with stats := change s.stats }

/-- Tags memory, and finds the registers that are restored. -/
def tagDerefs (t : Task) : Recovery Unit := do
  let tags ← onEdit (Tagging.tag .derefs)
  record fun stats => { stats with derefTags := tags }
  let restored ← onEdit (Edit.view (·.restoredRegisters t.machine.stackPointer))
  modify fun s => { s with restored }

/-- Removes dead definitions, after a check of the use chains if that is wanted. -/
def prune (t : Task) : Recovery Unit := do
  if t.options.verifyUseChains then
    onFlow verifyUseChains
  let pruned ← onEdit <|
    if t.options.pruneToFixedPoint then Pruning.pruneToFixedPoint else Pruning.prune
  record fun stats => { stats with pruned }

/-- Does what a phase stands for. -/
def perform (t : Task) : Phase → Recovery Unit
  | .nothingDone => pure ()
  | .basicBlocks => onFlow (ControlFlow.recover t.listing)
  | .irForm => onFlow (Lowering.lower t.listing)
  | .ssaRegisters => do
    let tags ← onEdit (Tagging.tag .registers)
    record fun stats => { stats with registerTags := tags }
  | .stackPropagated => do
    let propagation ← onFlow (propagate (.stackPointer t.machine))
    record fun stats => { stats with propagation }
  | .ssaDerefs => tagDerefs t
  | .pruned => prune t
  | .stackRenamed => do
    let renamed ← onFrame <|
      Renaming.rename (StackRenaming.policy t.machine t.options.negateSubtractedOffsets)
    record fun stats => { stats with renamed }

/-- Refuses to go on after a failure. -/
def checkProgress : Recovery Unit := do
  if let some phase := (← get).failed then
    throw (.aborted phase)

section Driver

variable (work : Phase → Recovery Unit)

/-- Does a phase as `work` says and logs it. If it fails, the session fails with it. -/
def reachBy (phase : Phase) : Recovery Unit := do
  tryCatch (work phase) fun e => do
    modify fun s => { s with failed := some phase }
    throw (.phaseFailed phase e)
  modify fun s => { s with phases := s.phases ++ [phase] }

/-- Does the next phase and returns it, or nothing if all are done. -/
def stepBy : Recovery (Option Phase) := do
  checkProgress
  match (← get).current.next? with
  | none => return none
  | some phase =>
    reachBy work phase
    return some phase

/-- Does phases until the given one is reached, at most the given number. -/
def advanceWithinBy (phase : Phase) : Nat → Recovery Unit
  | 0 => pure ()
  | n + 1 => do
    if (← get).current.rank < phase.rank then
      if (← stepBy work).isSome then
        advanceWithinBy phase n

/-- Does the phases that are missing, up to the given one. -/
def advanceToBy (phase : Phase) : Recovery Unit := do
  checkProgress
  advanceWithinBy work phase Phase.all.length

end Driver

/-- Does a phase of a task and logs it. -/
def reach (t : Task) (phase : Phase) : Recovery Unit :=
  reachBy (perform t) phase

/-- Does the next phase of a task and returns it, or nothing if all are done. -/
def step (t : Task) : Recovery (Option Phase) :=
  stepBy (perform t)

/-- Does phases of a task until the given one is reached, at most the given number. -/
def advanceWithin (t : Task) (phase : Phase) (n : Nat) : Recovery Unit :=
  advanceWithinBy (perform t) phase n

/-- Does the phases of a task that are missing, up to the given one. -/
def advanceTo (t : Task) (phase : Phase) : Recovery Unit :=
  advanceToBy (perform t) phase

/-- Does all phases that are missing. -/
def complete (t : Task) : Recovery Unit :=
  advanceTo t Phase.last

end Recovery

end FrameRecovery
