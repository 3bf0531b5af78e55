import FrameRecovery.Flow.Pass
import FrameRecovery.Listing.Basic
import FrameRecovery.Sorted.Set

namespace FrameRecovery

namespace ControlFlow

/-- The instruction after an instruction that control may go on from. -/
def next? (l : Listing) (i : Instruction) : Except Error (Option Address) :=
  if i.action.fallsThrough then
    match l.next? i.address with
    | some a => .ok (some a)
    | none => .error (.controlFlow i.address .runsOff)
  else .ok none

/-- Refuses an instruction that branches to an address without instruction. -/
def checkTargets (l : Listing) (i : Instruction) : Except Error Unit :=
  i.action.targets.forM fun t =>
    if (l.instruction? t).isSome then .ok ()
    else .error (.controlFlow i.address (.targetMissing t))

/-- The addresses at which blocks start because of an instruction: its targets, and what
    follows it if it ends its block. -/
def leadersOf (i : Instruction) (next : Option Address) : List Address :=
  i.action.targets ++ if i.action.endsBlock then next.toList else []

/-- Follows control from the addresses in `work`, the first one first, and adds the block
    starts it finds to `leaders`. `pending` holds the instructions not reached so far. -/
def explore (l : Listing) (pending : List Address) (leaders : SortedSet Address)
    (work : List Address) : Except Error (SortedSet Address) :=
  match work with
  | [] => .ok leaders
  | a :: work =>
    if h : a ∈ pending then
      match l.instruction? a with
      | none => .error (.controlFlow a (.targetMissing a))
      | some i =>
        match checkTargets l i, next? l i with
        | .error e, _ | .ok _, .error e => .error e
        | .ok _, .ok next =>
          have := List.length_erase_of_mem h
          have := List.length_pos_of_mem h
          have := i.action.length_targets_le_one
          have := Option.length_toList_le (o := next)
          explore l (pending.erase a) ((leadersOf i next).foldl SortedSet.insert leaders)
            (next.toList ++ i.action.targets.reverse ++ work)
    else explore l pending leaders work
termination_by 2 * pending.length + work.length
decreasing_by all_goals simp only [List.length_append, List.length_reverse, List.length_cons]; omega

/-- A block before it has statements. -/
structure Extent where
  start : Address
  /-- The addresses of its instructions -/
  instructions : List Address
  successors : List Address
deriving DecidableEq, Repr

/-- The given addresses, followed by the targets that are not among them. -/
def withTargets (next : Option Address) (targets : List Address) : List Address :=
  targets.foldl (fun ss t => if ss.contains t then ss else ss ++ [t]) next.toList

/-- The straight run at the front of a list of instructions, up to the first one that ends a
    block or comes right before a block start, with the successors of that one. -/
def straightRun (leaders : SortedSet Address) : List Instruction → List Address × List Address
  | [] => ([], [])
  | i :: rest =>
    let next := if i.action.fallsThrough then rest.head?.map Instruction.address else none
    if i.action.endsBlock || next.all leaders.contains then
      ([i.address], withTargets next i.action.targets)
    else
      let (instructions, successors) := straightRun leaders rest
      (i.address :: instructions, successors)

/-- The block that starts at an address. -/
def extentAt (l : Listing) (leaders : SortedSet Address) (start : Address) : Extent :=
  let (instructions, successors) :=
    straightRun leaders (l.instructions.values.dropWhile fun i => decide (i.address < start))
  ⟨start, instructions, successors⟩

/-- The blocks of the function at an address, in address order. Blocks start at the entry, at
    every branch target, and after every branch. -/
def extents (l : Listing) (entry : Address) : Except Error (List Extent) :=
  if (l.instruction? entry).isSome then do
    let leaders ← explore l l.instructions.keys (.singleton entry) [entry]
    return leaders.elements.map (extentAt l leaders)
  else .error (.controlFlow entry .entryMissing)

/-- Adds the blocks of the function to a flow. -/
def recover (l : Listing) : Pass Unit := do
  match extents l (← get).entry with
  | .error e => throw e
  | .ok es => es.forM fun e => Edit.addBlock e.start e.instructions e.successors

end ControlFlow

end FrameRecovery
