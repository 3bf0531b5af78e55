import FrameRecovery.Listing.Grammar

namespace FrameRecovery

/-- An instruction of a listing. -/
structure Instruction where
  address : Address
  /-- The line it was read from, counted from 1 -/
  line : Nat
  action : Action

namespace Action

/-- The addresses control may be sent to, apart from the next instruction. -/
def targets : Action → List Address
  | goto a | branch _ a => [a]
  | _ => []

theorem length_targets_le_one (a : Action) : a.targets.length ≤ 1 := by
  cases a <;> simp [targets]

/-- Whether control may go on to the next instruction. -/
def fallsThrough : Action → Bool
  | goto _ | ret _ => false
  | _ => true

/-- Whether the instruction is the last of its block. -/
def endsBlock : Action → Bool
  | goto _ | branch _ _ | ret _ => true
  | _ => false

end Action

end FrameRecovery
