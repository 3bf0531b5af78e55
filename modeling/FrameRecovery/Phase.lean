namespace FrameRecovery

/-- The milestones of a recovery, reached one after the other. -/
inductive Phase where
  | nothingDone
  | basicBlocks
  | irForm
  | ssaRegisters
  | stackPropagated
  | ssaDerefs
  | pruned
  | stackRenamed
deriving DecidableEq, Repr

namespace Phase

/-- Every phase, in the order in which they are reached. -/
def all : List Phase :=
  [nothingDone, basicBlocks, irForm, ssaRegisters, stackPropagated, ssaDerefs, pruned, stackRenamed]

/-- The position of a phase in that order. -/
def rank : Phase → Nat
  | nothingDone => 0
  | basicBlocks => 1
  | irForm => 2
  | ssaRegisters => 3
  | stackPropagated => 4
  | ssaDerefs => 5
  | pruned => 6
  | stackRenamed => 7

/-- The name by which a phase is asked for. -/
def name : Phase → String
  | nothingDone => "nothing-done"
  | basicBlocks => "basic-blocks"
  | irForm => "ir-form"
  | ssaRegisters => "ssa-registers"
  | stackPropagated => "stack-propagated"
  | ssaDerefs => "ssa-derefs"
  | pruned => "pruned"
  | stackRenamed => "stack-renamed"

/-- What is achieved once the phase is reached. -/
def description : Phase → String
  | nothingDone => "Nothing done yet"
  | basicBlocks => "Basic block information ready"
  | irForm => "Intermediate form is ready"
  | ssaRegisters => "Static single assignment form (registers)"
  | stackPropagated => "Stack variable is propagated"
  | ssaDerefs => "Static single assignment form (dereferences)"
  | pruned => "Dead assignments pruned"
  | stackRenamed => "Stack locations and registers are renamed"

/-- The phase after this one. -/
def next? (p : Phase) : Option Phase :=
  all[p.rank + 1]?

/-- The last phase. -/
def last : Phase :=
  stackRenamed

/-- The phases before this one, in order. -/
def before (p : Phase) : List Phase :=
  all.filter fun q => q.rank < p.rank

/-- The phase of a name. -/
def ofName? (s : String) : Option Phase :=
  all.find? fun p => p.name == s

/-- The complaint about a name that no phase has. -/
def unknownMessage (s : String) : String :=
  "unknown phase `" ++ s ++ "`; expected one of: " ++ ", ".intercalate (all.map name)

theorem mem_all (p : Phase) : p ∈ all := by
  cases p <;> simp [all]

theorem getElem?_rank (p : Phase) : all[p.rank]? = some p := by
  cases p <;> rfl

end Phase

end FrameRecovery
