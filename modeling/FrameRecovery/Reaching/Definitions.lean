import FrameRecovery.Reaching.Summary

namespace FrameRecovery

/-- Where the value of a location can come from: the state on entry to the function, or a
    definition. -/
inductive Point where
  | entry
  | definition (site : NodeId)
deriving DecidableEq, Repr

namespace Point

/-- The rank of a point: the entry comes first, then the definitions by number. -/
def rank : Point → Nat
  | entry => 0
  | definition d => d.index + 1

theorem rank_injective {p q : Point} (h : p.rank = q.rank) : p = q := by
  cases p <;> cases q <;> simp_all [rank]
  next d e =>
    cases d
    cases e
    simp_all

instance : Ord Point := ⟨fun p q => compare p.rank q.rank⟩

theorem compare_def (p q : Point) : compare p q = compare p.rank q.rank := rfl

instance : Std.TransOrd Point where
  eq_swap {p q} := by
    rw [compare_def, compare_def]
    exact Std.OrientedCmp.eq_swap
  isLE_trans {p q r} h h' := by
    rw [compare_def, Nat.isLE_compare] at *
    exact Nat.le_trans h h'

instance : Std.LawfulEqOrd Point where
  compare_self := Nat.compare_eq_eq.2 rfl
  eq_of_compare h := rank_injective (Nat.compare_eq_eq.1 h)

end Point

/-- For each location that a definition or the entry reaches, the points that reach it. -/
abbrev Reach := SortedMap Location (SortedSet Point)

namespace Reach

/-- The points that reach a location, in order. What nothing is recorded for holds its value
    on entry. -/
def points (r : Reach) (l : Location) : List Point :=
  match r.find? l with
  | some ps => ps.elements
  | none => [.entry]

/-- The reach after an assignment to a location: only that point reaches it. -/
def define (r : Reach) (l : Location) (p : Point) : Reach :=
  r.insert l (.singleton p)

/-- The points of either reach, location by location. -/
def join (r s : Reach) : Reach :=
  s.entries.foldl (fun r e => r.upsert e.1 fun
    | some ps => ps.union e.2
    | none => e.2) r

/-- The reach at the start of a function: every location holds its value on entry. -/
def start (locations : SortedSet Location) : Reach :=
  .ofList (locations.elements.map fun l => (l, .singleton .entry))

/-- The reach after a definition. -/
def after (r : Reach) (d : Definition) : Reach :=
  r.define d.location (.definition d.site)

/-- The reach at the end of a block, from that at its start. -/
def through (r : Reach) (b : BlockSummary) : Reach :=
  b.definitions.foldl after r

end Reach

/-- The reach at each block, at its start or at its end. -/
abbrev Outs := SortedMap Address Reach

/-- The state of the analysis. -/
structure Analysis where
  /-- What was found to reach the start of each block -/
  ins : Outs
  /-- What was found to reach the end of each block -/
  outs : Outs
  /-- The blocks that are still to be looked at, the first one first -/
  work : List BlockSummary

namespace Summary

/-- Whether control can come to a block from outside: it is the entry, or nothing leads to
    it. -/
def isStart (s : Summary) (b : BlockSummary) : Bool :=
  b.address == s.entry || b.predecessors.isEmpty

/-- The block at an address. -/
def block? (s : Summary) (a : Address) : Option BlockSummary :=
  s.blocks.find? fun b => b.address == a

/-- The reach at the start of a block, from that at the end of the blocks before it. -/
def reachIn (s : Summary) (outs : Outs) (b : BlockSummary) : Reach :=
  b.predecessors.foldl (fun r p => r.join ((outs.find? p).getD .empty))
    (if s.isStart b then .start s.locations else .empty)

/-- Looks at a block: it takes over what reaches the end of the blocks before it. If that changes
    what reaches its own end, the blocks after it are to be looked at, behind those in `rest`. -/
def look (s : Summary) (A : Analysis) (b : BlockSummary) (rest : List BlockSummary) : Analysis :=
  let reach := s.reachIn A.outs b
  let out := reach.through b
  { ins := A.ins.insert b.address reach
    outs := A.outs.insert b.address out
    work := if A.outs.find? b.address = some out then rest
      else rest ++ b.successors.filterMap s.block? }

/-- Looks at blocks until none is left to be looked at, at most the given number of times. -/
def looks (s : Summary) : Nat → Analysis → Analysis
  | 0, A => A
  | n + 1, A =>
    match A.work with
    | [] => A
    | b :: rest => s.looks n (s.look A b rest)

/-- What can be found at a place: the value that a location has on entry, and its definitions. -/
def facts (s : Summary) : List (Location × Point) :=
  (s.locations.elements.map fun l => (l, .entry)) ++
    s.blocks.flatMap fun b => b.definitions.map fun d => (d.location, .definition d.site)

/-- A number of looks that is not exceeded. Every block is looked at once, and each edge gives one
    more look for each thing that is found at the end of the block it starts from. -/
def lookBound (s : Summary) : Nat :=
  s.blocks.length + s.facts.length * (s.blocks.flatMap BlockSummary.successors).length

/-- The analysis: at first nothing is found, and all blocks are to be looked at. -/
def analyze (s : Summary) : Analysis :=
  let nothing := .ofList (s.blocks.map fun b => (b.address, .empty))
  s.looks s.lookBound ⟨nothing, nothing, s.blocks⟩

/-- The definitions that reach the end of each block. -/
def reachOut (s : Summary) : Outs :=
  s.analyze.outs

end Summary

end FrameRecovery
