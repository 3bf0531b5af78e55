import FrameRecovery.Listing.Error
import FrameRecovery.Listing.Instruction
import FrameRecovery.Sorted.Map

namespace FrameRecovery

/-- The listing of a function: its instructions by address, with the architecture and the
    entry point it names. -/
structure Listing where
  architecture : Option String
  entry : Option Address
  instructions : SortedMap Address Instruction

namespace Listing

/-- The listing without instructions. -/
def empty : Listing :=
  ⟨none, none, .empty⟩

/-- The instruction at an address. -/
def instruction? (l : Listing) (a : Address) : Option Instruction :=
  l.instructions.find? a

/-- The lowest instruction address above `a`. -/
def next? (l : Listing) (a : Address) : Option Address :=
  l.instructions.keys.find? fun b => decide (a < b)

/-- The entry point: the one the listing names, else its lowest instruction. -/
def entryPoint? (l : Listing) : Option Address :=
  l.entry.orElse fun _ => l.instructions.keys.head?

/-- The rest of a text behind a word that it starts with. -/
def behind? (word : String) (cs : List Char) : Option (List Char) :=
  if word.toList.isPrefixOf cs then some (cs.drop word.toList.length) else none

/-- The action that the text behind an address stands for. -/
def actionOf (body : List Char) : Except LineFault Action := do
  let tokens ← (Token.scanAll body).mapError .badToken
  (Grammar.instruction tokens).mapError .badInstruction

/-- Adds an instruction line to a listing. -/
def addInstruction (l : Listing) (line : Nat) (cs : List Char) : Except LineFault Listing := do
  let some (before, body) := Text.cut? ':' cs | throw .noAddress
  let some address := Address.ofText? (Text.trim before)
    | throw (.badAddress (String.ofList before))
  let action ← actionOf body
  if l.instructions.contains address then throw (.duplicate address)
  return { l with instructions := l.instructions.insert address ⟨address, line, action⟩ }

/-- Adds a line without its comment and the blanks at its ends to a listing: a directive or an
    instruction, and an empty line adds nothing. -/
def addLine (l : Listing) (line : Nat) (cs : List Char) : Except LineFault Listing :=
  if cs.isEmpty then .ok l
  else match behind? "ARCH " cs with
    | some name => .ok { l with architecture := some (String.ofList (Text.trim name)) }
    | none => match behind? "ENTRY " cs with
      | some entry => match Address.ofText? (Text.trim entry) with
        | some a => .ok { l with entry := some a }
        | none => .error (.badEntry (String.ofList entry))
      | none => l.addInstruction line cs

/-- A line without its comment and the blanks at its ends. -/
def content (cs : List Char) : List Char :=
  Text.trim (cs.takeWhile (· != '#'))

/-- Adds lines to a listing in order, the first of which has number `line`. -/
def addLines (l : Listing) (line : Nat) : List (List Char) → Except ListingError Listing
  | [] => .ok l
  | cs :: rest =>
    match l.addLine line (content cs) with
    | .ok l => l.addLines (line + 1) rest
    | .error fault => .error ⟨line, fault⟩

/-- Reads a listing: one instruction or directive a line, `#` starting a comment. -/
def parse (text : String) : Except ListingError Listing :=
  match empty.addLines 1 (Text.lines text.toList) with
  | .error e => .error e
  | .ok l => if l.instructions.entries.isEmpty then .error ⟨0, .noInstructions⟩ else .ok l

end Listing

end FrameRecovery
