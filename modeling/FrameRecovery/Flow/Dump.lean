import FrameRecovery.Flow.Basic

namespace FrameRecovery

namespace Flow

/-- The line of a statement, with the address of its instruction in front on request. -/
def statementLine (f : Flow) (showAddresses : Bool) (s : StatementId) : Except Fault String := do
  let st ← f.statement s
  let front := if showAddresses then "  [" ++ st.address.text ++ "]" else ""
  return front ++ "    " ++ (← f.statementText s) ++ "\n"

/-- The heading of a block: its address, and where control goes after it. -/
def blockHeading (b : Block) : String :=
  let arrow :=
    if b.successors.isEmpty then ""
    else "  -> " ++ ", ".intercalate (b.successors.map Address.text)
  b.address.text ++ ":" ++ arrow ++ "\n"

/-- The paragraph of a block. -/
def blockParagraph (f : Flow) (showAddresses : Bool) (b : Block) : Except Fault String := do
  let lines ← b.statements.mapM (f.statementLine showAddresses)
  return "\n" ++ blockHeading b ++ String.join lines

/-- The text of a whole flow: a heading and a paragraph for each block. -/
def dump (f : Flow) (showAddresses : Bool) : Except Fault String := do
  let paragraphs ← f.blocks.values.mapM (f.blockParagraph showAddresses)
  return "Flow(" ++ f.entry.text ++ ")\n" ++ String.join paragraphs

end Flow

end FrameRecovery
