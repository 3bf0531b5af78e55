import FrameRecovery.Flow.Basic

namespace FrameRecovery

namespace Graph

/-- A character of a label. Backslashes are kept, because the label may contain escapes of the
    graph language already; quotes and what is not printable in ASCII are escaped. -/
def labelChar (c : Char) : String :=
  if c == '\t' then "\\t"
  else if c == '\r' then "\\r"
  else if c == '\n' then "\\n"
  else if c == '\'' then "\\'"
  else if c == '"' then "\\\""
  else if ' ' ≤ c && c ≤ '~' then c.toString
  else "\\u\x7b" ++ hexDigits c.toNat ++ "\x7d"

/-- A character of the body of a block, as part of a label: quotes are escaped, and each line
    is closed by a left-justified line break. -/
def bodyChar (c : Char) : List Char :=
  if c == '"' then ['\\', '"']
  else if c == '\n' then ['\\', 'l']
  else [c]

/-- A text as the label of a block. -/
def label (text : String) : String :=
  String.join ((text.toList.flatMap bodyChar).map labelChar)

/-- The identifier of the block at an address. -/
def nodeName (a : Address) : String :=
  "b" ++ hexDigits a.toNat

/-- The line of an edge. -/
def edgeLine (source target : Address) : String :=
  "    " ++ nodeName source ++ " -> " ++ nodeName target ++ "[label=\"\"];\n"

end Graph

namespace Flow

/-- The line of a block in the graph. -/
def graphNode (f : Flow) (b : Block) : Except Fault String := do
  let body ← b.statements.mapM f.statementText
  let text := b.address.text ++ ":\n" ++ "\n".intercalate body ++ "\n"
  return "    " ++ Graph.nodeName b.address ++ "[label=\"" ++ Graph.label text ++
    "\"][shape=\"box\"];\n"

/-- The block graph in the DOT language. -/
def graph (f : Flow) : Except Fault String := do
  let nodes ← f.blocks.values.mapM f.graphNode
  let edges := f.blocks.values.flatMap fun b => b.successors.map (Graph.edgeLine b.address)
  return "digraph flow_" ++ hexDigits f.entry.toNat ++ " \x7b\n" ++ String.join nodes ++
    String.join edges ++ "\x7d\n"

end Flow

end FrameRecovery
