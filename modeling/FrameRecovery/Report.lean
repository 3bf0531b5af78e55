import FrameRecovery.Flow.Dump
import FrameRecovery.Session

namespace FrameRecovery

namespace Session

/-- The lines that name what was recovered: the phases, the variables of the frame, and the
    registers that are restored. -/
def headings (s : Session) : List String :=
  let slots := s.frame.toPairs.map fun (offset, name) =>
    "# " ++ name ++ " = stack[" ++ offset.signedDecimal ++ "]"
  s.phases.map (fun p => "# " ++ p.description) ++
    (if slots.isEmpty then [] else "#" :: slots) ++
    s.restored.map fun register => "# restored: " ++ register

/-- The report on a recovery: the headings, an empty line, and the flow. -/
def report (s : Session) (showAddresses : Bool) : Except Fault String := do
  let flow ← s.flow.dump showAddresses
  return String.join ((s.headings ++ [""]).map (· ++ "\n")) ++ flow

end Session

end FrameRecovery
