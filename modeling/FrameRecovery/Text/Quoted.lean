import FrameRecovery.Text.Invisible
import FrameRecovery.Word

namespace FrameRecovery

namespace Text

/-- A character inside quotation marks. Quotation marks and backslashes are escaped, and so is
    what shows nothing of its own: by a letter where there is one, by its code point
    otherwise. -/
def quotedChar (c : Char) : String :=
  if c == '\x00' then "\\0"
  else if c == '\t' then "\\t"
  else if c == '\r' then "\\r"
  else if c == '\n' then "\\n"
  else if c == '"' then "\\\""
  else if c == '\\' then "\\\\"
  else if isInvisible c then "\\u\x7b" ++ hexDigits c.toNat ++ "\x7d"
  else c.toString

/-- A text in quotation marks. -/
def quoted (s : String) : String :=
  "\"" ++ String.join (s.toList.map quotedChar) ++ "\""

end Text

end FrameRecovery
