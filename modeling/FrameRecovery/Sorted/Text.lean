import FrameRecovery.Numbering
import FrameRecovery.Sorted.Map
import FrameRecovery.Sorted.Set
import FrameRecovery.Word

namespace FrameRecovery

/-- The texts of the members of a collection in braces. -/
def braced (members : List String) : String :=
  "\x7b" ++ ", ".intercalate members ++ "\x7d"

/-- The text of a member with its key. -/
def keyed (key value : String) : String :=
  key ++ ": " ++ value

/-- The text of a set: its elements in order. -/
def SortedSet.text {α : Type} [Ord α] (showElement : α → String) (s : SortedSet α) : String :=
  braced (s.elements.map showElement)

/-- The text of a map: its entries in key order. -/
def SortedMap.text {κ ν : Type} [Ord κ] (showKey : κ → String) (showValue : ν → String)
    (m : SortedMap κ ν) : String :=
  braced (m.entries.map fun (k, v) => keyed (showKey k) (showValue v))

/-- The text of a numbering: the numbers with their values. -/
def Numbering.text {α : Type} (showValue : α → String) (n : Numbering α) : String :=
  braced (n.toList.map fun (i, v) => keyed (decimal i) (showValue v))

end FrameRecovery
