import FrameRecovery.Word

namespace FrameRecovery

/-- The value of a digit in bases up to sixteen; letters of either case stand for ten to
    fifteen. -/
def digitValue? (c : Char) : Option Nat :=
  if '0' ≤ c ∧ c ≤ '9' then some (c.toNat - '0'.toNat)
  else if 'a' ≤ c ∧ c ≤ 'f' then some (c.toNat - 'a'.toNat + 10)
  else if 'A' ≤ c ∧ c ≤ 'F' then some (c.toNat - 'A'.toNat + 10)
  else none

namespace Numeral

/-- One more digit at the right end of a numeral whose value so far is `n`. -/
def extend? (base n : Nat) (c : Char) : Option Nat :=
  match digitValue? c with
  | some d => if d < base then some (n * base + d) else none
  | none => none

/-- The value of a possibly empty run of digits, continuing from `n`. -/
def continue? (base : Nat) : Nat → List Char → Option Nat
  | n, [] => some n
  | n, c :: rest => (extend? base n c).bind fun m => continue? base m rest

/-- The value of a non-empty run of digits. -/
def value? (base : Nat) : List Char → Option Nat
  | [] => none
  | digits => continue? base 0 digits

/-- An unsigned numeral of 64 bits: a plus sign may stand in front of the digits, and a
    value that needs more than 64 bits is refused. -/
def word64? (base : Nat) (text : List Char) : Option UInt64 :=
  let digits := match text with
    | '+' :: rest => rest
    | _ => text
  match value? base digits with
  | some n => if n < UInt64.size then some (UInt64.ofNat n) else none
  | none => none

end Numeral

/-- Reads an address: hexadecimal behind `0x` or `0X`, decimal otherwise. -/
def Address.ofText? : List Char → Option Address
  | '0' :: 'x' :: digits => Numeral.word64? 16 digits
  | '0' :: 'X' :: digits => Numeral.word64? 16 digits
  | digits => Numeral.word64? 10 digits

end FrameRecovery
