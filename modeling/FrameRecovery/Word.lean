namespace FrameRecovery

/-- A machine word: 64 bits, read as a signed number. Arithmetic on words wraps. -/
abbrev Word := Int64

/-- A code address: 64 bits, read as an unsigned number. -/
abbrev Address := UInt64

/-- The decimal digits of a number, without leading zeros. -/
def decimal (n : Nat) : String :=
  String.ofList (Nat.toDigits 10 n)

/-- The lower-case hexadecimal digits of a number, without leading zeros. -/
def hexDigits (n : Nat) : String :=
  String.ofList (Nat.toDigits 16 n)

/-- A number in lower-case hexadecimal behind `0x`. -/
def hexadecimal (n : Nat) : String :=
  "0x" ++ hexDigits n

/-- The written form of an address. -/
def Address.text (a : Address) : String :=
  hexadecimal a.toNat

namespace Word

/-- Constants of this magnitude and above are written in hexadecimal. -/
def hexThreshold : Nat := 0x1000

/-- The signed decimal form of a word. -/
def signedDecimal (w : Word) : String :=
  (if w.toInt < 0 then "-" else "") ++ decimal w.toInt.natAbs

/-- The form a constant takes inside an expression: decimal while it is small, hexadecimal
    from `hexThreshold` on, always with the sign in front of the magnitude. -/
def text (w : Word) : String :=
  if w.toInt.natAbs < hexThreshold then signedDecimal w
  else (if w.toInt < 0 then "-" else "") ++ hexadecimal w.toInt.natAbs

/-- The truth value of a test, as a word. -/
def ofBool (b : Bool) : Word :=
  if b then 1 else 0

end Word

end FrameRecovery
