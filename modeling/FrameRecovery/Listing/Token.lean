import FrameRecovery.Numeral
import FrameRecovery.Text.Blank

namespace FrameRecovery

/-- The punctuation marks of a listing. -/
inductive Mark where
  | shiftLeft | shiftRight | equal | unequal | lessEqual | greaterEqual
  | openBracket | closeBracket | openParen | closeParen | comma
  | ampersand | plus | minus | star | bar | caret | less | greater | bang | assign
deriving DecidableEq, Repr

/-- The tokens of an instruction. Keywords are names; the grammar tells them apart. -/
inductive Token where
  | name (text : String)
  | integer (value : Word)
  | mark (m : Mark)
deriving DecidableEq, Repr

namespace Mark

/-- The mark as it is written. -/
def text : Mark → String
  | shiftLeft => "<<"
  | shiftRight => ">>"
  | equal => "=="
  | unequal => "!="
  | lessEqual => "<="
  | greaterEqual => ">="
  | openBracket => "["
  | closeBracket => "]"
  | openParen => "("
  | closeParen => ")"
  | comma => ","
  | ampersand => "&"
  | plus => "+"
  | minus => "-"
  | star => "*"
  | bar => "|"
  | caret => "^"
  | less => "<"
  | greater => ">"
  | bang => "!"
  | assign => "="

/-- The longest mark at the front of a text that starts with `c`, and what follows it. -/
def scan? (c : Char) (rest : List Char) : Option (Mark × List Char) :=
  match c, rest with
  | '<', '<' :: tail => some (shiftLeft, tail)
  | '<', '=' :: tail => some (lessEqual, tail)
  | '<', tail => some (less, tail)
  | '>', '>' :: tail => some (shiftRight, tail)
  | '>', '=' :: tail => some (greaterEqual, tail)
  | '>', tail => some (greater, tail)
  | '=', '=' :: tail => some (equal, tail)
  | '=', tail => some (assign, tail)
  | '!', '=' :: tail => some (unequal, tail)
  | '!', tail => some (bang, tail)
  | '[', tail => some (openBracket, tail)
  | ']', tail => some (closeBracket, tail)
  | '(', tail => some (openParen, tail)
  | ')', tail => some (closeParen, tail)
  | ',', tail => some (comma, tail)
  | '&', tail => some (ampersand, tail)
  | '+', tail => some (plus, tail)
  | '-', tail => some (minus, tail)
  | '*', tail => some (star, tail)
  | '|', tail => some (bar, tail)
  | '^', tail => some (caret, tail)
  | _, _ => none

theorem length_of_scan? {c : Char} {rest tail : List Char} {m : Mark}
    (h : scan? c rest = some (m, tail)) : tail.length ≤ rest.length := by
  unfold scan? at h
  split at h <;> grind

end Mark

namespace Token

/-- The structural form of a token: its kind with its content in parentheses. -/
def structuralText : Token → String
  | name text => "Ident(\"" ++ text ++ "\")"
  | integer value => "Int(" ++ value.signedDecimal ++ ")"
  | mark m => "Sym(\"" ++ m.text ++ "\")"

/-- The structural form of a token that may be missing. -/
def structuralText? : Option Token → String
  | some t => "Some(" ++ t.structuralText ++ ")"
  | none => "None"

/-- What can be wrong with the characters of an instruction. -/
inductive Fault where
  | badInteger (digits : String)
  | unexpectedCharacter (c : Char)
deriving DecidableEq, Repr

/-- Characters that may start a name. -/
def startsName (c : Char) : Bool :=
  c.isAlpha || c == '_'

/-- Characters that may continue a name. -/
def continuesName (c : Char) : Bool :=
  c.isAlphanum || c == '_' || c == '.'

/-- The integer that a run of letters and digits stands for; values of 2⁶³ and above are
    read as the negative words with the same bits. -/
def integerOf (digits : List Char) : Except Fault Token :=
  match Address.ofText? digits with
  | some v => .ok (integer v.toInt64)
  | none => .error (.badInteger (String.ofList digits))

/-- The token at the front of a text that starts with `c`, and what follows it. A run of
    letters and digits that starts with a digit is one integer, and the longest mark wins. -/
def scan (c : Char) (rest : List Char) : Except Fault (Token × List Char) :=
  if c.isDigit then
    match integerOf (c :: rest.takeWhile Char.isAlphanum) with
    | .ok t => .ok (t, rest.dropWhile Char.isAlphanum)
    | .error e => .error e
  else if startsName c then
    .ok (name (String.ofList (c :: rest.takeWhile continuesName)), rest.dropWhile continuesName)
  else match Mark.scan? c rest with
    | some (m, tail) => .ok (mark m, tail)
    | none => .error (.unexpectedCharacter c)

theorem length_of_scan {c : Char} {rest tail : List Char} {t : Token}
    (h : scan c rest = .ok (t, tail)) : tail.length ≤ rest.length := by
  unfold scan at h
  split at h
  · split at h
    · cases h
      exact (List.dropWhile_suffix _).length_le
    · cases h
  · split at h
    · cases h
      exact (List.dropWhile_suffix _).length_le
    · split at h
      next hm =>
        cases h
        exact Mark.length_of_scan? hm
      next => cases h

/-- The tokens of a text; blanks separate tokens and are otherwise skipped. -/
def scanAll (cs : List Char) : Except Fault (List Token) :=
  match h : Text.trimLeft cs with
  | [] => .ok []
  | c :: rest =>
    match hs : scan c rest with
    | .error e => .error e
    | .ok (t, tail) =>
      have : tail.length < cs.length := by
        have h₁ := Text.length_trimLeft_le cs
        have h₂ := length_of_scan hs
        simp only [h, List.length_cons] at h₁
        omega
      (scanAll tail).map (t :: ·)
termination_by cs.length

end Token

end FrameRecovery
