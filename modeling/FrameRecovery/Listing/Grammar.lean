import FrameRecovery.Listing.Operand
import FrameRecovery.Listing.Token

namespace FrameRecovery

/-- What can be wrong with the tokens of an instruction. -/
inductive GrammarFault where
  | expectedMark (m : Mark) (found : Option Token)
  | expectedOperand (found : Option Token)
  | expectedTarget (found : Option Token)
  | expectedGoto
  | expectedInstruction
  | keywordInOperand (keyword : String)
  | notAssignable (operand : Operand)
  | trailing (t : Token)

/-- What an instruction does. -/
inductive Action where
  /-- `target = value` -/
  | assign (target value : Operand)
  /-- A call whose result is dropped -/
  | call (operand : Operand)
  | goto (target : Address)
  /-- Goes to `target` if the condition is not zero, and on to the next instruction otherwise -/
  | branch (condition : Operand) (target : Address)
  | ret (value : Option Operand)

namespace Grammar

/-- Words that cannot name a register, apart from `call`. -/
def isKeyword (name : String) : Bool :=
  name == "goto" || name == "if" || name == "return"

/-- The binary operator a mark stands for, and whether its operands are written in reverse:
    `a > b` is `b < a`. -/
def binaryOp? : Mark → Option (BinaryOp × Bool)
  | .plus => some (.add, false)
  | .minus => some (.sub, false)
  | .star => some (.mul, false)
  | .ampersand => some (.and, false)
  | .bar => some (.or, false)
  | .caret => some (.xor, false)
  | .shiftLeft => some (.shl, false)
  | .shiftRight => some (.shr, false)
  | .equal => some (.eq, false)
  | .unequal => some (.ne, false)
  | .less => some (.lt, false)
  | .lessEqual => some (.le, false)
  | .greater => some (.lt, true)
  | .greaterEqual => some (.le, true)
  | _ => none

/-- The operator that the remaining tokens start with, and the tokens after it. -/
def leadingOp? : List Token → Option (BinaryOp × Bool × List Token)
  | .mark m :: rest => (binaryOp? m).map fun (op, reversed) => (op, reversed, rest)
  | _ => none

theorem length_of_leadingOp? {ts rest : List Token} {op : BinaryOp} {reversed : Bool}
    (h : leadingOp? ts = some (op, reversed, rest)) : rest.length < ts.length := by
  unfold leadingOp? at h
  split at h
  · obtain ⟨a, _, ha⟩ := Option.map_eq_some_iff.1 h
    simp at ha
    simp [ha]
  · cases h

/-- The operators written in front of an operand. -/
inductive Sign where
  | minus
  | bang
  | ampersand
deriving DecidableEq, Repr

/-- The operator in front of an operand that a mark stands for. -/
def signOf? : Mark → Option Sign
  | .minus => some .minus
  | .bang => some .bang
  | .ampersand => some .ampersand
  | _ => none

/-- The sign that the remaining tokens start with, and the tokens after it. -/
def leadingSign? : List Token → Option (Sign × List Token)
  | .mark m :: rest => (signOf? m).map fun sign => (sign, rest)
  | _ => none

theorem length_of_leadingSign? {ts rest : List Token} {sign : Sign}
    (h : leadingSign? ts = some (sign, rest)) : rest.length < ts.length := by
  unfold leadingSign? at h
  split at h
  · obtain ⟨a, _, ha⟩ := Option.map_eq_some_iff.1 h
    simp at ha
    simp [ha]
  · cases h

/-- An operand behind a sign. A minus sign in front of a constant is part of the constant. -/
def Sign.apply : Sign → Operand → Operand
  | minus, .constant w => .constant (-w)
  | minus, x => .unary .neg x
  | bang, x => .unary .not x
  | ampersand, x => .addressOf x

/-- An operand read from the front of `ts`, with the tokens that remain; some were used. -/
abbrev Reading (ts : List Token) :=
  Except GrammarFault (Operand × { rest : List Token // rest.length < ts.length })

/-- The tokens after a mark, if that comes next. -/
def after? (m : Mark) : List Token → Option (List Token)
  | t :: rest => if t = .mark m then some rest else none
  | [] => none

theorem length_of_after? {m : Mark} {ts rest : List Token} (h : after? m ts = some rest) :
    rest.length < ts.length := by
  unfold after? at h
  split at h
  · split at h
    · cases h
      simp
    · cases h
  · cases h

/-- The tokens after a mark that has to come next. -/
def expectMark (m : Mark) (ts : List Token) :
    Except GrammarFault { rest : List Token // rest.length < ts.length } :=
  match h : after? m ts with
  | some rest => .ok ⟨rest, length_of_after? h⟩
  | none => .error (.expectedMark m ts.head?)

mutual

/-- Reads an operand whose outermost operators bind tighter than `minimum`. -/
def operand (minimum : Nat) (ts : List Token) : Reading ts := do
  let (lhs, ⟨rest, h⟩) ← unary ts
  let (x, ⟨rest', h'⟩) ← climb minimum lhs rest
  return (x, ⟨rest', by omega⟩)
termination_by 4 * ts.length + 2

/-- Extends the operand read so far by the operators that follow, as long as they bind
    tighter than `minimum`; a right operand takes only what binds tighter still. -/
def climb (minimum : Nat) (lhs : Operand) (ts : List Token) :
    Except GrammarFault (Operand × { rest : List Token // rest.length ≤ ts.length }) :=
  match hop : leadingOp? ts with
  | none => .ok (lhs, ⟨ts, Nat.le_refl _⟩)
  | some (op, reversed, after) =>
    have := length_of_leadingOp? hop
    if op.precedence ≤ minimum then .ok (lhs, ⟨ts, Nat.le_refl _⟩)
    else do
      let (rhs, ⟨rest, h⟩) ← operand op.precedence after
      let x := if reversed then Operand.binary op rhs lhs else Operand.binary op lhs rhs
      let (y, ⟨rest', h'⟩) ← climb minimum x rest
      return (y, ⟨rest', by omega⟩)
termination_by 4 * ts.length + 3

/-- Reads an operand with the signs in front of it. -/
def unary (ts : List Token) : Reading ts :=
  match hsign : leadingSign? ts with
  | some (sign, after) => do
    have := length_of_leadingSign? hsign
    let (x, ⟨rest, h⟩) ← unary after
    return (sign.apply x, ⟨rest, by omega⟩)
  | none => primary ts
termination_by 4 * ts.length + 1

/-- Reads an operand without operators around it. -/
def primary (ts : List Token) : Reading ts :=
  match ts with
  | [] => .error (.expectedOperand none)
  | .integer v :: rest => .ok (.constant v, ⟨rest, by simp⟩)
  | .name n :: rest =>
    if n = "call" then do
      let (target, ⟨rest₁, h₁⟩) ← primary rest
      let ⟨rest₂, h₂⟩ ← expectMark .openParen rest₁
      let (xs, ⟨rest₃, h₃⟩) ← arguments rest₂
      return (.call target xs, ⟨rest₃, by simp only [List.length_cons]; omega⟩)
    else if isKeyword n then .error (.keywordInOperand n)
    else .ok (.register n, ⟨rest, by simp⟩)
  | .mark m :: rest =>
    if m = .openBracket then do
      let (x, ⟨rest₁, h₁⟩) ← operand 0 rest
      let ⟨rest₂, h₂⟩ ← expectMark .closeBracket rest₁
      return (.deref x, ⟨rest₂, by simp only [List.length_cons]; omega⟩)
    else if m = .openParen then do
      let (x, ⟨rest₁, h₁⟩) ← operand 0 rest
      let ⟨rest₂, h₂⟩ ← expectMark .closeParen rest₁
      return (x, ⟨rest₂, by simp only [List.length_cons]; omega⟩)
    else .error (.expectedOperand (some (.mark m)))
termination_by 4 * ts.length

/-- Reads the arguments of a call, of which there may be none, and the parenthesis that closes
    them. -/
def arguments (ts : List Token) :
    Except GrammarFault (List Operand × { rest : List Token // rest.length < ts.length }) :=
  match hclose : after? .closeParen ts with
  | some rest => .ok ([], ⟨rest, length_of_after? hclose⟩)
  | none => moreArguments ts
termination_by 4 * ts.length + 4

/-- Reads one argument or more, and the parenthesis that closes them. -/
def moreArguments (ts : List Token) :
    Except GrammarFault (List Operand × { rest : List Token // rest.length < ts.length }) := do
  let (x, ⟨rest, h⟩) ← operand 0 ts
  match hclose : after? .closeParen rest with
  | some rest' =>
    have := length_of_after? hclose
    return ([x], ⟨rest', by omega⟩)
  | none =>
    let ⟨rest₁, h₁⟩ ← expectMark .comma rest
    let (xs, ⟨rest₂, h₂⟩) ← moreArguments rest₁
    return (x :: xs, ⟨rest₂, by omega⟩)
termination_by 4 * ts.length + 3

end

/-- Reads the target of a branch: a constant that is not negative. -/
def target : List Token → Except GrammarFault (Address × List Token)
  | .integer v :: rest =>
    if 0 ≤ v then .ok (v.toUInt64, rest) else .error (.expectedTarget (some (.integer v)))
  | ts => .error (.expectedTarget ts.head?)

/-- Refuses tokens after a complete instruction. -/
def finish (a : Action) : List Token → Except GrammarFault Action
  | [] => .ok a
  | t :: _ => .error (.trailing t)

/-- Reads an instruction that starts with an operand: an assignment or a call. -/
def assignOrCall (ts : List Token) : Except GrammarFault Action := do
  let (x, ⟨rest, _⟩) ← operand 0 ts
  match rest with
  | .mark .assign :: rest =>
    if x.isAssignable then
      let (y, ⟨rest, _⟩) ← operand 0 rest
      finish (.assign x y) rest
    else
      throw (.notAssignable x)
  | rest =>
    if x.isCall then finish (.call x) rest else throw .expectedInstruction

/-- Reads an instruction. -/
def instruction : List Token → Except GrammarFault Action
  | .name "goto" :: rest => do
    let (a, rest) ← target rest
    finish (.goto a) rest
  | .name "if" :: rest => do
    let (c, ⟨rest, _⟩) ← operand 0 rest
    match rest with
    | .name "goto" :: rest =>
      let (a, rest) ← target rest
      finish (.branch c a) rest
    | _ => throw .expectedGoto
  | .name "return" :: [] => .ok (.ret none)
  | .name "return" :: rest => do
    let (x, ⟨rest, _⟩) ← operand 0 rest
    finish (.ret (some x)) rest
  | ts => assignOrCall ts

end Grammar

end FrameRecovery
