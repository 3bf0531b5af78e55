import FrameRecovery.Proofs.Names

namespace FrameRecovery

/-- The mark between the operands of an operator. -/
def BinaryOp.mark : BinaryOp → Mark
  | add => .plus
  | sub => .minus
  | mul => .star
  | and => .ampersand
  | or => .bar
  | xor => .caret
  | shl => .shiftLeft
  | shr => .shiftRight
  | eq => .equal
  | ne => .unequal
  | lt => .less
  | le => .lessEqual

/-- The mark in front of the operand of an operator. -/
def UnaryOp.mark : UnaryOp → Mark
  | neg => .minus
  | not => .bang

namespace Operand

/-- The strength of what no operator can take apart. -/
def tightest : Nat := 11

/-- How strongly the outermost operator between operands binds; what has none binds tightest. -/
def strength : Operand → Nat
  | binary op _ _ => op.precedence
  | _ => tightest

theorem strength_pos (x : Operand) : 0 < x.strength := by
  cases x with
  | binary op x y => cases op <;> exact Nat.zero_lt_succ _
  | _ => exact Nat.zero_lt_succ _

theorem precedence_lt_tightest (op : BinaryOp) : op.precedence < tightest := by
  cases op <;> decide

theorem strength_le (x : Operand) : x.strength ≤ tightest := by
  cases x with
  | binary op x y => exact Nat.le_of_lt (precedence_lt_tightest op)
  | _ => exact Nat.le_refl _

/-- Whether a call of the operand needs no parentheses around it. -/
def isTarget : Operand → Bool
  | register _ | deref _ | call _ _ => true
  | constant w => decide (0 ≤ w)
  | _ => false

/-- Tokens in parentheses, unless they are not needed. -/
def enclosed (needed : Bool) (ts : List Token) : List Token :=
  if needed then .mark .openParen :: (ts ++ [.mark .closeParen]) else ts

mutual

/-- The tokens of an operand with the fewest parentheses. There are some around a left operand that binds
    looser than its operator, around a right operand that does not bind tighter, around a binary operation
    behind a sign, and around what is called unless it is a register, a constant that is not negative, a cell
    of memory or a call. -/
def tokens : Operand → List Token
  | register n => [.name n]
  | constant w => if w < 0 then [.mark .minus, .integer (-w)] else [.integer w]
  | deref x => .mark .openBracket :: (x.tokens ++ [.mark .closeBracket])
  | addressOf x => .mark .ampersand :: enclosed (x.strength < tightest) x.tokens
  | binary op x y =>
    enclosed (x.strength < op.precedence) x.tokens ++ .mark op.mark :: enclosed (y.strength ≤ op.precedence) y.tokens
  | unary op x => .mark op.mark :: enclosed (x.strength < tightest) x.tokens
  | call x ys => .name "call" :: (enclosed (!x.isTarget) x.tokens ++ .mark .openParen :: argumentTokens ys)

/-- The tokens of the arguments of a call, and what closes them. -/
def argumentTokens : List Operand → List Token
  | [] => [.mark .closeParen]
  | [x] => x.tokens ++ [.mark .closeParen]
  | x :: y :: rest => x.tokens ++ .mark .comma :: argumentTokens (y :: rest)

end

theorem enclosed_ne_nil {needed : Bool} {ts : List Token} (h : ∃ t us, ts = t :: us ∧ t ≠ .mark .closeParen)
    (rest : List Token) : ∃ t us, enclosed needed ts ++ rest = t :: us ∧ t ≠ .mark .closeParen := by
  cases needed with
  | false =>
    obtain ⟨t, us, rfl, ht⟩ := h
    exact ⟨t, us ++ rest, rfl, ht⟩
  | true => exact ⟨_, _, rfl, by decide⟩

/-- No operand starts with what would close the arguments of a call. -/
theorem exists_tokens : ∀ x : Operand, ∃ t ts, x.tokens = t :: ts ∧ t ≠ .mark .closeParen
  | .register n => ⟨.name n, [], by rw [tokens], nofun⟩
  | .constant w => by
    rw [tokens]
    split
    · exact ⟨.mark .minus, _, rfl, by decide⟩
    · exact ⟨.integer w, _, rfl, nofun⟩
  | .deref x => ⟨.mark .openBracket, _, by rw [tokens], by decide⟩
  | .addressOf x => ⟨.mark .ampersand, _, by rw [tokens], by decide⟩
  | .binary op x y => by
    rw [tokens]
    exact enclosed_ne_nil (exists_tokens x) _
  | .unary op x => ⟨.mark op.mark, _, by rw [tokens], by cases op <;> decide⟩
  | .call x ys => ⟨.name "call", _, by rw [tokens], nofun⟩

end Operand

namespace Grammar

open Operand (enclosed tightest)

variable {α : Type} {ts rest rest' after : List Token} {t : Token} {x y z : Operand} {ys : List Operand} {m : Nat}
  {op : BinaryOp}

/-- Reading gives something, and these tokens remain. -/
def Parses {R : List Token → Prop} (r : Except GrammarFault (α × { rest : List Token // R rest })) (x : α)
    (rest : List Token) : Prop :=
  ∃ h, r = .ok (x, ⟨rest, h⟩)

/-- The operator that comes next, if one does, binds no tighter than `m`. -/
def Loose (m : Nat) (ts : List Token) : Prop :=
  ∀ op reversed after, leadingOp? ts = some (op, reversed, after) → op.precedence ≤ m

theorem Loose.mono {n : Nat} (h : Loose m ts) (hmn : m ≤ n) : Loose n ts := fun op reversed after hop =>
  Nat.le_trans (h op reversed after hop) hmn

theorem loose_mark {k : Mark} (hk : binaryOp? k = none) : Loose m (.mark k :: rest) := by
  intro op reversed after h
  simp [leadingOp?, hk] at h

theorem loose_nil : Loose m [] := nofun

theorem binaryOp?_mark (op : BinaryOp) : binaryOp? op.mark = some (op, false) := by
  cases op <;> rfl

theorem leadingOp?_mark (op : BinaryOp) (rest : List Token) :
    leadingOp? (.mark op.mark :: rest) = some (op, false, rest) := by
  rw [leadingOp?, binaryOp?_mark]
  rfl

section Steps

/-- Nothing is taken behind an operand where no operator binds tight enough. -/
theorem climb_stops (h : Loose m ts) : Parses (climb m x ts) x ts := by
  refine ⟨Nat.le_refl _, ?_⟩
  unfold climb
  split
  · rfl
  next op reversed after hop => exact if_pos (h op reversed after hop)

theorem climb_takes {reversed : Bool} (hop : leadingOp? ts = some (op, reversed, after)) (hm : m < op.precedence)
    (hright : Parses (operand op.precedence after) z rest)
    (hmore : Parses (climb m (if reversed then .binary op z x else .binary op x z) rest) y rest') :
    Parses (climb m x ts) y rest' := by
  obtain ⟨hlt, hz⟩ := hright
  obtain ⟨hle, hy⟩ := hmore
  have hafter := length_of_leadingOp? hop
  refine ⟨by omega, ?_⟩
  unfold climb
  split
  next hnone => simp [hop] at hnone
  next op' reversed' after' hop' =>
    obtain ⟨rfl, rfl, rfl⟩ : op = op' ∧ reversed = reversed' ∧ after = after' := by simpa [hop] using hop'
    rw [if_neg (by omega), hz]
    change (climb m (if reversed then .binary op z x else .binary op x z) rest >>= _) = _
    rw [hy]
    rfl

theorem operand_takes (hleft : Parses (unary ts) x rest) (hmore : Parses (climb m x rest) y rest') :
    Parses (operand m ts) y rest' := by
  obtain ⟨hlt, hx⟩ := hleft
  obtain ⟨hle, hy⟩ := hmore
  refine ⟨by omega, ?_⟩
  unfold operand
  rw [hx]
  change (climb m x rest >>= _) = _
  rw [hy]
  rfl

theorem unary_takes {sign : Sign} (hsign : leadingSign? ts = some (sign, after)) (h : Parses (unary after) x rest) :
    Parses (unary ts) (sign.apply x) rest := by
  obtain ⟨hlt, hx⟩ := h
  have hafter := length_of_leadingSign? hsign
  refine ⟨by omega, ?_⟩
  unfold unary
  split
  next sign' after' hsign' =>
    obtain ⟨rfl, rfl⟩ : sign = sign' ∧ after = after' := by simpa [hsign] using hsign'
    rw [hx]
    rfl
  next hnone => simp [hsign] at hnone

theorem unary_unsigned (hsign : leadingSign? ts = none) (h : Parses (primary ts) x rest) :
    Parses (unary ts) x rest := by
  obtain ⟨hlt, hx⟩ := h
  refine ⟨hlt, ?_⟩
  unfold unary
  split
  next hsome => simp [hsign] at hsome
  next => exact hx

theorem expectMark_eq (k : Mark) (rest : List Token) : ∃ h, expectMark k (.mark k :: rest) = .ok ⟨rest, h⟩ := by
  have hafter : after? k (.mark k :: rest) = some rest := by simp [after?]
  refine ⟨length_of_after? hafter, ?_⟩
  unfold expectMark
  split
  next rest' hrest =>
    obtain rfl : rest = rest' := by simpa [hafter] using hrest
    rfl
  next hnone => simp [hafter] at hnone

theorem primary_integer (w : Word) : Parses (primary (.integer w :: rest)) (.constant w) rest :=
  ⟨by simp, by unfold primary; rfl⟩

theorem primary_register {n : String} (hcall : n ≠ "call") (hkeyword : isKeyword n = false) :
    Parses (primary (.name n :: rest)) (.register n) rest := by
  refine ⟨by simp, ?_⟩
  unfold primary
  rw [if_neg hcall, if_neg (by simp [hkeyword])]

theorem primary_deref (h : Parses (operand 0 ts) x (.mark .closeBracket :: rest)) :
    Parses (primary (.mark .openBracket :: ts)) (.deref x) rest := by
  obtain ⟨hlt, hx⟩ := h
  obtain ⟨hclose, hrest⟩ := expectMark_eq .closeBracket rest
  refine ⟨by simp only [List.length_cons] at hlt ⊢; omega, ?_⟩
  unfold primary
  rw [if_pos rfl, hx, bind_ok]
  dsimp only
  rw [hrest, bind_ok]
  rfl

theorem primary_enclosed (h : Parses (operand 0 ts) x (.mark .closeParen :: rest)) :
    Parses (primary (.mark .openParen :: ts)) x rest := by
  obtain ⟨hlt, hx⟩ := h
  obtain ⟨hclose, hrest⟩ := expectMark_eq .closeParen rest
  refine ⟨by simp only [List.length_cons] at hlt ⊢; omega, ?_⟩
  unfold primary
  rw [if_neg (by decide), if_pos rfl, hx, bind_ok]
  dsimp only
  rw [hrest, bind_ok]
  rfl

theorem primary_call (htarget : Parses (primary ts) x (.mark .openParen :: rest))
    (harguments : Parses (arguments rest) ys rest') : Parses (primary (.name "call" :: ts)) (.call x ys) rest' := by
  obtain ⟨hlt, hx⟩ := htarget
  obtain ⟨hopen, hrest⟩ := expectMark_eq .openParen rest
  obtain ⟨hlt', hys⟩ := harguments
  refine ⟨by simp only [List.length_cons] at hlt ⊢; omega, ?_⟩
  unfold primary
  rw [if_pos rfl, hx, bind_ok]
  dsimp only
  rw [hrest, bind_ok]
  dsimp only
  rw [hys]
  rfl

theorem arguments_none : Parses (arguments (.mark .closeParen :: rest)) [] rest := by
  refine ⟨by simp, ?_⟩
  unfold arguments
  split
  next rest' hrest =>
    obtain rfl : rest = rest' := by simpa [after?] using hrest
    rfl
  next hnone => simp [after?] at hnone

theorem arguments_some (hopen : after? .closeParen ts = none) (h : Parses (moreArguments ts) ys rest) :
    Parses (arguments ts) ys rest := by
  obtain ⟨hlt, hys⟩ := h
  refine ⟨hlt, ?_⟩
  unfold arguments
  split
  next hsome => simp [hopen] at hsome
  next => exact hys

theorem moreArguments_last (h : Parses (operand 0 ts) x (.mark .closeParen :: rest)) :
    Parses (moreArguments ts) [x] rest := by
  obtain ⟨hlt, hx⟩ := h
  refine ⟨by simp only [List.length_cons] at hlt; omega, ?_⟩
  unfold moreArguments
  rw [hx]
  rfl

theorem moreArguments_next (h : Parses (operand 0 ts) x (.mark .comma :: rest))
    (hmore : Parses (moreArguments rest) ys rest') : Parses (moreArguments ts) (x :: ys) rest' := by
  obtain ⟨hlt, hx⟩ := h
  obtain ⟨hcomma, hrest⟩ := expectMark_eq .comma rest
  obtain ⟨hlt', hys⟩ := hmore
  refine ⟨by simp only [List.length_cons] at hlt; omega, ?_⟩
  unfold moreArguments
  rw [hx, bind_ok]
  dsimp only
  split
  next hclose => simp [after?] at hclose
  next =>
    rw [hrest, bind_ok]
    dsimp only
    rw [hys]
    rfl

end Steps

/-- An operand is read back from its tokens in front of others: behind a sign and after the word `call` as far as
    that is possible without parentheses, and as the first operand of what is read in any case. -/
structure ReadBack (x : Operand) : Prop where
  unary : x.strength = tightest → ∀ rest, Parses (unary (x.tokens ++ rest)) x rest
  primary : x.isTarget = true → ∀ rest, Parses (primary (x.tokens ++ rest)) x rest
  operand : ∀ {m rest y rest'}, m < x.strength → Loose x.strength rest → Parses (climb m x rest) y rest' →
    Parses (operand m (x.tokens ++ rest)) y rest'

namespace ReadBack

theorem of_unary (hunary : ∀ rest, Parses (Grammar.unary (x.tokens ++ rest)) x rest)
    (hprimary : x.isTarget = true → ∀ rest, Parses (Grammar.primary (x.tokens ++ rest)) x rest) : ReadBack x :=
  ⟨fun _ => hunary, hprimary, fun _ _ hmore => operand_takes (hunary _) hmore⟩

theorem of_primary (hsign : ∀ rest, leadingSign? (x.tokens ++ rest) = none)
    (hprimary : ∀ rest, Parses (Grammar.primary (x.tokens ++ rest)) x rest) : ReadBack x :=
  of_unary (fun rest => unary_unsigned (hsign rest) (hprimary rest)) fun _ => hprimary

/-- An operand that stands on its own is read back. -/
theorem whole (hx : ReadBack x) (hrest : Loose 0 rest) : Parses (Grammar.operand 0 (x.tokens ++ rest)) x rest :=
  hx.operand x.strength_pos (hrest.mono (Nat.zero_le _)) (climb_stops hrest)

section Enclosed

variable {needed : Bool} (hx : ReadBack x)
include hx

theorem primary_enclosed (hneeded : needed = false → x.isTarget = true) (rest : List Token) :
    Parses (Grammar.primary (enclosed needed x.tokens ++ rest)) x rest := by
  cases needed with
  | false => exact hx.primary (hneeded rfl) rest
  | true =>
    have htokens : enclosed true x.tokens ++ rest = .mark .openParen :: (x.tokens ++ .mark .closeParen :: rest) := by
      simp [enclosed]
    rw [htokens]
    exact Grammar.primary_enclosed (hx.whole (loose_mark rfl))

theorem unary_enclosed (hneeded : needed = false → x.strength = tightest) (rest : List Token) :
    Parses (Grammar.unary (enclosed needed x.tokens ++ rest)) x rest := by
  cases needed with
  | false => exact hx.unary (hneeded rfl) rest
  | true => exact unary_unsigned rfl (hx.primary_enclosed (fun h : true = false => nomatch h) rest)

theorem operand_enclosed (hneeded : needed = false → m < x.strength ∧ Loose x.strength rest)
    (hmore : Parses (climb m x rest) y rest') : Parses (Grammar.operand m (enclosed needed x.tokens ++ rest)) y rest' := by
  cases needed with
  | false => exact hx.operand (hneeded rfl).1 (hneeded rfl).2 hmore
  | true => exact operand_takes (hx.unary_enclosed (fun h : true = false => nomatch h) rest) hmore

end Enclosed

theorem register {n : String} (hn : IsRegisterName n) (hkeyword : isKeyword n = false) : ReadBack (.register n) := by
  refine of_primary (fun _ => ?_) fun rest => ?_
  · rw [Operand.tokens]
    rfl
  · rw [Operand.tokens]
    exact primary_register hn.2 hkeyword

theorem constant (w : Word) : ReadBack (.constant w) := by
  by_cases hw : w < 0
  · -- the sign is a token of its own
    have htokens : (Operand.constant w).tokens = [.mark .minus, .integer (-w)] := by rw [Operand.tokens, if_pos hw]
    refine of_unary (fun rest => ?_) fun htarget => ?_
    · have hminus : Parses (Grammar.unary (.mark .minus :: .integer (-w) :: rest)) (Sign.minus.apply (.constant (-w))) rest :=
        unary_takes rfl (unary_unsigned rfl (primary_integer (-w)))
      rw [htokens]
      simpa [Sign.apply] using hminus
    · exact absurd (of_decide_eq_true htarget) (Int64.not_le.2 hw)
  · have htokens : (Operand.constant w).tokens = [.integer w] := by rw [Operand.tokens, if_neg hw]
    refine of_primary (fun _ => ?_) fun rest => ?_
    · rw [htokens]
      rfl
    · rw [htokens]
      exact primary_integer w

theorem deref (hx : ReadBack x) : ReadBack (.deref x) := by
  refine of_primary (fun _ => ?_) fun rest => ?_
  · rw [Operand.tokens]
    rfl
  · have htokens : (Operand.deref x).tokens ++ rest = .mark .openBracket :: (x.tokens ++ .mark .closeBracket :: rest) := by
      simp [Operand.tokens]
    rw [htokens]
    exact primary_deref (hx.whole (loose_mark rfl))

/-- An operand with a sign in front of it is read back. -/
theorem signed {k : Mark} (hx : ReadBack x) (sign : Sign) (hsign : signOf? k = some sign) (hy : sign.apply x = y)
    (htokens : y.tokens = .mark k :: enclosed (x.strength < tightest) x.tokens)
    (htarget : y.isTarget = false) : ReadBack y := by
  refine of_unary (fun rest => ?_) fun h => by simp [htarget] at h
  have hoperand : Parses (Grammar.unary (enclosed (x.strength < tightest) x.tokens ++ rest)) x rest :=
    hx.unary_enclosed (fun h => Nat.le_antisymm x.strength_le (Nat.not_lt.1 (of_decide_eq_false h))) rest
  rw [htokens, ← hy]
  exact unary_takes (by simp [leadingSign?, hsign]) hoperand

theorem addressOf (hx : ReadBack x) : ReadBack (.addressOf x) :=
  hx.signed .ampersand rfl rfl (by rw [Operand.tokens]) rfl

theorem neg (hx : ReadBack x) (hconstant : x.constant? = none) : ReadBack (.unary .neg x) := by
  refine hx.signed .minus rfl ?_ (by rw [Operand.tokens]) rfl
  cases x <;> first | rfl | cases hconstant

theorem not (hx : ReadBack x) : ReadBack (.unary .not x) :=
  hx.signed .bang rfl rfl (by rw [Operand.tokens]) rfl

/-- The left operand is read first, and what was read so far becomes the left operand of the next operator that
    binds tight enough. -/
theorem binary (hx : ReadBack x) (hy : ReadBack y) : ReadBack (.binary op x y) := by
  refine ⟨fun h => ?_, nofun, fun {m rest z rest'} hm hrest hmore => ?_⟩
  · exact absurd h (Nat.ne_of_lt (Operand.precedence_lt_tightest op))
  · change m < op.precedence at hm
    change Loose op.precedence rest at hrest
    have hright : Parses (Grammar.operand op.precedence (enclosed (y.strength ≤ op.precedence) y.tokens ++ rest)) y rest := by
      refine hy.operand_enclosed (fun h => ?_) (climb_stops hrest)
      have hlt := Nat.not_le.1 (of_decide_eq_false h)
      exact ⟨hlt, hrest.mono (Nat.le_of_lt hlt)⟩
    have hclimb := climb_takes (leadingOp?_mark op _) hm hright hmore
    rw [Operand.tokens, List.append_assoc]
    refine hx.operand_enclosed (fun h => ?_) hclimb
    have hle := Nat.not_lt.1 (of_decide_eq_false h)
    refine ⟨Nat.lt_of_lt_of_le hm hle, fun op' reversed after hop => ?_⟩
    obtain ⟨rfl, -, -⟩ : op = op' ∧ _ ∧ _ := by simpa [leadingOp?_mark] using hop
    exact hle

theorem arguments (hys : ∀ y ∈ ys, ReadBack y) (rest : List Token) :
    Parses (Grammar.arguments (Operand.argumentTokens ys ++ rest)) ys rest := by
  have hmore : ∀ y ys, (∀ z ∈ y :: ys, ReadBack z) →
      Parses (moreArguments (Operand.argumentTokens (y :: ys) ++ rest)) (y :: ys) rest := by
    intro y ys hys
    induction ys generalizing y with
    | nil =>
      rw [Operand.argumentTokens, List.append_assoc]
      exact moreArguments_last ((hys y (by simp)).whole (loose_mark rfl))
    | cons z ys ih =>
      rw [Operand.argumentTokens, List.append_assoc]
      exact moreArguments_next ((hys y (by simp)).whole (loose_mark rfl)) (ih z fun x hx => hys x (by simp [hx]))
  cases ys with
  | nil =>
    rw [Operand.argumentTokens]
    exact arguments_none
  | cons y ys =>
    refine arguments_some ?_ (hmore y ys hys)
    obtain ⟨t, ts, hts, ht⟩ := y.exists_tokens
    cases ys <;> simp [Operand.argumentTokens, hts, after?, ht]

theorem call (hx : ReadBack x) (hys : ∀ y ∈ ys, ReadBack y) : ReadBack (.call x ys) := by
  refine of_primary (fun _ => ?_) fun rest => ?_
  · rw [Operand.tokens]
    rfl
  · rw [Operand.tokens, List.cons_append, List.append_assoc]
    exact primary_call (hx.primary_enclosed (fun h => by simpa using h) _) (arguments hys rest)

mutual

theorem of_readable : ∀ {x : Operand}, x.Readable → ReadBack x
  | .register _, h => register h.1 h.2
  | .constant w, _ => constant w
  | .deref x, h => (of_readable (x := x) h).deref
  | .addressOf x, h => (of_readable (x := x) h).addressOf
  | .binary _ _ _, h => (of_readable h.1).binary (of_readable h.2)
  | .unary .neg _, h => (of_readable h.1).neg h.2
  | .unary .not x, h => (of_readable (x := x) h).not
  | .call _ _, h => (of_readable h.1).call (of_allReadable h.2)

theorem of_allReadable : ∀ {xs : List Operand}, Operand.AllReadable xs → ∀ x ∈ xs, ReadBack x
  | [], _, _, hx => nomatch hx
  | _ :: _, h, _, .head _ => of_readable h.1
  | _ :: _, h, x, .tail _ hx => of_allReadable h.2 x hx

end

end ReadBack

/-- An operand is read back from its tokens. -/
theorem operand_tokens (hx : x.Readable) (hrest : Loose 0 rest) : Parses (operand 0 (x.tokens ++ rest)) x rest :=
  (ReadBack.of_readable hx).whole hrest

/-- An assignment is read back from the tokens of its operands. -/
theorem instruction_tokens (hx : x.Readable) (hassignable : x.isAssignable = true) (hy : y.Readable) :
    instruction (x.tokens ++ .mark .assign :: y.tokens) = .ok (.assign x y) := by
  have hbegin : Parses (operand 0 (x.tokens ++ .mark .assign :: y.tokens)) x (.mark .assign :: y.tokens) :=
    operand_tokens hx (loose_mark rfl)
  obtain ⟨hlt, htarget⟩ := hbegin
  have hend : Parses (operand 0 y.tokens) y [] := by
    rw [← List.append_nil y.tokens]
    exact operand_tokens hy loose_nil
  obtain ⟨hlt', hvalue⟩ := hend
  have hassign : assignOrCall (x.tokens ++ .mark .assign :: y.tokens) = .ok (.assign x y) := by
    unfold assignOrCall
    rw [htarget, bind_ok]
    dsimp only
    rw [if_pos hassignable, hvalue]
    rfl
  -- what is assigned to does not start with a keyword
  have hname : ∀ n rest, x.tokens ++ .mark .assign :: y.tokens = .name n :: rest → isKeyword n = false := by
    intro n rest h
    cases x with
    | register n' =>
      rw [Operand.tokens, List.cons_append, List.cons.injEq, Token.name.injEq] at h
      exact h.1 ▸ hx.2
    | deref x =>
      rw [Operand.tokens, List.cons_append, List.cons.injEq] at h
      exact nomatch h.1
    | _ => cases hassignable
  unfold instruction
  split
  next hgoto => exact absurd (hname _ _ hgoto) (by decide)
  next hif => exact absurd (hname _ _ hif) (by decide)
  next hreturn => exact absurd (hname _ _ hreturn) (by decide)
  next hreturn => exact absurd (hname _ _ hreturn) (by decide)
  next => exact hassign

end Grammar

end FrameRecovery
