import FrameRecovery.Proofs.Written.Scanning
import FrameRecovery.Proofs.Written.Tokens

namespace FrameRecovery

open Text (Stops)

theorem Mark.scan?_append {c d : Char} {cs rest tail : List Char} {m : Mark} (hd : Mark.continues d = false)
    (h : scan? c cs = some (m, tail)) : scan? c (cs ++ d :: rest) = some (m, tail ++ d :: rest) := by
  simp only [Mark.continues, Bool.or_eq_false_iff, beq_eq_false_iff_ne, ne_eq] at hd
  -- whether a mark goes on is seen from what follows it directly
  cases cs with
  | nil =>
    unfold scan? at h
    split at h <;> cases h <;> simp_all [scan?]
  | cons e cs =>
    unfold scan? at h
    split at h <;> cases h <;> simp_all [scan?]

namespace Token

variable {c d : Char} {cs rest tail : List Char} {t : Token} {ts : List Token}

theorem stops_of_isBlank (hd : isBlank d = true) : Stops continuesName (d :: rest) := by
  refine Text.stops_cons.2 (Bool.eq_false_iff.2 fun hname => ?_)
  rw [isBlank_of_continuesName hname] at hd
  cases hd

theorem not_continues_of_isBlank (hd : isBlank d = true) : Mark.continues d = false := by
  rw [Bool.eq_false_iff]
  intro hmark
  simp only [Mark.continues, Bool.or_eq_true, beq_iff_eq] at hmark
  rcases hmark with (rfl | rfl) | rfl <;> exact absurd hd (by decide)

/-- What comes behind a blank is not seen when the token in front of the blank is cut off. -/
theorem scan_append (hd : isBlank d = true) (h : scan c cs = .ok (t, tail)) :
    scan c (cs ++ d :: rest) = .ok (t, tail ++ d :: rest) := by
  have hname : Stops continuesName (d :: rest) := stops_of_isBlank hd
  have halphanum : Stops Char.isAlphanum (d :: rest) := hname.mono fun e he => by simp [continuesName, he]
  unfold scan at h ⊢
  rw [Text.takeWhile_append halphanum, Text.takeWhile_append hname, Text.dropWhile_append halphanum,
    Text.dropWhile_append hname]
  split at h
  next hdigit =>
    rw [if_pos hdigit]
    split at h
    next hinteger =>
      cases h
      rfl
    next => cases h
  next hdigit =>
    rw [if_neg hdigit]
    split at h
    next hstarts =>
      cases h
      rw [if_pos hstarts]
    next hstarts =>
      rw [if_neg hstarts]
      split at h
      next hmark =>
        cases h
        rw [Mark.scan?_append (not_continues_of_isBlank hd) hmark]
      next => cases h

/-- A text in front of a blank is cut into the tokens that it has on its own. -/
theorem Scans.of_scanAll (hd : isBlank d = true) (h : scanAll cs = .ok ts) : Scans cs ts (d :: rest) := by
  unfold Scans
  induction hlength : cs.length using Nat.strongRecOn generalizing cs ts with
  | ind length ih =>
    cases htrim : Text.trimLeft cs with
    | nil =>
      -- nothing but blanks
      have htext : Text.trimLeft (cs ++ d :: rest) = Text.trimLeft (d :: rest) := by
        simp [Text.trimLeft, List.dropWhile_append, show cs.dropWhile isBlank = [] from htrim]
      rw [scanAll_eq cs, htrim] at h
      cases h
      rw [scanAll_eq (cs ++ d :: rest), htext, ← scanAll_eq]
      cases scanAll (d :: rest) <;> rfl
    | cons c more =>
      have htext : Text.trimLeft (cs ++ d :: rest) = c :: (more ++ d :: rest) := by
        simp [Text.trimLeft, List.dropWhile_append, show cs.dropWhile isBlank = c :: more from htrim]
      rw [scanAll_eq cs, htrim] at h
      dsimp only at h
      split at h
      next => cases h
      next t tail hscan =>
        obtain ⟨us, hus, rfl⟩ : ∃ us, scanAll tail = .ok us ∧ t :: us = ts := by
          cases hus : scanAll tail with
          | error e => simp [hus, Except.map] at h
          | ok us => exact ⟨us, rfl, by simpa [hus, Except.map] using h⟩
        have hlt : tail.length < length := by
          have hle := Text.length_trimLeft_le cs
          have hle' := length_of_scan hscan
          simp only [htrim, List.length_cons] at hle
          omega
        have htail := ih tail.length hlt hus rfl
        rw [scanAll_eq (cs ++ d :: rest), htext]
        dsimp only
        rw [scan_append hd hscan]
        dsimp only
        rw [htail]
        cases scanAll (d :: rest) <;> rfl

end Token

namespace Grammar

variable {α : Type} {ts more rest : List Token}

theorem leadingOp?_append (hmore : leadingOp? more = none) (ts : List Token) :
    leadingOp? (ts ++ more) = (leadingOp? ts).map fun (op, reversed, after) => (op, reversed, after ++ more) := by
  cases ts with
  | nil => simpa [leadingOp?] using hmore
  | cons t ts =>
    cases t with
    | mark k => simp [leadingOp?, Function.comp_def]
    | _ => rfl

theorem leadingSign?_cons_append (t : Token) (ts more : List Token) :
    leadingSign? (t :: ts ++ more) = (leadingSign? (t :: ts)).map fun (sign, after) => (sign, after ++ more) := by
  cases t with
  | mark k => simp [leadingSign?, Function.comp_def]
  | _ => rfl

theorem eq_of_after? {k : Mark} (h : after? k ts = some rest) : ts = .mark k :: rest := by
  unfold after? at h
  split at h
  next t rest' =>
    split at h
    next ht =>
      cases h
      rw [ht]
    next => cases h
  next => cases h

theorem eq_of_expectMark {k : Mark} {r : { rest : List Token // rest.length < ts.length }}
    (h : expectMark k ts = .ok r) : ts = .mark k :: r.1 := by
  unfold expectMark at h
  split at h
  next hafter =>
    cases h
    exact eq_of_after? hafter
  next => cases h

/-- What one reading gives another gives as well, with further tokens behind the remaining ones. -/
def Extends {R R' : List Token → Prop} (more : List Token) (r : Except GrammarFault (α × { rest : List Token // R rest }))
    (r' : Except GrammarFault (α × { rest : List Token // R' rest })) : Prop :=
  ∀ x rest, Parses r x rest → Parses r' x (rest ++ more)

/-- What is read from some tokens is read from them in front of others as well. -/
structure ReadsBefore (more ts : List Token) : Prop where
  operand : ∀ m, Extends more (operand m ts) (operand m (ts ++ more))
  climb : ∀ m x, Extends more (climb m x ts) (climb m x (ts ++ more))
  unary : Extends more (unary ts) (unary (ts ++ more))
  primary : Extends more (primary ts) (primary (ts ++ more))
  arguments : Extends more (arguments ts) (arguments (ts ++ more))
  moreArguments : Extends more (moreArguments ts) (moreArguments (ts ++ more))

namespace ReadsBefore

section Step

variable (hmore : leadingOp? more = none) (ih : ∀ us, us.length < ts.length → ReadsBefore more us)
include ih

include hmore in
private theorem climb_step (m : Nat) (x : Operand) : Extends more (Grammar.climb m x ts) (Grammar.climb m x (ts ++ more)) := by
  rintro y rest ⟨hle, h⟩
  unfold Grammar.climb at h
  split at h
  next hop =>
    cases h
    refine climb_stops fun op reversed after hop' => ?_
    simp [leadingOp?_append hmore, hop] at hop'
  next op reversed after hop =>
    have hop' : leadingOp? (ts ++ more) = some (op, reversed, after ++ more) := by
      rw [leadingOp?_append hmore, hop]
      rfl
    dsimp only at h
    split at h
    next hm =>
      cases h
      refine climb_stops fun op' reversed' after' hop'' => ?_
      obtain ⟨rfl, -, -⟩ : op = op' ∧ _ ∧ _ := by simpa [hop'] using hop''
      exact hm
    next hm =>
      obtain ⟨⟨z, rest₁, hlt₁⟩, hz, h⟩ := exists_of_except_bind h
      obtain ⟨⟨y', rest₂, hlt₂⟩, hy, h⟩ := exists_of_except_bind h
      cases h
      have hafter := length_of_leadingOp? hop
      exact climb_takes hop' (Nat.lt_of_not_le hm) ((ih after hafter).operand _ _ _ ⟨hlt₁, hz⟩)
        ((ih rest₁ (by omega)).climb _ _ _ _ ⟨hlt₂, hy⟩)

private theorem primary_step : Extends more (Grammar.primary ts) (Grammar.primary (ts ++ more)) := by
  rintro x rest ⟨hlt, h⟩
  unfold Grammar.primary at h
  split at h
  next => cases h
  next v rest₀ =>
    cases h
    exact primary_integer v
  next n rest₀ =>
    split at h
    next hcall =>
      obtain ⟨⟨y, rest₁, hlt₁⟩, hy, h⟩ := exists_of_except_bind h
      obtain ⟨⟨rest₂, hlt₂⟩, hopen, h⟩ := exists_of_except_bind h
      obtain ⟨⟨ys, rest₃, hlt₃⟩, hys, h⟩ := exists_of_except_bind h
      cases h
      obtain rfl : rest₁ = .mark .openParen :: rest₂ := eq_of_expectMark hopen
      subst hcall
      exact primary_call ((ih rest₀ (by simp)).primary _ _ ⟨hlt₁, hy⟩)
        ((ih rest₂ (by simp only [List.length_cons] at hlt₁ ⊢; omega)).arguments _ _ ⟨hlt₃, hys⟩)
    next hcall =>
      split at h
      next => cases h
      next hkeyword =>
        cases h
        exact primary_register hcall (Bool.eq_false_iff.2 hkeyword)
  next k rest₀ =>
    have hoperand := (ih rest₀ (by simp)).operand 0
    split at h
    next hbracket =>
      obtain ⟨⟨y, rest₁, hlt₁⟩, hy, h⟩ := exists_of_except_bind h
      obtain ⟨⟨rest₂, hlt₂⟩, hclose, h⟩ := exists_of_except_bind h
      cases h
      obtain rfl : rest₁ = .mark .closeBracket :: rest := eq_of_expectMark hclose
      subst hbracket
      exact primary_deref (hoperand _ _ ⟨hlt₁, hy⟩)
    next =>
      split at h
      next hparen =>
        obtain ⟨⟨y, rest₁, hlt₁⟩, hy, h⟩ := exists_of_except_bind h
        obtain ⟨⟨rest₂, hlt₂⟩, hclose, h⟩ := exists_of_except_bind h
        cases h
        obtain rfl : rest₁ = .mark .closeParen :: rest := eq_of_expectMark hclose
        subst hparen
        exact primary_enclosed (hoperand _ _ ⟨hlt₁, hy⟩)
      next => cases h

private theorem unary_step (hprimary : Extends more (Grammar.primary ts) (Grammar.primary (ts ++ more))) :
    Extends more (Grammar.unary ts) (Grammar.unary (ts ++ more)) := by
  rintro x rest ⟨hlt, h⟩
  obtain ⟨t, us, rfl⟩ := List.exists_cons_of_length_pos (Nat.lt_of_le_of_lt (Nat.zero_le _) hlt)
  unfold Grammar.unary at h
  split at h
  next sign after hsign =>
    obtain ⟨⟨y, rest₁, hlt₁⟩, hy, h⟩ := exists_of_except_bind h
    cases h
    have hsign' : leadingSign? (t :: us ++ more) = some (sign, after ++ more) := by
      rw [leadingSign?_cons_append, hsign]
      rfl
    exact unary_takes hsign' ((ih after (length_of_leadingSign? hsign)).unary _ _ ⟨hlt₁, hy⟩)
  next hsign =>
    have hsign' : leadingSign? (t :: us ++ more) = none := by
      rw [leadingSign?_cons_append, hsign]
      rfl
    exact unary_unsigned hsign' (hprimary _ _ ⟨hlt, h⟩)

private theorem operand_step (m : Nat) (hunary : Extends more (Grammar.unary ts) (Grammar.unary (ts ++ more))) :
    Extends more (Grammar.operand m ts) (Grammar.operand m (ts ++ more)) := by
  rintro x rest ⟨hlt, h⟩
  unfold Grammar.operand at h
  obtain ⟨⟨y, rest₁, hlt₁⟩, hy, h⟩ := exists_of_except_bind h
  obtain ⟨⟨z, rest₂, hlt₂⟩, hz, h⟩ := exists_of_except_bind h
  cases h
  exact operand_takes (hunary _ _ ⟨hlt₁, hy⟩) ((ih rest₁ hlt₁).climb _ _ _ _ ⟨hlt₂, hz⟩)

private theorem moreArguments_step (hoperand : Extends more (Grammar.operand 0 ts) (Grammar.operand 0 (ts ++ more))) :
    Extends more (Grammar.moreArguments ts) (Grammar.moreArguments (ts ++ more)) := by
  rintro xs rest ⟨hlt, h⟩
  unfold Grammar.moreArguments at h
  obtain ⟨⟨x, rest₁, hlt₁⟩, hx, h⟩ := exists_of_except_bind h
  dsimp only at h
  split at h
  next rest' hclose =>
    cases h
    obtain rfl := eq_of_after? hclose
    exact moreArguments_last (hoperand _ _ ⟨hlt₁, hx⟩)
  next =>
    obtain ⟨⟨rest₂, hlt₂⟩, hcomma, h⟩ := exists_of_except_bind h
    obtain ⟨⟨ys, rest₃, hlt₃⟩, hys, h⟩ := exists_of_except_bind h
    cases h
    obtain rfl : rest₁ = .mark .comma :: rest₂ := eq_of_expectMark hcomma
    exact moreArguments_next (hoperand _ _ ⟨hlt₁, hx⟩) ((ih rest₂ (by omega)).moreArguments _ _ ⟨hlt₃, hys⟩)

omit ih in
private theorem arguments_step
    (hmoreArguments : Extends more (Grammar.moreArguments ts) (Grammar.moreArguments (ts ++ more))) :
    Extends more (Grammar.arguments ts) (Grammar.arguments (ts ++ more)) := by
  rintro xs rest ⟨hlt, h⟩
  unfold Grammar.arguments at h
  split at h
  next rest' hclose =>
    cases h
    obtain rfl := eq_of_after? hclose
    exact arguments_none
  next hopen =>
    obtain ⟨t, us, rfl⟩ := List.exists_cons_of_length_pos (Nat.lt_of_le_of_lt (Nat.zero_le _) hlt)
    refine arguments_some ?_ (hmoreArguments _ _ ⟨hlt, h⟩)
    by_cases ht : t = .mark .closeParen <;> simp_all [after?]

end Step

end ReadsBefore

/-- In front of what starts with no operator, the same is read as without it. -/
theorem readsBefore (hmore : leadingOp? more = none) (ts : List Token) : ReadsBefore more ts := by
  induction hlength : ts.length using Nat.strongRecOn generalizing ts with
  | ind length ih =>
    have ih : ∀ us, us.length < ts.length → ReadsBefore more us := fun us hlt => ih _ (hlength ▸ hlt) us rfl
    have hprimary := ReadsBefore.primary_step ih
    have hunary := ReadsBefore.unary_step ih hprimary
    have hoperand := fun m => ReadsBefore.operand_step ih m hunary
    have hmoreArguments := ReadsBefore.moreArguments_step ih (hoperand 0)
    exact ⟨hoperand, ReadsBefore.climb_step hmore ih, hunary, hprimary, ReadsBefore.arguments_step hmoreArguments,
      hmoreArguments⟩

end Grammar

end FrameRecovery
