import FrameRecovery.Listing.Grammar
import FrameRecovery.Proofs.Outcome
import Mathlib.Data.List.TakeWhile

namespace FrameRecovery

/-- A text that is a name in a listing. -/
def IsName (n : String) : Prop :=
  ∃ c cs, n = String.ofList (c :: cs) ∧ Token.startsName c = true ∧ ∀ d ∈ cs, Token.continuesName d = true

namespace Token

variable {c : Char}

theorem continuesName_of_startsName (hc : startsName c = true) : continuesName c = true := by
  simp only [startsName, Bool.or_eq_true] at hc
  simp only [continuesName, Char.isAlphanum, Bool.or_eq_true]
  rcases hc with hc | hc <;> simp [hc]

/-- The letters by their codes. -/
theorem isAlpha_iff_toNat :
    c.isAlpha = true ↔ 65 ≤ c.toNat ∧ c.toNat ≤ 90 ∨ 97 ≤ c.toNat ∧ c.toNat ≤ 122 := by
  have hletters : c.isAlpha = (decide ('A'.val ≤ c.val ∧ c.val ≤ 'Z'.val) ||
    decide ('a'.val ≤ c.val) && decide (c.val ≤ 'z'.val)) := rfl
  simp [hletters, UInt32.le_iff_toNat_le]

theorem isDigit_of_startsName (hc : startsName c = true) : c.isDigit = false := by
  rw [← Bool.not_eq_true, Char.isDigit_iff_toNat]
  simp only [startsName, Bool.or_eq_true, beq_iff_eq, isAlpha_iff_toNat] at hc
  rcases hc with hc | rfl
  · have hnine : '9'.toNat = 57 := rfl
    omega
  · decide

theorem isBlank_of_continuesName (hc : continuesName c = true) : isBlank c = false := by
  have hle : ∀ a b : Char, a ≤ b ↔ a.toNat ≤ b.toNat := fun _ _ => Iff.rfl
  have heq : ∀ a b : Char, a = b ↔ a.toNat = b.toNat := fun a b =>
    ⟨congrArg Char.toNat, fun h => Char.ext (UInt32.toNat_inj.1 h)⟩
  simp only [continuesName, Char.isAlphanum, Bool.or_eq_true, beq_iff_eq, isAlpha_iff_toNat, Char.isDigit_iff_toNat,
    heq] at hc
  simp only [isBlank, Bool.or_eq_false_iff, Bool.and_eq_false_iff, decide_eq_false_iff_not, beq_eq_false_iff_ne,
    ne_eq, heq, hle]
  simp only [Char.reduceToNat] at *
  omega

end Token

theorem IsName.continues {n : String} (h : IsName n) : ∀ c ∈ n.toList, Token.continuesName c = true := by
  obtain ⟨c, cs, rfl, hc, hcs⟩ := h
  rw [String.toList_ofList]
  rintro d (_ | ⟨_, hd⟩)
  · exact Token.continuesName_of_startsName hc
  · exact hcs d hd

/-- A name that a register can have. -/
def IsRegisterName (n : String) : Prop :=
  IsName n ∧ n ≠ "call"

theorem isName_call : IsName "call" :=
  ⟨'c', ['a', 'l', 'l'], rfl, rfl, List.all_eq_true.1 rfl⟩

mutual

/-- All registers of an operand have names. -/
def Operand.Named : Operand → Prop
  | .register n => IsRegisterName n
  | .constant _ => True
  | .deref x | .addressOf x | .unary _ x => x.Named
  | .binary _ x y => x.Named ∧ y.Named
  | .call x ys => x.Named ∧ Operand.AllNamed ys

/-- All registers of several operands have names. -/
def Operand.AllNamed : List Operand → Prop
  | [] => True
  | x :: rest => x.Named ∧ Operand.AllNamed rest

end

/-- The constant that the operand is, if it is one. -/
def Operand.constant? : Operand → Option Word
  | .constant w => some w
  | _ => none

mutual

/-- An operand as the grammar reads it: no register has the name of a keyword, and the sign of a constant is
    part of the constant. -/
def Operand.Readable : Operand → Prop
  | .register n => IsRegisterName n ∧ Grammar.isKeyword n = false
  | .constant _ => True
  | .deref x | .addressOf x | .unary .not x => x.Readable
  | .unary .neg x => x.Readable ∧ x.constant? = none
  | .binary _ x y => x.Readable ∧ y.Readable
  | .call x ys => x.Readable ∧ Operand.AllReadable ys

/-- Several operands are as the grammar reads them. -/
def Operand.AllReadable : List Operand → Prop
  | [] => True
  | x :: rest => x.Readable ∧ Operand.AllReadable rest

end

theorem Operand.allNamed_of_forall {xs : List Operand} (h : ∀ x ∈ xs, x.Named) : AllNamed xs := by
  induction xs with
  | nil => trivial
  | cons x rest ih => exact ⟨h x (by simp), ih fun y hy => h y (by simp [hy])⟩

theorem Operand.allReadable_iff {xs : List Operand} : AllReadable xs ↔ ∀ x ∈ xs, x.Readable := by
  induction xs with
  | nil => simp [AllReadable]
  | cons x rest ih => simp [AllReadable, ih]

/-- The operands of an instruction. -/
def Action.operands : Action → List Operand
  | assign x y => [x, y]
  | call x | branch x _ | ret (some x) => [x]
  | goto _ | ret none => []

/-- The names among some tokens are names. -/
def Token.Named (ts : List Token) : Prop :=
  ∀ n, .name n ∈ ts → IsName n

namespace Token

variable {c : Char} {cs rest tail : List Char} {t : Token} {ts : List Token}

theorem named_of_scan (h : scan c rest = .ok (t, tail)) : Named [t] := by
  intro n hn
  obtain rfl := List.mem_singleton.1 hn
  unfold scan at h
  split at h
  · split at h
    next hinteger =>
      cases h
      unfold integerOf at hinteger
      split at hinteger <;> cases hinteger
    next => cases h
  · split at h
    next hstarts =>
      cases h
      exact ⟨c, _, rfl, hstarts, fun d hd => List.mem_takeWhile_imp hd⟩
    next => split at h <;> cases h

theorem named_of_scanAll (h : scanAll cs = .ok ts) : Named ts := by
  induction hlength : cs.length using Nat.strongRecOn generalizing cs ts with
  | ind length ih =>
    unfold scanAll at h
    split at h
    · cases h
      simp [Named]
    next c rest hcs =>
      split at h
      · cases h
      next t tail hscan =>
        have hlt : tail.length < length := by
          have h₁ := Text.length_trimLeft_le cs
          have h₂ := length_of_scan hscan
          simp only [hcs, List.length_cons] at h₁
          omega
        cases htail : scanAll tail with
        | error e =>
          rw [htail] at h
          cases h
        | ok us =>
          rw [htail] at h
          cases h
          intro n hn
          obtain rfl | hn := List.mem_cons.1 hn
          · exact named_of_scan hscan n (by simp)
          · exact ih _ hlt htail rfl n hn

end Token

namespace Grammar

open Token (Named)

variable {ts us : List Token} {α : Type}

/-- What is read from some tokens is as `P` says, and what is left are some of them. -/
def Yields {R : List Token → Prop} (ts : List Token) (P : α → Prop)
    (r : Except GrammarFault (α × { rest : List Token // R rest })) : Prop :=
  ∀ x rest, r = .ok (x, rest) → P x ∧ rest.1 ⊆ ts

theorem mem_of_leadingOp? {op : BinaryOp} {reversed : Bool} (h : leadingOp? ts = some (op, reversed, us)) :
    us ⊆ ts := by
  unfold leadingOp? at h
  split at h
  · obtain ⟨a, -, ha⟩ := Option.map_eq_some_iff.1 h
    cases ha
    exact List.subset_cons_self _ _
  · cases h

theorem mem_of_leadingSign? {sign : Sign} (h : leadingSign? ts = some (sign, us)) : us ⊆ ts := by
  unfold leadingSign? at h
  split at h
  · obtain ⟨a, -, ha⟩ := Option.map_eq_some_iff.1 h
    cases ha
    exact List.subset_cons_self _ _
  · cases h

theorem mem_of_after? {m : Mark} (h : after? m ts = some us) : us ⊆ ts := by
  unfold after? at h
  split at h
  · split at h
    · cases h
      exact List.subset_cons_self _ _
    · cases h
  · cases h

theorem mem_of_expectMark {m : Mark} {rest : { rest : List Token // rest.length < ts.length }}
    (h : expectMark m ts = .ok rest) : rest.1 ⊆ ts := by
  unfold expectMark at h
  split at h
  next hafter =>
    cases h
    exact mem_of_after? hafter
  next => cases h

/-- What holds of all operands that are read if it holds of their parts. -/
structure Closed (P : Operand → Prop) : Prop where
  register : ∀ n, IsRegisterName n → isKeyword n = false → P (.register n)
  constant : ∀ w, P (.constant w)
  deref : ∀ x, P x → P (.deref x)
  binary : ∀ op x y, P x → P y → P (.binary op x y)
  call : ∀ x ys, P x → (∀ y ∈ ys, P y) → P (.call x ys)
  sign : ∀ (s : Sign) x, P x → P (s.apply x)

theorem closed_named : Closed Operand.Named := by
  refine ⟨fun _ h _ => h, fun _ => trivial, fun _ h => h, fun _ _ _ hx hy => ⟨hx, hy⟩,
    fun _ _ hx hys => ⟨hx, Operand.allNamed_of_forall hys⟩, fun s x hx => ?_⟩
  cases s <;> cases x <;> exact hx

theorem closed_readable : Closed Operand.Readable := by
  refine ⟨fun _ h hkeyword => ⟨h, hkeyword⟩, fun _ => trivial, fun _ h => h, fun _ _ _ hx hy => ⟨hx, hy⟩,
    fun _ _ hx hys => ⟨hx, Operand.allReadable_iff.2 hys⟩, fun s x hx => ?_⟩
  cases s <;> cases x <;> first | exact hx | exact ⟨hx, rfl⟩

/-- Whatever is read from some tokens is as `P` says. -/
structure Reads (P : Operand → Prop) (ts : List Token) : Prop where
  operand : ∀ m, Yields ts P (operand m ts)
  climb : ∀ m x, P x → Yields ts P (climb m x ts)
  unary : Yields ts P (unary ts)
  primary : Yields ts P (primary ts)
  arguments : Yields ts (∀ x ∈ ·, P x) (arguments ts)
  moreArguments : Yields ts (∀ x ∈ ·, P x) (moreArguments ts)

section Step

variable {P : Operand → Prop} (hP : Closed P) (hts : Named ts)
  (ih : ∀ us, us.length < ts.length → us ⊆ ts → Reads P us)
include ih

private theorem moreArguments_yields (hoperand : Yields ts P (operand 0 ts)) :
    Yields ts (∀ x ∈ ·, P x) (moreArguments ts) := by
  intro xs rest h
  unfold moreArguments at h
  obtain ⟨⟨x, rest₁, hlt₁⟩, hx, h⟩ := exists_of_except_bind h
  obtain ⟨hxP, hrest₁⟩ := hoperand _ _ hx
  dsimp only at h
  split at h
  next hclose =>
    cases h
    exact ⟨by simpa using hxP, List.Subset.trans (mem_of_after? hclose) hrest₁⟩
  next =>
    obtain ⟨⟨rest₂, hlt₂⟩, hcomma, h⟩ := exists_of_except_bind h
    obtain ⟨⟨ys, rest₃, hlt₃⟩, hys, h⟩ := exists_of_except_bind h
    cases h
    have hrest₂ : rest₂ ⊆ ts := List.Subset.trans (mem_of_expectMark hcomma) hrest₁
    obtain ⟨hysP, hrest₃⟩ := (ih rest₂ (by omega) hrest₂).moreArguments _ _ hys
    exact ⟨by simpa using ⟨hxP, hysP⟩, List.Subset.trans hrest₃ hrest₂⟩

include hP in
private theorem climb_yields (m : Nat) {x : Operand} (hx : P x) : Yields ts P (climb m x ts) := by
  intro y rest h
  unfold climb at h
  split at h
  · cases h
    exact ⟨hx, fun _ ht => ht⟩
  next op reversed after hop =>
    have hlt := length_of_leadingOp? hop
    have hafter := mem_of_leadingOp? hop
    dsimp only at h
    split at h
    · cases h
      exact ⟨hx, fun _ ht => ht⟩
    · obtain ⟨⟨z, rest₁, hlt₁⟩, hz, h⟩ := exists_of_except_bind h
      obtain ⟨⟨y', rest₂, hlt₂⟩, hy, h⟩ := exists_of_except_bind h
      cases h
      obtain ⟨hzP, hrest₁⟩ := (ih after hlt hafter).operand _ _ _ hz
      have hrest₁ := List.Subset.trans hrest₁ hafter
      obtain ⟨hyP, hrest₂⟩ := (ih rest₁ (by omega) hrest₁).climb _ _ (by
        split
        · exact hP.binary _ _ _ hzP hx
        · exact hP.binary _ _ _ hx hzP) _ _ hy
      exact ⟨hyP, List.Subset.trans hrest₂ hrest₁⟩

include hP hts in
private theorem primary_yields : Yields ts P (primary ts) := by
  intro x rest h
  unfold primary at h
  split at h
  · cases h
  · cases h
    exact ⟨hP.constant _, List.subset_cons_self _ _⟩
  next n rest₀ =>
    have hrest₀ : rest₀ ⊆ .name n :: rest₀ := List.subset_cons_self _ _
    split at h
    next =>
      obtain ⟨⟨y, rest₁, hlt₁⟩, hy, h⟩ := exists_of_except_bind h
      obtain ⟨⟨rest₂, hlt₂⟩, hopen, h⟩ := exists_of_except_bind h
      obtain ⟨⟨ys, rest₃, hlt₃⟩, hys, h⟩ := exists_of_except_bind h
      cases h
      obtain ⟨hyP, hrest₁⟩ := (ih rest₀ (by simp) hrest₀).primary _ _ hy
      have hrest₂ : rest₂ ⊆ .name n :: rest₀ :=
        List.Subset.trans (mem_of_expectMark hopen) (List.Subset.trans hrest₁ hrest₀)
      obtain ⟨hysP, hrest₃⟩ :=
        (ih rest₂ (by simp only [List.length_cons]; omega) hrest₂).arguments _ _ hys
      exact ⟨hP.call _ _ hyP hysP, List.Subset.trans hrest₃ hrest₂⟩
    next hcall =>
      split at h
      · cases h
      next hkeyword =>
        cases h
        exact ⟨hP.register n ⟨hts n (by simp), hcall⟩ (Bool.eq_false_iff.2 hkeyword), hrest₀⟩
  next m rest₀ =>
    have hrest₀ : rest₀ ⊆ .mark m :: rest₀ := List.subset_cons_self _ _
    have hoperand := (ih rest₀ (by simp) hrest₀).operand 0
    split at h
    · obtain ⟨⟨y, rest₁, hlt₁⟩, hy, h⟩ := exists_of_except_bind h
      obtain ⟨⟨rest₂, hlt₂⟩, hclose, h⟩ := exists_of_except_bind h
      cases h
      obtain ⟨hyP, hrest₁⟩ := hoperand _ _ hy
      have hrest₂ : rest₂ ⊆ rest₁ := mem_of_expectMark hclose
      exact ⟨hP.deref _ hyP, List.Subset.trans hrest₂ (List.Subset.trans hrest₁ hrest₀)⟩
    · split at h
      · obtain ⟨⟨y, rest₁, hlt₁⟩, hy, h⟩ := exists_of_except_bind h
        obtain ⟨⟨rest₂, hlt₂⟩, hclose, h⟩ := exists_of_except_bind h
        cases h
        obtain ⟨hyP, hrest₁⟩ := hoperand _ _ hy
        have hrest₂ : rest₂ ⊆ rest₁ := mem_of_expectMark hclose
        exact ⟨hyP, List.Subset.trans hrest₂ (List.Subset.trans hrest₁ hrest₀)⟩
      · cases h

include hP in
private theorem unary_yields (hprimary : Yields ts P (primary ts)) : Yields ts P (unary ts) := by
  intro x rest h
  unfold unary at h
  split at h
  next sign after hsign =>
    obtain ⟨⟨y, rest₁, hlt₁⟩, hy, h⟩ := exists_of_except_bind h
    cases h
    have hafter := mem_of_leadingSign? hsign
    obtain ⟨hyP, hrest₁⟩ := (ih after (length_of_leadingSign? hsign) hafter).unary _ _ hy
    exact ⟨hP.sign _ _ hyP, List.Subset.trans hrest₁ hafter⟩
  next => exact hprimary x rest h

private theorem operand_yields (m : Nat) (hunary : Yields ts P (unary ts)) : Yields ts P (operand m ts) := by
  intro x rest h
  unfold operand at h
  obtain ⟨⟨y, rest₁, hlt₁⟩, hy, h⟩ := exists_of_except_bind h
  obtain ⟨⟨z, rest₂, hlt₂⟩, hz, h⟩ := exists_of_except_bind h
  cases h
  obtain ⟨hyP, hrest₁⟩ := hunary _ _ hy
  obtain ⟨hzP, hrest₂⟩ := (ih rest₁ hlt₁ hrest₁).climb _ _ hyP _ _ hz
  exact ⟨hzP, List.Subset.trans hrest₂ hrest₁⟩

omit ih in
private theorem arguments_yields (hmore : Yields ts (∀ x ∈ ·, P x) (moreArguments ts)) :
    Yields ts (∀ x ∈ ·, P x) (arguments ts) := by
  intro xs rest h
  unfold arguments at h
  split at h
  next hclose =>
    cases h
    exact ⟨List.forall_mem_nil _, mem_of_after? hclose⟩
  next => exact hmore xs rest h

end Step

/-- Where all names are names, what is read has every property that operands get from their parts. -/
theorem reads {P : Operand → Prop} (hP : Closed P) (hts : Named ts) : Reads P ts := by
  induction hlength : ts.length using Nat.strongRecOn generalizing ts with
  | ind length ih =>
    have ih : ∀ us, us.length < ts.length → us ⊆ ts → Reads P us := fun us hlt hus =>
      ih _ (hlength ▸ hlt) (fun n hn => hts n (hus hn)) rfl
    have hprimary := primary_yields hP hts ih
    have hunary := unary_yields hP ih hprimary
    have hoperand := fun m => operand_yields ih m hunary
    have hmore := moreArguments_yields ih (hoperand 0)
    exact ⟨hoperand, fun m x hx => climb_yields hP ih m hx, hunary, hprimary, arguments_yields hmore, hmore⟩

/-- No keyword is read as a register, and no negation of a constant. -/
theorem readsReadable (hts : Named ts) : Reads Operand.Readable ts :=
  reads closed_readable hts

end Grammar

end FrameRecovery
