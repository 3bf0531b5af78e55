import FrameRecovery.Flow.Text
import FrameRecovery.Proofs.Names
import FrameRecovery.Proofs.Numeral

namespace FrameRecovery

/-- A character that ends a run of name characters and is not in front of a version. -/
def Breaks (c : Char) : Prop :=
  Token.continuesName c = false ∧ c ≠ '@'

instance (c : Char) : Decidable (Breaks c) := by
  unfold Breaks
  infer_instance

theorem not_mem_toDigits {b n : Nat} (hb : 1 < b) (hb' : b ≤ 16) : '@' ∉ b.toDigits n :=
  fun h => absurd (isAlphanum_of_mem_toDigits hb hb' h) (by decide)

theorem not_mem_decimal (n : Nat) : '@' ∉ (decimal n).toList := by
  rw [decimal, String.toList_ofList]
  exact not_mem_toDigits (by decide) (by decide)

theorem not_mem_hexadecimal (n : Nat) : '@' ∉ (hexadecimal n).toList := by
  rw [hexadecimal, hexDigits, String.toList_append, String.toList_ofList (l := Nat.toDigits 16 n), List.mem_append,
    not_or]
  exact ⟨by decide, not_mem_toDigits (by decide) (by decide)⟩

theorem Address.not_mem_text (a : Address) : '@' ∉ a.text.toList :=
  not_mem_hexadecimal a.toNat

theorem Word.not_mem_text (w : Word) : '@' ∉ w.text.toList := by
  have hsign : '@' ∉ (if w.toInt < 0 then "-" else "").toList := by
    split <;> decide
  unfold Word.text signedDecimal
  split
  · simp only [String.toList_append, List.mem_append, not_or]
    exact ⟨hsign, not_mem_decimal _⟩
  · simp only [String.toList_append, List.mem_append, not_or]
    exact ⟨hsign, not_mem_hexadecimal _⟩

/-- A way to write a text anew in which nothing changes but about versions, and in which it does not matter what is
    in front of a break; a bracket that closes may matter. -/
structure Rewords (R : List Char → List Char) : Prop where
  unversioned : ∀ xs, '@' ∉ xs → R xs = xs
  append_break : ∀ c xs ys, Breaks c → c ≠ ']' → R (xs ++ c :: ys) = R xs ++ c :: R ys

namespace Rewords

variable {R : List Char → List Char} (hR : Rewords R) {c : Char} {xs : List Char}
include hR

/-- What has no version stays in front of a break. -/
theorem append_cons (hxs : '@' ∉ xs) (hc : Breaks c) (hne : c ≠ ']') (ys : List Char) :
    R (xs ++ c :: ys) = xs ++ c :: R ys := by
  rw [hR.append_break c xs ys hc hne, hR.unversioned xs hxs]

theorem cons (hc : Breaks c) (hne : c ≠ ']') (ys : List Char) : R (c :: ys) = c :: R ys :=
  hR.append_cons List.not_mem_nil hc hne ys

theorem intercalate (xss : List (List Char)) :
    R ([',', ' '].intercalate xss) = [',', ' '].intercalate (xss.map R) := by
  induction xss with
  | nil => exact hR.unversioned [] List.not_mem_nil
  | cons xs rest ih =>
    cases rest with
    | nil => simp
    | cons ys rest =>
      simp only [List.map_cons, List.intercalate_cons_cons, List.append_assoc, List.cons_append, List.nil_append] at ih ⊢
      rw [hR.append_break _ _ _ (by decide) (by decide), hR.cons (by decide) (by decide), ih]

section Layout

variable {F : Term → Term}

theorem operandText {t : Term} (hcompound : (F t).expr.isCompound = t.expr.isCompound)
    (h : (F t).text.toList = R t.text.toList) : (F t).operandText.toList = R t.operandText.toList := by
  have htext : ∀ a : String, ("(" ++ a ++ ")").toList = '(' :: (a.toList ++ [')']) := fun a => by simp
  rw [Term.operandText_eq, Term.operandText_eq, hcompound]
  split
  · rw [htext, htext, hR.cons (by decide) (by decide), hR.append_break _ _ _ (by decide) (by decide), h,
      hR.unversioned [] List.not_mem_nil]
  · exact h

/-- The text of an expression is written anew if those of its children are. -/
theorem layout {e : Expr Term} (he : e.isAssignable = false)
    (hplain : ∀ c ∈ e.children, (F c).text.toList = R c.text.toList)
    (hoperand : ∀ c ∈ e.children, (F c).operandText.toList = R c.operandText.toList) :
    ((e.map F).layout Term.text Term.operandText).toList = R (e.layout Term.text Term.operandText).toList := by
  have hnil : R [] = [] := hR.unversioned [] List.not_mem_nil
  have hlist : ∀ ts ⊆ e.children, (", ".intercalate ((ts.map F).map Term.text)).toList =
      R (", ".intercalate (ts.map Term.text)).toList := by
    intro ts hts
    have hcomma : ", ".toList = [',', ' '] := rfl
    rw [String.toList_intercalate, String.toList_intercalate, hcomma, hR.intercalate, List.map_map, List.map_map,
      List.map_map, List.map_map]
    exact congrArg _ (List.map_congr_left fun c hc => hplain c (hts hc))
  cases e with
  | register | deref | var => cases he
  | constant w => exact (hR.unversioned _ w.not_mem_text).symm
  | addressOf x =>
    have htext : ∀ a : String, ("&" ++ a).toList = '&' :: a.toList := fun a => by simp
    change ("&" ++ (F x).operandText).toList = R ("&" ++ x.operandText).toList
    rw [htext, htext, hR.cons (by decide) (by decide), hoperand x (by simp [Expr.children])]
  | binary op x y =>
    have htext : ∀ a b : String, (a ++ " " ++ op.symbol ++ " " ++ b).toList =
        a.toList ++ ' ' :: (op.symbol.toList ++ ' ' :: b.toList) := fun a b => by simp
    have hsymbol : '@' ∉ op.symbol.toList := by cases op <;> decide
    change (_ ++ " " ++ op.symbol ++ " " ++ _).toList = R (_ ++ " " ++ op.symbol ++ " " ++ _).toList
    rw [htext, htext, hR.append_break _ _ _ (by decide) (by decide), hR.append_cons hsymbol (by decide) (by decide),
      hoperand x (by simp [Expr.children]), hoperand y (by simp [Expr.children])]
  | unary op x =>
    have htext : ∃ c, Breaks c ∧ c ≠ ']' ∧ op.symbol = String.ofList [c] := by
      cases op
      · exact ⟨'-', by decide, by decide, rfl⟩
      · exact ⟨'!', by decide, by decide, rfl⟩
    obtain ⟨c, hc, hne, hsymbol⟩ := htext
    change (op.symbol ++ (F x).operandText).toList = R (op.symbol ++ x.operandText).toList
    rw [hsymbol, String.toList_append, String.toList_append, String.toList_ofList, List.singleton_append,
      List.singleton_append, hR.cons hc hne, hoperand x (by simp [Expr.children])]
  | call x ys =>
    have htext : ∀ a b : String, ("call " ++ a ++ "(" ++ b ++ ")").toList =
        "call".toList ++ ' ' :: (a.toList ++ '(' :: (b.toList ++ [')'])) := fun a b => by simp
    change ("call " ++ (F x).text ++ "(" ++ _ ++ ")").toList = R ("call " ++ x.text ++ "(" ++ _ ++ ")").toList
    rw [htext, htext, hR.append_cons (by decide) (by decide) (by decide), hR.append_break _ _ _ (by decide) (by decide),
      hR.append_break _ _ _ (by decide) (by decide), hplain x (by simp [Expr.children]), hlist ys (by simp [Expr.children]),
      hnil]
  | theta xs =>
    have htext : ∀ a : String, ("THETA(" ++ a ++ ")").toList = "THETA".toList ++ '(' :: (a.toList ++ [')']) :=
      fun a => by simp
    change ("THETA(" ++ _ ++ ")").toList = R ("THETA(" ++ _ ++ ")").toList
    rw [htext, htext, hR.append_cons (by decide) (by decide) (by decide), hR.append_break _ _ _ (by decide) (by decide),
      hlist xs (by simp [Expr.children]), hnil]
  | assign x y =>
    have htext : ∀ a b : String, (a ++ " = " ++ b).toList = a.toList ++ ' ' :: ([ '='] ++ ' ' :: b.toList) :=
      fun a b => by simp
    change ((F x).text ++ " = " ++ (F y).text).toList = R (x.text ++ " = " ++ y.text).toList
    rw [htext, htext, hR.append_break _ _ _ (by decide) (by decide), hR.append_cons (by decide) (by decide) (by decide),
      hplain x (by simp [Expr.children]), hplain y (by simp [Expr.children])]
  | branch x a =>
    have htext : ∀ b : String, ("if " ++ b ++ " goto " ++ a.text).toList =
        "if".toList ++ ' ' :: (b.toList ++ ' ' :: ("goto".toList ++ ' ' :: a.text.toList)) := fun b => by simp
    change ("if " ++ (F x).text ++ " goto " ++ a.text).toList = R ("if " ++ x.text ++ " goto " ++ a.text).toList
    rw [htext, htext, hR.append_cons (by decide) (by decide) (by decide), hR.append_break _ _ _ (by decide) (by decide),
      hR.append_cons (by decide) (by decide) (by decide), hR.unversioned _ (Address.not_mem_text a),
      hplain x (by simp [Expr.children])]
  | goto a =>
    have htext : ("goto " ++ a.text).toList = "goto".toList ++ ' ' :: a.text.toList := by simp
    change ("goto " ++ a.text).toList = R ("goto " ++ a.text).toList
    rw [htext, hR.append_cons (by decide) (by decide) (by decide), hR.unversioned _ (Address.not_mem_text a)]
  | ret x =>
    cases x with
    | none => exact (hR.unversioned _ (show '@' ∉ "return".toList by decide)).symm
    | some x =>
      have htext : ∀ b : String, ("return " ++ b).toList = "return".toList ++ ' ' :: b.toList := fun b => by simp
      change ("return " ++ (F x).text).toList = R ("return " ++ x.text).toList
      rw [htext, htext, hR.append_cons (by decide) (by decide) (by decide), hplain x (by simp [Expr.children])]

end Layout

end Rewords

end FrameRecovery
