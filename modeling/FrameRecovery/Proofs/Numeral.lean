import FrameRecovery.Numeral
import FrameRecovery.Proofs.Word

namespace FrameRecovery

variable {b m n k : Nat} {c : Char} {xs ys : List Char}

theorem digitValue?_digitChar (hk : k < 16) : digitValue? k.digitChar = some k := by
  have hall : ∀ k : Fin 16, digitValue? k.val.digitChar = some k.val := by decide
  exact hall ⟨k, hk⟩

theorem isAlphanum_digitChar (hk : k < 16) : k.digitChar.isAlphanum = true := by
  have hall : ∀ k : Fin 16, k.val.digitChar.isAlphanum = true := by decide
  exact hall ⟨k, hk⟩

theorem isAlphanum_of_isDigit (hc : c.isDigit = true) : c.isAlphanum = true := by
  simp [Char.isAlphanum, hc]

/-- What holds of the sixteen digits holds of the characters that a number is written with. -/
theorem forall_mem_toDigits {P : Char → Prop} (hb : 1 < b) (hP : ∀ k < b, P k.digitChar) (n : Nat) :
    ∀ c ∈ b.toDigits n, P c := by
  induction n using Nat.strongRecOn with
  | ind n ih =>
    rw [Nat.toDigits_eq_if hb]
    split
    next hn => simpa using hP n hn
    next hn =>
      intro c hc
      rcases List.mem_append.1 hc with hc | hc
      · exact ih (n / b) (Nat.div_lt_self (by omega) hb) c hc
      · obtain rfl := List.mem_singleton.1 hc
        exact hP _ (Nat.mod_lt n (by omega))

theorem isAlphanum_of_mem_toDigits (hb : 1 < b) (hb' : b ≤ 16) (hc : c ∈ b.toDigits n) : c.isAlphanum = true :=
  forall_mem_toDigits (P := fun c => c.isAlphanum = true) hb
    (fun _ hk => isAlphanum_digitChar (Nat.lt_of_lt_of_le hk hb')) n c hc

theorem toDigits_ne_nil (hb : 1 < b) : b.toDigits n ≠ [] := by
  rw [Nat.toDigits_eq_if hb]
  split <;> simp

namespace Numeral

theorem continue?_append (xs ys : List Char) (n : Nat) :
    continue? b n (xs ++ ys) = (continue? b n xs).bind fun m => continue? b m ys := by
  induction xs generalizing n with
  | nil => rfl
  | cons x rest ih =>
    rw [List.cons_append, continue?, continue?, Option.bind_assoc]
    exact congrArg _ (funext ih)

/-- The digits of a number stand for it. -/
theorem continue?_toDigits (hb : 1 < b) (hb' : b ≤ 16) (n : Nat) : continue? b 0 (b.toDigits n) = some n := by
  have hextend : ∀ {m k : Nat}, k < b → extend? b m k.digitChar = some (m * b + k) := by
    intro m k hk
    rw [extend?, digitValue?_digitChar (Nat.lt_of_lt_of_le hk hb')]
    exact if_pos hk
  induction n using Nat.strongRecOn with
  | ind n ih =>
    rw [Nat.toDigits_eq_if hb]
    split
    next hn => simp [continue?, hextend hn]
    next hn =>
      have hrem : n % b < b := Nat.mod_lt n (by omega)
      rw [continue?_append, ih (n / b) (Nat.div_lt_self (by omega) hb)]
      simp [continue?, hextend hrem, Nat.div_add_mod']

theorem value?_toDigits (hb : 1 < b) (hb' : b ≤ 16) (n : Nat) : value? b (b.toDigits n) = some n := by
  have hne : b.toDigits n ≠ [] := toDigits_ne_nil hb
  have hvalue := continue?_toDigits hb hb' n
  cases hdigits : b.toDigits n with
  | nil => exact absurd hdigits hne
  | cons c rest => rwa [hdigits] at hvalue

theorem word64?_toDigits (hb : 1 < b) (hb' : b ≤ 16) (hn : n < UInt64.size) :
    word64? b (b.toDigits n) = some (.ofNat n) := by
  have hplus : ∀ rest, b.toDigits n ≠ '+' :: rest := fun rest h =>
    absurd (isAlphanum_of_mem_toDigits hb hb' (n := n) (by simp [h])) (by decide : ¬ '+'.isAlphanum = true)
  unfold word64?
  split
  next rest h => exact absurd h (hplus rest)
  next => simp [value?_toDigits hb hb', hn]

end Numeral

/-- An address is read from its decimal digits. -/
theorem Address.ofText?_decimal (hn : n < UInt64.size) : ofText? (decimal n).toList = some (.ofNat n) := by
  have hdigit : ∀ {c}, c ∈ Nat.toDigits 10 n → c.isDigit = true := fun hc =>
    Nat.isDigit_of_mem_toDigits (by decide) (by decide) hc
  rw [decimal, String.toList_ofList]
  unfold ofText?
  split
  next rest h => exact absurd (hdigit (c := 'x') (by simp [h])) (by decide)
  next rest h => exact absurd (hdigit (c := 'X') (by simp [h])) (by decide)
  next => exact Numeral.word64?_toDigits (by decide) (by decide) hn

theorem Address.ofText?_hexadecimal (hn : n < UInt64.size) : ofText? (hexadecimal n).toList = some (.ofNat n) := by
  have hlist : (hexadecimal n).toList = '0' :: 'x' :: Nat.toDigits 16 n := by simp [hexadecimal, hexDigits]
  rw [hlist]
  exact Numeral.word64?_toDigits (by decide) (by decide) hn

/-- An address is read from its text. -/
theorem Address.ofText?_text (a : Address) : ofText? a.text.toList = some a := by
  rw [Address.text, ofText?_hexadecimal a.toNat_lt, UInt64.ofNat_toNat]

namespace Word

/-- The digits that the magnitude of a constant has inside an expression. -/
def digits (n : Nat) : List Char :=
  if n < hexThreshold then Nat.toDigits 10 n else '0' :: 'x' :: Nat.toDigits 16 n

theorem toList_text (w : Word) :
    w.text.toList = (if w.toInt < 0 then ['-'] else []) ++ digits w.toInt.natAbs := by
  have hsign : (if w.toInt < 0 then "-" else "").toList = if w.toInt < 0 then ['-'] else [] := by
    split <;> rfl
  unfold text digits
  split <;> simp [signedDecimal, decimal, hexadecimal, hexDigits, hsign]

theorem isAlphanum_of_mem_digits (hc : c ∈ digits n) : c.isAlphanum = true := by
  unfold digits at hc
  split at hc
  · exact isAlphanum_of_mem_toDigits (by decide) (by decide) hc
  · rcases List.mem_cons.1 hc with rfl | hc
    · decide
    · rcases List.mem_cons.1 hc with rfl | hc
      · decide
      · exact isAlphanum_of_mem_toDigits (by decide) (by decide) hc

/-- The digits of a constant start with a decimal digit. -/
theorem exists_digits_eq (n : Nat) : ∃ c cs, digits n = c :: cs ∧ c.isDigit = true := by
  unfold digits
  split
  · obtain ⟨c, cs, hcs⟩ := List.exists_cons_of_ne_nil (toDigits_ne_nil (b := 10) (n := n) (by decide))
    exact ⟨c, cs, hcs, Nat.isDigit_of_mem_toDigits (b := 10) (n := n) (by decide) (by decide) (by simp [hcs])⟩
  · exact ⟨'0', _, rfl, by decide⟩

theorem digits_injective (h : digits m = digits n) : m = n := by
  have hne : ∀ {m n}, Nat.toDigits 10 m ≠ '0' :: 'x' :: Nat.toDigits 16 n := fun {m n} heq =>
    absurd (Nat.isDigit_of_mem_toDigits (b := 10) (n := m) (c := 'x') (by decide) (by decide) (by simp [heq]))
      (by decide)
  unfold digits at h
  split at h <;> split at h
  · exact toDigits_injective (by decide) (by decide) h
  · exact absurd h hne
  · exact absurd h.symm hne
  · simp only [List.cons.injEq, true_and] at h
    exact toDigits_injective (by decide) (by decide) h

/-- A word is read from the digits of its magnitude. -/
theorem ofText?_digits (hn : n < UInt64.size) : Address.ofText? (digits n) = some (.ofNat n) := by
  have hdecimal := Address.ofText?_decimal hn
  have hhexadecimal := Address.ofText?_hexadecimal hn
  unfold digits
  split
  · simpa [decimal] using hdecimal
  · simpa [hexadecimal, hexDigits] using hhexadecimal

theorem toInt_neg_iff {w : Word} : w.toInt < 0 ↔ w < 0 := by
  rw [Int64.lt_iff_toInt_lt, Int64.toInt_zero]

/-- The word with the bits of the magnitude is the word without its sign. -/
theorem toInt64_natAbs (w : Word) : (UInt64.ofNat w.toInt.natAbs).toInt64 = if w < 0 then -w else w := by
  have hofNat : (UInt64.ofNat w.toInt.natAbs).toInt64 = Int64.ofInt (w.toInt.natAbs : Int) := by
    rw [Int64.ofInt_eq_ofNat]
    exact UInt64.toInt64_ofNat'
  rw [hofNat]
  split
  next hw =>
    have hneg := toInt_neg_iff.2 hw
    rw [Int.ofNat_natAbs_of_nonpos (by omega), Int64.ofInt_neg, Int64.ofInt_toInt]
  next hw =>
    have hnonneg := mt toInt_neg_iff.1 hw
    rw [Int.natAbs_of_nonneg (by omega), Int64.ofInt_toInt]

theorem natAbs_lt_size (w : Word) : w.toInt.natAbs < UInt64.size := by
  have hlt := Int64.toInt_lt w
  have hle := Int64.le_toInt w
  have hsize : UInt64.size = 2 ^ 64 := rfl
  omega

end Word

end FrameRecovery
