import FrameRecovery.Proofs.Numeral
import Mathlib.Data.List.Forall2
import Mathlib.Data.Nat.Digits.Defs
import Mathlib.Tactic.Ring

namespace FrameRecovery

variable {b m n k : Nat} {c : Char} {cs ds sign : List Char} {a : Address}

namespace Numeral

/-- A character is the digit `k` of a base. Letters count in either case. -/
def IsDigit (b : Nat) (c : Char) (k : Nat) : Prop :=
  k < b ∧ (c = k.digitChar ∨ c = k.digitChar.toUpper)

/-- A run of digits, at least one, writes a number: the rightmost digit counts once, and every other one counts
    `b` times as much as the digit to its right. -/
def Writes (b : Nat) (cs : List Char) (n : Nat) : Prop :=
  ∃ ks, ks ≠ [] ∧ List.Forall₂ (IsDigit b) cs ks ∧ n = Nat.ofDigits b ks.reverse

end Numeral

open Numeral (IsDigit Writes)

theorem digitValue?_eq_some_iff : digitValue? c = some k ↔ IsDigit 16 c k := by
  constructor
  · intro hc
    have hcode : c.toNat < 128 := by
      have hle : ∀ d : Char, c ≤ d → c.toNat ≤ d.toNat := fun _ h => h
      unfold digitValue? at hc
      split at hc
      next h => exact Nat.lt_of_le_of_lt (hle _ h.2) (by decide)
      next =>
        split at hc
        next h => exact Nat.lt_of_le_of_lt (hle _ h.2) (by decide)
        next =>
          split at hc
          next h => exact Nat.lt_of_le_of_lt (hle _ h.2) (by decide)
          next => cases hc
    have hall : ∀ code : Fin 128, ∀ k ∈ digitValue? (Char.ofNat code), k < 16 ∧
        (Char.ofNat code = k.digitChar ∨ Char.ofNat code = k.digitChar.toUpper) := by decide
    have hc' := hall ⟨c.toNat, hcode⟩ k
    rw [Char.ofNat_toNat] at hc'
    exact hc' hc
  · rintro ⟨hk, hc⟩
    have hupper : ∀ k : Fin 16, digitValue? k.val.digitChar.toUpper = some k.val := by decide
    rcases hc with rfl | rfl
    · exact digitValue?_digitChar hk
    · exact hupper ⟨k, hk⟩

namespace Numeral

theorem extend?_eq_some_iff (hb : b ≤ 16) : extend? b n c = some m ↔ ∃ k, IsDigit b c k ∧ m = n * b + k := by
  have hdigit : ∀ k, IsDigit b c k ↔ digitValue? c = some k ∧ k < b := by
    intro k
    rw [digitValue?_eq_some_iff]
    exact ⟨fun h => ⟨⟨Nat.lt_of_lt_of_le h.1 hb, h.2⟩, h.1⟩, fun h => ⟨h.2, h.1.2⟩⟩
  simp only [hdigit]
  unfold extend?
  split
  next d hd => simp [hd, and_comm, eq_comm]
  next hd => simp [hd]

/-- What is read of a run of digits are its digits one by one, each of which counts `b` times less than the one
    before it. -/
theorem continue?_eq_some_iff (hb : b ≤ 16) : continue? b n cs = some m ↔
    ∃ ks, List.Forall₂ (IsDigit b) cs ks ∧ m = n * b ^ ks.length + Nat.ofDigits b ks.reverse := by
  induction cs generalizing n with
  | nil => simp [continue?, List.forall₂_nil_left_iff, eq_comm]
  | cons c rest ih =>
    have hvalue : ∀ k ks, (n * b + k) * b ^ ks.length + Nat.ofDigits b ks.reverse =
        n * b ^ (k :: ks).length + Nat.ofDigits b (k :: ks).reverse := by
      intro k ks
      rw [List.reverse_cons, Nat.ofDigits_append, Nat.ofDigits_singleton, List.length_reverse, List.length_cons]
      ring
    rw [continue?, Option.bind_eq_some_iff]
    constructor
    · rintro ⟨n', hn', hm⟩
      obtain ⟨k, hk, rfl⟩ := (extend?_eq_some_iff hb).1 hn'
      obtain ⟨ks, hks, rfl⟩ := ih.1 hm
      exact ⟨k :: ks, .cons hk hks, hvalue k ks⟩
    · rintro ⟨_, hks, rfl⟩
      cases hks with
      | cons hk hks => exact ⟨_, (extend?_eq_some_iff hb).2 ⟨_, hk, rfl⟩, ih.2 ⟨_, hks, (hvalue _ _).symm⟩⟩

theorem value?_eq_some_iff (hb : b ≤ 16) : value? b cs = some n ↔ Writes b cs n := by
  unfold Writes
  cases cs with
  | nil => simp +contextual [value?, List.forall₂_nil_left_iff]
  | cons c rest =>
    rw [value?, continue?_eq_some_iff hb]
    · constructor
      · rintro ⟨ks, hks, rfl⟩
        refine ⟨ks, ?_, hks, by simp⟩
        rintro rfl
        cases hks
      · rintro ⟨ks, -, hks, rfl⟩
        exact ⟨ks, hks, by simp⟩
    · simp

theorem Writes.ne_nil (h : Writes b cs n) : cs ≠ [] := by
  obtain ⟨ks, hne, hks, -⟩ := h
  rintro rfl
  cases hks
  exact hne rfl

/-- What holds of the digits of a base in either case holds of the characters that a number is written with. -/
theorem Writes.forall_mem {P : Char → Prop} (hP : ∀ k < b, P k.digitChar ∧ P k.digitChar.toUpper)
    (h : Writes b cs n) : ∀ c ∈ cs, P c := by
  obtain ⟨ks, -, hks, -⟩ := h
  induction hks with
  | nil => exact List.forall_mem_nil _
  | cons hk _ ih =>
    refine List.forall_mem_cons.2 ⟨?_, ih⟩
    rcases hk.2 with rfl | rfl
    · exact (hP _ hk.1).1
    · exact (hP _ hk.1).2

theorem Writes.isAlphanum (hb : b ≤ 16) (h : Writes b cs n) : ∀ c ∈ cs, c.isAlphanum = true := by
  have hupper : ∀ k : Fin 16, k.val.digitChar.toUpper.isAlphanum = true := by decide
  refine h.forall_mem fun k hk => ?_
  have hk' : k < 16 := Nat.lt_of_lt_of_le hk hb
  exact ⟨isAlphanum_digitChar hk', hupper ⟨k, hk'⟩⟩

theorem Writes.isDigit (h : Writes 10 cs n) : ∀ c ∈ cs, c.isDigit = true := by
  have hdigit : ∀ k : Fin 10, k.val.digitChar.isDigit = true ∧ k.val.digitChar.toUpper.isDigit = true := by decide
  exact h.forall_mem fun k hk => hdigit ⟨k, hk⟩

theorem not_writes_of_plus (hb : b ≤ 16) : ¬ Writes b ('+' :: cs) n := fun h =>
  absurd (h.isAlphanum hb '+' (by simp)) (by decide)

theorem word64?_plus_eq_some_iff (hb : b ≤ 16) : word64? b ('+' :: ds) = some a ↔ Writes b ds a.toNat := by
  rw [← value?_eq_some_iff hb]
  unfold word64?
  dsimp only
  split
  next n hn =>
    change value? b ds = some n at hn
    rw [hn, Option.some.injEq]
    constructor
    · intro h
      split at h
      next hlt =>
        obtain rfl := Option.some.inj h
        exact (UInt64.toNat_ofNat_of_lt' hlt).symm
      next => cases h
    · rintro rfl
      rw [if_pos a.toNat_lt_size, UInt64.ofNat_toNat]
  next hn =>
    change value? b ds = none at hn
    simp [hn]

/-- A plus sign in front of a numeral without one changes nothing. -/
theorem word64?_plus (hcs : ∀ ds, cs ≠ '+' :: ds) : word64? b ('+' :: cs) = word64? b cs := by
  conv => rhs; unfold word64?
  split
  next ds => exact absurd rfl (hcs ds)
  next => rfl

theorem word64?_eq_some_iff (hb : b ≤ 16) :
    word64? b cs = some a ↔ Writes b cs a.toNat ∨ ∃ ds, cs = '+' :: ds ∧ Writes b ds a.toNat := by
  by_cases hplus : ∃ ds, cs = '+' :: ds
  · obtain ⟨ds, rfl⟩ := hplus
    rw [word64?_plus_eq_some_iff hb]
    simp [not_writes_of_plus hb]
  · have hcs : ∀ ds, cs ≠ '+' :: ds := fun ds h => hplus ⟨ds, h⟩
    rw [← word64?_plus hcs, word64?_plus_eq_some_iff hb]
    exact (or_iff_left fun ⟨ds, hds, _⟩ => hcs ds hds).symm

end Numeral

namespace Address

/-- An address is written with decimal digits, or with hexadecimal digits behind `0x` or `0X`. A sign, if there is
    one, stands right in front of the digits. -/
inductive Spelled (sign : List Char) (n : Nat) : List Char → Prop
  | decimal (ds : List Char) (h : Writes 10 ds n) : Spelled sign n (sign ++ ds)
  | hexadecimal (c : Char) (ds : List Char) (hc : c = 'x' ∨ c = 'X') (h : Writes 16 ds n) :
    Spelled sign n ('0' :: c :: (sign ++ ds))

namespace Spelled

theorem decimal_iff (hcs : ∀ c rest, c = 'x' ∨ c = 'X' → cs ≠ '0' :: c :: rest) :
    Spelled sign n cs ↔ ∃ ds, cs = sign ++ ds ∧ Writes 10 ds n := by
  constructor
  · intro h
    cases h with
    | decimal ds h => exact ⟨ds, rfl, h⟩
    | hexadecimal c ds hc h => exact absurd rfl (hcs c _ hc)
  · rintro ⟨ds, rfl, h⟩
    exact .decimal ds h

theorem hexadecimal_iff (hsign : ∀ d ∈ sign, d.isAlphanum = false) (hc : c = 'x' ∨ c = 'X') :
    Spelled sign n ('0' :: c :: cs) ↔ ∃ ds, cs = sign ++ ds ∧ Writes 16 ds n := by
  constructor
  · intro h
    generalize htext : '0' :: c :: cs = text at h
    cases h with
    | decimal ds h =>
      -- no sign starts with `0`, and `x` is no decimal digit
      cases sign with
      | nil =>
        have hds : ds = '0' :: c :: cs := htext.symm
        have hdigit : c.isDigit = true := h.isDigit c (by simp [hds])
        rcases hc with rfl | rfl <;> exact absurd hdigit (by decide)
      | cons d rest =>
        obtain ⟨rfl, -⟩ := List.cons.inj htext
        exact absurd (hsign '0' (by simp)) (by decide)
    | hexadecimal c' ds hc' h =>
      simp only [List.cons.injEq, true_and] at htext
      exact ⟨ds, htext.2, h⟩
  · rintro ⟨ds, rfl, h⟩
    exact .hexadecimal c ds hc h

end Spelled

theorem ofText?_eq_some_iff : ofText? cs = some a ↔ Spelled [] a.toNat cs ∨ Spelled ['+'] a.toNat cs := by
  have hplus : ∀ d ∈ ['+'], d.isAlphanum = false := List.forall_mem_singleton.2 rfl
  unfold ofText?
  split
  next digits =>
    rw [Numeral.word64?_eq_some_iff (by decide), Spelled.hexadecimal_iff (List.forall_mem_nil _) (.inl rfl),
      Spelled.hexadecimal_iff hplus (.inl rfl)]
    simp
  next digits =>
    rw [Numeral.word64?_eq_some_iff (by decide), Spelled.hexadecimal_iff (List.forall_mem_nil _) (.inr rfl),
      Spelled.hexadecimal_iff hplus (.inr rfl)]
    simp
  next hx hX =>
    have hcs : ∀ c rest, c = 'x' ∨ c = 'X' → cs ≠ '0' :: c :: rest := by
      rintro c rest (rfl | rfl)
      · exact hx rest
      · exact hX rest
    rw [Numeral.word64?_eq_some_iff (by decide), Spelled.decimal_iff hcs, Spelled.decimal_iff hcs]
    simp

/-- The text of an address writes it. -/
theorem spelled_text (a : Address) : Spelled [] a.toNat a.text.toList := by
  have hlist : a.text.toList = '0' :: 'x' :: ([] ++ Nat.toDigits 16 a.toNat) := by
    simp [Address.text, hexadecimal, hexDigits]
  have hvalue := Numeral.value?_toDigits (b := 16) (by decide) (by decide) a.toNat
  rw [hlist]
  exact .hexadecimal 'x' _ (.inl rfl) ((Numeral.value?_eq_some_iff (by decide)).1 hvalue)

/-- What is read as an address are exactly the numbers below 2⁶⁴ as they are written, with or without a plus sign
    in front of the digits. -/
theorem ofText?_exact (cs : List Char) :
    (∀ a, ofText? cs = some a ↔ Spelled [] a.toNat cs ∨ Spelled ['+'] a.toNat cs) ∧
      (ofText? cs = none ↔ ∀ n, Spelled [] n cs ∨ Spelled ['+'] n cs → 2 ^ 64 ≤ n) := by
  refine ⟨fun a => ofText?_eq_some_iff, ?_⟩
  constructor
  · intro hnone n hn
    by_contra hlt
    have hvalue : (UInt64.ofNat n).toNat = n := UInt64.toNat_ofNat_of_lt' (Nat.lt_of_not_le hlt)
    have hsome : ofText? cs = some (.ofNat n) := ofText?_eq_some_iff.2 (by rwa [hvalue])
    rw [hnone] at hsome
    cases hsome
  · intro hlarge
    cases hread : ofText? cs with
    | none => rfl
    | some a =>
      have hle := hlarge a.toNat (ofText?_eq_some_iff.1 hread)
      exact absurd a.toNat_lt (Nat.not_lt.2 hle)

/-- A plus sign is accepted. -/
theorem ofText?_plus : ofText? "+5".toList = some 5 ∧ ∀ n, ¬ Spelled [] n "+5".toList := by
  refine ⟨by decide, fun n h => ?_⟩
  obtain ⟨ds, hds, h⟩ := (Spelled.decimal_iff (by rintro c rest - ⟨⟩)).1 h
  obtain rfl : "+5".toList = ds := by simpa using hds
  exact Numeral.not_writes_of_plus (by decide) h

end Address

end FrameRecovery
