import FrameRecovery.Listing.Token
import FrameRecovery.Proofs.Names
import FrameRecovery.Proofs.Numeral
import FrameRecovery.Proofs.Text

namespace FrameRecovery

open Text (Stops)

namespace Mark

/-- A character that a mark in front of it may go on with. -/
def continues (c : Char) : Bool :=
  c == '<' || c == '=' || c == '>'

/-- The text of a mark is read back, unless a longer mark starts with it. -/
theorem exists_scan? {rest : List Char} (m : Mark) (hrest : Stops continues rest) :
    ∃ c cs, m.text.toList = c :: cs ∧ (isBlank c = false ∧ c.isDigit = false ∧ Token.startsName c = false) ∧
      scan? c (cs ++ rest) = some (m, rest) := by
  have hne : ∀ {d}, continues d = true → ∀ tail, rest ≠ d :: tail := by
    rintro d hd tail rfl
    simp [hd] at hrest
  have hless := @hne '<' rfl
  have hequal := @hne '=' rfl
  have hgreater := @hne '>' rfl
  cases m with
  | less => exact ⟨'<', [], rfl, by decide, by simp [scan?]⟩
  | greater => exact ⟨'>', [], rfl, by decide, by simp [scan?]⟩
  | assign => exact ⟨'=', [], rfl, by decide, by simp [scan?]⟩
  | bang => exact ⟨'!', [], rfl, by decide, by simp [scan?]⟩
  | _ => exact ⟨_, _, rfl, by decide, rfl⟩

end Mark

namespace Token

variable {c : Char} {cs cs' rest tail : List Char} {t : Token} {ts ts' : List Token}

theorem scanAll_eq (cs : List Char) : scanAll cs = match Text.trimLeft cs with
    | [] => .ok []
    | c :: rest => match scan c rest with
      | .error e => .error e
      | .ok (t, tail) => (scanAll tail).map (t :: ·) := by
  conv => lhs; unfold scanAll
  split
  next h => simp only [h]
  next c rest h =>
    conv => rhs; rw [h]
    dsimp only
    split
    next e he => simp only [he]
    next t tail ht => simp only [ht]

@[simp] theorem scanAll_nil : scanAll [] = .ok [] := by
  rw [scanAll_eq]
  rfl

theorem scanAll_of_isBlank (hc : isBlank c = true) : scanAll (c :: rest) = scanAll rest := by
  rw [scanAll_eq (c :: rest), scanAll_eq rest]
  simp [Text.trimLeft, hc]

theorem scanAll_of_scan (hc : isBlank c = false) (h : scan c rest = .ok (t, tail)) :
    scanAll (c :: rest) = (scanAll tail).map (t :: ·) := by
  rw [scanAll_eq]
  simp [Text.trimLeft, hc, h]

/-- The digits of a constant are read as its magnitude. -/
theorem integerOf_digits (w : Word) :
    integerOf (Word.digits w.toInt.natAbs) = .ok (.integer (if w < 0 then -w else w)) := by
  rw [integerOf, Word.ofText?_digits w.natAbs_lt_size, ← Word.toInt64_natAbs]

/-- In front of `rest`, a text is cut into tokens. -/
def Scans (cs : List Char) (ts : List Token) (rest : List Char) : Prop :=
  scanAll (cs ++ rest) = (scanAll rest).map (ts ++ ·)

namespace Scans

theorem append (h : Scans cs ts (cs' ++ rest)) (h' : Scans cs' ts' rest) : Scans (cs ++ cs') (ts ++ ts') rest := by
  unfold Scans at *
  rw [List.append_assoc, h, h']
  cases scanAll rest <;> simp [Except.map]

theorem blank (rest : List Char) : Scans [' '] [] rest := by
  unfold Scans
  rw [List.singleton_append, scanAll_of_isBlank (by decide)]
  cases scanAll rest <;> rfl

theorem name {n : String} (hn : IsName n) (hrest : Stops continuesName rest) : Scans n.toList [.name n] rest := by
  obtain ⟨c, cs, rfl, hc, hcs⟩ := hn
  have hblank : isBlank c = false := isBlank_of_continuesName (continuesName_of_startsName hc)
  have hscan : scan c (cs ++ rest) = .ok (.name (String.ofList (c :: cs)), rest) := by
    rw [scan, isDigit_of_startsName hc, if_neg (by decide), if_pos hc, Text.takeWhile_append_of_stops hcs hrest,
      Text.dropWhile_append_of_stops hcs hrest]
  unfold Scans
  rw [String.toList_ofList, List.cons_append, scanAll_of_scan hblank hscan]
  rfl

theorem integer (hc : c.isDigit = true) (hcs : ∀ d ∈ cs, d.isAlphanum = true)
    (hvalue : integerOf (c :: cs) = .ok t) (hrest : Stops Char.isAlphanum rest) : Scans (c :: cs) [t] rest := by
  have hscan : scan c (cs ++ rest) = .ok (t, rest) := by
    rw [scan, if_pos hc, Text.takeWhile_append_of_stops hcs hrest, hvalue, Text.dropWhile_append_of_stops hcs hrest]
  have hblank : isBlank c = false := isBlank_of_continuesName (by simp [continuesName, isAlphanum_of_isDigit hc])
  unfold Scans
  rw [List.cons_append, scanAll_of_scan hblank hscan]
  rfl

theorem mark (m : Mark) (hrest : Stops Mark.continues rest) : Scans m.text.toList [.mark m] rest := by
  obtain ⟨c, cs, htext, hstarts, hmark⟩ := m.exists_scan? hrest
  have hscan : scan c (cs ++ rest) = .ok (.mark m, rest) := by
    rw [scan, hstarts.2.1, if_neg (by decide), hstarts.2.2, if_neg (by decide), hmark]
  unfold Scans
  rw [htext, List.cons_append, scanAll_of_scan hstarts.1 hscan]
  rfl

end Scans

end Token

end FrameRecovery
