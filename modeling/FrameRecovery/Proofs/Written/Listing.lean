import FrameRecovery.Listing.Basic
import FrameRecovery.Proofs.Written.Text

namespace FrameRecovery

namespace Text

variable {cs : List Char} {c : Char}

theorem lines_of_not_mem (h : '\n' ∉ cs) : lines cs = [cs] := by
  induction cs with
  | nil => rfl
  | cons c rest ih =>
    rw [List.mem_cons, not_or] at h
    rw [lines, if_neg (Ne.symm h.1), ih h.2]

theorem cut?_append {before : List Char} (h : c ∉ before) (after : List Char) :
    cut? c (before ++ c :: after) = some (before, after) := by
  induction before with
  | nil => simp [cut?]
  | cons d rest ih =>
    rw [List.mem_cons, not_or] at h
    simp [cut?, Ne.symm h.1, ih h.2]

end Text

namespace Operand.Neat

variable {cs : List Char}

theorem trim_eq (h : Neat cs) : Text.trim cs = cs := by
  have hfirst : Text.trimLeft cs = cs := by
    obtain ⟨c, rest, rfl, hc, -⟩ := h.first
    simp [Text.trimLeft, hc]
  obtain ⟨init, c, hcs, hc⟩ := h.last
  rw [Text.trim, hfirst, hcs]
  simp [Text.trimLeft, hc]

theorem content_eq (h : Neat cs) : Listing.content cs = cs := by
  have hall : cs.takeWhile (· != '#') = cs := List.takeWhile_eq_self_iff.2 fun c hc => by simpa using (h.line c hc).2
  rw [Listing.content, hall, h.trim_eq]

/-- An address is written with letters and digits. -/
theorem continues_address (a : Address) : ∀ c ∈ a.text.toList, Token.continuesName c = true := by
  intro c hc
  have htext : a.text.toList = ['0', 'x'] ++ Nat.toDigits 16 a.toNat := by
    simp [Address.text, hexadecimal, hexDigits]
  rw [htext, List.mem_append] at hc
  rcases hc with hc | hc
  · obtain rfl | rfl : c = '0' ∨ c = 'x' := by simpa using hc
    all_goals decide
  · simp [Token.continuesName, isAlphanum_of_mem_toDigits (b := 16) (by decide) (by decide) hc]

theorem address (a : Address) : Neat a.text.toList :=
  .of_continues (by simp [Address.text, hexadecimal]) (continues_address a)

end Operand.Neat

namespace Listing

open Operand (Neat)

variable {l : Listing} {a : Address} {x y : Operand}

/-- A line that assigns an operand at an address, as it is written with the fewest parentheses. -/
def assignmentLine (a : Address) (x y : Operand) : String :=
  a.text ++ ": " ++ x.written ++ " = " ++ y.written

theorem toList_assignmentLine (a : Address) (x y : Operand) : (assignmentLine a x y).toList =
    a.text.toList ++ ':' :: ([' '] ++ (x.written.toList ++ ([' '] ++ ("=".toList ++ ([' '] ++ y.written.toList))))) := by
  simp [assignmentLine]

theorem neat_assignmentLine (a : Address) (hx : x.Readable) (hy : y.Readable) : Neat (assignmentLine a x y).toList := by
  have hline : (assignmentLine a x y).toList =
      a.text.toList ++ (([':', ' '] ++ (x.written.toList ++ [' ', '=', ' '])) ++ y.written.toList) := by
    simp [assignmentLine]
  rw [hline]
  refine (Neat.address a).around (fun c hc => ?_) (Operand.neat_written hy)
  simp only [List.mem_append] at hc
  rcases hc with hc | hc | hc
  · obtain rfl | rfl : c = ':' ∨ c = ' ' := by simpa using hc
    all_goals decide
  · exact (Operand.neat_written hx).line c hc
  · obtain rfl | rfl | rfl : c = ' ' ∨ c = '=' ∨ c = ' ' := by simpa using hc
    all_goals decide

theorem actionOf_written (hx : x.Readable) (hassignable : x.isAssignable = true) (hy : y.Readable) :
    actionOf ([' '] ++ (x.written.toList ++ ([' '] ++ ("=".toList ++ ([' '] ++ y.written.toList))))) = .ok (.assign x y) := by
  have hblank : ∀ {cs}, Text.Stops Operand.continuesToken (' ' :: cs) := fun {_} => Text.stops_cons.2 (by decide)
  have hscans : Token.Scans ([' '] ++ (x.written.toList ++ ([' '] ++ ("=".toList ++ ([' '] ++ y.written.toList)))))
      ([] ++ (x.tokens ++ ([] ++ ([.mark .assign] ++ ([] ++ y.tokens))))) [] :=
    (Token.Scans.blank _).append ((Operand.scans_written hx hblank).append ((Token.Scans.blank _).append
      ((Token.Scans.mark .assign (Text.stops_cons.2 (by decide))).append ((Token.Scans.blank _).append
        (Operand.scans_written hy Text.stops_nil)))))
  unfold Token.Scans at hscans
  rw [List.append_nil, Token.scanAll_nil] at hscans
  unfold actionOf
  rw [hscans]
  simp [Except.map, Except.mapError, bind, Except.bind, Grammar.instruction_tokens hx hassignable hy]

/-- A line with an address in front of a text adds what the text stands for. -/
theorem addLine_address {body : List Char} (hneat : Neat (a.text.toList ++ ':' :: body))
    (ha : l.instructions.contains a = false) (n : Nat) :
    l.addLine n (content (a.text.toList ++ ':' :: body)) =
      (actionOf body).map fun action => { l with instructions := l.instructions.insert a ⟨a, n, action⟩ } := by
  have hfirst : ∃ rest, a.text.toList ++ ':' :: body = '0' :: rest := by simp [Address.text, hexadecimal]
  have hdirective : ∀ (word : String) {c rest}, word.toList = c :: rest → c ≠ '0' →
      behind? word (a.text.toList ++ ':' :: body) = none := by
    intro word c rest hword hc
    obtain ⟨rest', hrest⟩ := hfirst
    simp [behind?, hword, hrest, hc]
  have hcolon : ':' ∉ a.text.toList := fun h => absurd (Neat.continues_address a _ h) (by decide)
  have hline : l.addLine n (a.text.toList ++ ':' :: body) = l.addInstruction n (a.text.toList ++ ':' :: body) := by
    unfold addLine
    rw [if_neg (by simp), hdirective "ARCH " rfl (by decide)]
    dsimp only
    rw [hdirective "ENTRY " rfl (by decide)]
  rw [hneat.content_eq, hline]
  unfold addInstruction
  rw [Text.cut?_append hcolon]
  dsimp only
  rw [(Neat.address a).trim_eq, Address.ofText?_text]
  dsimp only
  cases actionOf body with
  | error fault => rfl
  | ok action =>
    simp only [bind_ok, ha]
    rfl

/-- A line that is written with the fewest parentheses assigns exactly the operands that were written. -/
theorem addLine_written (hx : x.Readable) (hassignable : x.isAssignable = true) (hy : y.Readable)
    (ha : l.instructions.contains a = false) (n : Nat) :
    l.addLine n (content (assignmentLine a x y).toList) =
      .ok { l with instructions := l.instructions.insert a ⟨a, n, .assign x y⟩ } := by
  have hneat := neat_assignmentLine a hx hy
  rw [toList_assignmentLine] at hneat ⊢
  rw [addLine_address hneat ha, actionOf_written hx hassignable hy]
  rfl

/-- What is written with the fewest parentheses is read as it was. -/
theorem parse_written (hx : x.Readable) (hassignable : x.isAssignable = true) (hy : y.Readable) :
    parse (assignmentLine a x y) = .ok { empty with instructions := SortedMap.empty.insert a ⟨a, 1, .assign x y⟩ } := by
  have hfeed : '\n' ∉ (assignmentLine a x y).toList := fun h => ((neat_assignmentLine a hx hy).line _ h).1 rfl
  have hline := addLine_written (l := empty) (a := a) hx hassignable hy rfl 1
  unfold parse
  rw [Text.lines_of_not_mem hfeed, addLines, hline]
  rfl

theorem parse_written_of_nested_signs :
    parse "0x10: eax = call (-5)(a - (b - -0x8000000000000000) * -&c, [d << 1])" =
      .ok { empty with instructions := SortedMap.empty.insert 16 ⟨16, 1, .assign (.register "eax")
        (.call (.constant (-5)) [.binary .sub (.register "a") (.binary .mul
            (.binary .sub (.register "b") (.constant Int64.minValue)) (.unary .neg (.addressOf (.register "c")))),
          .deref (.binary .shl (.register "d") (.constant 1))])⟩ } := by
  have ha : (Operand.register "a").Readable := ⟨⟨⟨'a', [], rfl, rfl, nofun⟩, by decide⟩, rfl⟩
  have hb : (Operand.register "b").Readable := ⟨⟨⟨'b', [], rfl, rfl, nofun⟩, by decide⟩, rfl⟩
  have hc : (Operand.register "c").Readable := ⟨⟨⟨'c', [], rfl, rfl, nofun⟩, by decide⟩, rfl⟩
  have hd : (Operand.register "d").Readable := ⟨⟨⟨'d', [], rfl, rfl, nofun⟩, by decide⟩, rfl⟩
  have heax : (Operand.register "eax").Readable := ⟨⟨⟨'e', ['a', 'x'], rfl, rfl, List.all_eq_true.1 rfl⟩, by decide⟩, rfl⟩
  have htext : "0x10: eax = call (-5)(a - (b - -0x8000000000000000) * -&c, [d << 1])" =
      assignmentLine 16 (.register "eax") (.call (.constant (-5)) [.binary .sub (.register "a") (.binary .mul
            (.binary .sub (.register "b") (.constant Int64.minValue)) (.unary .neg (.addressOf (.register "c")))),
          .deref (.binary .shl (.register "d") (.constant 1))]) := by decide
  rw [htext]
  exact parse_written heax rfl ⟨trivial, ⟨ha, ⟨hb, trivial⟩, hc, rfl⟩, ⟨hd, trivial⟩, trivial⟩

end Listing

/-- An operand is readable if it is read from some text, and only then. -/
theorem Operand.readable_iff {x : Operand} : x.Readable ↔ ∃ cs ts, Token.scanAll cs = .ok ts ∧
    ∃ rest h, Grammar.operand 0 ts = .ok (x, ⟨rest, h⟩) := by
  constructor
  · intro hx
    have hscans : Token.Scans x.written.toList x.tokens [] := scans_written hx Text.stops_nil
    unfold Token.Scans at hscans
    rw [List.append_nil, Token.scanAll_nil] at hscans
    have hparses : Grammar.Parses (Grammar.operand 0 (x.tokens ++ [])) x [] :=
      Grammar.operand_tokens hx Grammar.loose_nil
    obtain ⟨h, hread⟩ := hparses
    exact ⟨_, x.tokens ++ [], hscans, [], h, hread⟩
  · rintro ⟨cs, ts, hscan, rest, h, hread⟩
    exact ((Grammar.readsReadable (Token.named_of_scanAll hscan)).operand 0 x ⟨rest, h⟩ hread).1

end FrameRecovery
