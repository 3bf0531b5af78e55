import FrameRecovery.Proofs.Listing
import FrameRecovery.Proofs.Written.Continued
import FrameRecovery.Proofs.Written.Listing
import FrameRecovery.Proofs.Written.Numeral

namespace FrameRecovery

open Text (Stops)

variable {a b : Address} {ds cond : List Char}

/-- The word with the bits of an address is negative exactly for the upper half of the addresses. -/
theorem Word.nonneg_toInt64_iff (a : Address) : 0 ≤ a.toInt64 ↔ a.toNat < 2 ^ 63 := by
  have hneg : a.toBitVec.toInt < 0 ↔ 2 ^ 64 ≤ 2 * a.toNat := BitVec.toInt_neg_iff
  have hword : a.toInt64.toInt = a.toBitVec.toInt := rfl
  rw [Int64.le_iff_toInt_le, Int64.toInt_zero, hword, ← Int.not_lt, hneg]
  omega

namespace Token

theorem integerOf_spelled (h : Address.Spelled [] a.toNat ds) : integerOf ds = .ok (.integer a.toInt64) := by
  rw [integerOf, Address.ofText?_eq_some_iff.2 (.inl h)]

/-- An address that is written without a sign is cut off as one integer. -/
theorem Scans.spelled {rest : List Char} (h : Address.Spelled [] a.toNat ds) (hrest : Stops Char.isAlphanum rest) :
    Scans ds [.integer a.toInt64] rest := by
  have hvalue := integerOf_spelled h
  cases h with
  | decimal ds h =>
    obtain ⟨c, cs, rfl⟩ := List.exists_cons_of_ne_nil h.ne_nil
    exact .integer (h.isDigit c (by simp)) (fun d hd => h.isAlphanum (by decide) d (by simp [hd])) hvalue hrest
  | hexadecimal c ds hc h =>
    refine .integer (by decide) (fun d hd => ?_) hvalue hrest
    rcases List.mem_cons.1 hd with rfl | hd
    · rcases hc with rfl | rfl <;> decide
    · exact h.isAlphanum (by decide) d hd

end Token

namespace Grammar

variable {ts rest : List Token} {x : Operand} {act : Action}

/-- What becomes of an action that goes to an address: addresses whose word is negative are refused. -/
def goingTo (a : Address) (act : Action) : Except GrammarFault Action :=
  if a.toNat < 2 ^ 63 then .ok act else .error (.expectedTarget (some (.integer a.toInt64)))

theorem target_integer (a : Address) (rest : List Token) : target (.integer a.toInt64 :: rest) =
    if a.toNat < 2 ^ 63 then .ok (a, rest) else .error (.expectedTarget (some (.integer a.toInt64))) := by
  rw [target]
  simp only [Word.nonneg_toInt64_iff, UInt64.toUInt64_toInt64]

theorem instruction_goto (a : Address) : instruction [.name "goto", .integer a.toInt64] = goingTo a (.goto a) := by
  rw [instruction, goingTo, target_integer]
  split <;> rfl

theorem instruction_branch (hx : Parses (operand 0 ts) x []) (a : Address) :
    instruction (.name "if" :: (ts ++ [.name "goto", .integer a.toInt64])) = goingTo a (.branch x a) := by
  have hmore : leadingOp? [.name "goto", .integer a.toInt64] = none := rfl
  obtain ⟨hlt, hread⟩ := (readsBefore hmore ts).operand 0 x [] hx
  rw [instruction, goingTo, hread, bind_ok]
  change (target [.integer a.toInt64] >>= fun p => finish (.branch x p.1) p.2) = _
  rw [target_integer]
  split <;> rfl

theorem lt_of_target (h : target ts = .ok (a, rest)) : a.toNat < 2 ^ 63 := by
  unfold target at h
  split at h
  next v rest' =>
    split at h
    next hv =>
      cases h
      exact (Word.nonneg_toInt64_iff _).1 (by rwa [Int64.toInt64_toUInt64])
    next => cases h
  next => cases h

/-- No instruction goes to an address of the upper half. -/
theorem States.lt_of_mem_targets (h : States ts act) : ∀ a ∈ act.targets, a.toNat < 2 ^ 63 := by
  cases h with
  | goto h => simpa [Action.targets] using lt_of_target h
  | branch hx h => simpa [Action.targets] using lt_of_target h
  | _ => exact List.forall_mem_nil _

end Grammar

namespace Listing

open Grammar (goingTo Parses)
open Operand (Neat)
open Token (Scans)

variable {l : Listing} {ts : List Token} {x : Operand}

private theorem actionOf_of_scans {body : List Char} (h : Scans body ts []) :
    actionOf body = (Grammar.instruction ts).mapError .badInstruction := by
  unfold Scans at h
  rw [List.append_nil, Token.scanAll_nil] at h
  unfold actionOf
  rw [h]
  simp [Except.map, Except.mapError, bind, Except.bind]

private theorem scans_goto (h : Address.Spelled [] a.toNat ds) :
    Scans ([' '] ++ ("goto".toList ++ ([' '] ++ ds))) ([] ++ ([.name "goto"] ++ ([] ++ [.integer a.toInt64]))) [] :=
  have hgoto : IsName "goto" := ⟨'g', ['o', 't', 'o'], rfl, rfl, List.all_eq_true.1 rfl⟩
  (Scans.blank _).append ((Scans.name hgoto (Token.stops_of_isBlank rfl)).append
    ((Scans.blank _).append (.spelled h Text.stops_nil)))

/-- However an address is written, an instruction can go to it if it is in the lower half, and only then. -/
theorem actionOf_goto (h : Address.Spelled [] a.toNat ds) :
    actionOf ([' '] ++ ("goto".toList ++ ([' '] ++ ds))) = (goingTo a (.goto a)).mapError .badInstruction := by
  rw [actionOf_of_scans (scans_goto h)]
  exact congrArg _ (Grammar.instruction_goto a)

/-- The same holds of a branch on whatever condition. -/
theorem actionOf_branch (hcond : Token.scanAll cond = .ok ts) (hx : Parses (Grammar.operand 0 ts) x [])
    (h : Address.Spelled [] a.toNat ds) :
    actionOf ([' '] ++ ("if".toList ++ ([' '] ++ (cond ++ ([' '] ++ ("goto".toList ++ ([' '] ++ ds))))))) =
      (goingTo a (.branch x a)).mapError .badInstruction := by
  have hif : IsName "if" := ⟨'i', ['f'], rfl, rfl, List.all_eq_true.1 rfl⟩
  have hscans : Scans ([' '] ++ ("if".toList ++ ([' '] ++ (cond ++ ([' '] ++ ("goto".toList ++ ([' '] ++ ds)))))))
      ([] ++ ([.name "if"] ++ ([] ++ (ts ++ ([] ++ ([.name "goto"] ++ ([] ++ [.integer a.toInt64]))))))) [] :=
    (Scans.blank _).append ((Scans.name hif (Token.stops_of_isBlank rfl)).append
      ((Scans.blank _).append ((Scans.of_scanAll rfl hcond).append (scans_goto h))))
  rw [actionOf_of_scans hscans]
  exact congrArg _ (Grammar.instruction_branch hx a)

/-- No listing that is accepted goes to an address of the upper half. -/
theorem lt_of_mem_targets_of_parse {text : String} {i : Instruction} (h : parse text = .ok l)
    (hi : l.instruction? b = some i) : ∀ a ∈ i.action.targets, a.toNat < 2 ^ 63 := by
  obtain ⟨body, hbody⟩ := (transcribed_of_parse h).read b i hi
  obtain ⟨ts, -, hstates⟩ := exists_states_of_actionOf hbody
  exact hstates.lt_of_mem_targets

/-- The listing of an instruction that goes to itself. -/
def loopText (a : Address) : String :=
  a.text ++ ": goto " ++ a.text

/-- An instruction of the lower half can go to itself. In the upper half the listing is refused, although the
    address is accepted in front of the instruction. -/
theorem parse_loopText (a : Address) : parse (loopText a) =
    if a.toNat < 2 ^ 63 then .ok { empty with instructions := SortedMap.empty.insert a ⟨a, 1, .goto a⟩ }
    else .error ⟨1, .badInstruction (.expectedTarget (some (.integer a.toInt64)))⟩ := by
  have hlist : (loopText a).toList = a.text.toList ++ ':' :: ([' '] ++ ("goto".toList ++ ([' '] ++ a.text.toList))) := by
    simp [loopText]
  have hneat : Neat (loopText a).toList := by
    have hmid : (loopText a).toList = a.text.toList ++ (": goto ".toList ++ a.text.toList) := by simp [loopText]
    rw [hmid]
    exact (Neat.address a).around (by simp) (Neat.address a)
  have hfeed : '\n' ∉ (loopText a).toList := fun h => (hneat.line _ h).1 rfl
  have hline := addLine_address (l := empty) (hlist ▸ hneat) rfl 1
  rw [actionOf_goto (Address.spelled_text a), ← hlist] at hline
  unfold parse
  rw [Text.lines_of_not_mem hfeed, addLines, hline]
  by_cases ha : a.toNat < 2 ^ 63
  · rw [goingTo, if_pos ha, if_pos ha]
    rfl
  · rw [goingTo, if_neg ha, if_neg ha]
    rfl

end Listing

end FrameRecovery
