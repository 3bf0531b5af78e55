import FrameRecovery.Proofs.Written.Scanning
import FrameRecovery.Proofs.Written.Tokens

namespace FrameRecovery

open Text (Stops)

namespace Operand

/-- A text in parentheses, unless they are not needed. -/
def enclosedText (needed : Bool) (s : String) : String :=
  if needed then "(" ++ s ++ ")" else s

mutual

/-- An operand as it is written with the fewest parentheses, laid out as trees of a flow are. -/
def written : Operand → String
  | register n => n
  | constant w => w.text
  | deref x => "[" ++ x.written ++ "]"
  | addressOf x => "&" ++ enclosedText (x.strength < tightest) x.written
  | binary op x y =>
    enclosedText (x.strength < op.precedence) x.written ++ " " ++ op.symbol ++ " " ++
      enclosedText (y.strength ≤ op.precedence) y.written
  | unary op x => op.symbol ++ enclosedText (x.strength < tightest) x.written
  | call x ys => "call " ++ enclosedText (!x.isTarget) x.written ++ "(" ++ writtenArguments ys

/-- The arguments of a call as they are written, and what closes them. -/
def writtenArguments : List Operand → String
  | [] => ")"
  | [x] => x.written ++ ")"
  | x :: y :: rest => x.written ++ ", " ++ writtenArguments (y :: rest)

end

/-- A character that may go on a token in front of it. -/
def continuesToken (c : Char) : Bool :=
  Token.continuesName c || Mark.continues c

section Scans

open Token (Scans)

variable {x y : Operand} {xs : List Operand} {needed : Bool} {rest cs : List Char} {op : BinaryOp} {ts : List Token}

private theorem stops_name (h : Stops continuesToken rest) : Stops Token.continuesName rest :=
  h.mono fun c hc => by simp [continuesToken, hc]

private theorem stops_mark (h : Stops continuesToken rest) : Stops Mark.continues rest :=
  h.mono fun c hc => by simp [continuesToken, hc]

/-- What can stand in a line: it starts with no blank and with nothing that a mark may go on with, it ends with
    no blank, and it neither ends the line nor starts a comment. -/
structure Neat (cs : List Char) : Prop where
  first : ∃ c rest, cs = c :: rest ∧ isBlank c = false ∧ Mark.continues c = false
  last : ∃ init c, cs = init ++ [c] ∧ isBlank c = false
  line : ∀ c ∈ cs, c ≠ '\n' ∧ c ≠ '#'

namespace Neat

variable {ds mid : List Char}

theorem stops (h : Neat cs) (rest : List Char) : Stops Mark.continues (cs ++ rest) := by
  obtain ⟨c, cs, rfl, -, hc⟩ := h.first
  simpa using hc

/-- What starts and ends neatly is neat if what is between is in the line. -/
theorem around (h : Neat cs) (hmid : ∀ c ∈ mid, c ≠ '\n' ∧ c ≠ '#') (h' : Neat ds) : Neat (cs ++ (mid ++ ds)) := by
  obtain ⟨c, cs', rfl, hc⟩ := h.first
  obtain ⟨init, d, rfl, hd⟩ := h'.last
  refine ⟨⟨c, _, rfl, hc⟩, ⟨c :: cs' ++ (mid ++ init), d, by simp, hd⟩, fun e he => ?_⟩
  rcases List.mem_append.1 he with he | he
  · exact h.line e he
  · exact (List.mem_append.1 he).elim (hmid e) (h'.line e)

theorem append (h : Neat cs) (h' : Neat ds) : Neat (cs ++ ds) := by
  simpa using h.around (List.forall_mem_nil _) h'

theorem single {c : Char} (h : isBlank c = false ∧ Mark.continues c = false ∧ c ≠ '\n' ∧ c ≠ '#') : Neat [c] :=
  ⟨⟨c, [], rfl, h.1, h.2.1⟩, ⟨[], c, rfl, h.1⟩, by simpa using h.2.2⟩

theorem enclosed {s : String} (h : Neat s.toList) : Neat (enclosedText needed s).toList := by
  cases needed with
  | false => exact h
  | true =>
    have htext : (enclosedText true s).toList = ['('] ++ (s.toList ++ [')']) := by simp [enclosedText]
    rw [htext]
    exact (single (by decide)).append (h.append (single (by decide)))

/-- A run of name characters is neat. -/
theorem of_continues (hne : cs ≠ []) (h : ∀ c ∈ cs, Token.continuesName c = true) : Neat cs := by
  have hmark : ∀ c, Token.continuesName c = true → Mark.continues c = false := by
    intro c hc
    simp only [Mark.continues, Bool.or_eq_false_iff, beq_eq_false_iff_ne]
    refine ⟨⟨?_, ?_⟩, ?_⟩ <;> rintro rfl <;> exact absurd hc (by decide)
  have hline : ∀ c, Token.continuesName c = true → c ≠ '\n' ∧ c ≠ '#' := by
    intro c hc
    constructor <;> rintro rfl <;> exact absurd hc (by decide)
  obtain ⟨c, rest, rfl⟩ := List.exists_cons_of_ne_nil hne
  refine ⟨⟨c, rest, rfl, Token.isBlank_of_continuesName (h c (by simp)), hmark c (h c (by simp))⟩,
    ⟨_, _, (List.dropLast_concat_getLast hne).symm, Token.isBlank_of_continuesName (h _ (List.getLast_mem hne))⟩,
    fun d hd => hline d (h d hd)⟩

theorem constant (w : Word) : Neat w.text.toList := by
  obtain ⟨c, cs, hcs, -⟩ := Word.exists_digits_eq w.toInt.natAbs
  have hdigits : Neat (Word.digits w.toInt.natAbs) :=
    of_continues (by simp [hcs]) fun c hc => by simp [Token.continuesName, Word.isAlphanum_of_mem_digits hc]
  rw [Word.toList_text]
  split
  · exact (single (by decide)).append hdigits
  · exact hdigits

theorem symbol (op : BinaryOp) : ∀ c ∈ (" " ++ op.symbol ++ " ").toList, c ≠ '\n' ∧ c ≠ '#' := by
  cases op <;> simp [BinaryOp.symbol]

end Neat

mutual

theorem neat_written : ∀ {x : Operand}, x.Readable → Neat x.written.toList
  | .register n, h => by
    obtain ⟨c, cs, rfl, -⟩ := h.1.1
    rw [written]
    exact .of_continues (by simp) h.1.1.continues
  | .constant w, _ => by
    rw [written]
    exact .constant w
  | .deref x, h => by
    have htext : (written (.deref x)).toList = ['['] ++ (x.written.toList ++ [']']) := by simp [written]
    rw [htext]
    exact (Neat.single (by decide)).around (neat_written (x := x) h).line
      (.single (by decide))
  | .addressOf x, h => by
    rw [written, String.toList_append]
    exact (Neat.single (by decide)).append (neat_written (x := x) h).enclosed
  | .binary op x y, h => by
    have htext : (written (.binary op x y)).toList = (enclosedText (x.strength < op.precedence) x.written).toList ++
        ((" " ++ op.symbol ++ " ").toList ++ (enclosedText (y.strength ≤ op.precedence) y.written).toList) := by
      simp [written]
    rw [htext]
    exact (neat_written h.1).enclosed.around (Neat.symbol op) (neat_written h.2).enclosed
  | .unary .neg x, h => by
    rw [written, String.toList_append]
    exact (Neat.single (by decide)).append (neat_written h.1).enclosed
  | .unary .not x, h => by
    rw [written, String.toList_append]
    exact (Neat.single (by decide)).append (neat_written (x := x) h).enclosed
  | .call x ys, h => by
    have htext : (written (.call x ys)).toList = "call".toList ++
        ((' ' :: ((enclosedText (!x.isTarget) x.written).toList ++ ['('])) ++ (writtenArguments ys).toList) := by
      simp [written]
    rw [htext]
    refine Neat.around (.of_continues (by decide) isName_call.continues) (fun c hc => ?_) (neat_writtenArguments h.2)
    rcases List.mem_cons.1 hc with rfl | hc
    · decide
    · exact ((neat_written h.1).enclosed.append (.single (by decide))).line c hc

theorem neat_writtenArguments : ∀ {xs : List Operand}, AllReadable xs → Neat (writtenArguments xs).toList
  | [], _ => by
    rw [writtenArguments]
    exact .single (by decide)
  | [x], h => by
    rw [writtenArguments, String.toList_append]
    exact (neat_written h.1).append (.single (by decide))
  | x :: y :: rest, h => by
    rw [writtenArguments, String.append_assoc, String.toList_append, String.toList_append]
    exact (neat_written h.1).around (by simp) (neat_writtenArguments h.2)

end

theorem scans_constant (w : Word) (hrest : Stops continuesToken rest) :
    Scans w.text.toList (tokens (.constant w)) rest := by
  obtain ⟨c, cs, hcs, hc⟩ := Word.exists_digits_eq w.toInt.natAbs
  have hall : ∀ d ∈ c :: cs, d.isAlphanum = true := fun d hd => Word.isAlphanum_of_mem_digits (hcs ▸ hd)
  have hinteger : Scans (c :: cs) [.integer (if w < 0 then -w else w)] rest :=
    .integer hc (fun d hd => hall d (by simp [hd])) (hcs ▸ Token.integerOf_digits w)
      ((stops_name hrest).mono fun d hd => by simp [Token.continuesName, hd])
  have hdigits : Neat (c :: cs) :=
    .of_continues (by simp) fun d hd => by simp [Token.continuesName, hall d hd]
  rw [Word.toList_text, hcs, tokens]
  simp only [Word.toInt_neg_iff]
  split
  next hw =>
    rw [if_pos hw] at hinteger
    exact (Scans.mark .minus (hdigits.stops rest)).append hinteger
  next hw =>
    rw [if_neg hw] at hinteger
    exact hinteger

theorem scans_enclosed {s : String} (h : ∀ {rest}, Stops continuesToken rest → Scans s.toList ts rest)
    (hneat : Neat s.toList) (hrest : Stops continuesToken rest) :
    Scans (enclosedText needed s).toList (enclosed needed ts) rest := by
  cases needed with
  | false => exact h hrest
  | true =>
    have htext : (enclosedText true s).toList = "(".toList ++ (s.toList ++ ")".toList) := by simp [enclosedText]
    have htokens : enclosed true ts = [.mark .openParen] ++ (ts ++ [.mark .closeParen]) := by simp [enclosed]
    rw [htext, htokens]
    refine (Scans.mark .openParen ?_).append ((h ?_).append (.mark .closeParen (stops_mark hrest)))
    · rw [List.append_assoc]
      exact hneat.stops _
    · exact Text.stops_cons.2 (by decide)

/-- Behind a mark an operand is in front of which nothing else is, the mark is a token of its own. -/
theorem scans_signed {s : String} (m : Mark) (h : ∀ {rest}, Stops continuesToken rest → Scans s.toList ts rest)
    (hneat : Neat s.toList) (hrest : Stops continuesToken rest) :
    Scans (m.text ++ enclosedText needed s).toList (.mark m :: enclosed needed ts) rest := by
  rw [String.toList_append]
  exact (Scans.mark m (hneat.enclosed.stops rest)).append (scans_enclosed h hneat hrest)

private theorem text_mark (op : BinaryOp) : op.mark.text = op.symbol := by
  cases op <;> rfl

mutual

/-- What an operand is written with is cut into its tokens. -/
theorem scans_written : ∀ {x : Operand} {rest : List Char}, x.Readable → Stops continuesToken rest →
    Scans x.written.toList x.tokens rest
  | .register n, _, h, hrest => by
    rw [written, tokens]
    exact .name h.1.1 (stops_name hrest)
  | .constant w, _, _, hrest => by
    rw [written]
    exact scans_constant w hrest
  | .deref x, rest, h, hrest => by
    have htext : (written (.deref x)).toList = "[".toList ++ (x.written.toList ++ "]".toList) := by simp [written]
    have htokens : tokens (.deref x) = [.mark .openBracket] ++ (x.tokens ++ [.mark .closeBracket]) := by simp [tokens]
    rw [htext, htokens]
    refine (Scans.mark .openBracket ?_).append ((scans_written (x := x) h ?_).append (.mark .closeBracket (stops_mark hrest)))
    · rw [List.append_assoc]
      exact (neat_written (x := x) h).stops _
    · exact Text.stops_cons.2 (by decide)
  | .addressOf x, _, h, hrest => by
    rw [written, tokens]
    exact scans_signed .ampersand (scans_written (x := x) h) (neat_written (x := x) h) hrest
  | .binary op x y, rest, h, hrest => by
    have htext : (written (.binary op x y)).toList = (enclosedText (x.strength < op.precedence) x.written).toList ++
        ([' '] ++ (op.mark.text.toList ++ ([' '] ++ (enclosedText (y.strength ≤ op.precedence) y.written).toList))) := by
      simp [written, text_mark]
    have htokens : tokens (.binary op x y) = enclosed (x.strength < op.precedence) x.tokens ++
        ([] ++ ([.mark op.mark] ++ ([] ++ enclosed (y.strength ≤ op.precedence) y.tokens))) := by
      simp [tokens]
    have hblank : ∀ {cs}, Stops continuesToken (' ' :: cs) := fun {_} => Text.stops_cons.2 (by decide)
    rw [htext, htokens]
    refine (scans_enclosed (scans_written h.1) (neat_written h.1) hblank).append ((Scans.blank _).append
      ((Scans.mark op.mark (stops_mark hblank)).append ((Scans.blank _).append ?_)))
    exact scans_enclosed (scans_written h.2) (neat_written h.2) hrest
  | .unary .neg x, _, h, hrest => by
    rw [written, tokens]
    exact scans_signed .minus (scans_written h.1) (neat_written h.1) hrest
  | .unary .not x, _, h, hrest => by
    rw [written, tokens]
    exact scans_signed .bang (scans_written (x := x) h) (neat_written (x := x) h) hrest
  | .call x ys, _, h, hrest => by
    have htext : (written (.call x ys)).toList = "call".toList ++ ([' '] ++
        ((enclosedText (!x.isTarget) x.written).toList ++ ("(".toList ++ (writtenArguments ys).toList))) := by
      simp [written]
    have htokens : tokens (.call x ys) = [.name "call"] ++ ([] ++ (enclosed (!x.isTarget) x.tokens ++
        ([.mark .openParen] ++ argumentTokens ys))) := by
      simp [tokens]
    rw [htext, htokens]
    refine (Scans.name isName_call (Text.stops_cons.2 (by decide))).append
      ((Scans.blank _).append ((scans_enclosed (scans_written h.1) (neat_written h.1) (Text.stops_cons.2 (by decide))).append
        ((Scans.mark .openParen ?_).append (scans_writtenArguments h.2 hrest))))
    exact (neat_writtenArguments h.2).stops _

theorem scans_writtenArguments : ∀ {xs : List Operand} {rest : List Char}, AllReadable xs → Stops continuesToken rest →
    Scans (writtenArguments xs).toList (argumentTokens xs) rest
  | [], _, _, hrest => by
    rw [writtenArguments, argumentTokens]
    exact .mark .closeParen (stops_mark hrest)
  | [x], _, h, hrest => by
    rw [writtenArguments, argumentTokens, String.toList_append]
    exact (scans_written h.1 (Text.stops_cons.2 (by decide))).append (.mark .closeParen (stops_mark hrest))
  | x :: y :: rest, _, h, hrest => by
    have htext : (writtenArguments (x :: y :: rest)).toList =
        x.written.toList ++ (",".toList ++ ([' '] ++ (writtenArguments (y :: rest)).toList)) := by
      simp [writtenArguments]
    have htokens : argumentTokens (x :: y :: rest) = x.tokens ++ ([.mark .comma] ++ ([] ++ argumentTokens (y :: rest))) := by
      simp [argumentTokens]
    rw [htext, htokens]
    exact (scans_written h.1 (Text.stops_cons.2 (by decide))).append ((Scans.mark .comma (Text.stops_cons.2 (by decide))).append
      ((Scans.blank _).append (scans_writtenArguments h.2 hrest)))

end

end Scans

end Operand

end FrameRecovery
