import FrameRecovery.Flow.Text
import FrameRecovery.Proofs.Flow.Term
import FrameRecovery.Proofs.Names
import FrameRecovery.Proofs.Numeral
import FrameRecovery.Proofs.Text

namespace FrameRecovery

open Text (Stops)

/-- The kinds of characters that an operand can start with when it is written. -/
inductive Lead where
  | name
  | digit
  | minus
  | bang
  | ampersand
  | bracket
  | paren
deriving DecidableEq

namespace Lead

/-- The kind of a character. -/
def ofChar? (c : Char) : Option Lead :=
  if c = '-' then some minus
  else if c = '!' then some bang
  else if c = '&' then some ampersand
  else if c = '[' then some bracket
  else if c = '(' then some paren
  else if c.isDigit then some digit
  else if Token.startsName c then some name
  else none

theorem ofChar?_of_isDigit {c : Char} (hc : c.isDigit = true) : ofChar? c = some digit := by
  unfold ofChar?
  split_ifs
  all_goals first | rfl | (subst_vars; exact absurd hc (by decide))

theorem ofChar?_of_startsName {c : Char} (hc : Token.startsName c = true) : ofChar? c = some name := by
  have hdigit : c.isDigit ≠ true := Bool.eq_false_iff.1 (Token.isDigit_of_startsName hc)
  unfold ofChar?
  split_ifs
  all_goals first | rfl | (subst_vars; exact absurd hc (by decide))

end Lead

/-- What an expression starts with as the operand of an operator. -/
def Expr.lead? {α : Type} : Expr α → Option Lead
  | register _ _ | var _ _ _ | call _ _ => some .name
  | constant w => some (if w.toInt < 0 then .minus else .digit)
  | deref _ _ => some .bracket
  | addressOf _ => some .ampersand
  | binary _ _ _ => some .paren
  | unary .neg _ => some .minus
  | unary .not _ => some .bang
  | _ => none

/-- A text goes on with a character of a kind, or not at all. -/
def Follows (p : Char → Bool) (cs : List Char) : Prop :=
  ∀ c ∈ cs.head?, p c = true

/-- What may stand behind an expression on its own: its brackets close, the next argument comes, or those
    of a call of it. -/
def endsWhole (c : Char) : Bool :=
  c == ')' || c == ']' || c == ',' || c == '('

/-- What may stand behind an expression as the operand of an operator. -/
def endsOperand (c : Char) : Bool :=
  c == ' ' || endsWhole c

section Follows

variable {c : Char} {r : List Char}

theorem Follows.operand (h : Follows endsWhole r) : Follows endsOperand r := fun c hc => by
  simp [endsOperand, h c hc]

theorem Follows.stops {p : Char → Bool} (h : Follows endsOperand r)
    (hp : p ' ' = false ∧ p ')' = false ∧ p ']' = false ∧ p ',' = false ∧ p '(' = false) : Stops p r := by
  intro c hc
  have hends := h c hc
  simp only [endsOperand, endsWhole, Bool.or_eq_true, beq_iff_eq] at hends
  rcases hends with rfl | ((rfl | rfl) | rfl) | rfl
  · exact hp.1
  · exact hp.2.1
  · exact hp.2.2.1
  · exact hp.2.2.2.1
  · exact hp.2.2.2.2

end Follows

namespace Term

/-- A tree that its text may identify: registers have names, any locations may have versions, and nothing
    is negated that is a constant. -/
inductive Legible : Term → Prop
  | register {i : NodeId} {n : String} {v : Option Nat} (hn : IsRegisterName n) : Legible (.node i (.register n v))
  | constant {i : NodeId} {w : Word} : Legible (.node i (.constant w))
  | deref {i : NodeId} {x : Term} {v : Option Nat} (hx : Legible x) : Legible (.node i (.deref x v))
  | addressOf {i : NodeId} {x : Term} (hx : Legible x) : Legible (.node i (.addressOf x))
  | binary {i : NodeId} {op : BinaryOp} {x y : Term} (hx : Legible x) (hy : Legible y) :
    Legible (.node i (.binary op x y))
  | neg {i : NodeId} {x : Term} (hx : Legible x) (hconstant : x.constant? = none) : Legible (.node i (.unary .neg x))
  | not {i : NodeId} {x : Term} (hx : Legible x) : Legible (.node i (.unary .not x))
  | call {i : NodeId} {x : Term} {ys : List Term} (hx : Legible x) (hys : ∀ y ∈ ys, Legible y) :
    Legible (.node i (.call x ys))

variable {t u x y : Term} {ys zs : List Term} {i j : NodeId} {e : Expr Term} {op : BinaryOp} {n : String}
  {v w : Option Nat} {a b : Word} {r s : List Char}

section Chars

/-- Only binary operations are put into parentheses. -/
theorem operandText_eq_text (h : t.expr.isCompound = false) : t.operandText = t.text := by
  rw [operandText_eq, h]
  rfl

private theorem chars_register : (node i (.register n v)).operandText.toList = n.toList ++ (versionText v).toList := by
  simp [operandText_eq, text_node, Expr.isCompound, Expr.layout]

private theorem chars_constant : (node i (.constant a)).operandText.toList = a.text.toList := by
  simp [operandText_eq, text_node, Expr.isCompound, Expr.layout]

private theorem chars_deref : (node i (.deref x v)).operandText.toList =
    '[' :: (x.text.toList ++ ']' :: (versionText v).toList) := by
  simp [operandText_eq, text_node, Expr.isCompound, Expr.layout]

private theorem chars_addressOf : (node i (.addressOf x)).operandText.toList = '&' :: x.operandText.toList := by
  simp [operandText_eq, text_node, Expr.isCompound, Expr.layout]

private theorem chars_unary (op : UnaryOp) : (node i (.unary op x)).operandText.toList =
    op.symbol.toList ++ x.operandText.toList := by
  simp [operandText_eq, text_node, Expr.isCompound, Expr.layout]

private theorem chars_binary : (node i (.binary op x y)).operandText.toList =
    '(' :: ((node i (.binary op x y)).text.toList ++ [')']) := by
  simp [operandText_eq, Expr.isCompound]

private theorem text_binary : (node i (.binary op x y)).text.toList =
    x.operandText.toList ++ ' ' :: (op.symbol.toList ++ ' ' :: y.operandText.toList) := by
  simp [text_node, Expr.layout]

/-- The arguments of a call behind the first one, and what closes them. -/
private def moreArgumentChars (ys : List Term) : List Char :=
  ys.flatMap (fun y => ',' :: ' ' :: y.text.toList) ++ [')']

/-- The arguments of a call, and what closes them. -/
private def argumentChars : List Term → List Char
  | [] => [')']
  | y :: ys => y.text.toList ++ moreArgumentChars ys

private theorem chars_call : (node i (.call x ys)).operandText.toList =
    "call ".toList ++ (x.text.toList ++ '(' :: argumentChars ys) := by
  have hmore : ∀ (y : Term) (ys : List Term), [',', ' '].intercalate ((y :: ys).map fun y => y.text.toList) =
      y.text.toList ++ ys.flatMap fun y => ',' :: ' ' :: y.text.toList := by
    intro y ys
    induction ys generalizing y with
    | nil => simp
    | cons z ys ih =>
      have hrest := ih z
      rw [List.map_cons] at hrest ⊢
      rw [List.map_cons, List.intercalate_cons_cons, hrest]
      simp
  have harguments : (", ".intercalate (ys.map text)).toList ++ [')'] = argumentChars ys := by
    rw [String.toList_intercalate, List.map_map]
    cases ys with
    | nil => rfl
    | cons y ys =>
      rw [argumentChars, moreArgumentChars, ← List.append_assoc, ← hmore]
      rfl
  simp [operandText_eq, text_node, Expr.isCompound, Expr.layout, ← harguments]

end Chars

/-- The first character of an operand tells its kind. -/
theorem Legible.exists_lead (ht : t.Legible) :
    ∃ c cs, t.operandText.toList = c :: cs ∧ Lead.ofChar? c = t.expr.lead? := by
  cases ht with
  | register hn =>
    obtain ⟨⟨c, cs, rfl, hc, -⟩, -⟩ := hn
    exact ⟨c, _, by rw [chars_register, String.toList_ofList, List.cons_append], Lead.ofChar?_of_startsName hc⟩
  | @constant i a =>
    obtain ⟨c, cs, hcs, hc⟩ := Word.exists_digits_eq a.toInt.natAbs
    rw [chars_constant, Word.toList_text, hcs, expr_node, Expr.lead?]
    split
    · exact ⟨'-', _, rfl, rfl⟩
    · exact ⟨c, _, rfl, Lead.ofChar?_of_isDigit hc⟩
  | deref => exact ⟨'[', _, chars_deref, rfl⟩
  | addressOf => exact ⟨'&', _, chars_addressOf, rfl⟩
  | binary => exact ⟨'(', _, chars_binary, rfl⟩
  | neg => exact ⟨'-', _, chars_unary .neg, rfl⟩
  | not => exact ⟨'!', _, chars_unary .not, rfl⟩
  | call => exact ⟨'c', _, chars_call, rfl⟩

theorem Legible.lead?_eq (ht : t.Legible) (hu : u.Legible) (h : t.operandText.toList ++ r = u.operandText.toList ++ s) :
    t.expr.lead? = u.expr.lead? := by
  obtain ⟨c, cs, hcs, hc⟩ := ht.exists_lead
  obtain ⟨d, ds, hds, hd⟩ := hu.exists_lead
  rw [hcs, hds, List.cons_append, List.cons_append, List.cons.injEq] at h
  rw [← hc, ← hd, h.1]

/-- In front of what may stand behind it, what is written of a tree tells its form and where it ends. -/
def Told (write : Term → String) (ends : Char → Bool) (t : Term) : Prop :=
  ∀ u r s, u.Legible → Follows ends r → Follows ends s → (write t).toList ++ r = (write u).toList ++ s →
    t.form = u.form ∧ r = s

section Told

private theorem versionText_append_inj (hr : Follows endsOperand r) (hs : Follows endsOperand s)
    (h : (versionText v).toList ++ r = (versionText w).toList ++ s) : v = w ∧ r = s := by
  have hat : ∀ {r cs : List Char}, Follows endsOperand r → r ≠ '@' :: cs := by
    rintro r cs hr rfl
    exact absurd (hr '@' rfl) (by decide)
  have hsome : ∀ v, (versionText (some v)).toList = '@' :: Nat.toDigits 10 v := fun v => by
    simp [versionText, decimal]
  cases v <;> cases w
  case none.none => exact ⟨rfl, h⟩
  case none.some => exact absurd (by rw [hsome] at h; exact h) (hat hr)
  case some.none => exact absurd (by rw [hsome] at h; exact h.symm) (hat hs)
  case some.some v w =>
    rw [hsome, hsome, List.cons_append, List.cons_append, List.cons.injEq] at h
    have hdigits : ∀ n, ∀ c ∈ Nat.toDigits 10 n, c.isDigit = true := fun n c hc =>
      Nat.isDigit_of_mem_toDigits (by decide) (by decide) hc
    obtain ⟨hvw, rfl⟩ := Text.append_inj_of_stops (hdigits v) (hdigits w) (hr.stops (by decide)) (hs.stops (by decide)) h.2
    exact ⟨congrArg some (toDigits_injective (by decide) (by decide) hvw), rfl⟩

private theorem stops_versionText (v : Option Nat) (hr : Follows endsOperand r) :
    Stops Token.continuesName ((versionText v).toList ++ r) := by
  cases v with
  | none => exact hr.stops (by decide)
  | some v =>
    intro c hc
    obtain rfl : '@' = c := by simpa [versionText] using hc
    decide

/-- A register is not written like a call: its name is longer than the word `call`, or it is another one. -/
private theorem register_ne_call (hn : IsRegisterName n) (hr : Follows endsOperand r)
    (h : (node i (.register n v)).operandText.toList ++ r = (node j (.call x ys)).operandText.toList ++ s) : False := by
  have hcall : "call ".toList = "call".toList ++ [' '] := rfl
  rw [chars_register, chars_call, hcall, List.append_assoc, List.append_assoc, List.append_assoc] at h
  obtain ⟨hname, -⟩ := Text.append_inj_of_stops hn.1.continues isName_call.continues (stops_versionText v hr)
    (Text.stops_cons.2 (by decide)) h
  exact hn.2 (String.toList_injective hname)

theorem told_register (hn : IsRegisterName n) : Told operandText endsOperand (node i (.register n v)) := by
  intro u r s hu hr hs h
  have hlead := (Legible.register hn).lead?_eq hu h
  cases hu with
  | @register j n' w hn' =>
    rw [chars_register, chars_register, List.append_assoc, List.append_assoc] at h
    obtain ⟨hname, hversion⟩ := Text.append_inj_of_stops hn.1.continues hn'.1.continues (stops_versionText v hr)
      (stops_versionText w hs) h
    obtain ⟨rfl, hrest⟩ := versionText_append_inj hr hs hversion
    obtain rfl := String.toList_injective hname
    exact ⟨rfl, hrest⟩
  | call => exact (register_ne_call hn hr h).elim
  | _ => grind [Expr.lead?, expr_node]

/-- A constant is not written like a negation, since no constant is negated. -/
theorem Legible.ne_negation (hy : y.Legible) (hconstant : y.constant? = none)
    (h : (node i (.constant a)).operandText.toList ++ r = (node j (.unary .neg y)).operandText.toList ++ s) : False := by
  obtain ⟨c, cs, hcs, hc⟩ := hy.exists_lead
  obtain ⟨d, ds, hds, hd⟩ := Word.exists_digits_eq a.toInt.natAbs
  rw [chars_constant, Word.toList_text, chars_unary, hcs, hds] at h
  split at h
  · obtain rfl : d = c := by simpa [UnaryOp.symbol] using (List.cons.inj (List.cons.inj h).2).1
    have hdigit : y.expr.lead? = some .digit := hc.symm.trans (Lead.ofChar?_of_isDigit hd)
    cases hy <;> grind [Expr.lead?, expr_node, constant?]
  · obtain rfl : d = '-' := (List.cons.inj h).1
    exact absurd hd (by decide)

theorem told_constant : Told operandText endsOperand (node i (.constant a)) := by
  intro u r s hu hr hs h
  have hlead := Legible.constant.lead?_eq hu h
  cases hu with
  | @constant j b =>
    rw [chars_constant, chars_constant, Word.toList_text, Word.toList_text, List.append_assoc, List.append_assoc] at h
    have hsign : a.toInt < 0 ↔ b.toInt < 0 := by grind [Expr.lead?, expr_node]
    simp only [hsign, List.append_cancel_left_eq] at h
    obtain ⟨habs, hrest⟩ := Text.append_inj_of_stops (fun _ => Word.isAlphanum_of_mem_digits)
      (fun _ => Word.isAlphanum_of_mem_digits) (hr.stops (by decide)) (hs.stops (by decide)) h
    have hdigits := Word.digits_injective habs
    obtain rfl : a = b := Int64.toInt_inj.1 (by omega)
    exact ⟨rfl, hrest⟩
  | neg hy hconstant => exact (hy.ne_negation hconstant h).elim
  | _ => grind [Expr.lead?, expr_node]

theorem told_deref (hx : x.Legible) (h : Told text endsWhole x) : Told operandText endsOperand (node i (.deref x v)) := by
  intro u r s hu hr hs heq
  have hlead := (Legible.deref hx).lead?_eq hu heq
  cases hu with
  | @deref j y w hy =>
    rw [chars_deref, chars_deref] at heq
    simp only [List.cons_append, List.append_assoc, List.cons.injEq, true_and] at heq
    obtain ⟨hform, hclose⟩ := h y _ _ hy (by simp [Follows, endsWhole]) (by simp [Follows, endsWhole]) heq
    obtain ⟨rfl, hrest⟩ := versionText_append_inj hr hs (List.cons.inj hclose).2
    simp [Expr.map, hform, hrest]
  | _ => grind [Expr.lead?, expr_node]

theorem told_addressOf (hx : x.Legible) (h : Told operandText endsOperand x) :
    Told operandText endsOperand (node i (.addressOf x)) := by
  intro u r s hu hr hs heq
  have hlead := (Legible.addressOf hx).lead?_eq hu heq
  cases hu with
  | addressOf hy =>
    rw [chars_addressOf, chars_addressOf] at heq
    obtain ⟨hform, hrest⟩ := h _ r s hy hr hs (List.cons.inj heq).2
    simp [Expr.map, hform, hrest]
  | _ => grind [Expr.lead?, expr_node]

theorem told_neg (hx : x.Legible) (hconstant : x.constant? = none) (h : Told operandText endsOperand x) :
    Told operandText endsOperand (node i (.unary .neg x)) := by
  intro u r s hu hr hs heq
  have hlead := (Legible.neg hx hconstant).lead?_eq hu heq
  cases hu with
  | constant => exact (hx.ne_negation hconstant heq.symm).elim
  | neg hy =>
    rw [chars_unary, chars_unary] at heq
    obtain ⟨hform, hrest⟩ := h _ r s hy hr hs (by simpa using heq)
    simp [Expr.map, hform, hrest]
  | _ => grind [Expr.lead?, expr_node]

theorem told_not (hx : x.Legible) (h : Told operandText endsOperand x) :
    Told operandText endsOperand (node i (.unary .not x)) := by
  intro u r s hu hr hs heq
  have hlead := (Legible.not hx).lead?_eq hu heq
  cases hu with
  | not hy =>
    rw [chars_unary, chars_unary] at heq
    obtain ⟨hform, hrest⟩ := h _ r s hy hr hs (by simpa using heq)
    simp [Expr.map, hform, hrest]
  | _ => grind [Expr.lead?, expr_node]

theorem told_binary (hx : x.Legible) (hy : y.Legible) (h : Told text endsWhole (node i (.binary op x y))) :
    Told operandText endsOperand (node i (.binary op x y)) := by
  intro u r s hu hr hs heq
  have hlead := (Legible.binary hx hy).lead?_eq hu heq
  cases hu with
  | binary hx' hy' =>
    rw [chars_binary, chars_binary] at heq
    simp only [List.cons_append, List.append_assoc, List.cons.injEq, true_and] at heq
    obtain ⟨hform, hclose⟩ := h _ _ _ (.binary hx' hy') (by simp [Follows, endsWhole]) (by simp [Follows, endsWhole]) heq
    exact ⟨hform, (List.cons.inj hclose).2⟩
  | _ => grind [Expr.lead?, expr_node]

/-- The text of an operator is told from what is behind it. -/
private theorem symbol_append_inj {op op' : BinaryOp} (h : op.symbol.toList ++ ' ' :: r = op'.symbol.toList ++ ' ' :: s) :
    op = op' ∧ r = s := by
  have hblank : ∀ op : BinaryOp, ∀ c ∈ op.symbol.toList, (c != ' ') = true := by
    intro op
    cases op <;> exact List.all_eq_true.1 rfl
  obtain ⟨hsymbol, hrest⟩ := Text.append_inj_of_stops (hblank op) (hblank op') (by simp) (by simp) h
  have hop : op = op' := by cases op <;> cases op' <;> first | rfl | exact absurd hsymbol (by decide)
  exact ⟨hop, (List.cons.inj hrest).2⟩

/-- A binary operation goes on behind its first operand, where nothing else does. -/
private theorem ne_blank (hr : Follows endsWhole r) : r ≠ ' ' :: s := by
  rintro rfl
  exact absurd (hr ' ' rfl) (by decide)

private theorem follows_blank : Follows endsOperand (' ' :: r) := by
  simp [Follows, endsOperand]

theorem told_text_of_not_compound (ht : t.expr.isCompound = false) (h : Told operandText endsOperand t) :
    Told text endsWhole t := by
  intro u r s hu hr hs heq
  rw [← operandText_eq_text ht] at heq
  by_cases hcompound : u.expr.isCompound = false
  · rw [← operandText_eq_text hcompound] at heq
    exact h u r s hu hr.operand hs.operand heq
  · cases hu with
    | binary hx hy =>
      rw [text_binary, List.append_assoc] at heq
      exact absurd (h _ _ _ hx hr.operand follows_blank heq).2 (ne_blank hr)
    | _ => exact absurd rfl hcompound

theorem told_text_binary (hx : Told operandText endsOperand x) (hy : Told operandText endsOperand y) :
    Told text endsWhole (node i (.binary op x y)) := by
  intro u r s hu hr hs heq
  rw [text_binary, List.append_assoc] at heq
  by_cases hcompound : u.expr.isCompound = false
  · rw [← operandText_eq_text hcompound] at heq
    exact absurd (hx u _ s hu follows_blank hs.operand heq).2.symm (ne_blank hs)
  · cases hu with
    | @binary j op' x' y' hx' hy' =>
      rw [text_binary, List.append_assoc] at heq
      obtain ⟨hformx, hrest⟩ := hx x' _ _ hx' follows_blank follows_blank heq
      have hsymbol : op.symbol.toList ++ ' ' :: (y.operandText.toList ++ r) =
          op'.symbol.toList ++ ' ' :: (y'.operandText.toList ++ s) := by simpa using hrest
      obtain ⟨rfl, hoperand⟩ := symbol_append_inj hsymbol
      obtain ⟨hformy, hrs⟩ := hy y' r s hy' hr.operand hs.operand hoperand
      simp [Expr.map, hformx, hformy, hrs]
    | _ => exact absurd rfl hcompound

/-- The arguments of a call are told, and where the call ends. -/
private theorem moreArgumentChars_inj (hys : ∀ y ∈ ys, Told text endsWhole y) (hzs : ∀ z ∈ zs, z.Legible)
    (h : moreArgumentChars ys ++ r = moreArgumentChars zs ++ s) : ys.map form = zs.map form ∧ r = s := by
  have hends : ∀ {ys : List Term} {r : List Char}, Follows endsWhole (moreArgumentChars ys ++ r) := by
    intro ys r
    cases ys <;> simp [moreArgumentChars, Follows, endsWhole]
  induction ys generalizing zs with
  | nil =>
    cases zs with
    | nil => exact ⟨rfl, by simpa [moreArgumentChars] using h⟩
    | cons z zs => simp [moreArgumentChars] at h
  | cons y ys ih =>
    cases zs with
    | nil => simp [moreArgumentChars] at h
    | cons z zs =>
      have hargument : y.text.toList ++ (moreArgumentChars ys ++ r) = z.text.toList ++ (moreArgumentChars zs ++ s) := by
        simpa [moreArgumentChars] using h
      obtain ⟨hform, hmore⟩ := hys y (by simp) z _ _ (hzs z (by simp)) hends hends hargument
      obtain ⟨hforms, hrest⟩ := ih (fun y hy => hys y (by simp [hy])) (fun z hz => hzs z (by simp [hz])) hmore
      simp [hform, hforms, hrest]

theorem Legible.text_ne_close (ht : t.Legible) : t.text.toList ++ r ≠ ')' :: s := by
  have hoperand : ∀ {t : Term} {r : List Char}, t.Legible → t.operandText.toList ++ r ≠ ')' :: s := by
    intro t r ht h
    obtain ⟨c, cs, hcs, hc⟩ := ht.exists_lead
    rw [hcs, List.cons_append, List.cons.injEq] at h
    rw [h.1] at hc
    have hnone : none = t.expr.lead? := hc
    cases ht <;> grind [Expr.lead?, expr_node]
  by_cases hcompound : t.expr.isCompound = false
  · rw [← operandText_eq_text hcompound]
    exact hoperand ht
  · cases ht with
    | binary hx hy =>
      rw [text_binary, List.append_assoc]
      exact hoperand hx
    | _ => exact absurd rfl hcompound

private theorem argumentChars_inj (hys : ∀ y ∈ ys, y.Legible) (hall : ∀ y ∈ ys, Told text endsWhole y)
    (hzs : ∀ z ∈ zs, z.Legible) (h : argumentChars ys ++ r = argumentChars zs ++ s) :
    ys.map form = zs.map form ∧ r = s := by
  have hmore : ∀ (y : Term) (ys : List Term) (r : List Char),
      moreArgumentChars (y :: ys) ++ r = ',' :: ' ' :: (argumentChars (y :: ys) ++ r) := by
    intro y ys r
    simp [moreArgumentChars, argumentChars]
  cases ys with
  | nil =>
    cases zs with
    | nil => exact ⟨rfl, (List.cons.inj h).2⟩
    | cons z zs =>
      rw [argumentChars, argumentChars, List.append_assoc] at h
      exact absurd h.symm (hzs z (by simp)).text_ne_close
  | cons y ys =>
    cases zs with
    | nil =>
      rw [argumentChars, argumentChars, List.append_assoc] at h
      exact absurd h (hys y (by simp)).text_ne_close
    | cons z zs => exact moreArgumentChars_inj hall hzs (by rw [hmore, hmore, h])

theorem told_call (hx : x.Legible) (hys : ∀ y ∈ ys, y.Legible) (h : Told text endsWhole x)
    (hall : ∀ y ∈ ys, Told text endsWhole y) : Told operandText endsOperand (node i (.call x ys)) := by
  intro u r s hu hr hs heq
  have hlead := (Legible.call (i := i) hx hys).lead?_eq hu heq
  cases hu with
  | register hn => exact (register_ne_call hn hs heq.symm).elim
  | @call j x' ys' hx' hys' =>
    simp only [chars_call, List.append_assoc, List.append_cancel_left_eq] at heq
    obtain ⟨hform, hopen⟩ := h x' _ _ hx' (by simp [Follows, endsWhole]) (by simp [Follows, endsWhole]) heq
    obtain ⟨hforms, hrest⟩ := argumentChars_inj hys hall hys' (List.cons.inj hopen).2
    simp [Expr.map, hform, hforms, hrest]
  | _ => grind [Expr.lead?, expr_node]

end Told

/-- What is written of a legible tree tells its form and where it ends, as an operand and on its own. -/
theorem Legible.told (ht : t.Legible) : Told operandText endsOperand t ∧ Told text endsWhole t := by
  have hboth : ∀ {t : Term}, t.expr.isCompound = false → Told operandText endsOperand t →
      Told operandText endsOperand t ∧ Told text endsWhole t := fun ht h => ⟨h, told_text_of_not_compound ht h⟩
  induction ht with
  | register hn => exact hboth rfl (told_register hn)
  | constant => exact hboth rfl told_constant
  | deref hx ih => exact hboth rfl (told_deref hx ih.2)
  | addressOf hx ih => exact hboth rfl (told_addressOf hx ih.1)
  | binary hx hy ihx ihy => exact ⟨told_binary hx hy (told_text_binary ihx.1 ihy.1), told_text_binary ihx.1 ihy.1⟩
  | neg hx hconstant ih => exact hboth rfl (told_neg hx hconstant ih.1)
  | not hx ih => exact hboth rfl (told_not hx ih.1)
  | call hx hys ih ihs => exact hboth rfl (told_call hx hys ih.2 fun y hy => (ihs y hy).2)

/-- Trees with the same text have the same form. -/
theorem form_eq_of_text_eq (ht : t.Legible) (hu : u.Legible) (h : t.text = u.text) : t.form = u.form :=
  (ht.told.2 u [] [] hu nofun nofun (by rw [h])).1

theorem form_eq_of_text_eq_of_call :
    (node ⟨4⟩ (.call (node ⟨1⟩ (.deref (node ⟨0⟩ (.register "eax" (some 1))) (some 2)))
        [node ⟨2⟩ (.constant (-5)), node ⟨3⟩ (.register "ebx" none)])).form =
      (node ⟨9⟩ (.call (node ⟨6⟩ (.deref (node ⟨5⟩ (.register "eax" (some 1))) (some 2)))
        [node ⟨7⟩ (.constant (-5)), node ⟨8⟩ (.register "ebx" none)])).form := by
  have heax : IsRegisterName "eax" := ⟨⟨'e', ['a', 'x'], rfl, rfl, List.all_eq_true.1 rfl⟩, by decide⟩
  have hebx : IsRegisterName "ebx" := ⟨⟨'e', ['b', 'x'], rfl, rfl, List.all_eq_true.1 rfl⟩, by decide⟩
  refine form_eq_of_text_eq (.call (.deref (.register heax)) ?_) (.call (.deref (.register heax)) ?_) rfl
  · simpa using ⟨.constant, .register hebx⟩
  · simpa using ⟨.constant, .register hebx⟩

end Term

end FrameRecovery
