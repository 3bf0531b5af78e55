import FrameRecovery.Proofs.Flow.Layout
import FrameRecovery.Proofs.Precedence

namespace FrameRecovery

/-- What was read last of a text: a bracket that closes, the version behind one, or something else. -/
inductive Reading where
  | closed
  | version
  | other

namespace Reading

/-- Whether a character belongs to the version of a dereference. -/
def drops : Reading → Char → Bool
  | closed, c => c == '@'
  | version, c => c.isDigit
  | other, _ => false

/-- What was read when a character was. -/
def after (c : Char) : Reading :=
  if c = ']' then closed else other

end Reading

/-- A text without the versions of dereferences. -/
def unversion : Reading → List Char → List Char
  | _, [] => []
  | r, c :: rest => if r.drops c then unversion .version rest else c :: unversion (.after c) rest

section Unversion

variable {r : Reading} {c : Char} {xs : List Char}

theorem Reading.drops_eq_false (hc : Breaks c) : r.drops c = false := by
  obtain ⟨hname, hat⟩ := hc
  cases r with
  | closed => simpa [drops] using hat
  | version =>
    simp only [Token.continuesName, Char.isAlphanum, Bool.or_eq_false_iff] at hname
    exact hname.1.1.2
  | other => rfl

theorem unversion_append_break (hc : Breaks c) (xs ys : List Char) :
    unversion r (xs ++ c :: ys) = unversion r xs ++ c :: unversion (.after c) ys := by
  induction xs generalizing r with
  | nil => simp [unversion, Reading.drops_eq_false hc]
  | cons x rest ih =>
    rw [List.cons_append, unversion, unversion]
    split
    · exact ih
    · rw [ih, List.cons_append]

/-- Nothing is dropped if there is no version. -/
theorem unversion_of_not_mem (hxs : '@' ∉ xs) (hr : r = .closed ∨ r = .other) : unversion r xs = xs := by
  induction xs generalizing r with
  | nil => rfl
  | cons x rest ih =>
    rw [List.mem_cons, not_or] at hxs
    have hdrops : r.drops x = false := by
      obtain rfl | rfl := hr
      · simpa [Reading.drops] using Ne.symm hxs.1
      · rfl
    have hafter : Reading.after x = .closed ∨ Reading.after x = .other := by
      unfold Reading.after
      split
      · exact .inl rfl
      · exact .inr rfl
    rw [unversion, hdrops, ih hxs.2 hafter]
    rfl

/-- Nothing is dropped if there is no dereference. -/
theorem unversion_of_no_bracket (hxs : ']' ∉ xs) : unversion .other xs = xs := by
  induction xs with
  | nil => rfl
  | cons x rest ih =>
    rw [List.mem_cons, not_or] at hxs
    have hafter : Reading.after x = .other := if_neg (Ne.symm hxs.1)
    rw [unversion, hafter, ih hxs.2]
    rfl

theorem rewords_unversion : Rewords (unversion .other) :=
  ⟨fun _ hxs => unversion_of_not_mem hxs (.inr rfl), fun c xs ys hc hne => by
    rw [unversion_append_break hc, Reading.after, if_neg hne]⟩

theorem isDigit_of_mem_decimal {n : Nat} (hc : c ∈ (decimal n).toList) : c.isDigit = true := by
  rw [decimal, String.toList_ofList] at hc
  exact Nat.isDigit_of_mem_toDigits (by decide) (by decide) hc

theorem unversion_digits (hxs : ∀ c ∈ xs, c.isDigit = true) : unversion .version xs = [] := by
  induction xs with
  | nil => rfl
  | cons x rest ih =>
    rw [unversion, Reading.drops, if_pos (hxs x (by simp))]
    exact ih fun c hc => hxs c (by simp [hc])

theorem unversion_versionText (v : Option Nat) : unversion .closed (versionText v).toList = [] := by
  cases v with
  | none => rfl
  | some v =>
    have hlist : (versionText (some v)).toList = '@' :: (decimal v).toList := by simp [versionText]
    rw [hlist]
    exact unversion_digits fun c hc => isDigit_of_mem_decimal hc

theorem not_mem_versionText (v : Option Nat) : ']' ∉ (versionText v).toList := by
  cases v with
  | none => decide
  | some v =>
    have hlist : (versionText (some v)).toList = '@' :: (decimal v).toList := by simp [versionText]
    rw [hlist, List.mem_cons, not_or]
    exact ⟨by decide, fun h => absurd (isDigit_of_mem_decimal h) (by decide)⟩

end Unversion

/-- Whether there is a closing bracket in the name of a location. -/
def Expr.isBracketed {α : Type} : Expr α → Bool
  | register n _ | var n _ _ => n.toList.contains ']'
  | _ => false

namespace LocationKind

theorem count_isBracketed_strip (t : Term) : (derefs.strip t).count Expr.isBracketed = t.count Expr.isBracketed :=
  count_strip (fun e => by cases e <;> rfl) t

/-- Without the versions of its dereferences a tree has the text without them. -/
theorem text_strip {t : Term} (h : t.count Expr.isBracketed = 0) :
    (derefs.strip t).text.toList = unversion .other t.text.toList := by
  have hR := rewords_unversion
  induction t using Term.induction with
  | step i e ih =>
    have hbracket := Term.count_eq_zero_iff.1 h
    have hplain : ∀ c ∈ e.children, (derefs.strip c).text.toList = unversion .other c.text.toList := fun c hc =>
      ih c hc (Term.count_eq_zero_iff.2 fun u hu => hbracket u (.inside hc hu))
    have hname : ∀ (n : String) (v : Option Nat), ']' ∉ n.toList →
        (n ++ versionText v).toList = unversion .other (n ++ versionText v).toList := by
      intro n v hn
      rw [unversion_of_no_bracket]
      simpa [hn] using not_mem_versionText v
    rw [strip_node, Term.text_node, Term.text_node]
    cases e with
    | register n v =>
      exact hname n v (by simpa [Expr.head, Expr.map, Expr.isBracketed] using hbracket _ (.refl _))
    | var n v o =>
      exact hname n v (by simpa [Expr.head, Expr.map, Expr.isBracketed] using hbracket _ (.refl _))
    | deref x v =>
      have htext : ∀ a b : String, ("[" ++ a ++ "]" ++ b).toList = '[' :: (a.toList ++ ']' :: b.toList) :=
        fun a b => by simp
      change ("[" ++ (derefs.strip x).text ++ "]" ++ versionText none).toList =
        unversion .other ("[" ++ x.text ++ "]" ++ versionText v).toList
      rw [htext, htext, hR.cons (by decide) (by decide), unversion_append_break (by decide),
        hplain x (by simp [Expr.children])]
      change _ = '[' :: (_ ++ ']' :: unversion .closed _)
      rw [unversion_versionText]
      rfl
    | _ =>
      have hrest : ∀ e : Expr Term, e.isAssignable = false → derefs.untag (e.map derefs.strip) = e.map derefs.strip := by
        intro e he
        cases e <;> first | rfl | cases he
      rw [hrest _ rfl]
      refine hR.layout rfl hplain fun c hc => hR.operandText ?_ (hplain c hc)
      obtain ⟨j, e⟩ := c
      rw [strip_node]
      cases e <;> rfl

end LocationKind

end FrameRecovery
