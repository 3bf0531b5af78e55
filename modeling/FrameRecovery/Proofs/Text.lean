import Mathlib.Data.List.TakeWhile

namespace FrameRecovery

namespace Text

/-- A text that does not go on with a character of a kind. -/
def Stops (p : Char → Bool) (cs : List Char) : Prop :=
  ∀ c ∈ cs.head?, p c = false

variable {p q : Char → Bool} {xs ys rest rest' : List Char} {c : Char}

@[simp] theorem stops_nil : Stops p [] := nofun

@[simp] theorem stops_cons : Stops p (c :: rest) ↔ p c = false := by
  simp [Stops]

theorem Stops.mono (h : Stops p rest) (hpq : ∀ c, q c = true → p c = true) : Stops q rest := fun c hc =>
  Bool.eq_false_iff.2 fun hq => Bool.eq_false_iff.1 (h c hc) (hpq c hq)

theorem takeWhile_append (hrest : Stops p rest) (xs : List Char) : (xs ++ rest).takeWhile p = xs.takeWhile p := by
  induction xs with
  | nil => cases rest <;> simp_all
  | cons c xs ih => rw [List.cons_append, List.takeWhile_cons, List.takeWhile_cons, ih]

theorem dropWhile_append (hrest : Stops p rest) (xs : List Char) :
    (xs ++ rest).dropWhile p = xs.dropWhile p ++ rest := by
  induction xs with
  | nil => cases rest <;> simp_all
  | cons c xs ih =>
    rw [List.cons_append, List.dropWhile_cons, List.dropWhile_cons, ih]
    split <;> rfl

/-- A run of characters of one kind is what is taken in front of what it stops at. -/
theorem takeWhile_append_of_stops (hxs : ∀ c ∈ xs, p c = true) (hrest : Stops p rest) :
    (xs ++ rest).takeWhile p = xs := by
  rw [takeWhile_append hrest, List.takeWhile_eq_self_iff.2 hxs]

theorem dropWhile_append_of_stops (hxs : ∀ c ∈ xs, p c = true) (hrest : Stops p rest) :
    (xs ++ rest).dropWhile p = rest := by
  rw [dropWhile_append hrest, List.dropWhile_eq_nil_iff.2 hxs, List.nil_append]

/-- A run of characters of one kind is determined by a text that it stands in front of. -/
theorem append_inj_of_stops (hxs : ∀ c ∈ xs, p c = true) (hys : ∀ c ∈ ys, p c = true) (hrest : Stops p rest)
    (hrest' : Stops p rest') (h : xs ++ rest = ys ++ rest') : xs = ys ∧ rest = rest' := by
  have hrun := congrArg (List.takeWhile p) h
  rw [takeWhile_append_of_stops hxs hrest, takeWhile_append_of_stops hys hrest'] at hrun
  subst hrun
  exact ⟨rfl, List.append_cancel_left h⟩

end Text

end FrameRecovery
