namespace FrameRecovery

/-- A finite set, held as the strictly increasing list of its elements. Equal sets are equal
    values, and iteration is in increasing order. -/
structure SortedSet (α : Type) [Ord α] where
  elements : List α
  increasing : elements.Pairwise fun a b => compare a b = .lt
deriving DecidableEq

namespace SortedSet

variable {α : Type} [Ord α]

/-- Puts an element at its place in an increasing list, unless it is there already. -/
def place (x : α) : List α → List α
  | [] => [x]
  | y :: rest =>
    match compare x y with
    | .lt => x :: y :: rest
    | .eq => y :: rest
    | .gt => y :: place x rest

theorem eq_or_mem_of_mem_place {x z : α} {xs : List α} (h : z ∈ place x xs) : z = x ∨ z ∈ xs := by
  induction xs with
  | nil => simpa [place] using h
  | cons y rest ih =>
    unfold place at h
    split at h
    · simpa using h
    · exact Or.inr h
    · rcases List.mem_cons.1 h with rfl | h
      · simp
      · rcases ih h with rfl | h
        · exact Or.inl rfl
        · exact Or.inr (List.mem_cons_of_mem _ h)

/-- The set without elements. -/
def empty : SortedSet α :=
  ⟨[], List.Pairwise.nil⟩

/-- The set of one element. -/
def singleton (x : α) : SortedSet α :=
  ⟨[x], List.pairwise_singleton _ _⟩

/-- Whether a value is an element. -/
def contains (s : SortedSet α) (x : α) : Bool :=
  s.elements.any fun y => compare x y == .eq

/-- The number of elements. -/
def size (s : SortedSet α) : Nat :=
  s.elements.length

/-- Whether there is no element. -/
def isEmpty (s : SortedSet α) : Bool :=
  s.elements.isEmpty

instance : Inhabited (SortedSet α) := ⟨empty⟩

instance : Membership α (SortedSet α) := ⟨fun s x => x ∈ s.elements⟩

theorem mem_def {s : SortedSet α} {x : α} : x ∈ s ↔ x ∈ s.elements := Iff.rfl

@[simp] theorem not_mem_empty (x : α) : x ∉ (empty : SortedSet α) := by
  simp [mem_def, empty]

@[simp] theorem mem_singleton {x z : α} : z ∈ singleton x ↔ z = x := by
  simp [mem_def, singleton]

section Order

variable [Std.TransOrd α]

theorem increasing_place (x : α) {xs : List α}
    (h : xs.Pairwise fun a b => compare a b = .lt) :
    (place x xs).Pairwise fun a b => compare a b = .lt := by
  induction xs with
  | nil => simp [place]
  | cons y rest ih =>
    obtain ⟨hy, hrest⟩ := List.pairwise_cons.1 h
    unfold place
    split
    next hxy =>
      refine List.pairwise_cons.2 ⟨fun z hz => ?_, h⟩
      rcases List.mem_cons.1 hz with rfl | hz
      · exact hxy
      · exact Std.TransCmp.lt_trans hxy (hy z hz)
    next => exact h
    next hxy =>
      refine List.pairwise_cons.2 ⟨fun z hz => ?_, ih hrest⟩
      rcases eq_or_mem_of_mem_place hz with rfl | hz
      · exact Std.OrientedCmp.gt_iff_lt.1 hxy
      · exact hy z hz

/-- The set with one more element. -/
def insert (s : SortedSet α) (x : α) : SortedSet α :=
  ⟨place x s.elements, increasing_place x s.increasing⟩

/-- The elements of either set. -/
def union (s t : SortedSet α) : SortedSet α :=
  t.elements.foldl insert s

/-- The set of the elements of a list. -/
def ofList (xs : List α) : SortedSet α :=
  xs.foldl insert empty

end Order

section Membership

variable [Std.LawfulEqOrd α]

theorem contains_eq_true {s : SortedSet α} {x : α} : s.contains x = true ↔ x ∈ s := by
  simp [contains, mem_def]

theorem mem_place {x z : α} {xs : List α} : z ∈ place x xs ↔ z = x ∨ z ∈ xs := by
  refine ⟨eq_or_mem_of_mem_place, ?_⟩
  induction xs with
  | nil => simp [place]
  | cons y rest ih =>
    unfold place
    split
    next => simp
    next hxy =>
      have hxy : x = y := Std.LawfulEqOrd.eq_of_compare hxy
      subst hxy
      simp
    next =>
      intro h
      rcases h with rfl | h
      · exact List.mem_cons_of_mem _ (ih (Or.inl rfl))
      · rcases List.mem_cons.1 h with rfl | h
        · simp
        · exact List.mem_cons_of_mem _ (ih (Or.inr h))

variable [Std.TransOrd α]

@[simp] theorem mem_insert {s : SortedSet α} {x z : α} : z ∈ s.insert x ↔ z = x ∨ z ∈ s :=
  mem_place

theorem mem_foldl_insert {z : α} (xs : List α) (s : SortedSet α) :
    z ∈ xs.foldl insert s ↔ z ∈ s ∨ z ∈ xs := by
  induction xs generalizing s with
  | nil => simp
  | cons x rest ih =>
    rw [List.foldl_cons, ih, mem_insert, List.mem_cons, or_comm (a := z = x), or_assoc]

@[simp] theorem mem_union {s t : SortedSet α} {z : α} : z ∈ s.union t ↔ z ∈ s ∨ z ∈ t :=
  mem_foldl_insert t.elements s

@[simp] theorem mem_ofList {xs : List α} {z : α} : z ∈ ofList xs ↔ z ∈ xs := by
  simp [ofList, mem_foldl_insert]

end Membership

end SortedSet

end FrameRecovery
