namespace FrameRecovery

/-- A finite map, held as the list of its entries with strictly increasing keys. Equal maps
    are equal values, and iteration is in key order. -/
structure SortedMap (κ ν : Type) [Ord κ] where
  entries : List (κ × ν)
  increasing : entries.Pairwise fun a b => compare a.1 b.1 = .lt
deriving DecidableEq

namespace SortedMap

variable {κ ν : Type} [Ord κ]

/-- Rewrites the value at a key of an increasing list of entries; `f` is given the value
    there so far, and the entry is put at its place if there is none. -/
def place (k : κ) (f : Option ν → ν) : List (κ × ν) → List (κ × ν)
  | [] => [(k, f none)]
  | (k', v) :: rest =>
    match compare k k' with
    | .lt => (k, f none) :: (k', v) :: rest
    | .eq => (k', f (some v)) :: rest
    | .gt => (k', v) :: place k f rest

theorem key_of_mem_place {k : κ} {f : Option ν → ν} {e : κ × ν} {es : List (κ × ν)}
    (h : e ∈ place k f es) : e.1 = k ∨ ∃ e' ∈ es, e'.1 = e.1 := by
  induction es with
  | nil =>
    left
    simp [place] at h
    simp [h]
  | cons e₀ rest ih =>
    obtain ⟨k', v⟩ := e₀
    unfold place at h
    split at h
    · rcases List.mem_cons.1 h with rfl | h
      · exact Or.inl rfl
      · exact Or.inr ⟨e, h, rfl⟩
    · rcases List.mem_cons.1 h with rfl | h
      · exact Or.inr ⟨(k', v), by simp, rfl⟩
      · exact Or.inr ⟨e, List.mem_cons_of_mem _ h, rfl⟩
    · rcases List.mem_cons.1 h with rfl | h
      · exact Or.inr ⟨(k', v), by simp, rfl⟩
      · rcases ih h with h | ⟨e', he', h⟩
        · exact Or.inl h
        · exact Or.inr ⟨e', List.mem_cons_of_mem _ he', h⟩

/-- The map without entries. -/
def empty : SortedMap κ ν :=
  ⟨[], List.Pairwise.nil⟩

instance : Inhabited (SortedMap κ ν) := ⟨empty⟩

/-- The value at a key. -/
def find? (m : SortedMap κ ν) (k : κ) : Option ν :=
  (m.entries.find? fun e => compare k e.1 == .eq).map Prod.snd

/-- Whether a key has a value. -/
def contains (m : SortedMap κ ν) (k : κ) : Bool :=
  (m.find? k).isSome

/-- The keys, in increasing order. -/
def keys (m : SortedMap κ ν) : List κ :=
  m.entries.map Prod.fst

/-- The values, in the order of their keys. -/
def values (m : SortedMap κ ν) : List ν :=
  m.entries.map Prod.snd

/-- Rewrites the value at a key, if there is one. -/
def modify (m : SortedMap κ ν) (k : κ) (f : ν → ν) : SortedMap κ ν where
  entries := m.entries.map fun e => if compare k e.1 == .eq then (e.1, f e.2) else e
  increasing := by
    refine List.pairwise_map.2 (m.increasing.imp ?_)
    intro a b h
    split <;> split <;> exact h

section Order

variable [Std.TransOrd κ]

theorem increasing_place (k : κ) (f : Option ν → ν) {es : List (κ × ν)}
    (h : es.Pairwise fun a b => compare a.1 b.1 = .lt) :
    (place k f es).Pairwise fun a b => compare a.1 b.1 = .lt := by
  induction es with
  | nil => simp [place]
  | cons e₀ rest ih =>
    obtain ⟨k', v⟩ := e₀
    obtain ⟨hk, hrest⟩ := List.pairwise_cons.1 h
    unfold place
    split
    next hlt =>
      refine List.pairwise_cons.2 ⟨fun e he => ?_, h⟩
      rcases List.mem_cons.1 he with rfl | he
      · exact hlt
      · exact Std.TransCmp.lt_trans hlt (hk e he)
    next => exact List.pairwise_cons.2 ⟨hk, hrest⟩
    next hgt =>
      refine List.pairwise_cons.2 ⟨fun e he => ?_, ih hrest⟩
      rcases key_of_mem_place he with h | ⟨e', he', h⟩
      · rw [h]
        exact Std.OrientedCmp.gt_iff_lt.1 hgt
      · rw [← h]
        exact hk e' he'

/-- Rewrites the value at a key; `f` is given the value there so far, if there is one. -/
def upsert (m : SortedMap κ ν) (k : κ) (f : Option ν → ν) : SortedMap κ ν :=
  ⟨place k f m.entries, increasing_place k f m.increasing⟩

/-- Sets the value at a key. -/
def insert (m : SortedMap κ ν) (k : κ) (v : ν) : SortedMap κ ν :=
  m.upsert k fun _ => v

/-- The map of a list of entries; the last value given for a key counts. -/
def ofList (es : List (κ × ν)) : SortedMap κ ν :=
  es.foldl (fun m e => m.insert e.1 e.2) empty

end Order

@[simp] theorem find?_empty (k : κ) : (empty : SortedMap κ ν).find? k = none := rfl

section Lookup

variable [Std.LawfulEqOrd κ]

theorem mem_entries_of_find? {m : SortedMap κ ν} {k : κ} {v : ν} (h : m.find? k = some v) :
    (k, v) ∈ m.entries := by
  obtain ⟨e, he, rfl⟩ := Option.map_eq_some_iff.1 h
  have hk := List.find?_some he
  have hk : k = e.1 := by simpa using hk
  subst hk
  exact List.mem_of_find?_eq_some he

variable [Std.TransOrd κ]

theorem find?_place_self {k : κ} {f : Option ν → ν} {es : List (κ × ν)}
    (h : es.Pairwise fun a b => compare a.1 b.1 = .lt) :
    ((place k f es).find? fun e => compare k e.1 == .eq).map Prod.snd =
      some (f ((es.find? fun e => compare k e.1 == .eq).map Prod.snd)) := by
  induction es with
  | nil => simp [place]
  | cons e₀ rest ih =>
    obtain ⟨k', v⟩ := e₀
    obtain ⟨hk, hrest⟩ := List.pairwise_cons.1 h
    unfold place
    split
    next hlt =>
      have hnone : rest.find? (fun e => compare k e.1 == .eq) = none := by
        refine List.find?_eq_none.2 fun e he heq => ?_
        have hke : compare k e.1 = .lt := Std.TransCmp.lt_trans hlt (hk e he)
        simp [hke] at heq
      simp [hlt, hnone]
    next heq => simp [heq]
    next hgt => simpa [hgt] using ih hrest

omit [Std.TransOrd κ] in
theorem find?_place_of_ne {k k' : κ} (hne : k' ≠ k) (f : Option ν → ν) (es : List (κ × ν)) :
    (place k f es).find? (fun e => compare k' e.1 == .eq) =
      es.find? fun e => compare k' e.1 == .eq := by
  have hk : compare k' k ≠ .eq := fun h => hne (Std.LawfulEqOrd.eq_of_compare h)
  induction es with
  | nil => simp [place, hk]
  | cons e₀ rest ih =>
    obtain ⟨k₀, v⟩ := e₀
    unfold place
    split
    next => simp [hk]
    next heq =>
      have heq : k = k₀ := Std.LawfulEqOrd.eq_of_compare heq
      subst heq
      simp [hk]
    next => simp only [List.find?_cons, ih]

@[simp] theorem find?_upsert_self (m : SortedMap κ ν) (k : κ) (f : Option ν → ν) :
    (m.upsert k f).find? k = some (f (m.find? k)) :=
  find?_place_self m.increasing

theorem find?_upsert_of_ne {k k' : κ} (hne : k' ≠ k) (m : SortedMap κ ν) (f : Option ν → ν) :
    (m.upsert k f).find? k' = m.find? k' :=
  congrArg (Option.map Prod.snd) (find?_place_of_ne hne f m.entries)

@[simp] theorem find?_insert_self (m : SortedMap κ ν) (k : κ) (v : ν) :
    (m.insert k v).find? k = some v :=
  find?_upsert_self m k fun _ => v

theorem find?_insert_of_ne {k k' : κ} (hne : k' ≠ k) (m : SortedMap κ ν) (v : ν) :
    (m.insert k v).find? k' = m.find? k' :=
  find?_upsert_of_ne hne m fun _ => v

end Lookup

end SortedMap

end FrameRecovery
