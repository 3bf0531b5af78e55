import FrameRecovery.Sorted.Map
import FrameRecovery.Sorted.Set
import Mathlib.Data.List.Basic

namespace FrameRecovery

namespace SortedMap

variable {κ ν : Type} [Ord κ]

theorem find?_modify_self (m : SortedMap κ ν) (k : κ) (f : ν → ν) :
    (m.modify k f).find? k = (m.find? k).map f := by
  obtain ⟨es, h⟩ := m
  unfold find? modify
  dsimp only
  clear h
  induction es with
  | nil => rfl
  | cons e rest ih =>
    by_cases hk : compare k e.1 = .eq
    · simp [hk]
    · simpa [hk] using ih

section Values

variable {μ : Type}

/-- The map with every value replaced by its image. -/
def mapValues (f : ν → μ) (m : SortedMap κ ν) : SortedMap κ μ where
  entries := m.entries.map fun e => (e.1, f e.2)
  increasing := List.pairwise_map.2 m.increasing

theorem find?_mapValues (f : ν → μ) (m : SortedMap κ ν) (k : κ) : (m.mapValues f).find? k = (m.find? k).map f := by
  unfold find? mapValues
  rw [List.find?_map, Option.map_map, Option.map_map]
  rfl

theorem keys_mapValues (f : ν → μ) (m : SortedMap κ ν) : (m.mapValues f).keys = m.keys := by
  unfold keys mapValues
  rw [List.map_map]
  rfl

theorem values_mapValues (f : ν → μ) (m : SortedMap κ ν) : (m.mapValues f).values = m.values.map f := by
  unfold values mapValues
  rw [List.map_map, List.map_map]
  rfl

theorem mapValues_congr {f g : ν → μ} {m : SortedMap κ ν} (h : ∀ v ∈ m.values, f v = g v) :
    m.mapValues f = m.mapValues g := by
  unfold mapValues
  congr 1
  refine List.map_congr_left fun e he => ?_
  rw [h e.2 (List.mem_map_of_mem he)]

end Values

variable [Std.LawfulEqOrd κ]

theorem find?_modify_of_ne {k k' : κ} (hne : k' ≠ k) (m : SortedMap κ ν) (f : ν → ν) :
    (m.modify k f).find? k' = m.find? k' := by
  obtain ⟨es, h⟩ := m
  unfold find? modify
  dsimp only
  clear h
  induction es with
  | nil => rfl
  | cons e rest ih =>
    by_cases hk : (compare k e.1 == .eq) = true
    · have heq : k = e.1 := by simpa using hk
      have hk' : ¬ (compare k' e.1 == .eq) = true := by
        simpa using fun h : k' = e.1 => hne (h.trans heq.symm)
      simpa [hk, hk'] using ih
    · by_cases hk' : (compare k' e.1 == .eq) = true
      · simp [hk, hk']
      · simpa [hk, hk'] using ih

theorem find?_eq_some_of_mem_entries {m : SortedMap κ ν} {k : κ} {v : ν} (h : (k, v) ∈ m.entries) :
    m.find? k = some v := by
  obtain ⟨es, hes⟩ := m
  unfold find?
  induction es with
  | nil => cases h
  | cons e rest ih =>
    obtain ⟨hlt, hrest⟩ := List.pairwise_cons.1 hes
    rcases List.mem_cons.1 h with rfl | h
    · simp
    · have hne : ¬ (compare k e.1 == .eq) = true := by
        intro heq
        have heq : k = e.1 := by simpa using heq
        have := hlt _ h
        rw [heq] at this
        simp at this
      simpa [hne] using ih hrest h

theorem mem_entries {m : SortedMap κ ν} {k : κ} {v : ν} :
    (k, v) ∈ m.entries ↔ m.find? k = some v :=
  ⟨find?_eq_some_of_mem_entries, mem_entries_of_find?⟩

theorem mem_values {m : SortedMap κ ν} {v : ν} : v ∈ m.values ↔ ∃ k, m.find? k = some v := by
  simp only [values, List.mem_map, ← mem_entries, Prod.exists, exists_eq_right]

theorem mem_keys {m : SortedMap κ ν} {k : κ} : k ∈ m.keys ↔ ∃ v, m.find? k = some v := by
  simp only [keys, List.mem_map, ← mem_entries, Prod.exists, exists_and_right, exists_eq_right]

theorem nodup_keys (m : SortedMap κ ν) : m.keys.Nodup := by
  refine List.pairwise_map.2 (m.increasing.imp ?_)
  intro a b hlt heq
  rw [heq] at hlt
  simp at hlt

/-- The keys of a map are known from which keys there are. -/
theorem keys_congr {ν' : Type} [Std.TransOrd κ] {m : SortedMap κ ν} {m' : SortedMap κ ν'}
    (h : ∀ k, (∃ v, m.find? k = some v) ↔ ∃ v, m'.find? k = some v) : m.keys = m'.keys := by
  have hperm : m.keys.Perm m'.keys :=
    (List.perm_ext_iff_of_nodup m.nodup_keys m'.nodup_keys).2 fun k => by rw [mem_keys, mem_keys, h]
  have hm : m.keys.Pairwise fun a b => compare a b = .lt := List.pairwise_map.2 m.increasing
  have hm' : m'.keys.Pairwise fun a b => compare a b = .lt := List.pairwise_map.2 m'.increasing
  refine hperm.eq_of_pairwise (fun a b _ _ hab hba => ?_) hm hm'
  rw [@Std.OrientedCmp.eq_swap _ compare, hab] at hba
  cases hba

theorem map_values_eq {μ : Type} (m : SortedMap κ ν) (f : ν → μ) :
    m.values.map f = m.keys.filterMap fun k => (m.find? k).map f := by
  unfold values keys
  rw [List.map_map, List.filterMap_map, ← List.filterMap_eq_map]
  refine List.filterMap_congr fun e he => ?_
  simp [find?_eq_some_of_mem_entries (k := e.1) (v := e.2) he]

/-- The values of a map are known from the value at each key. -/
theorem map_values_congr {ν' μ : Type} [Std.TransOrd κ] {m : SortedMap κ ν} {m' : SortedMap κ ν'} {f : ν → μ}
    {f' : ν' → μ} (h : ∀ k, (m.find? k).map f = (m'.find? k).map f') : m.values.map f = m'.values.map f' := by
  have hkeys : m.keys = m'.keys := keys_congr fun k => by
    rw [← Option.isSome_iff_exists, ← Option.isSome_iff_exists, ← Option.isSome_map (f := f), h, Option.isSome_map]
  rw [map_values_eq, map_values_eq, hkeys]
  exact List.filterMap_congr fun k _ => h k

/-- A map is known from the value at each key. -/
theorem ext_find? [Std.TransOrd κ] {m m' : SortedMap κ ν} (h : ∀ k, m.find? k = m'.find? k) : m = m' := by
  have hmem : ∀ {m m' : SortedMap κ ν} {e}, (∀ k, m.find? k = m'.find? k) → e ∈ m.entries → e ∈ m'.entries := by
    intro m m' e h he
    apply mem_entries_of_find?
    rw [← h, find?_eq_some_of_mem_entries he]
  have hnodup : ∀ m : SortedMap κ ν, m.entries.Nodup := by
    intro m
    exact List.Pairwise.of_map Prod.fst (fun a b hne heq => hne (congrArg Prod.fst heq)) m.nodup_keys
  have hperm : m.entries.Perm m'.entries :=
    (List.perm_ext_iff_of_nodup (hnodup m) (hnodup m')).2 fun e => ⟨hmem h, hmem fun k => (h k).symm⟩
  have heq : m.entries = m'.entries := by
    refine hperm.eq_of_pairwise (fun a b _ _ hab hba => ?_) m.increasing m'.increasing
    rw [@Std.OrientedCmp.eq_swap _ compare, hab] at hba
    cases hba
  cases m
  cases m'
  cases heq
  rfl

/-- A new key makes one more entry. -/
theorem length_entries_insert [Std.TransOrd κ] {m : SortedMap κ ν} {k : κ} {v : ν}
    (h : m.find? k = none) : (m.insert k v).entries.length = m.entries.length + 1 := by
  have hne : ∀ e ∈ m.entries, compare k e.1 ≠ .eq := by
    simpa [find?] using h
  change (place k (fun _ => v) m.entries).length = m.entries.length + 1
  generalize m.entries = es at hne
  induction es with
  | nil => rfl
  | cons e rest ih =>
    unfold place
    split
    next => rfl
    next heq => exact absurd heq (hne _ (by simp))
    next => simp [ih fun e he => hne e (by simp [he])]

private theorem find?_foldl_insert [Std.TransOrd κ] {es : List (κ × ν)} {k : κ} {v : ν}
    (hnodup : (es.map Prod.fst).Nodup) (m : SortedMap κ ν) :
    (es.foldl (fun m e => m.insert e.1 e.2) m).find? k = some v ↔
      (k, v) ∈ es ∨ ((∀ e ∈ es, e.1 ≠ k) ∧ m.find? k = some v) := by
  induction es generalizing m with
  | nil => simp
  | cons e rest ih =>
    obtain ⟨k₀, v₀⟩ := e
    rw [List.map_cons, List.nodup_cons] at hnodup
    have hnot : ∀ w, (k₀, w) ∉ rest := fun w h => hnodup.1 (List.mem_map.2 ⟨_, h, rfl⟩)
    rw [List.foldl_cons, ih hnodup.2]
    by_cases hk : k = k₀
    · subst hk
      rw [find?_insert_self]
      have hrest : ∀ e ∈ rest, e.1 ≠ k := fun e he h => hnot e.2 (h ▸ he)
      simp only [Option.some.injEq, List.mem_cons, Prod.mk.injEq, true_and, hnot, or_false]
      constructor
      · rintro (h | ⟨-, rfl⟩)
        · exact absurd h (by simp)
        · exact .inl rfl
      · rintro (rfl | ⟨h, -⟩)
        · exact .inr ⟨hrest, rfl⟩
        · exact absurd rfl (h (k, v₀) (by simp))
    · rw [find?_insert_of_ne hk]
      have hk' : k₀ ≠ k := Ne.symm hk
      simp [hk, hk']

/-- A map of a list without repeated keys has exactly the entries of the list. -/
theorem find?_ofList [Std.TransOrd κ] {es : List (κ × ν)} {k : κ} {v : ν}
    (hnodup : (es.map Prod.fst).Nodup) : (ofList es).find? k = some v ↔ (k, v) ∈ es := by
  rw [ofList, find?_foldl_insert hnodup]
  simp

end SortedMap

theorem SortedSet.nodup_elements {α : Type} [Ord α] [Std.LawfulEqOrd α] (s : SortedSet α) :
    s.elements.Nodup := by
  refine s.increasing.imp ?_
  rintro a _ hlt rfl
  simp at hlt

/-- A set is known from its elements. -/
theorem SortedSet.ext {α : Type} [Ord α] [Std.LawfulEqOrd α] [Std.TransOrd α] {s t : SortedSet α}
    (h : ∀ x, x ∈ s ↔ x ∈ t) : s = t := by
  have hperm : s.elements.Perm t.elements :=
    (List.perm_ext_iff_of_nodup s.nodup_elements t.nodup_elements).2 h
  have heq : s.elements = t.elements := by
    refine hperm.eq_of_pairwise (fun a b _ _ hab hba => ?_) s.increasing t.increasing
    rw [@Std.OrientedCmp.eq_swap _ compare, hab] at hba
    cases hba
  cases s
  cases t
  cases heq
  rfl

end FrameRecovery
