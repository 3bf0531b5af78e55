import FrameRecovery.Proofs.Sorted
import FrameRecovery.Tagging.Basic
import Mathlib.Data.List.Induction

namespace FrameRecovery

/-- The node that the last of some definitions of a location assigns, if there is any. -/
def Definition.lastSite? (l : Location) (ds : List Definition) : Option NodeId :=
  (ds.reverse.find? fun d => d.location == l).map Definition.site

namespace Definition

variable {l : Location} {ds ds' : List Definition}

@[simp] theorem lastSite?_nil (l : Location) : lastSite? l [] = none := rfl

theorem lastSite?_append (l : Location) (ds ds' : List Definition) :
    lastSite? l (ds ++ ds') = (lastSite? l ds').or (lastSite? l ds) := by
  simp [lastSite?, Option.map_or]

theorem lastSite?_singleton (l : Location) (d : Definition) :
    lastSite? l [d] = if d.location = l then some d.site else none := by
  by_cases h : d.location = l <;> simp [lastSite?, h]

theorem exists_of_lastSite? {x : NodeId} (h : lastSite? l ds = some x) :
    ∃ d ∈ ds, d.location = l ∧ d.site = x := by
  obtain ⟨d, hd, rfl⟩ := Option.map_eq_some_iff.1 h
  refine ⟨d, by simpa using List.mem_of_find?_eq_some hd, by simpa using List.find?_some hd, rfl⟩

theorem lastSite?_eq_none_iff : lastSite? l ds = none ↔ ∀ d ∈ ds, d.location ≠ l := by
  simp [lastSite?]

/-- The last one of a run of items that define a location, and what comes before and after it. -/
theorem exists_split_of_lastSite? {α : Type} {define : α → Option Definition} {xs : List α} {y : NodeId}
    (h : lastSite? l (xs.filterMap define) = some y) :
    ∃ before x between d, xs = before ++ x :: between ∧ define x = some d ∧ d.location = l ∧
      d.site = y ∧ lastSite? l (between.filterMap define) = none := by
  induction xs using List.reverseRecOn with
  | nil => cases h
  | append_singleton xs x ih =>
    rw [List.filterMap_append, lastSite?_append, Option.or_eq_some_iff] at h
    obtain h | ⟨hnone, h⟩ := h
    · obtain ⟨d, hd, hl, hy⟩ := exists_of_lastSite? h
      rw [List.mem_filterMap] at hd
      obtain ⟨x', hx', hd⟩ := hd
      obtain rfl := List.mem_singleton.1 hx'
      exact ⟨xs, x', [], d, rfl, hd, hl, hy, rfl⟩
    · obtain ⟨before, x', between, d, rfl, hd, hl, hy, hbetween⟩ := ih h
      refine ⟨before, x', between ++ [x], d, by simp, hd, hl, hy, ?_⟩
      rw [List.filterMap_append, lastSite?_append, hnone, hbetween]
      rfl

end Definition

namespace Reach

variable {r r' : Reach} {l : Location} {p : Point} {ds : List Definition}

/-- A point is recorded for a location. -/
def Has (r : Reach) (l : Location) (p : Point) : Prop :=
  ∃ ps, r.find? l = some ps ∧ p ∈ ps

/-- A point reaches a location. What nothing is recorded for is reached from the entry. -/
def Brings (r : Reach) (l : Location) (p : Point) : Prop :=
  r.Has l p ∨ (∀ q, ¬ r.Has l q) ∧ p = .entry

@[simp] theorem not_has_empty (l : Location) (p : Point) : ¬ Has (.empty : Reach) l p := by
  simp [Has]

/-- A run of definitions lets only the last one for a location reach what follows. -/
theorem find?_foldl_after : (ds.foldl after r).find? l =
    match Definition.lastSite? l ds with
    | some x => some (.singleton (.definition x))
    | none => r.find? l := by
  induction ds using List.reverseRecOn with
  | nil => rfl
  | append_singleton ds d ih =>
    rw [List.foldl_append, Definition.lastSite?_append, Definition.lastSite?_singleton]
    simp only [List.foldl_cons, List.foldl_nil, after, define]
    by_cases h : d.location = l
    · subst h
      simp
    · rw [SortedMap.find?_insert_of_ne (Ne.symm h), ih]
      simp [h]

theorem has_foldl_after : (ds.foldl after r).Has l p ↔
    match Definition.lastSite? l ds with
    | some x => p = .definition x
    | none => r.Has l p := by
  unfold Has
  rw [find?_foldl_after]
  split <;> simp

theorem points_foldl_after : (ds.foldl after r).points l =
    match Definition.lastSite? l ds with
    | some x => [.definition x]
    | none => r.points l := by
  unfold points
  rw [find?_foldl_after]
  cases Definition.lastSite? l ds <;> rfl

theorem brings_foldl_after : (ds.foldl after r).Brings l p ↔
    match Definition.lastSite? l ds with
    | some x => p = .definition x
    | none => r.Brings l p := by
  unfold Brings
  simp only [has_foldl_after]
  split <;> simp

private theorem has_upsert {e : Location × SortedSet Point} :
    Has (r.upsert e.1 fun
      | some ps => ps.union e.2
      | none => e.2) l p ↔ r.Has l p ∨ (l = e.1 ∧ p ∈ e.2) := by
  unfold Has
  by_cases h : l = e.1
  · subst h
    rw [SortedMap.find?_upsert_self]
    cases r.find? e.1 <;> simp
  · rw [SortedMap.find?_upsert_of_ne h]
    simp [h]

theorem has_join : (r.join r').Has l p ↔ r.Has l p ∨ r'.Has l p := by
  have hfold : ∀ (es : List (Location × SortedSet Point)) (r : Reach),
      Has (es.foldl (fun r e => r.upsert e.1 fun
        | some ps => ps.union e.2
        | none => e.2) r) l p ↔ r.Has l p ∨ ∃ ps, (l, ps) ∈ es ∧ p ∈ ps := by
    intro es
    induction es with
    | nil => simp
    | cons e rest ih =>
      intro r
      rw [List.foldl_cons, ih, has_upsert]
      grind
  refine (hfold r'.entries r).trans ?_
  simp only [SortedMap.mem_entries, Has]

private theorem nodup_start (ls : SortedSet Location) :
    ((ls.elements.map fun l => (l, SortedSet.singleton Point.entry)).map Prod.fst).Nodup := by
  rw [List.map_map]
  exact (List.map_id _).symm ▸ ls.nodup_elements

theorem has_start {ls : SortedSet Location} : (start ls).Has l p ↔ l ∈ ls ∧ p = .entry := by
  unfold Has start
  simp only [SortedMap.find?_ofList (nodup_start ls), List.mem_map, SortedSet.mem_def]
  constructor
  · rintro ⟨ps, ⟨l', hl, h⟩, hp⟩
    cases h
    exact ⟨hl, SortedSet.mem_singleton.1 hp⟩
  · rintro ⟨hl, rfl⟩
    exact ⟨_, ⟨l, hl, rfl⟩, SortedSet.mem_singleton.2 rfl⟩

/-- The recorded points, in the way in which they are looked up. -/
theorem points_eq (r : Reach) (l : Location) :
    (r.points l = [] ∧ ∀ p, ¬ r.Has l p) ∨ (r.points l = [.entry] ∧ ∀ p, ¬ r.Has l p) ∨
      ((∀ p, p ∈ r.points l ↔ r.Has l p) ∧ (r.points l).Nodup ∧ r.points l ≠ []) := by
  unfold points Has
  cases h : r.find? l with
  | none => simp
  | some ps =>
    by_cases hps : ps.elements = []
    · refine .inl ⟨hps, ?_⟩
      simp [SortedSet.mem_def, hps]
    · refine .inr (.inr ⟨?_, ps.nodup_elements, hps⟩)
      simp [SortedSet.mem_def]

theorem brings_of_points_eq_nil (h : r.points l = []) : r.Brings l p ↔ p = .entry := by
  rcases r.points_eq l with ⟨-, hnot⟩ | ⟨h', -⟩ | ⟨-, -, hne⟩
  · simp [Brings, hnot]
  · simp [h] at h'
  · exact absurd h hne

theorem brings_of_points_ne_nil (h : r.points l ≠ []) : r.Brings l p ↔ p ∈ r.points l := by
  rcases r.points_eq l with ⟨h', -⟩ | ⟨h', hnot⟩ | ⟨hmem, -, hne⟩
  · exact absurd h' h
  · simp [Brings, hnot, h']
  · obtain ⟨q, hq⟩ := List.exists_mem_of_ne_nil _ hne
    rw [Brings, ← hmem]
    refine or_iff_left ?_
    rintro ⟨hnot, -⟩
    exact hnot q ((hmem q).1 hq)

theorem mem_points_of_brings {d : NodeId} (h : r.Brings l (.definition d)) : .definition d ∈ r.points l := by
  refine (brings_of_points_ne_nil fun hnil => ?_).1 h
  cases (brings_of_points_eq_nil hnil).1 h

theorem nodup_points (r : Reach) (l : Location) : (r.points l).Nodup := by
  rcases r.points_eq l with ⟨h, -⟩ | ⟨h, -⟩ | ⟨-, h, -⟩
  · simp [h]
  · simp [h]
  · exact h

/-- No location is recorded without a point. -/
def Proper (r : Reach) : Prop :=
  ∀ l ps, r.find? l = some ps → ∃ p, p ∈ ps

/-- Everything recorded in the one reach is recorded in the other. -/
def Below (r r' : Reach) : Prop :=
  ∀ l p, r.Has l p → r'.Has l p

/-- A reach is known from what is recorded in it. -/
theorem Proper.ext (hr : r.Proper) (hr' : r'.Proper) (h : ∀ l p, r.Has l p ↔ r'.Has l p) : r = r' := by
  have hsome : ∀ {r r' : Reach} {l ps}, r.Proper → (∀ l p, r.Has l p ↔ r'.Has l p) →
      r.find? l = some ps → ∃ ps', r'.find? l = some ps' ∧ ∀ p, p ∈ ps ↔ p ∈ ps' := by
    intro r r' l ps hr h hps
    obtain ⟨p, hp⟩ := hr l ps hps
    obtain ⟨ps', hps', -⟩ := (h l p).1 ⟨ps, hps, hp⟩
    refine ⟨ps', hps', fun q => ?_⟩
    simpa [Has, hps, hps'] using h l q
  refine SortedMap.ext_find? fun l => ?_
  cases hps : r.find? l with
  | some ps =>
    obtain ⟨ps', hps', hmem⟩ := hsome hr h hps
    rw [hps', SortedSet.ext hmem]
  | none =>
    cases hps' : r'.find? l with
    | none => rfl
    | some ps' =>
      obtain ⟨ps, hps'', -⟩ := hsome hr' (fun l p => (h l p).symm) hps'
      rw [hps] at hps''
      cases hps''

theorem proper_empty : Proper (.empty : Reach) := by
  intro l ps h
  cases h

theorem Proper.foldl_after (hr : r.Proper) : (ds.foldl after r).Proper := by
  intro l ps h
  rw [find?_foldl_after] at h
  split at h
  next x _ =>
    cases h
    exact ⟨_, SortedSet.mem_singleton.2 rfl⟩
  next => exact hr l ps h

theorem Below.foldl_after (h : r.Below r') : (ds.foldl after r).Below (ds.foldl after r') := by
  intro l p hp
  rw [has_foldl_after] at hp ⊢
  split at hp
  next => exact hp
  next => exact h l p hp

theorem Proper.join (hr : r.Proper) (hr' : r'.Proper) : (r.join r').Proper := by
  have hfold : ∀ (es : List (Location × SortedSet Point)) (r : Reach), (∀ e ∈ es, ∃ p, p ∈ e.2) →
      r.Proper → Proper (es.foldl (fun r e => r.upsert e.1 fun
        | some ps => ps.union e.2
        | none => e.2) r) := by
    intro es
    induction es with
    | nil => exact fun r _ hr => hr
    | cons e rest ih =>
      intro r hes hr
      refine ih _ (fun e he => hes e (by simp [he])) fun l ps h => ?_
      by_cases hl : l = e.1
      · subst hl
        obtain ⟨p, hp⟩ := hes e (by simp)
        rw [SortedMap.find?_upsert_self] at h
        cases h
        refine ⟨p, ?_⟩
        cases r.find? e.1 <;> simp [hp]
      · exact hr l ps (SortedMap.find?_upsert_of_ne hl r _ ▸ h)
  refine hfold _ r (fun e he => ?_) hr
  exact hr' e.1 e.2 (SortedMap.find?_eq_some_of_mem_entries he)

theorem proper_start (ls : SortedSet Location) : (start ls).Proper := by
  intro l ps h
  obtain ⟨k, -, heq⟩ := List.mem_map.1 ((SortedMap.find?_ofList (nodup_start ls)).1 h)
  cases heq
  exact ⟨_, SortedSet.mem_singleton.2 rfl⟩

/-- What the records of a location without empty sets are looked up as. -/
theorem Proper.points_eq (hr : r.Proper) (l : Location) :
    (r.points l = [.entry] ∧ ∀ p, ¬ r.Has l p) ∨ ((∃ p, r.Has l p) ∧ ∀ p, p ∈ r.points l ↔ r.Has l p) := by
  unfold points Has
  cases h : r.find? l with
  | none => exact .inl ⟨rfl, by simp⟩
  | some ps =>
    refine .inr ⟨?_, by simp [SortedSet.mem_def]⟩
    obtain ⟨p, hp⟩ := hr l ps h
    exact ⟨p, ps, rfl, hp⟩

end Reach

end FrameRecovery
