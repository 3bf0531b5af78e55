namespace FrameRecovery

/-- A numbering of values in the order in which their numbers were first asked for: the
    number of a value is its position, and no value has two. -/
structure Numbering (α : Type) where
  values : List α
  nodup : values.Nodup
deriving DecidableEq

namespace Numbering

variable {α : Type}

/-- The numbering of no value. -/
def empty : Numbering α :=
  ⟨[], List.nodup_nil⟩

instance : Inhabited (Numbering α) := ⟨empty⟩

/-- How many values are numbered; this is the next number to be given. -/
def size (n : Numbering α) : Nat :=
  n.values.length

/-- The values with their numbers, in order. -/
def toList (n : Numbering α) : List (Nat × α) :=
  n.values.zipIdx.map Prod.swap

variable [DecidableEq α]

/-- The number of a value, if it has one. -/
def index? (n : Numbering α) (v : α) : Option Nat :=
  n.values.idxOf? v

theorem index?_eq_none_iff {n : Numbering α} {v : α} : n.index? v = none ↔ v ∉ n.values := by
  simp [index?]

/-- The number of a value, giving it the next one if it has none yet. -/
def assign (n : Numbering α) (v : α) : Nat × Numbering α :=
  match h : n.index? v with
  | some i => (i, n)
  | none =>
    (n.size, {
      values := n.values ++ [v]
      nodup := by
        rw [index?_eq_none_iff] at h
        refine List.nodup_append.2 ⟨n.nodup, by simp, ?_⟩
        intro a ha b hb
        rintro rfl
        exact h (List.mem_singleton.1 hb ▸ ha) })

theorem assign_of_index? {n : Numbering α} {v : α} {i : Nat} (h : n.index? v = some i) :
    n.assign v = (i, n) := by
  unfold assign
  split
  next j hj =>
    rw [h] at hj
    cases hj
    rfl
  next hn => simp [h] at hn

/-- After it was asked for, the number of a value is known. -/
theorem index?_assign (n : Numbering α) (v : α) :
    (n.assign v).2.index? v = some (n.assign v).1 := by
  unfold assign
  split
  next i hi => exact hi
  next hn =>
    rw [index?_eq_none_iff] at hn
    have hnone : n.values.findIdx? (· == v) = none := by
      rw [List.findIdx?_eq_none_iff]
      intro a ha
      simpa using fun h : a = v => hn (h ▸ ha)
    simp [index?, size, List.idxOf?, List.findIdx?_append, hnone]

/-- Asking for a number changes none that was known. -/
theorem index?_assign_of_some {n : Numbering α} {u : α} {i : Nat} (h : n.index? u = some i) (v : α) :
    (n.assign v).2.index? u = some i := by
  unfold assign
  split
  next => exact h
  next =>
    have h : n.values.findIdx? (· == u) = some i := h
    simp [index?, List.idxOf?, List.findIdx?_append, h]

end Numbering

end FrameRecovery
