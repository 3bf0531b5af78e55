import FrameRecovery.Proofs.Outcome
import Mathlib.Data.List.Forall2

namespace FrameRecovery

/-- What it is for a computation to be run: in which state it starts, what it results in, and in which
    state it ends. -/
class Runs (m : Type → Type) [Monad m] (S : outParam Type) where
  Run {α : Type} : m α → S → α → S → Prop
  run_pure {α : Type} {a b : α} {s t : S} : Run (pure a) s b t ↔ b = a ∧ t = s
  run_bind {α β : Type} {x : m α} {k : α → m β} {s t : S} {b : β} :
    Run (x >>= k) s b t ↔ ∃ a u, Run x s a u ∧ Run (k a) u b t

open Runs (Run)

namespace Runs

variable {σ τ α β : Type}

instance : Runs (StateT σ (Except Fault)) σ where
  Run x s a t := x s = .ok (a, t)
  run_pure {α a b s t} := by
    change Except.ok (a, s) = .ok (b, t) ↔ _
    simp [eq_comm]
  run_bind {α β x k s t b} := by
    refine ⟨exists_of_bind_eq_ok, fun ⟨a, u, hx, hk⟩ => ?_⟩
    change (x s >>= fun r => k r.1 r.2) = _
    rw [hx]
    exact hk

/-- A computation that can fail has been run if it did not fail. -/
instance {m : Type → Type} [Monad m] [LawfulMonad m] [Runs m σ] : Runs (ExceptT Error m) σ where
  Run x s a t := Run x.run s (.ok a) t
  run_pure {α a b s t} := by
    rw [ExceptT.run_pure, Runs.run_pure, Except.ok.injEq]
  run_bind {α β x k s t b} := by
    rw [ExceptT.run_bind, Runs.run_bind]
    constructor
    · rintro ⟨_ | a, u, hx, hk⟩
      · cases (Runs.run_pure.1 hk).1
      · exact ⟨a, u, hx, hk⟩
    · rintro ⟨a, u, hx, hk⟩
      exact ⟨.ok a, u, hx, hk⟩

/-- A state beside that of another computation. -/
instance {m : Type → Type} [Monad m] [LawfulMonad m] [Runs m τ] : Runs (StateT σ m) (σ × τ) where
  Run x s a t := Run (x s.1) s.2 (a, t.1) t.2
  run_pure {α a b s t} := by
    obtain ⟨s, u⟩ := s
    obtain ⟨t, v⟩ := t
    change Run (pure (a, s)) u (b, t) v ↔ _
    rw [Runs.run_pure, Prod.mk.injEq, Prod.mk.injEq, and_assoc]
  run_bind {α β x k s t b} := by
    change Run (x s.1 >>= fun r => k r.1 r.2) s.2 (b, t.1) t.2 ↔ _
    rw [Runs.run_bind]
    constructor
    · rintro ⟨⟨a, u⟩, v, hx, hk⟩
      exact ⟨a, (u, v), hx, hk⟩
    · rintro ⟨a, ⟨u, v⟩, hx, hk⟩
      exact ⟨(a, u), v, hx, hk⟩

end Runs

/-- Two computations run in parallel: on states that are related, if the first one succeeds, so does the
    second one, the results are related, and so are the states that are left. -/
def Parallel {m : Type → Type} [Monad m] {S α β : Type} [Runs m S] (E : S → S → Prop) (R : α → β → Prop)
    (x : m α) (y : m β) : Prop :=
  ∀ s s' a t, E s s' → Run x s a t → ∃ b t', Run y s' b t' ∧ R a b ∧ E t t'

namespace Parallel

variable {m : Type → Type} [Monad m] {S α α' β β' : Type} [Runs m S] {E : S → S → Prop} {R : α → α' → Prop}
  {Q : β → β' → Prop}

theorem of_pure {a : α} {a' : α'} (h : R a a') : Parallel E R (pure a : m α) (pure a') := by
  intro s s' _ _ hs hrun
  obtain ⟨rfl, rfl⟩ := Runs.run_pure.1 hrun
  exact ⟨a', s', Runs.run_pure.2 ⟨rfl, rfl⟩, h, hs⟩

theorem bind {x : m α} {y : m α'} {k : α → m β} {k' : α' → m β'} (h : Parallel E R x y)
    (hk : ∀ a a', R a a' → Parallel E Q (k a) (k' a')) : Parallel E Q (x >>= k) (y >>= k') := by
  intro s s' b t hs hrun
  obtain ⟨a, u, hx, hrun⟩ := Runs.run_bind.1 hrun
  obtain ⟨a', u', hy, hR, hu⟩ := h s s' a u hs hx
  obtain ⟨b', t', hrun', hQ, ht⟩ := hk a a' hR u u' b t hu hrun
  exact ⟨b', t', Runs.run_bind.2 ⟨a', u', hy, hrun'⟩, hQ, ht⟩

theorem mono {R' : α → α' → Prop} {x : m α} {y : m α'} (h : Parallel E R x y) (hmono : ∀ a a', R a a' → R' a a') :
    Parallel E R' x y := by
  intro s s' a t hs hrun
  obtain ⟨a', t', hy, hR, ht⟩ := h s s' a t hs hrun
  exact ⟨a', t', hy, hmono a a' hR, ht⟩

theorem ite {c : Prop} [Decidable c] {x x' : m α} {y y' : m α'} (h : c → Parallel E R x y)
    (h' : ¬ c → Parallel E R x' y') : Parallel E R (if c then x else x') (if c then y else y') := by
  split
  next hc => exact h hc
  next hc => exact h' hc

theorem forM {k : α → m Unit} {k' : α' → m Unit} {xs : List α} {ys : List α'} (hxs : List.Forall₂ R xs ys)
    (hk : ∀ x y, R x y → Parallel E (fun _ _ => True) (k x) (k' y)) :
    Parallel E (fun _ _ => True) (xs.forM k) (ys.forM k') := by
  induction hxs with
  | nil => exact of_pure trivial
  | cons hxy _ ih => exact bind (hk _ _ hxy) fun _ _ _ => ih

theorem foldlM {k : β → α → m β} {k' : β' → α' → m β'} {xs : List α} {ys : List α'} {b : β} {b' : β'}
    (hxs : List.Forall₂ R xs ys) (hb : Q b b')
    (hk : ∀ c c' x y, Q c c' → R x y → Parallel E Q (k c x) (k' c' y)) :
    Parallel E Q (xs.foldlM k b) (ys.foldlM k' b') := by
  induction hxs generalizing b b' with
  | nil => exact of_pure hb
  | cons hxy _ ih => exact bind (hk _ _ _ _ hb hxy) fun _ _ hQ => ih hQ

theorem forM_same {k k' : α → m Unit} {xs : List α} (hk : ∀ x ∈ xs, Parallel E (fun _ _ => True) (k x) (k' x)) :
    Parallel E (fun _ _ => True) (xs.forM k) (xs.forM k') := by
  refine forM (R := fun x y => x = y ∧ x ∈ xs) (List.forall₂_same.2 fun x hx => ⟨rfl, hx⟩) ?_
  rintro x _ ⟨rfl, hx⟩
  exact hk x hx

theorem foldlM_same {k k' : β → α → m β} {xs : List α} {b : β} (hk : ∀ b, ∀ x ∈ xs, Parallel E Eq (k b x) (k' b x)) :
    Parallel E Eq (xs.foldlM k b) (xs.foldlM k' b) := by
  refine foldlM (R := fun x y => x = y ∧ x ∈ xs) (List.forall₂_same.2 fun x hx => ⟨rfl, hx⟩) rfl ?_
  rintro b _ x _ rfl ⟨rfl, hx⟩
  exact hk b x hx

section Lawful

variable [LawfulMonad m]

theorem mapM {k : α → m β} {k' : α' → m β'} {xs : List α} {ys : List α'} (hxs : List.Forall₂ R xs ys)
    (hk : ∀ x y, R x y → Parallel E Q (k x) (k' y)) : Parallel E (List.Forall₂ Q) (xs.mapM k) (ys.mapM k') := by
  induction hxs with
  | nil =>
    rw [List.mapM_nil, List.mapM_nil]
    exact of_pure .nil
  | cons hxy _ ih =>
    rw [List.mapM_cons, List.mapM_cons]
    exact bind (hk _ _ hxy) fun _ _ hQ => bind ih fun _ _ hrest => of_pure (.cons hQ hrest)

theorem mapM_same {k k' : α → m β} {xs : List α} (hk : ∀ x ∈ xs, Parallel E Eq (k x) (k' x)) :
    Parallel E Eq (xs.mapM k) (xs.mapM k') := by
  refine (mapM (R := fun x y => x = y ∧ x ∈ xs) (Q := Eq) (List.forall₂_same.2 fun x hx => ⟨rfl, hx⟩) ?_).mono ?_
  · rintro x _ ⟨rfl, hx⟩
    exact hk x hx
  · intro ys zs h
    rwa [List.forall₂_eq_eq_eq] at h

theorem of_lift {x : m α} {y : m α'} (h : Parallel E R x y) :
    Parallel E R (ExceptT.lift x : ExceptT Error m α) (ExceptT.lift y) := by
  have hlift : ∀ {α : Type} {x : m α} {s a t}, Run (ExceptT.lift x : ExceptT Error m α) s a t ↔ Run x s a t := by
    intro α x s a t
    change Run (ExceptT.lift x : ExceptT Error m α).run s (.ok a) t ↔ _
    rw [ExceptT.run_lift, map_eq_pure_bind, Runs.run_bind]
    simp only [Runs.run_pure, Except.ok.injEq]
    constructor
    · rintro ⟨a', u, hx, rfl, rfl⟩
      exact hx
    · exact fun hx => ⟨a, t, hx, rfl, rfl⟩
  intro s s' a t hs hrun
  obtain ⟨a', t', hy, hR, ht⟩ := h s s' a t hs (hlift.1 hrun)
  exact ⟨a', t', hlift.2 hy, hR, ht⟩

theorem of_throw (e : Error) (y : ExceptT Error m α') : Parallel E R (throw e : ExceptT Error m α) y := by
  intro s s' a t _ hrun
  cases (Runs.run_pure.1 hrun).1

end Lawful

end Parallel

end FrameRecovery
