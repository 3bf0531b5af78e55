import FrameRecovery.Flow.Pass

namespace FrameRecovery

variable {α β σ : Type}

theorem bind_ok {ε α β : Type} (v : α) (k : α → Except ε β) : (Except.ok v >>= k) = k v :=
  rfl

theorem exists_of_except_bind {ε α β : Type} {x : Except ε α} {k : α → Except ε β} {r : β}
    (h : (x >>= k) = .ok r) : ∃ v, x = .ok v ∧ k v = .ok r := by
  cases x with
  | error e => cases h
  | ok v => exact ⟨v, rfl, h⟩

theorem ok_of_mem_toOption {ε α : Type} {x : Except ε α} {v : α} (h : v ∈ x.toOption) : x = .ok v := by
  cases x with
  | error e => cases h
  | ok w =>
    obtain rfl := Option.some.inj h
    rfl

theorem exists_of_bind_eq_ok {x : StateT σ (Except Fault) α} {k : α → StateT σ (Except Fault) β}
    {s : σ} {r : β × σ} (h : (x >>= k) s = .ok r) : ∃ a t, x s = .ok (a, t) ∧ k a t = .ok r := by
  change (x s >>= fun r => k r.1 r.2) = .ok r at h
  cases hx : x s with
  | error e =>
    rw [hx] at h
    cases h
  | ok p =>
    rw [hx] at h
    exact ⟨p.1, p.2, rfl, h⟩

/-- A computation succeeds on a state, and its result and the state after it are as stated. -/
def Gives (x : StateT σ (Except Fault) α) (s : σ) (Q : α → σ → Prop) : Prop :=
  ∃ a t, x s = .ok (a, t) ∧ Q a t

namespace Gives

variable {s : σ} {f : Flow}

theorem mono {x : StateT σ (Except Fault) α} {Q R : α → σ → Prop} (h : Gives x s Q)
    (hmono : ∀ a t, Q a t → R a t) : Gives x s R := by
  obtain ⟨a, t, hx, hQ⟩ := h
  exact ⟨a, t, hx, hmono a t hQ⟩

/-- A computation has one outcome. -/
theorem and {x : StateT σ (Except Fault) α} {Q R : α → σ → Prop} (h : Gives x s Q) (h' : Gives x s R) :
    Gives x s fun a t => Q a t ∧ R a t := by
  obtain ⟨a, t, hx, hQ⟩ := h
  obtain ⟨a', t', hx', hR⟩ := h'
  cases hx.symm.trans hx'
  exact ⟨a, t, hx, hQ, hR⟩

theorem and_imp {P : Prop} {x : StateT σ (Except Fault) α} {Q R : α → σ → Prop} (h : Gives x s Q)
    (h' : P → Gives x s R) : Gives x s fun a t => Q a t ∧ (P → R a t) := by
  by_cases hP : P
  · exact (h.and (h' hP)).mono fun _ _ ⟨hQ, hR⟩ => ⟨hQ, fun _ => hR⟩
  · exact h.mono fun _ _ hQ => ⟨hQ, fun h => absurd h hP⟩

theorem of_pure {a : α} {Q : α → σ → Prop} (h : Q a s) :
    Gives (pure a : StateT σ (Except Fault) α) s Q :=
  ⟨a, s, rfl, h⟩

theorem of_bind {x : StateT σ (Except Fault) α} {k : α → StateT σ (Except Fault) β}
    {Q : β → σ → Prop} (h : Gives x s fun a t => Gives (k a) t Q) : Gives (x >>= k) s Q := by
  obtain ⟨a, t, hx, b, t', hk, hQ⟩ := h
  refine ⟨b, t', ?_, hQ⟩
  change (x s >>= fun r => k r.1 r.2) = _
  rw [hx]
  exact hk

theorem of_get {Q : σ → σ → Prop} (h : Q s s) : Gives (get : StateT σ (Except Fault) σ) s Q :=
  ⟨s, s, rfl, h⟩

theorem of_modify {change : σ → σ} {Q : Unit → σ → Prop} (h : Q () (change s)) :
    Gives (modify change : StateT σ (Except Fault) Unit) s Q :=
  ⟨(), change s, rfl, h⟩

theorem of_view {read : Flow → Except Fault α} {a : α} {Q : α → Flow → Prop}
    (hread : read f = .ok a) (h : Q a f) : Gives (Edit.view read : Edit α) f Q := by
  refine ⟨a, f, ?_, h⟩
  change (read f >>= fun a => Except.ok (a, f)) = _
  rw [hread]
  rfl

/-- A loop over a list keeps an invariant on the elements that are left. -/
theorem of_forM {k : α → StateT σ (Except Fault) Unit} {I : List α → σ → Prop}
    (step : ∀ a rest s, I (a :: rest) s → Gives (k a) s fun _ t => I rest t)
    (xs : List α) (h : I xs s) : Gives (xs.forM k) s fun _ t => I [] t := by
  induction xs generalizing s with
  | nil => exact of_pure h
  | cons a rest ih => exact of_bind ((step a rest s h).mono fun _ t ht => ih ht)

theorem of_foldlM {k : β → α → StateT σ (Except Fault) β} {I : List α → β → σ → Prop}
    (step : ∀ a rest b s, I (a :: rest) b s → Gives (k b a) s fun b' t => I rest b' t)
    (xs : List α) {b : β} (h : I xs b s) : Gives (xs.foldlM k b) s fun b' t => I [] b' t := by
  induction xs generalizing s b with
  | nil => exact of_pure h
  | cons a rest ih => exact of_bind ((step a rest b s h).mono fun b' t ht => ih ht)

/-- A loop that collects results keeps an invariant on the elements that are left and the
    results so far. -/
theorem of_mapM {k : α → StateT σ (Except Fault) β} {I : List α → List β → σ → Prop}
    (step : ∀ a rest bs s, I (a :: rest) bs s → Gives (k a) s fun b t => I rest (bs ++ [b]) t)
    (xs : List α) {b : List β} (h : I xs b s) :
    Gives (xs.mapM k) s fun bs t => I [] (b ++ bs) t := by
  induction xs generalizing s b with
  | nil => exact of_pure (by simpa using h)
  | cons a rest ih =>
    rw [List.mapM_cons]
    refine of_bind ((step a rest b s h).mono fun _ t ht => of_bind ((ih ht).mono ?_))
    intro bs t' ht'
    exact of_pure (by simpa using ht')

end Gives

/-- A computation that can fail does not fail on a state, and its result and the state after
    it are as stated. -/
def Succeeds (x : ExceptT Error (StateT σ (Except Fault)) α) (s : σ) (Q : α → σ → Prop) : Prop :=
  Gives x.run s fun r t => ∃ a, r = .ok a ∧ Q a t

namespace Succeeds

variable {s : σ} {f : Flow}

theorem mono {x : ExceptT Error (StateT σ (Except Fault)) α} {Q R : α → σ → Prop}
    (h : Succeeds x s Q) (hmono : ∀ a t, Q a t → R a t) : Succeeds x s R :=
  Gives.mono h fun _ _ ⟨a, hr, hQ⟩ => ⟨a, hr, hmono _ _ hQ⟩

theorem of_pure {a : α} {Q : α → σ → Prop} (h : Q a s) :
    Succeeds (pure a : ExceptT Error (StateT σ (Except Fault)) α) s Q :=
  Gives.of_pure ⟨a, rfl, h⟩

theorem of_bind {x : ExceptT Error (StateT σ (Except Fault)) α}
    {k : α → ExceptT Error (StateT σ (Except Fault)) β} {Q : β → σ → Prop}
    (h : Succeeds x s fun a t => Succeeds (k a) t Q) : Succeeds (x >>= k) s Q := by
  refine Gives.of_bind (Gives.mono h ?_)
  rintro r t ⟨a, rfl, hk⟩
  exact hk

theorem of_lift {x : StateT σ (Except Fault) α} {Q : α → σ → Prop} (h : Gives x s Q) :
    Succeeds (liftM x : ExceptT Error (StateT σ (Except Fault)) α) s Q := by
  obtain ⟨a, t, hx, hQ⟩ := h
  refine ⟨.ok a, t, ?_, a, rfl, hQ⟩
  change (x s >>= fun r => Except.ok (Except.ok r.1, r.2)) = _
  rw [hx]
  rfl

theorem of_get {Q : σ → σ → Prop} (h : Q s s) :
    Succeeds (get : ExceptT Error (StateT σ (Except Fault)) σ) s Q :=
  of_lift (Gives.of_get h)

theorem of_modify {change : σ → σ} {Q : Unit → σ → Prop} (h : Q () (change s)) :
    Succeeds (modify change : ExceptT Error (StateT σ (Except Fault)) Unit) s Q :=
  of_lift (Gives.of_modify h)

theorem of_view {read : Flow → Except Fault α} {a : α} {Q : α → Flow → Prop}
    (hread : read f = .ok a) (h : Q a f) : Succeeds (Edit.view read : Pass α) f Q :=
  of_lift (Gives.of_view hread h)

theorem of_forM {k : α → ExceptT Error (StateT σ (Except Fault)) Unit} {I : List α → σ → Prop}
    (step : ∀ a rest s, I (a :: rest) s → Succeeds (k a) s fun _ t => I rest t)
    (xs : List α) (h : I xs s) : Succeeds (xs.forM k) s fun _ t => I [] t := by
  induction xs generalizing s with
  | nil => exact of_pure h
  | cons a rest ih => exact of_bind ((step a rest s h).mono fun _ t ht => ih ht)

theorem of_foldlM {k : β → α → ExceptT Error (StateT σ (Except Fault)) β}
    {I : List α → β → σ → Prop}
    (step : ∀ a rest b s, I (a :: rest) b s → Succeeds (k b a) s fun b' t => I rest b' t)
    (xs : List α) {b : β} (h : I xs b s) : Succeeds (xs.foldlM k b) s fun b' t => I [] b' t := by
  induction xs generalizing s b with
  | nil => exact of_pure h
  | cons a rest ih => exact of_bind ((step a rest b s h).mono fun b' t ht => ih ht)

end Succeeds

/-- A computation that can fail comes to an end on a state: its result and the state after it are as
    stated, or else the state that it left behind when it failed is. -/
def Settles (x : ExceptT Error (StateT σ (Except Fault)) α) (s : σ) (Q : α → σ → Prop) (E : σ → Prop) : Prop :=
  Gives x.run s fun r t => match r with
    | .ok a => Q a t
    | .error _ => E t

namespace Settles

variable {s : σ} {f : Flow} {E : σ → Prop}

theorem mono {x : ExceptT Error (StateT σ (Except Fault)) α} {Q R : α → σ → Prop} (h : Settles x s Q E)
    (hmono : ∀ a t, Q a t → R a t) : Settles x s R E :=
  Gives.mono h fun r t ht => match r with
    | .ok a => hmono a t ht
    | .error _ => ht

theorem of_pure {a : α} {Q : α → σ → Prop} (h : Q a s) :
    Settles (pure a : ExceptT Error (StateT σ (Except Fault)) α) s Q E :=
  Gives.of_pure h

theorem of_throw {e : Error} {Q : α → σ → Prop} (h : E s) :
    Settles (throw e : ExceptT Error (StateT σ (Except Fault)) α) s Q E :=
  Gives.of_pure h

theorem of_bind {x : ExceptT Error (StateT σ (Except Fault)) α}
    {k : α → ExceptT Error (StateT σ (Except Fault)) β} {Q : β → σ → Prop}
    (h : Settles x s (fun a t => Settles (k a) t Q E) E) : Settles (x >>= k) s Q E := by
  refine Gives.of_bind (Gives.mono h ?_)
  rintro (e | a) t ht
  · exact Gives.of_pure ht
  · exact ht

theorem of_lift {x : StateT σ (Except Fault) α} {Q : α → σ → Prop} (h : Gives x s Q) :
    Settles (liftM x : ExceptT Error (StateT σ (Except Fault)) α) s Q E := by
  refine Gives.mono (Succeeds.of_lift h) ?_
  rintro _ t ⟨a, rfl, ht⟩
  exact ht

theorem of_view {read : Flow → Except Fault α} {a : α} {Q : α → Flow → Prop} {E : Flow → Prop}
    (hread : read f = .ok a) (h : Q a f) : Settles (Edit.view read : Pass α) f Q E :=
  of_lift (Gives.of_view hread h)

theorem of_foldlM {k : β → α → ExceptT Error (StateT σ (Except Fault)) β}
    {I : List α → β → σ → Prop}
    (step : ∀ a rest b s, I (a :: rest) b s → Settles (k b a) s (fun b' t => I rest b' t) E)
    (xs : List α) {b : β} (h : I xs b s) : Settles (xs.foldlM k b) s (fun b' t => I [] b' t) E := by
  induction xs generalizing s b with
  | nil => exact of_pure h
  | cons a rest ih => exact of_bind ((step a rest b s h).mono fun b' t ht => ih ht)

end Settles

end FrameRecovery
