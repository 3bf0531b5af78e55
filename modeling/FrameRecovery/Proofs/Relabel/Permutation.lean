import FrameRecovery.Proofs.Relabel.Plan
import FrameRecovery.Proofs.Relabel.Text
import Mathlib.Data.Set.Finite.Range
import Mathlib.Logic.Equiv.Fintype

namespace FrameRecovery

variable {ρ σ : String → String}

/-- Two ways to give names to finitely many things that tell the same things apart differ by a permutation of the
    names. -/
theorem exists_perm_of_iff {ι α : Type} [Finite ι] {g g' : ι → α} (h : ∀ i j, g i = g j ↔ g' i = g' j) :
    ∃ π : Equiv.Perm α, ∀ i, π (g i) = g' i := by
  have hchosen : ∀ i, g' (Set.mem_range_self i : g i ∈ Set.range g).choose = g' i := fun i =>
    (h _ _).1 (Set.mem_range_self i : g i ∈ Set.range g).choose_spec
  have hinjective : Function.Injective fun a : Set.range g => g' a.2.choose := by
    rintro ⟨_, i, rfl⟩ ⟨_, j, rfl⟩ heq
    refine Subtype.ext ((h i j).2 ?_)
    rw [← hchosen i, ← hchosen j]
    exact heq
  obtain ⟨π, hπ⟩ := Equiv.Perm.exists_extending_pair (fun a : Set.range g => a.1) _ Subtype.val_injective hinjective
  exact ⟨π, fun i => (hπ ⟨g i, i, rfl⟩).trans (hchosen i)⟩

/-- What keeps finitely many names apart is on them a permutation of the names. -/
theorem exists_perm_of_injOn {A : Set String} (hA : A.Finite) (hρ : A.InjOn ρ) :
    ∃ π : Equiv.Perm String, ∀ n ∈ A, π n = ρ n := by
  have : Finite A := hA
  have hiff : ∀ n m : A, n.1 = m.1 ↔ ρ n.1 = ρ m.1 := fun n m => ⟨congrArg ρ, fun heq => hρ n.2 m.2 heq⟩
  obtain ⟨π, hπ⟩ := exists_perm_of_iff hiff
  exact ⟨π, fun n hn => hπ ⟨n, hn⟩⟩

namespace Term

variable {t u : Term}

theorem relabel_relabel (ρ σ : String → String) (t : Term) : (t.relabel ρ).relabel σ = t.relabel (σ ∘ ρ) := by
  induction t using Term.induction with
  | step i e ih =>
    have hnode : ∀ e' : Expr Term, (e'.relabel ρ).relabel σ = e'.relabel (σ ∘ ρ) := fun e' => by cases e' <;> rfl
    rw [relabel_node, relabel_node, relabel_node, ← Expr.relabel_map, Expr.map_map, hnode]
    exact congrArg (fun e' : Expr Term => node i (e'.relabel (σ ∘ ρ))) (Expr.map_congr ih)

/-- Names that stay as they are leave a tree as it is. -/
theorem relabel_eq_self (hρ : ∀ n, ρ n = n) (t : Term) : t.relabel ρ = t := by
  induction t using Term.induction with
  | step i e ih =>
    have hnode : ∀ e' : Expr Term, e'.relabel ρ = e' := fun e' => by cases e' <;> simp [Expr.relabel, hρ]
    rw [relabel_node, hnode, Expr.map_congr ih]
    exact congrArg (node i) e.map_id

/-- Texts that are different stay so under other names, as long as the other names can be undone. -/
theorem text_relabel_inj {π : Equiv.Perm String} (ht : t.Versioned) (hu : u.Versioned) (ht' : (t.relabel π).Versioned)
    (hu' : (u.relabel π).Versioned) : t.text = u.text ↔ (t.relabel π).text = (u.relabel π).text := by
  constructor
  · intro heq
    rw [text_relabel ht, text_relabel hu, heq]
  · intro heq
    have hback : ∀ t : Term, (t.relabel π).relabel π.symm = t := fun t =>
      (relabel_relabel π π.symm t).trans (relabel_eq_self π.symm_apply_apply t)
    rw [← hback t, ← hback u, text_relabel ht', text_relabel hu', heq]

end Term

namespace Flow

variable {f : Flow}

theorem carries_registers (f : Flow) : f.Carries ρ ρ LocationKind.registers.locate := by
  intro s t u _ _ _
  obtain ⟨i, e⟩ := u
  cases e with
  | register n v => cases v <;> simp [Expr.map, Expr.relabel, LocationKind.locate]
  | _ => simp [Expr.map, Expr.relabel, LocationKind.locate]

/-- If all registers have versions, memory cells that are different stay so under other names for the registers. -/
theorem exists_carries_derefs {π : Equiv.Perm String} (hg : (f.relabel π).Forest)
    (h : ∀ s t, f.Live s → f.Holds s t → t.Versioned)
    (h' : ∀ s t, (f.relabel π).Live s → (f.relabel π).Holds s t → t.Versioned) :
    ∃ κ : Equiv.Perm String, f.Carries π κ LocationKind.derefs.locate := by
  have hsub : ∀ {t u : Term}, t.Versioned → Term.Within u t → u.Versioned := fun ht hu v hv => ht v (hv.trans hu)
  let ι := { u : Term // ∃ s t, f.Live s ∧ f.Holds s t ∧ Term.Within u t }
  have hterm : ∀ u : ι, f.term u.1.id = .ok u.1 := by
    rintro ⟨u, s, t, hs, ht, hu⟩
    exact ht.term_eq hu
  have hfinite : Finite ι := by
    have hlt : ∀ u : ι, u.1.id.index < f.nodes.size := by
      rintro ⟨u, s, t, hs, ht, hu⟩
      obtain ⟨q, hq⟩ := ht.stands.exists_of_within hu
      exact lt_size_of_shapeAt hq.shape_id
    refine Finite.of_injective (fun u : ι => (⟨u.1.id.index, hlt u⟩ : Fin f.nodes.size)) fun u v heq => ?_
    have hid : u.1.id = v.1.id := congrArg NodeId.mk (Fin.mk.inj heq)
    have hu := hterm u
    rw [hid, hterm v] at hu
    exact Subtype.ext (Except.ok.inj hu).symm
  have hrelabel : ∀ {t u : Term}, Term.Within u t → Term.Within (u.relabel π) (t.relabel π) := by
    intro t u hu
    induction hu with
    | refl => exact .refl _
    | inside hc _ ih =>
      rw [Term.relabel_node]
      exact .inside (by simpa [Expr.children_map] using ⟨_, hc, rfl⟩) ih
  have hiff : ∀ u v : ι, u.1.text = v.1.text ↔ (u.1.relabel π).text = (v.1.relabel π).text := by
    rintro ⟨u, s, t, hs, ht, hu⟩ ⟨v, r, w, hr, hw, hv⟩
    exact Term.text_relabel_inj (hsub (h s t hs ht) hu) (hsub (h r w hr hw) hv)
      (hsub (h' s _ hs (ht.relabel hs hg)) (hrelabel hu)) (hsub (h' r _ hr (hw.relabel hr hg)) (hrelabel hv))
  obtain ⟨κ, hκ⟩ := exists_perm_of_iff hiff
  refine ⟨κ, fun s t u hs ht hu => ?_⟩
  obtain ⟨i, e⟩ := u
  cases e with
  | deref x v =>
    have hx := hκ ⟨x, s, t, hs, ht, .trans (.of_mem_children (by simp [Expr.children])) hu⟩
    cases v <;> simp_all [Expr.map, Expr.relabel, LocationKind.locate]
  | _ => simp [Expr.map, Expr.relabel, LocationKind.locate]

end Flow

end FrameRecovery
