import FrameRecovery.Proofs.Precedence
import FrameRecovery.Proofs.RegisterValues
import FrameRecovery.Proofs.Relabel.Text

namespace FrameRecovery

open Flow

/-- Whether the expression is a register without a version. -/
def Expr.isBare {α : Type} : Expr α → Bool
  | register _ none => true
  | _ => false

theorem Expr.isApart_isBare : Expr.Test.IsApart Expr.isBare := by
  intro e he
  cases e <;> simp_all [Expr.isArithmetic, Expr.isBare]

theorem Term.expr_of_isBare {u : Term} (h : u.expr.head.isBare = true) : ∃ n, u.expr = .register n none := by
  obtain ⟨i, e⟩ := u
  cases e with
  | register n v => cases v <;> simp_all [Expr.head, Expr.map, Expr.isBare]
  | _ => cases h

variable {f g : Flow} {V : Locations} {s : StatementId} {t : Term} {m : Machine} {n : String} {x : NodeId}

/-- A register that reads something has a version. -/
theorem Flow.Reads.exprAt_ne {l : Location} {D : Option NodeId} (h : f.Reads .registers l x D) :
    f.exprAt x ≠ some (.register n none) := by
  obtain ⟨v, ⟨_, he, rfl⟩, -⟩ := h
  simp [he]

theorem Flow.Defines.exprAt_ne {l : Location} {v : Nat} (h : f.Defines .registers l x v) :
    f.exprAt x ≠ some (.register n none) := by
  obtain ⟨-, ⟨_, he, rfl⟩, -⟩ := h
  simp [he]

/-- Once the registers are tagged, there is none without a version. -/
theorem Tagging.Tagged.count_isBare (ht : Tagged V f .registers g) (hf : f.Plain) (hconnected : f.Connected)
    (hs : g.Live s) (hholds : g.Holds s t) : t.count Expr.isBare = 0 := by
  refine Term.count_eq_zero_iff.2 fun u hu => Bool.eq_false_iff.2 fun hbare => ?_
  obtain ⟨n, hn⟩ := Term.expr_of_isBare hbare
  obtain ⟨q, hq⟩ := hholds.stands.exists_of_within hu
  have hexpr : g.exprAt u.id = some (.register n none) := by
    rw [exprAt_eq_some hq.shape_id, hn]
    rfl
  obtain ⟨-, v, -, hdefines⟩ | ⟨D, hreads⟩ := ht.register_cases hf hconnected hs hholds
    (hu.preorder_subset u.id_mem_preorder) hexpr
  · exact hdefines.exprAt_ne hexpr
  · exact hreads.exprAt_ne hexpr

/-- Every statement has versions for its registers. -/
def Flow.NoneBare (f : Flow) : Prop :=
  ∀ s t, f.Live s → f.Holds s t → t.count Expr.isBare = 0

theorem Flow.Move.noneBare {around : StatementId} {r u : NodeId} {a v T T' : Term} (h : Move V f g s around r u a v T T')
    (hf : f.NoneBare) : g.NoneBare := by
  intro c t hc ht
  by_cases hne : c = around
  · subst hne
    obtain rfl := ht.unique h.inlined.holds
    have hv : Term.Within v (.node r (.assign a v)) := .of_mem_children (by simp [Expr.children])
    have hle := hv.count_le (p := Expr.isBare)
    have hsource := hf s _ h.live h.source
    have hcount := h.inlined.count_le Expr.isApart_isBare
    have haround := hf c T h.live_around h.holds
    omega
  · exact hf c t (h.live_iff.1 hc) (h.holds_other (h.live_iff.1 hc) hne ht)

/-- Moving values of the stack pointer around leaves no register without a version. -/
theorem Flow.Ordered.noneBare (hf : f.Ordered) (hbare : f.NoneBare)
    (h : Relation.ReflTransGen (Propagation.Step (.stackPointer m) V) f g) : g.Ordered ∧ g.NoneBare := by
  induction h with
  | refl => exact ⟨hf, hbare⟩
  | tail _ hstep ih =>
    obtain ⟨s, around, r, u, a, v, T, T', -, hmove⟩ := ih.1.exists_move hstep
    exact ⟨hmove.ordered ih.1, hmove.noneBare ih.2⟩

theorem Flow.NoneBare.versioned (hbare : f.NoneBare) (hf : f.Sound .listed) (hs : f.Live s) (ht : f.Holds s t) :
    t.Versioned := by
  intro u hu
  obtain ⟨q, hq⟩ := ht.stands.exists_of_within hu
  have hadmits := hf.typed.location _ _ (exprAt_eq_some hq.shape_id)
  rw [Locations.admits_map] at hadmits
  refine ⟨fun n v hn => ⟨?_, ?_⟩, fun n v o hn => ?_⟩
  · rw [hn] at hadmits
    exact hadmits
  · rintro rfl
    have hapart := Term.count_eq_zero_iff.1 (hbare s t hs ht) u hu
    rw [hn] at hapart
    cases hapart
  · rw [hn] at hadmits
    exact hadmits

/-- When memory is tagged, all registers have versions. -/
theorem Recovery.Course.versioned {t : Task} {entry : Address} {S : Phase → Session} (h : Course t entry S)
    {T : Term} (hs : (S .stackPropagated).flow.Live s) (hT : (S .stackPropagated).flow.Holds s T) : T.Versioned := by
  have hordered := Ordered.of_tagged h.registers h.plain h.connected
  have hbare : (S .ssaRegisters).flow.NoneBare := fun _ _ hs hT =>
    h.registers.count_isBare h.plain h.connected hs hT
  exact (hordered.noneBare hbare h.propagated.steps).2.versioned h.propagated.sound hs hT

end FrameRecovery
