import FrameRecovery.Proofs.Exhausted

namespace FrameRecovery

open Flow

namespace Term

variable {i : NodeId} {n : String} {k : Option Nat} {t : Term}

theorem mem_cells_of_within (h : Within (node i (.register n k)) t) : (n, k) ∈ t.cells := by
  induction h with
  | refl => simp [Expr.cell?]
  | inside hc _ ih =>
    rw [cells_node, List.mem_append, List.mem_flatMap]
    exact .inr ⟨_, hc, ih⟩

end Term

/-- All registers in the outcome were in the statement or in the value that is put into it. -/
theorem Propagation.Inlined.cells_subset {f g : Flow} {around : StatementId} {u : NodeId} {v T T' : Term}
    (h : Inlined f g around u v T T') : T'.cells ⊆ T.cells ++ v.cells := by
  obtain ⟨b, T₁, hform, hchange, hrewrites⟩ := h.change
  refine List.Subset.trans hrewrites.cells_subset (hchange.cells_subset ?_)
  rintro _ _ ⟨-, rfl⟩
  rw [← Term.cells_form, hform, Term.cells_form]
  exact List.subset_append_right _ _

namespace Flow

variable {f g : Flow} {V : Locations} {m : Machine} {s around c : StatementId} {r u d x : NodeId} {a v T T' : Term}
  {n : String} {k : Option Nat} {ss : List StatementId}

/-- On the way `ss` an operand of a merge was assigned, or it has the value on entry. -/
def Arrives (f : Flow) (ss : List StatementId) (z : NodeId) : Prop :=
  ∃ D, f.linkOf z = .use D ∧ ∀ d, D = some d → ∃ c ∈ ss, ∃ i, f.Assigns c i d

/-- A flow in which a version of a register stands for one value at a time: one statement sets it, and before it is
    in any other statement, merges apart. The version on entry is set nowhere, and on every way to a merge one of its
    operands has arrived. -/
structure Versioned (f : Flow) : Prop where
  unique : ∀ c c' n k d d', f.Live c → f.Live c' → f.Sets c n k d → f.Sets c' n k d' → c = c'
  initial : ∀ c n k d, f.Live c → f.Sets c n k d → ∃ v, k = some (v + 1)
  entry : ∀ x n k, f.exprAt x = some (.register n k) → f.linkOf x = .use none → k = some 0
  before : ∀ s t, f.Live s → f.Holds s t → t.count Expr.isTheta = 0 → ∀ x ∈ t.cells, ∀ c d, f.Live c →
    f.Sets c x.1 x.2 d → c = s ∨ f.Precedes c s
  arrives : ∀ c ss r A j zs, f.Walk ss c → f.Holds c (.node r (.assign A (.node j (.theta zs)))) →
    ∃ z ∈ zs, f.Arrives ss z.id

/-- Merges apart, whatever is read has arrived. -/
theorem Ordered.arrives {t : Term} {D : Option NodeId} (hf : f.Ordered) (hforest : f.Forest) (hwalk : f.Walk ss s)
    (ht : f.Holds s t) (hcount : t.count Expr.isTheta = 0) (hx : x ∈ t.preorder) (hlink : f.linkOf x = .use D) :
    f.Arrives ss x := by
  refine ⟨D, hlink, fun d hd => ?_⟩
  have hlive := (hforest.live_of_walk hwalk).1
  obtain ⟨w, i, hassigns, hprecedes⟩ := (hf.reads s t x d hlive ht hx (hd ▸ hlink)).resolve_left
    (ht.not_isInput hcount hx)
  exact ⟨w, hprecedes ss hwalk, i, hassigns⟩

namespace Move

variable (h : Move V f g s around r u a v T T') (hpointer : m.isStackPointer a = true) (hrooted : f.Rooted)
include h hpointer hrooted

theorem sets_of_sets (hc : f.Live c) (hset : g.Sets c n k d) : f.Sets c n k d := by
  obtain ⟨t, ht⟩ := h.substituted.sound.forest.holds_of_live (h.live_iff.2 hc)
  obtain ⟨i, y, rfl⟩ := ht.sets_iff.1 hset
  obtain ⟨⟨j, e⟩, y₀, ht₀, hid, hhead, -⟩ := h.exists_assign hpointer hrooted hc ht
  obtain rfl : j = d := hid
  obtain rfl : e = .register n k := Expr.eq_register_of_head_eq hhead.symm
  exact ht₀.sets_iff.2 ⟨i, y₀, rfl⟩

theorem versioned (hordered : f.Ordered) (hf : f.Versioned) : g.Versioned := by
  have hsets : ∀ {c n k d}, g.Live c → g.Sets c n k d → f.Sets c n k d := fun hc hset =>
    h.sets_of_sets hpointer hrooted (h.live_iff.1 hc) hset
  have hprecedes : ∀ {c c'}, f.Precedes c c' → g.Precedes c c' := fun hcc ss hwalk => hcc ss (h.walk_iff.1 hwalk)
  refine ⟨fun c c' n k d d' hc hc' hset hset' => ?_, fun c n k d hc hset => ?_, fun x n k hx hlink => ?_,
    fun c t hc ht hcount x hx c' d hc' hset => ?_, fun c ss i A j zs hwalk ht => ?_⟩
  · exact hf.unique c c' n k d d' (h.live_iff.1 hc) (h.live_iff.1 hc') (hsets hc hset) (hsets hc' hset')
  · exact hf.initial c n k d (h.live_iff.1 hc) (hsets hc hset)
  · obtain ⟨y, e, e₀, he, hy, hhead, -, hread⟩ := h.inlined.linked x (by simp [hlink])
    obtain rfl := Option.some.inj (hx.symm.trans he)
    exact hf.entry y n k (Expr.eq_register_of_head_eq hhead.symm ▸ hy) (hread _ hlink)
  · have hlive' := h.live_iff.1 hc'
    have hset := hsets hc' hset
    by_cases hne : c = around
    · subst hne
      obtain rfl := ht.unique h.inlined.holds
      obtain hx | hx := List.mem_append.1 (h.inlined.cells_subset hx)
      · exact (hf.before c T h.live_around h.holds h.apart x hx c' d hlive' hset).imp_right hprecedes
      · -- what the moved value is computed from is set before the value is
        have hsource : x ∈ (Term.node r (.assign a v)).cells := by simp [Expr.children, hx]
        obtain rfl | hbefore := hf.before s _ h.live h.source h.source_apart x hsource c' d hlive' hset
        · exact .inr (hprecedes (h.precedes hordered))
        · exact .inr (hprecedes (hbefore.trans (h.precedes hordered) h.sound.forest))
    · have ht₀ := h.holds_other (h.live_iff.1 hc) hne ht
      exact (hf.before c t (h.live_iff.1 hc) ht₀ hcount x hx c' d hlive' hset).imp_right hprecedes
  · -- merges have no part in the move
    have hmerge : Term.Within (.node j (.theta zs)) (.node i (.assign A (.node j (.theta zs)))) :=
      .of_mem_children (by simp [Expr.children])
    have hne : c ≠ around := by
      rintro rfl
      obtain rfl := ht.unique h.inlined.holds
      cases Term.count_eq_zero_iff.1 h.apart' _ hmerge
    have hwalk₀ := h.walk_iff.1 hwalk
    have ht₀ := h.holds_other (h.sound.forest.live_of_walk hwalk₀).1 hne ht
    obtain ⟨z, hz, D, hlink, hassigned⟩ := hf.arrives c ss i A j zs hwalk₀ ht₀
    refine ⟨z, hz, D, h.linkOf_eq hlink fun hid => ?_, fun d hd => ?_⟩
    · exact hne (ht₀.statement_unique h.holds (hmerge.id_mem_of_mem_children hz) (hid ▸ h.mem))
    · obtain ⟨c', hc', i', hassigns⟩ := hassigned d hd
      exact ⟨c', hc', i', h.substituted.assigns c' i' d hassigns⟩

end Move

theorem Versioned.propagated (hf : f.Versioned) (hordered : f.Ordered) (hrooted : f.Rooted)
    (hg : Propagation.Propagated (.stackPointer m) V f g) : g.Versioned := by
  suffices g.Ordered ∧ g.Rooted ∧ g.Versioned from this.2.2
  have hsteps := hg.steps
  clear hg
  induction hsteps with
  | refl => exact ⟨hordered, hrooted, hf⟩
  | tail _ hstep ih =>
    obtain ⟨hordered, hrooted, hf⟩ := ih
    obtain ⟨s, around, r, u, a, v, T, T', hpointer, hmove⟩ := hordered.exists_move hstep
    exact ⟨hmove.ordered hordered, hmove.substituted.rooted hrooted, hmove.versioned hpointer hrooted hordered hf⟩

end Flow

namespace Tagging

variable {f g : Flow} {V : Locations} {s c : StatementId} {t A : Term} {x d r j : NodeId} {n : String}
  {k : Option Nat} {zs : List Term} {ss : List StatementId}

section Tagged

variable (ht : Tagged V f .registers g) (hf : f.Plain) (hconnected : f.Connected)
include ht hf hconnected

/-- What sets a register that is in a statement, merges apart, is the statement or comes before it. -/
theorem Tagged.setsBefore (hs : g.Live s) (hT : g.Holds s t) (hcount : t.count Expr.isTheta = 0)
    (hx : (n, k) ∈ t.cells) (hc : g.Live c) (hset : g.Sets c n k d) : c = s ∨ g.Precedes c s := by
  obtain ⟨z, hz⟩ := Term.exists_within_of_mem_cells hx
  obtain ⟨q, hq⟩ := hT.stands.exists_of_within hz
  have hexpr := exprAt_eq_some hq.shape_id
  have hmem : z ∈ t.preorder := hz.preorder_subset (Term.id_mem_preorder _)
  obtain ⟨r, v, hassigns, hdefines⟩ | ⟨D, hreads⟩ := ht.register_cases hf hconnected hs hT hmem hexpr
  · obtain ⟨v', hv', hd⟩ := ht.defines_of_sets hf hconnected hc hset
    obtain rfl : v = v' := by
      obtain ⟨-, ⟨e, he, rfl⟩, -⟩ := id hdefines
      rw [Term.id_node] at hexpr
      rw [he, Option.some.injEq] at hexpr
      have hv : some v = k := (Expr.register.inj hexpr).2
      exact Option.some.inj (hv.trans hv')
    obtain rfl := ht.eq_of_defines hf hd hdefines
    obtain ⟨t', hT', hmem'⟩ := hset.exists_mem ht.sound.forest hc
    exact .inl (hT'.statement_unique hT hmem' hmem)
  · exact .inr (ht.precedes_of_reads hf hconnected hs hT hcount hmem hexpr hreads hc hset)

/-- On every way to a merge of registers, the operand for what was assigned last has arrived. -/
theorem Tagged.arrives (hwalk : g.Walk ss c) (hT : g.Holds c (.node r (.assign A (.node j (.theta zs))))) :
    ∃ z ∈ zs, g.Arrives ss z.id := by
  obtain ⟨a, heads, hexact, hhead | hbefore⟩ := ht.exists_place hf.forest hconnected
    (ht.sound.forest.live_of_walk hwalk).1
  · obtain ⟨-, l, d, points, hjoins⟩ := hexact.head c hhead
    obtain ⟨i, v, j', inputs, hT', -, -, hall⟩ := Merges.holds hjoins.merges ht.sound.forest
    cases hT.unique hT'
    obtain ⟨pre, post, hsplit⟩ := List.append_of_mem (hexact.statements_eq ▸ List.mem_append_left _ hhead)
    obtain ⟨as, hpath, hsub, -⟩ := ht.exists_path_of_split hf.forest hconnected hsplit hwalk
    obtain ⟨p, hp⟩ := exists_definitionAt (f.lastSite? .registers l as [])
    obtain ⟨z, hz, -, -, hlink, -⟩ := (exists_of_forall₂ hall).1 p ((hjoins.mem_iff p).2 ⟨as, hpath, hp⟩)
    refine ⟨z, hz, _, hlink, fun d' hd' => ?_⟩
    -- what was assigned last was executed
    obtain ⟨E, hE, -, rfl⟩ := Definition.exists_of_lastSite? (hp.symm.trans hd')
    obtain ⟨c', hc', hE⟩ := List.mem_filterMap.1 hE
    rw [List.append_nil] at hc'
    obtain ⟨b, -, hb⟩ := List.mem_flatMap.1 hc'
    obtain ⟨t', ht'⟩ := hf.forest.exists_holds hb
    obtain ⟨i', X, Y, rfl, -, hX, -⟩ := (Summary.mem_definitionOf ht').1 hE
    exact ⟨c', hsub hc', i', hX ▸ ht'.assigns.later ht.later⟩
  · have hcount := ht.count_isTheta_of_mem hf hbefore hT
    cases Term.count_eq_zero_iff.1 hcount (.node j (.theta zs)) (.of_mem_children (by simp [Expr.children]))

/-- Tagging the registers of a listing gives versions that stand for one value at a time. -/
theorem Tagged.versioned : g.Versioned := by
  refine ⟨fun c c' n k d d' hc hc' hset hset' => ht.eq_of_sets hf hconnected hc hc' hset hset',
    fun c n k d hc hset => ?_, fun x n k hx hlink => ?_,
    fun s t hs hT hcount x hx c d hc hset => ht.setsBefore hf hconnected hs hT hcount hx hc hset,
    fun c ss r A j zs hwalk hT => ht.arrives hf hconnected hwalk hT⟩
  · obtain ⟨v, rfl, hv, -⟩ := ht.defines_of_sets hf hconnected hc hset
    exact ⟨v - 1, congrArg some (by omega)⟩
  · obtain ⟨s, t, hs, hT, hmem⟩ := ht.sound.held x (by simp [hlink])
    obtain ⟨r, v, -, -, -, us, hus⟩ | ⟨D, v, ⟨e, he, rfl⟩, hD, hv⟩ := ht.register_cases hf hconnected hs hT hmem hx
    · rw [hlink] at hus
      cases hus
    · obtain rfl : D = none := Link.use.inj (hD.symm.trans hlink)
      obtain rfl : v = 0 := hv
      rw [hx] at he
      exact (Expr.register.inj (Option.some.inj he)).2

end Tagged

end Tagging

end FrameRecovery
