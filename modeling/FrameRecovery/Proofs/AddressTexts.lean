import FrameRecovery.Proofs.Tagging.Complete

namespace FrameRecovery

open Flow

namespace Expr

/-- Whether the expression is part of no operand of an instruction. -/
def isForeign {α : Type} : Expr α → Bool
  | var _ _ _ | theta _ | assign _ _ | branch _ _ | goto _ | ret _ => true
  | _ => false

theorem isApart_isForeign : Expr.Test.IsApart Expr.isForeign := by
  intro e he
  cases e <;> simp_all [isArithmetic, isForeign]

end Expr

theorem LocationKind.constant?_strip {kind : LocationKind} (t : Term) : (kind.strip t).constant? = t.constant? := by
  obtain ⟨i, e⟩ := t
  cases kind <;> cases e <;> simp [Term.constant?, untag, Expr.map]

namespace Term

variable {t u c : Term} {i : NodeId} {e : Expr Term} {kind : LocationKind} {p : Expr.Test}

/-- The topmost node is one of a legible tree, if what is below it is legible. -/
def IsLegibleTop : Term → Prop
  | node _ (.register n _) => IsRegisterName n
  | node _ (.unary .neg x) => x.constant? = none
  | node _ e => e.isForeign = false

theorem legible_node_iff : (node i e).Legible ↔ (node i e).IsLegibleTop ∧ ∀ c ∈ e.children, c.Legible := by
  constructor
  · intro h
    refine ⟨?_, h.legibleBelow⟩
    cases h <;> first | rfl | assumption
  · rintro ⟨htop, hbelow⟩
    cases e with
    | register => exact .register htop
    | constant => exact .constant
    | deref x => exact .deref (hbelow x (by simp [Expr.children]))
    | addressOf x => exact .addressOf (hbelow x (by simp [Expr.children]))
    | binary op x y => exact .binary (hbelow x (by simp [Expr.children])) (hbelow y (by simp [Expr.children]))
    | unary op x =>
      cases op with
      | neg => exact .neg (hbelow x (by simp [Expr.children])) htop
      | not => exact .not (hbelow x (by simp [Expr.children]))
    | call x ys => exact .call (hbelow x (by simp [Expr.children])) fun y hy => hbelow y (by simp [Expr.children, hy])
    | _ => cases htop

theorem Legible.of_forall (h : ∀ u, Within u t → u.IsLegibleTop) : t.Legible := by
  induction t using Term.induction with
  | step i e ih => exact legible_node_iff.2 ⟨h _ (.refl _), fun c hc => ih c hc fun u hu => h u (.inside hc hu)⟩

theorem Legible.within (h : t.Legible) (hu : Within u t) : u.Legible := by
  induction hu with
  | refl => exact h
  | inside hc _ ih => exact ih ((legible_node_iff.1 h).2 _ hc)

theorem Legible.count_isForeign (h : t.Legible) : t.count Expr.isForeign = 0 := by
  refine count_eq_zero_iff.2 fun u hu => ?_
  cases h.within hu <;> rfl

/-- Versions do not matter to whether a tree is legible. -/
theorem Legible.of_strip (h : (kind.strip t).Legible) : t.Legible := by
  induction t using Term.induction with
  | step i e ih =>
    rw [LocationKind.strip_node, legible_node_iff] at h
    obtain ⟨htop, hbelow⟩ := h
    refine legible_node_iff.2 ⟨?_, fun c hc => ih c hc (hbelow _ ?_)⟩
    · cases e with
      | unary op x =>
        cases op with
        | neg => cases kind <;> exact (LocationKind.constant?_strip x).symm.trans htop
        | not => rfl
      | _ => cases kind <;> exact htop
    · rw [LocationKind.children_untag, Expr.children_map]
      exact List.mem_map_of_mem hc

/-- What passes a test at the top alone is not further down. -/
theorem count_eq_zero_of_mem_children (h : t.count p ≤ (p t.expr.head).toNat) (hc : c ∈ t.expr.children) :
    c.count p = 0 := by
  obtain ⟨i, e⟩ := t
  rw [count_node, expr_node] at h
  have hle := List.single_le_sum (l := e.children.map (count p)) (by simp) _ (List.mem_map_of_mem hc)
  omega

/-- In a normal form with no more than the locations of instructions there is nothing that could not be told. -/
theorem isLegibleTop_of_normal (h : Simplify.Normal u) (hforeign : u.expr.head.isForeign = false)
    (hadmits : Locations.listed.Admits u.expr) : u.IsLegibleTop := by
  obtain ⟨i, e⟩ := u
  cases e with
  | register n v => exact hadmits
  | unary op x =>
    cases op with
    | neg =>
      have hconstant : x.constant?.isSome = false := h _ (.refl _)
      exact Option.isSome_eq_false_iff.1 hconstant |> Option.isNone_iff_eq_none.1
    | not => rfl
  | _ => exact hforeign

end Term

namespace Flow

variable {f g : Flow} {V : Locations} {m : Machine} {s c : StatementId} {t : Term}

/-- The operands in the statements without merges are ones that their texts may identify. -/
def LegibleApart (f : Flow) : Prop :=
  ∀ s t, f.Live s → f.Holds s t → t.count Expr.isTheta = 0 → t.LegibleBelow

theorem LegibleApart.legible {x : Term} (hf : f.LegibleApart) (hs : f.Live s) (ht : f.Holds s t)
    (hcount : t.count Expr.isTheta = 0) (hx : Term.Within x t) (hne : x ≠ t) : x.Legible := by
  cases hx with
  | refl => exact absurd rfl hne
  | inside hc hx => exact (hf s _ hs ht hcount _ hc).within hx

/-- What has the same text is the same, apart from the numbers of its nodes. -/
theorem LegibleApart.form_eq {t' x x' : Term} (hf : f.LegibleApart) (hs : f.Live s) (hc : f.Live c)
    (ht : f.Holds s t) (ht' : f.Holds c t') (hcount : t.count Expr.isTheta = 0) (hcount' : t'.count Expr.isTheta = 0)
    (hx : Term.Within x t) (hx' : Term.Within x' t') (hne : x ≠ t) (hne' : x' ≠ t') (htext : x.text = x'.text) :
    x.form = x'.form := by
  have hlegible := hf.legible hs ht hcount hx hne
  have hlegible' := hf.legible hc ht' hcount' hx' hne'
  exact (hlegible.told.2 x' [] [] hlegible' nofun nofun (by rw [htext])).1

/-- In the statements without merges nothing is foreign to operands but the topmost node. -/
def ForeignAtTop (f : Flow) : Prop :=
  ∀ s t, f.Live s → f.Holds s t → t.count Expr.isTheta = 0 → t.count Expr.isForeign ≤ t.expr.head.isForeign.toNat

theorem LegibleApart.foreignAtTop (hf : f.LegibleApart) : f.ForeignAtTop := by
  intro s t hs ht hcount
  have hlegible := hf s t hs ht hcount
  obtain ⟨i, e⟩ := t
  have hchildren : (e.children.map (Term.count Expr.isForeign)).sum = 0 := by
    refine List.sum_eq_zero_iff_forall_eq_nat.2 fun n hn => ?_
    obtain ⟨c, hc, rfl⟩ := List.mem_map.1 hn
    exact (hlegible c hc).count_isForeign
  rw [Term.count_node, hchildren, Term.expr_node]
  omega

/-- A value that is moved has nothing foreign in it, and the topmost node stays as it is. -/
theorem Move.foreignAtTop {around : StatementId} {r u : NodeId} {a v T T' : Term} (h : Move V f g s around r u a v T T')
    (htop : f.TopIsAction) (hf : f.ForeignAtTop) : g.ForeignAtTop := by
  intro c t hc ht hcount
  by_cases hne : c = around
  · subst hne
    obtain rfl := ht.unique h.inlined.holds
    have hsource := Term.count_eq_zero_of_mem_children (hf s _ h.live h.source h.source_apart) (c := v)
      (by simp [Expr.children])
    have haround := hf c T h.live_around h.holds h.apart
    have hle := h.inlined.count_le Expr.isApart_isForeign
    rw [h.inlined.head_eq (htop c T h.live_around h.holds)]
    omega
  · exact hf c t (h.live_iff.1 hc) (h.holds_other (h.live_iff.1 hc) hne ht) hcount

theorem ForeignAtTop.steps (hf : f.ForeignAtTop) (hordered : f.Ordered) (htop : f.TopIsAction)
    (h : Relation.ReflTransGen (Propagation.Step (.stackPointer m) V) f g) : g.ForeignAtTop := by
  suffices g.Ordered ∧ g.TopIsAction ∧ g.ForeignAtTop from this.2.2
  induction h with
  | refl => exact ⟨hordered, htop, hf⟩
  | tail _ hstep ih =>
    obtain ⟨hordered, htop, hf⟩ := ih
    obtain ⟨s, around, r, u, a, v, T, T', -, hmove⟩ := hordered.exists_move hstep
    exact ⟨hmove.ordered hordered, htop.step hstep, hmove.foreignAtTop htop hf⟩

end Flow

/-- Propagation leaves texts that may identify the operands. -/
theorem Propagation.Propagated.legibleApart {f g : Flow} {m : Machine} (hg : Propagated (.stackPointer m) .listed f g)
    (hforest : f.Forest) (hordered : f.Ordered) (htop : f.TopIsAction) (hf : f.LegibleApart) : g.LegibleApart := by
  intro s t hs ht hcount
  obtain hbefore | hnormal := hg.holds_or_normal hs ht
  · exact hf s t ((hg.live_iff hforest).1 hs) hbefore hcount
  · intro c hc
    have hforeign := Term.count_eq_zero_of_mem_children
      (hf.foreignAtTop.steps hordered htop hg.steps s t hs ht hcount) hc
    have hwithin : Term.Within c t := by
      obtain ⟨i, e⟩ := t
      exact .of_mem_children hc
    refine .of_forall fun u hu => ?_
    obtain ⟨q, hq⟩ := ht.stands.exists_of_within (hu.trans hwithin)
    refine Term.isLegibleTop_of_normal ((hnormal.child hc).within hu) (Term.count_eq_zero_iff.1 hforeign u hu) ?_
    rw [← Locations.admits_map Term.id]
    exact hg.sound.typed.location _ _ (exprAt_eq_some hq.shape_id)

/-- Registers of instructions stay legible when they are tagged. -/
theorem Tagging.Tagged.legibleApart {f g : Flow} {V : Locations} (ht : Tagged V f .registers g) (hf : f.Plain)
    (hconnected : f.Connected) (hlegible : f.LegibleBelow) : g.LegibleApart := by
  intro s t hs hT hcount
  obtain ⟨a, heads, hexact, hhead | hbefore⟩ := ht.exists_place hf.forest hconnected hs
  · have hmerge := (hexact.head s hhead).isMerge hT
    rw [hT.isMerge_eq] at hmerge
    exact absurd hcount (Term.count_isTheta_of_isMerge hmerge)
  · obtain ⟨t₀, hT₀⟩ := hf.forest.exists_holds hbefore
    intro c hc
    have hstripped : (LocationKind.registers.strip c).Legible := by
      refine hlegible s t₀ hT₀ _ ?_
      rw [← ht.later.strip_eq_of_plain hf hT₀ hT]
      obtain ⟨i, e⟩ := t
      rw [LocationKind.strip_node, Term.expr_node, LocationKind.children_untag, Expr.children_map]
      exact List.mem_map_of_mem hc
    exact hstripped.of_strip

namespace Recovery.Course

variable {t : Task} {entry : Address} {S : Phase → Session} (h : Course t entry S)
include h

theorem topIsAction_registers : (S .ssaRegisters).flow.TopIsAction :=
  fun _ _ hs hT => h.registers.isAction h.plain h.connected hs hT

theorem legibleApart_stackPropagated {text : String} (hl : Listing.parse text = .ok t.listing) :
    (S .stackPropagated).flow.LegibleApart :=
  h.propagated.legibleApart h.registers.sound.forest (.of_tagged h.registers h.plain h.connected)
    h.topIsAction_registers (h.registers.legibleApart h.plain h.connected (h.isLowered hl).legibleBelow)

end Recovery.Course

/-- When the stack pointer has been propagated, the texts of the operands in statements other than merges tell what
    they are: what has the same text is the same, apart from the numbers of its nodes. So the keys under which the
    dereferences are tagged next are different for different addresses. -/
theorem Session.form_eq_of_operand_text_eq {text name stackPointer : String} {l : Listing} {options : Options}
    {entry : Address} {s : Session} (hl : Listing.parse text = .ok l)
    (hs : (Task.mk l { name, stackPointer } options).sessionAt? entry .stackPropagated = some s)
    {c c' : StatementId} {t t' x x' : Term} (hc : s.flow.Live c) (hc' : s.flow.Live c')
    (hmerge : s.flow.isMerge c = false) (hmerge' : s.flow.isMerge c' = false) (ht : s.flow.Holds c t)
    (ht' : s.flow.Holds c' t') (hx : Term.Within x t) (hx' : Term.Within x' t') (hne : x ≠ t) (hne' : x' ≠ t')
    (htext : x.text = x'.text) : x.form = x'.form := by
  obtain ⟨S, h, rfl⟩ := Recovery.exists_course_of_sessionAt?
    (t := ⟨l, { name, stackPointer }, options⟩) (Listing.wellFormed_of_parse hl) rfl (by decide) hs
  have hordered := h.ordered_stackPropagated
  exact (h.legibleApart_stackPropagated hl).form_eq hc hc' ht ht' (hordered.count_isTheta hc ht hmerge)
    (hordered.count_isTheta hc' ht' hmerge') hx hx' hne hne' htext

end FrameRecovery
