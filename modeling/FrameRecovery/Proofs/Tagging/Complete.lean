import FrameRecovery.Proofs.Inlining
import FrameRecovery.Proofs.Precedence

namespace FrameRecovery

open Flow

/-- When a register in an instruction makes way for a value, what is topmost stays as it is. -/
theorem Propagation.Inlined.head_eq {f g : Flow} {around : StatementId} {u : NodeId} {v T T' : Term}
    (h : Inlined f g around u v T T') (hT : T.expr.isAction = true) : T'.expr.head = T.expr.head := by
  obtain ⟨b, T₁, -, hchange, hrewrites⟩ := h.change
  have hhead : T₁.expr.head = T.expr.head := hchange.head_eq <| by
    rintro ⟨⟨n, k, rfl⟩, -⟩
    cases hT
  refine (hrewrites.head_eq ?_).trans hhead
  rw [Expr.isArithmetic_eq_of_head_eq hhead]
  cases hexpr : T.expr <;> simp_all [Expr.isAction, Expr.isArithmetic]

namespace Flow

variable {f g : Flow} {V : Locations} {kind : LocationKind} {s : StatementId} {x d : NodeId} {l : Location} {v : Nat}
  {D : Option NodeId} {points : List Point} {t : Term} {policy : PropagationPolicy}

/-- The topmost node of every statement is an instruction. -/
def TopIsAction (f : Flow) : Prop :=
  ∀ s t, f.Live s → f.Holds s t → t.expr.isAction = true

/-- Replacing reads by values happens below the topmost nodes. -/
theorem TopIsAction.step (hf : f.TopIsAction) (h : Propagation.Step policy V f g) : g.TopIsAction := by
  intro s t hs ht
  have hlive := h.live_iff.1 hs
  obtain @⟨_, around, r, u, a, v, T, T', hsound, -, hT, -, -, -, -, hinlined, -⟩ := h
  obtain ⟨t₀, ht₀⟩ := hsound.forest.holds_of_mem (hsound.forest.mem_liveStatements.2 hlive)
  by_cases hne : s = around
  · subst hne
    obtain rfl := ht.unique hinlined.holds
    have haction := hf s T hlive hT
    exact (Expr.isAction_eq_of_head_eq (hinlined.head_eq haction)).trans haction
  · exact ht.unique (hinlined.others s t₀ hne ht₀) ▸ hf s t₀ hlive ht₀

theorem TopIsAction.steps (hf : f.TopIsAction) (h : Relation.ReflTransGen (Propagation.Step policy V) f g) :
    g.TopIsAction := by
  induction h with
  | refl => exact hf
  | tail _ h ih => exact ih.step h

/-- A node has a version, and a link to tell where that comes from. -/
structure IsTagged (f : Flow) (x : NodeId) : Prop where
  version : ∃ e v, f.exprAt x = some e ∧ e.version? = some v
  linked : f.linkOf x ≠ .unlinked

theorem Defines.isTagged (h : f.Defines kind l d v) : f.IsTagged d := by
  obtain ⟨-, ⟨e, he, hfits⟩, us, hus⟩ := h
  exact ⟨⟨e, v, he, hfits.version?_eq⟩, by simp [hus]⟩

theorem Reads.isTagged (h : f.Reads kind l x D) : f.IsTagged x := by
  obtain ⟨v, ⟨e, he, hfits⟩, hlink, -⟩ := h
  exact ⟨⟨e, v, he, hfits.version?_eq⟩, by simp [hlink]⟩

/-- A node lies below an operand of a merge that is assigned in a statement, or below what the merge is assigned to. -/
def LiesInMerge (f : Flow) (s : StatementId) (x : NodeId) : Prop :=
  ∃ i d j inputs, f.Holds s (.node i (.assign d (.node j (.theta inputs)))) ∧
    ∃ o ∈ d :: inputs, x ∈ o.preorder.tail

/-- The operands of a merge are tagged, and so is what it is assigned to. -/
theorem Merges.isTagged_or_liesInMerge {e : Expr NodeId} (h : f.Merges kind l s d points) (ht : f.Holds s t)
    (hx : x ∈ t.preorder) (hexpr : f.exprAt x = some e) (he : e.isAssignable = true) :
    f.IsTagged x ∨ f.LiesInMerge s x := by
  obtain ⟨st, y, inputs, v, hst, hroot, hy, hdefines, hall⟩ := h
  obtain ⟨st', hst', hid, -⟩ := id ht
  obtain rfl := Option.some.inj (hst.symm.trans hst')
  obtain ⟨D, Y, heq, rfl, rfl⟩ := ht.exists_assign (hid ▸ hroot)
  obtain ⟨i, e'⟩ := t
  cases heq
  obtain ⟨shape, -, below⟩ := ht.stands
  have hY := below Y (by simp [Expr.children])
  obtain ⟨j, e'⟩ := Y
  obtain ⟨xs, rfl⟩ : ∃ xs, e' = .theta xs := by
    rw [exprAt_eq_some hY.shape_id, Option.some.injEq] at hy
    cases e' <;> simp_all [Expr.map]
  obtain rfl : inputs = xs.map Term.id := by
    rw [exprAt_eq_some hY.shape_id] at hy
    simpa [Expr.map] using hy.symm
  have hbelow : ∀ o ∈ D :: xs, x ∈ o.preorder → f.IsTagged x ∨ f.LiesInMerge s x := by
    intro o ho hmem
    rw [Term.preorder_eq, List.mem_cons] at hmem
    obtain rfl | hmem := hmem
    · obtain rfl | ho := List.mem_cons.1 ho
      · exact .inl hdefines.isTagged
      · obtain ⟨p, -, hreads⟩ := (exists_of_forall₂ hall).2 o.id (List.mem_map_of_mem ho)
        exact .inl hreads.isTagged
    · exact .inr ⟨i, D, j, xs, ht, o, ho, hmem⟩
  simp only [Term.preorder_node, Expr.children, List.mem_cons, List.flatMap_cons, List.flatMap_nil,
    List.append_nil, List.mem_append] at hx
  obtain rfl | hx | hx | hx := hx
  · rw [exprAt_eq_some shape] at hexpr
    cases hexpr
    cases he
  · exact hbelow D (by simp) hx
  · rw [hx, ← Term.id_node j (.theta xs), exprAt_eq_some hY.shape_id] at hexpr
    cases hexpr
    cases he
  · obtain ⟨o, ho, hx⟩ := List.mem_flatMap.1 hx
    exact hbelow o (by simp [ho]) hx

end Flow

namespace Tagging

variable {f g : Flow} {V : Locations} {a : Address} {s : StatementId} {x y : NodeId} {v : Option Nat} {t : Term}

section Tagged

variable (ht : Tagged V f .derefs g) (hf : f.Forest) (hrooted : f.Rooted) (hconnected : f.Connected)
include ht hf hrooted hconnected

/-- A dereference that had no version is tagged, unless its address is taken. -/
theorem Tagged.isTagged_of_mem (hs : s ∈ f.statementsAt a) (hholds : f.Holds s t) {u A : Term}
    (hu : Term.Within u t) (hne : u ≠ t) (hexpr : u.expr = .deref A none)
    (hnot : ∀ z, f.parentExpr? u.id ≠ .ok (some (.addressOf z))) : g.IsTagged u.id := by
  have hlocate : LocationKind.derefs.locate u = some A.text := by
    obtain ⟨i, e⟩ := u
    cases hexpr
    rfl
  obtain hdefinition | hread := hrooted.definition_or_read hholds hu hne hlocate fun z _ => hnot z
  · obtain ⟨v, hdefines⟩ := ht.defined s (hf.mem_liveStatements.2 (hf.live hs)) _ hdefinition
    exact hdefines.isTagged
  · have ha : f.block? a ≠ none := by
      intro hnone
      simp [statementsAt, hnone] at hs
    obtain ⟨heads, hexact⟩ := ht.exact hf hconnected ha
    obtain ⟨pre, post, hsplit⟩ := List.append_of_mem hs
    obtain ⟨D, hreads, -⟩ := hexact.read pre s post hsplit _ hread
    exact hreads.isTagged

/-- Every dereference in the tagged flow is tagged, unless its address is taken or it lies in a merge. -/
theorem Tagged.isTagged (hV : f.Sound .listed) (htop : f.TopIsAction) (hs : g.Live s) (hholds : g.Holds s t)
    (hx : x ∈ t.preorder) (hexpr : g.exprAt x = some (.deref y v)) :
    g.IsTagged x ∨ (∃ z, g.parentExpr? x = .ok (some (.addressOf z))) ∨ g.LiesInMerge s x := by
  obtain ⟨a, heads, hexact, hhead | hbefore⟩ := ht.exists_place hf hconnected hs
  · obtain ⟨-, l, d, points, hjoins⟩ := hexact.head s hhead
    exact (hjoins.merges.isTagged_or_liesInMerge hholds hx hexpr rfl).imp_right .inr
  · obtain ⟨t₀, hholds₀⟩ := hf.exists_holds hbefore
    obtain ⟨t', hholds', -, hpreorder⟩ := ht.later.exists_holds hholds₀
    obtain rfl := hholds.unique hholds'
    obtain ⟨u, hu, rfl⟩ := Term.exists_within_of_mem_preorder (hpreorder ▸ hx)
    obtain ⟨q, hq⟩ := hholds₀.stands.exists_of_within hu
    have hexpr₀ := exprAt_eq_some hq.shape_id
    -- dereferences have no versions before they are tagged
    obtain ⟨A, hA⟩ : ∃ A, u.expr = .deref A none := by
      have huntag := ht.later.marks.untag_eq hexpr₀ hexpr
      have hadmits := hV.typed.location _ _ hexpr₀
      obtain ⟨i, e⟩ := u
      cases e <;> simp_all [LocationKind.untag, Expr.map, Locations.Admits, Locations.listed]
    by_cases hne : u = t₀
    · have haction := htop s t₀ (hf.live hbefore) hholds₀
      rw [← hne, hA] at haction
      cases haction
    by_cases haddress : ∃ z, f.parentExpr? u.id = .ok (some (.addressOf z))
    · obtain ⟨z, hz⟩ := haddress
      obtain ⟨e, p, q', hshape, hparent⟩ := exists_of_parentExpr? hz
      obtain ⟨e', hshape'⟩ := ht.later.place _ e _ hshape
      obtain ⟨q'', hparent'⟩ := exists_shapeAt_of_exprAt
        (ht.later.marks.exprAt_eq (exprAt_eq_some hparent) (.inr rfl))
      exact .inr (.inl ⟨z, parentExpr?_eq_some hshape' hparent'⟩)
    · exact .inl (ht.isTagged_of_mem hf hrooted hconnected hbefore hholds₀ hu hne hA fun z hz => haddress ⟨z, hz⟩)

end Tagged

end Tagging

/-- When dereferences were tagged, each one has a version and a link, apart from those of which the address is taken
    and those in the addresses of merges. -/
theorem Session.dereferences_tagged {text name stackPointer : String} {l : Listing} {options : Options}
    {entry : Address} {s : Session} (hl : Listing.parse text = .ok l)
    (hs : (Task.mk l { name, stackPointer } options).sessionAt? entry .ssaDerefs = some s)
    {c : StatementId} {t : Term} {x y : NodeId} {v : Option Nat} (hc : s.flow.Live c) (ht : s.flow.Holds c t)
    (hx : x ∈ t.preorder) (hexpr : s.flow.exprAt x = some (.deref y v)) :
    s.flow.IsTagged x ∨ (∃ z, s.flow.parentExpr? x = .ok (some (.addressOf z))) ∨ s.flow.LiesInMerge c x := by
  obtain ⟨S, h, rfl⟩ := Recovery.exists_course_of_sessionAt?
    (t := ⟨l, { name, stackPointer }, options⟩) (Listing.wellFormed_of_parse hl) rfl (by decide) hs
  have htop : (S .ssaRegisters).flow.TopIsAction := fun s t hs hholds =>
    h.registers.isAction h.plain h.connected hs hholds
  have hsound := h.propagated.sound
  exact h.derefs.isTagged hsound.forest (h.propagated.rooted h.registers.rooted) h.connected_stackPropagated hsound
    (htop.steps h.propagated.steps) hc ht hx hexpr

/-- A function in which there is a dereference in the address of a merge. -/
def nestedText : String :=
  "0: if eax goto 2\n1: [[ecx]] = 1\n2: ebx = [[ecx]]\n3: return"

/-- The one in the address of what the merge is assigned to has no version and no link. -/
theorem Session.dereference_untagged : ∃ s c t x y, Session.ofText? nestedText "x86" "esp" 0 .ssaDerefs = some s ∧
    s.flow.Live c ∧ s.flow.Holds c t ∧ x ∈ t.preorder ∧ s.flow.exprAt x = some (.deref y none) ∧
      s.flow.linkOf x = .unlinked ∧ ∀ z, s.flow.parentExpr? x ≠ .ok (some (.addressOf z)) := by
  have hcheck : ((Session.ofText? nestedText "x86" "esp" 0 .ssaDerefs).any fun s =>
      s.flow.statementsAt 2 == [⟨4⟩, ⟨2⟩, ⟨3⟩] &&
        (s.flow.operands ⟨4⟩).toOption == some [⟨22⟩, ⟨21⟩, ⟨20⟩, ⟨19⟩, ⟨15⟩, ⟨14⟩, ⟨13⟩, ⟨18⟩, ⟨17⟩, ⟨16⟩] &&
        s.flow.exprAt ⟨21⟩ == some (.deref ⟨20⟩ none) && s.flow.linkOf ⟨21⟩ == .unlinked &&
        (s.flow.parentExpr? ⟨21⟩).toOption == some (some (.deref ⟨21⟩ (some 2)))) = true := by
    decide +kernel
  obtain ⟨s, hs, hchecks⟩ := Option.any_eq_true _ _ |>.1 hcheck
  simp only [Bool.and_eq_true, beq_iff_eq] at hchecks
  obtain ⟨⟨⟨⟨hstatements, hoperands⟩, hexpr⟩, hlink⟩, hparent⟩ := hchecks
  obtain ⟨l, S, h, hS⟩ := Recovery.exists_course_of_ofText? (by decide) hs
  obtain rfl : S .ssaDerefs = s := Option.some.inj ((hS _).symm.trans hs)
  obtain ⟨t, hlive, ht, hmem⟩ := h.derefs.sound.forest.exists_holds_of_operands (a := 2) (s := ⟨4⟩) (x := ⟨21⟩)
    (by simp [hstatements]) hoperands (by simp)
  refine ⟨_, ⟨4⟩, t, ⟨21⟩, ⟨20⟩, hs, hlive, ht, hmem, hexpr, hlink, fun z hz => ?_⟩
  simp [hz, Except.toOption] at hparent

end FrameRecovery
