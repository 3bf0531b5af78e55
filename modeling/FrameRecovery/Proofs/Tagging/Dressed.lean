import FrameRecovery.Proofs.Lowering
import FrameRecovery.Proofs.Tagging.Exact

namespace FrameRecovery

theorem Expr.children_eq_of_withVersion {α : Type} {e e' : Expr α} {v : Option Nat} (h : e'.withVersion? v = some e) :
    e'.children = e.children := by
  cases e' <;> cases h <;> rfl

namespace Flow

variable {f g h : Flow} {V : Locations} {kind : LocationKind} {m s : StatementId} {d x y : NodeId}
  {a : Address} {t : Term} {l : Location} {points : List Point}

/-- A statement assigns a merge to an operand with a version. -/
def MergesTo (f : Flow) (m : StatementId) (d : NodeId) : Prop :=
  ∃ st y inputs e, f.statementAt m = some st ∧ f.exprAt st.root = some (.assign d y) ∧
    f.exprAt y = some (.theta inputs) ∧ f.exprAt d = some e ∧ e.version? ≠ none

theorem Merges.mergesTo (hm : f.Merges kind l m d points) : f.MergesTo m d := by
  obtain ⟨st, y, inputs, v, hst, hroot, hy, ⟨-, ⟨e, he, hfits⟩, -⟩, -⟩ := hm
  exact ⟨st, y, inputs, e, hst, hroot, hy, he, by simp [hfits.version?_eq]⟩

theorem MergesTo.later (hm : f.MergesTo m d) (hfg : f.Later kind g) : g.MergesTo m d := by
  obtain ⟨st, y, inputs, e, hst, hroot, hy, he, hversion⟩ := hm
  exact ⟨st, y, inputs, e, hfg.statement m st hst, hfg.marks.exprAt_eq hroot (.inr rfl),
    hfg.marks.exprAt_eq hy (.inr rfl), hfg.marks.exprAt_eq he (.inl hversion), hversion⟩

theorem MergesTo.mem_preorder (hm : f.MergesTo m d) (ht : f.Holds m t) : d ∈ t.preorder := by
  obtain ⟨st, y, inputs, e, hst, hroot, -⟩ := hm
  obtain ⟨st', hst', hid, hstands⟩ := ht
  obtain rfl := Option.some.inj (hst.symm.trans hst')
  obtain ⟨i, E⟩ := t
  rw [hid, exprAt_eq_some hstands.shape_id, Option.some.injEq] at hroot
  cases E <;> cases hroot
  exact (Term.Within.refl _).id_mem_of_mem_children (by simp [Expr.children])

/-- What a merge is assigned to is tagged already. -/
theorem MergesTo.definitionOf_eq (hm : f.MergesTo m d) (ht : f.Holds m t) :
    Summary.definitionOf f kind.locate m = none := by
  obtain ⟨st, y, inputs, e, hst, hroot, -, he, hversion⟩ := hm
  by_contra hne
  obtain ⟨D, hD⟩ := Option.ne_none_iff_exists'.1 hne
  obtain ⟨i, u, v, rfl, hlocate, -, -⟩ := (Summary.mem_definitionOf ht).1 hD
  obtain ⟨st', hst', hid, shape, -, below⟩ := ht
  obtain rfl := Option.some.inj (hst.symm.trans hst')
  rw [hid, Term.id_node, exprAt_eq_some shape] at hroot
  cases hroot
  have hu := exprAt_eq_some (below u (by simp [Expr.children])).shape_id
  obtain rfl := Option.some.inj (hu.symm.trans he)
  exact hversion (LocationKind.exists_fits_of_locate hlocate).version?_eq

end Flow

namespace Tagging

open Flow

/-- The new statements of a block are merges at its head. -/
theorem Tagged.exists_heads {g h : Flow} {V : Locations} {kind : LocationKind} (hgh : Tagged V g kind h)
    (hg : g.Forest) (hconnected : g.Connected) (a : Address) :
    ∃ ms, h.statementsAt a = ms ++ g.statementsAt a ∧ ∀ m ∈ ms, g.statementAt m = none ∧ ∃ d, h.MergesTo m d := by
  by_cases ha : g.block? a = none
  · have hnone : h.block? a = none := by
      by_contra hne
      exact hgh.later.graph.symm.ne_none hne ha
    exact ⟨[], by simp [statementsAt, ha, hnone], nofun⟩
  · obtain ⟨ms, hexact⟩ := hgh.exact hg hconnected ha
    refine ⟨ms, hexact.statements_eq, fun m hm => ?_⟩
    obtain ⟨hfresh, l, d, points, hjoins⟩ := hexact.head m hm
    exact ⟨hfresh, d, hjoins.merges.mergesTo⟩

end Tagging

namespace Flow

variable {f g h : Flow} {V : Locations} {kind : LocationKind} {m s : StatementId} {x y : NodeId}
  {a : Address} {t : Term}

theorem Forest.mem_of_append {ms : List StatementId} (hf : f.Forest)
    (hms : g.statementsAt a = ms ++ f.statementsAt a) (hm : m ∈ g.statementsAt a)
    (hnew : f.statementAt m = none) : m ∈ ms := by
  rw [hms, List.mem_append] at hm
  refine hm.resolve_right fun hold => ?_
  obtain ⟨st, hst, -⟩ := hf.mem_statementsAt.1 hold
  rw [hnew] at hst
  cases hst

/-- The nodes and the statements of a flow `f` are in a flow `g` too, perhaps with versions. -/
structure Wears (f g : Flow) : Prop where
  graph : f.SameGraph g
  shape : ∀ x e p, f.shapeAt x = some (e, p) →
    ∃ e', g.shapeAt x = some (e', p) ∧ (e' = e ∨ e'.withVersion? none = some e)
  statement : ∀ s st, f.statementAt s = some st → g.statementAt s = some st

namespace Wears

theorem refl (f : Flow) : Wears f f :=
  ⟨.refl f, fun _ e _ h => ⟨e, h, .inl rfl⟩, fun _ _ h => h⟩

theorem exists_holds (hfg : Wears f g) (ht : f.Holds s t) :
    ∃ t', g.Holds s t' ∧ t'.id = t.id ∧ t'.preorder = t.preorder := by
  obtain ⟨st, hst, hroot, hstands⟩ := ht
  obtain ⟨t', ht', hid, hpreorder⟩ := hstands.exists_similar (g := g) fun y _ e q hy => by
    obtain ⟨e', he', rfl | hversion⟩ := hfg.shape y e q hy
    · exact ⟨_, he', rfl⟩
    · exact ⟨e', he', Expr.children_eq_of_withVersion hversion⟩
  exact ⟨t', ⟨st, hfg.statement s st hst, hroot.trans hid.symm, ht'⟩, hid, hpreorder⟩

theorem statementAt_eq_none (hfg : Wears f g) (hs : g.statementAt s = none) : f.statementAt s = none := by
  by_contra hne
  obtain ⟨st, hst⟩ := Option.ne_none_iff_exists'.1 hne
  rw [hfg.statement s st hst] at hs
  cases hs

theorem later (hfg : Wears f g) (hgh : g.Later kind h) : Wears f h := by
  refine ⟨hfg.graph.trans hgh.graph, ?_, fun s st hst => hgh.statement s st (hfg.statement s st hst)⟩
  intro x e p hx
  obtain ⟨e₁, he₁, heq⟩ := hfg.shape x e p hx
  obtain ⟨e₂, he₂⟩ := hgh.place x e₁ p he₁
  refine ⟨e₂, he₂, ?_⟩
  obtain hsame | ⟨l, v, hfits, htagged⟩ := hgh.marks.expr x e₁ (exprAt_eq_some he₁)
  · rw [exprAt_eq_some he₂] at hsame
    exact Option.some.inj hsame ▸ heq
  · rw [exprAt_eq_some he₂] at htagged
    have hlost : e₁.withVersion? none = some e₁ := by
      have hnone := hfits.version?_eq
      have hassignable := hfits.isAssignable
      cases e₁ <;> simp_all [Expr.withVersion?, Expr.version?, Expr.isAssignable]
    have hback : e₂.withVersion? none = e₁.withVersion? none := by
      cases e₁ <;> cases htagged <;> rfl
    obtain rfl | hversion := heq
    · exact .inr (hback.trans hlost)
    · exact .inr (hback.trans hversion)

variable (hfg : Wears f g) (htidy : f.Tidy) (hold : f.shapeAt x ≠ none)
include hfg htidy hold

/-- The nodes of a tidy flow stay in its statements. -/
theorem statementAt_ne_none (ht : g.Holds s t) (hx : x ∈ t.preorder) : f.statementAt s ≠ none := by
  obtain ⟨s', u, ⟨st, hst, -⟩, hu, hxu⟩ := htidy x hold
  obtain ⟨u', hu', -, hpreorder⟩ := hfg.exists_holds hu
  rw [ht.statement_unique hu' hx (hpreorder ▸ hxu), hst]
  exact nofun

/-- The nodes of a plain flow are no operands of merges. -/
theorem not_isInput (hf : f.Plain) : ¬ g.IsInput x := by
  rintro ⟨inputs, hinput⟩
  obtain ⟨e', q, p', hx, hq⟩ := exists_of_parentExpr? hinput
  obtain ⟨s, t, -, ht, hxt⟩ := htidy x hold
  obtain ⟨e, p, hshape⟩ := ht.exists_shape hxt
  obtain ⟨e₁, he₁, -⟩ := hfg.shape x e p hshape
  obtain rfl : p = .child q := by
    rw [hx] at he₁
    exact (Prod.mk.inj (Option.some.inj he₁)).2.symm
  obtain ⟨i, E, u, hwithin, hu, hid, hstands⟩ := ht.stands.exists_parent hxt fun hid => by
    rw [hid, ht.stands.shape_id] at hshape
    cases hshape
  obtain rfl : i = q := by
    have hplace := hstands.shape_id
    rw [hid, hshape] at hplace
    exact (Place.child.inj (Prod.mk.inj (Option.some.inj hplace)).2).symm
  obtain ⟨q', hparent⟩ := ht.stands.exists_of_within hwithin
  -- the node above it is no merge in the plain flow, and merges have no version to lose
  have hplain := hf.plain i _ (exprAt_eq_some hparent.shape_id)
  obtain ⟨e₂, he₂, heq⟩ := hfg.shape i _ _ hparent.shape_id
  obtain rfl : e₂ = .theta inputs := by
    rw [hq] at he₂
    exact (Prod.mk.inj (Option.some.inj he₂)).1.symm
  obtain heq | hversion := heq
  · rw [← heq] at hplain
    cases hplain
  · cases hversion

end Wears

/-- A flow `g` is a flow `f` in which operands were tagged, with merges at the head of blocks. What the
    nodes of `f` read from a merge, they read in the block of the merge. -/
structure Dressed (f g : Flow) : Prop extends Wears f g where
  heads : ∀ a, ∃ ms, g.statementsAt a = ms ++ f.statementsAt a ∧
    ∀ m ∈ ms, f.statementAt m = none ∧ ∃ d, g.MergesTo m d
  near : ∀ a m t x y, m ∈ g.statementsAt a → f.statementAt m = none → g.Holds m t → y ∈ t.preorder →
    f.shapeAt x ≠ none → g.linkOf x = .use (some y) → ∃ s ∈ f.statementsAt a, ∃ u, f.Holds s u ∧ x ∈ u.preorder

namespace Dressed

theorem refl (hf : f.Plain) : Dressed f f := by
  refine ⟨.refl f, fun a => ⟨[], rfl, nofun⟩, ?_⟩
  intro a m t x y _ _ _ _ _ hx
  rw [hf.unlinked] at hx
  cases hx

section Tagged

variable {a a' : Address} {m : StatementId} {t : Term} {y : NodeId} {r : Read} (hfg : Dressed f g) (hf : f.Plain)
  (htidy : f.Tidy) (hg : g.Sound V) (hconnected : g.Connected) (hgh : Tagging.Tagged V g kind h)
  (hm : m ∈ h.statementsAt a) (ht : h.Holds m t) (hy : y ∈ t.preorder)

include hg hconnected hgh hm ht hy

/-- What was there before is in the block it was in. -/
theorem mem_before (hheld : g.Held y) : m ∈ g.statementsAt a ∧ ∃ t₀, g.Holds m t₀ ∧ t₀.preorder = t.preorder := by
  obtain ⟨s, u, ⟨st, hst, hremoved⟩, hu, hyu⟩ := hheld
  obtain ⟨u', hu', -, hpreorder⟩ := hgh.later.exists_holds hu
  obtain rfl := ht.statement_unique hu' hy (hpreorder ▸ hyu)
  obtain ⟨ms, hms, hfresh⟩ := hgh.exists_heads hg.forest hconnected a
  refine ⟨?_, u, hu, by rw [ht.unique hu', hpreorder]⟩
  rw [hms, List.mem_append] at hm
  refine hm.resolve_left fun hmem => ?_
  rw [(hfresh m hmem).1] at hst
  cases hst

include hfg hf

/-- What was assigned last before tagging was not assigned by a merge, as what assigns merges defines nothing. -/
theorem not_lastSite? (hnew : f.statementAt m = none) {pre : List StatementId} {as : List Address}
    (hpre : ∀ c ∈ pre, g.Live c) : g.lastSite? kind l as pre ≠ some y := by
  intro hlast
  obtain ⟨c, C, hc, hdefinition, -, hsite⟩ := exists_of_lastSite? hg.forest hlast hpre
  obtain ⟨w, hw⟩ := hg.forest.holds_of_live hc
  obtain ⟨i, X, Y, rfl, -, hX, -⟩ := (Summary.mem_definitionOf hw).1 hdefinition
  have hyw : y ∈ (Term.node i (.assign X Y)).preorder := by
    rw [← hsite, hX]
    exact (Term.Within.refl _).id_mem_of_mem_children (by simp [Expr.children])
  obtain ⟨hm₀, t₀, ht₀, hpreorder⟩ := mem_before hg hconnected hgh hm ht hy ⟨c, _, hc, hw, hyw⟩
  obtain rfl := ht₀.statement_unique hw (hpreorder ▸ hy) hyw
  obtain ⟨ms', hms', hmerges⟩ := hfg.heads a
  obtain ⟨-, d, hd⟩ := hmerges m (hf.forest.mem_of_append hms' hm₀ hnew)
  rw [hd.definitionOf_eq ht₀] at hdefinition
  cases hdefinition

include htidy

/-- What reads a merge, and was found as a read, is in the block of the merge. -/
theorem near_of_readIn (hnew : f.statementAt m = none) (hread : Tagging.ReadIn g kind a' r) (hold : f.shapeAt r.operand ≠ none)
    (hlink : h.linkOf r.operand = .use (some y)) : ∃ s ∈ f.statementsAt a, ∃ u, f.Holds s u ∧ r.operand ∈ u.preorder := by
  obtain ⟨s, u, hs, hu, hr⟩ := hread
  have ha' : g.block? a' ≠ none := fun hnone => by simp [statementsAt, hnone] at hs
  obtain ⟨ms, hexact⟩ := hgh.exact hg.forest hconnected ha'
  obtain ⟨pre, post, hsplit⟩ := List.append_of_mem hs
  obtain ⟨D, ⟨-, -, hD, -⟩, hreaches⟩ := hexact.read pre s post hsplit r hr
  obtain rfl : D = some y := by
    rw [hlink] at hD
    exact (Link.use.inj hD).symm
  cases hreaches with
  | always hlast =>
    obtain ⟨as, has⟩ := hconnected.path a' ha'
    have hlive : ∀ c ∈ pre, g.Live c := fun c hc => hg.forest.live (a := a') (hsplit ▸ by simp [hc])
    exact absurd (hlast as has) (not_lastSite? hfg hf hg hconnected hgh hm ht hy hnew hlive)
  | @merged m' _ points hm' hjoins _ =>
    obtain ⟨st, w, inputs, v, hst, -⟩ := id hjoins.merges
    obtain ⟨T, hT⟩ := hgh.sound.forest.holds m' st hst
    obtain rfl := ht.statement_unique hT hy (hjoins.merges.mergesTo.mem_preorder hT)
    have hblock : ∀ {b}, m ∈ h.statementsAt b → st.block = b := by
      intro b hb
      obtain ⟨st', hst', -, rfl⟩ := hgh.sound.forest.mem_statementsAt.1 hb
      obtain rfl := Option.some.inj (hst.symm.trans hst')
      rfl
    obtain rfl : a' = a := (hblock (hexact.statements_eq ▸ List.mem_append_left _ hm')).symm.trans (hblock hm)
    have hxu := List.mem_of_mem_tail (BlockPlan.operand_mem hu hr)
    obtain ⟨ms', hms', hmerges⟩ := hfg.heads a'
    rw [hms', List.mem_append] at hs
    obtain hs | hs := hs
    · exact absurd (hmerges s hs).1 (hfg.statementAt_ne_none htidy hold hu hxu)
    · obtain ⟨w, hw⟩ := hf.forest.exists_holds hs
      obtain ⟨w', hw', -, hpreorder⟩ := hfg.exists_holds hw
      exact ⟨s, hs, w, hw, by rw [← hpreorder, hw'.unique hu]; exact hxu⟩

end Tagged

/-- Tagging once more leaves what was tagged, and adds merges in front of those that are there. -/
theorem tagged (hfg : Dressed f g) (hf : f.Plain) (htidy : f.Tidy) (hg : g.Sound V) (hconnected : g.Connected)
    (hgh : Tagging.Tagged V g kind h) : Dressed f h := by
  have hwears := hfg.later hgh.later
  refine ⟨hwears, fun a => ?_, fun a m t x y hm hnew ht hy hold hlink => ?_⟩
  · obtain ⟨ms, hms, hfresh⟩ := hgh.exists_heads hg.forest hconnected a
    obtain ⟨ms', hms', hnew⟩ := hfg.heads a
    refine ⟨ms ++ ms', by rw [hms, hms', List.append_assoc], fun m hm => ?_⟩
    obtain hm | hm := List.mem_append.1 hm
    · obtain ⟨hnone, hmerges⟩ := hfresh m hm
      exact ⟨hfg.statementAt_eq_none hnone, hmerges⟩
    · obtain ⟨hnone, d, hmerges⟩ := hnew m hm
      exact ⟨hnone, d, hmerges.later hgh.later⟩
  cases hgh.sources x y hlink with
  | kept hread =>
    have huses := (hg.mirrored.recorded x y).1 hread
    obtain ⟨hm₀, t₀, ht₀, hpreorder⟩ := mem_before hg hconnected hgh hm ht hy (hg.held y fun hnone => by
      rw [hnone] at huses
      cases huses)
    exact hfg.near a m t₀ x y hm₀ hnew ht₀ (hpreorder ▸ hy) hold hread
  | found hread hx =>
    subst hx
    exact near_of_readIn hfg hf htidy hg hconnected hgh hm ht hy hnew hread hold hlink
  | input hinput => exact absurd hinput (hwears.not_isInput htidy hold hf)
  | copied hfresh _ hT hx _ _ _ _ _ _ _ =>
    exact absurd (hfg.statementAt_eq_none hfresh) (hwears.statementAt_ne_none htidy hold hT hx)

end Dressed

end Flow

end FrameRecovery
