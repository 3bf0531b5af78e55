import FrameRecovery.Proofs.Flow.Substitution

namespace FrameRecovery

namespace Flow

variable {f g : Flow} {V : Locations} {x : NodeId} {p : Place} {t t' : Term}
  {R : NodeId → NodeId → Prop}

/-- Links that mirror each other and are not at untagged operands, and if they are about a
    register at one version of it. -/
structure Wired (f : Flow) (V : Locations) : Prop where
  typed : f.Typed V
  mirrored : f.Mirrored
  untagged : ∀ x e, f.exprAt x = some e → e.isUntagged = true → (f.linkOf x).Free
  register : ∀ u d n v, f.linkOf u = .use (some d) → f.exprAt d = some (.register n v) →
    f.exprAt u = some (.register n v)

theorem Sound.wired (hf : f.Sound V) : f.Wired V :=
  ⟨hf.typed, hf.mirrored, hf.untagged, hf.register⟩

namespace Wired

theorem sound (hf : f.Wired V) (hforest : f.Forest)
    (hheld : ∀ x, f.linkOf x ≠ .unlinked → f.Held x) : f.Sound V :=
  ⟨hforest, hf.typed, hf.mirrored, hheld, hf.untagged, hf.register⟩

theorem congr (hf : f.Wired V) (hexpr : g.exprAt = f.exprAt) (hlink : g.linkOf = f.linkOf) :
    g.Wired V := by
  obtain ⟨⟨hclosed, htarget, hlinked, hlocation⟩, hmirrored, huntagged, hregister⟩ := hf
  unfold Closed at hclosed
  rw [← hexpr] at hclosed htarget hlinked hlocation huntagged hregister
  rw [← hlink] at htarget hlinked huntagged hregister
  exact ⟨⟨hclosed, htarget, hlinked, hlocation⟩, hmirrored.of_linkOf_eq hlink, huntagged, hregister⟩

theorem tied (hf : f.Wired V) : f.Tied :=
  ⟨hf.mirrored, fun _ => hf.typed.exists_node⟩

/-- What no definition has a part in is not read. -/
theorem ne_of_free (hf : f.Wired V) (hx : (f.linkOf x).Free) (u : NodeId) :
    f.linkOf u ≠ .use (some x) := by
  intro hu
  rw [hf.mirrored.recorded, hx.uses_eq_nil] at hu
  cases hu

/-- One more node without a link keeps the links right, if it may occur and assigns to a location
    that is not read. -/
theorem of_made (hf : f.Wired V) {e : Expr NodeId} (hfg : f.Retains g) (hlink : g.linkOf = f.linkOf)
    (hx : g.exprAt x = some e) (hmade : ∀ z, g.exprAt z ≠ none → f.exprAt z ≠ none ∨ z = x)
    (hnone : f.exprAt x = none) (hchildren : ∀ c ∈ e.children, g.exprAt c ≠ none)
    (hadmits : V.Admits e)
    (hassign : ∀ d y, e = .assign d y → (∃ e', g.exprAt d = some e' ∧ e'.isAssignable = true) ∧
      ∀ z, g.linkOf d ≠ .use z) : g.Wired V := by
  have hkept : ∀ {z e}, f.exprAt z = some e → g.exprAt z = some e := fun {z e} hz => by
    rw [hfg.exprAt_eq (by simp [hz]), hz]
  have hold : ∀ {z e'}, g.exprAt z = some e' → f.exprAt z = some e' ∨ (z = x ∧ e' = e) := by
    intro z e' hz
    rcases hmade z (by simp [hz]) with h | rfl
    · exact .inl (by rw [← hfg.exprAt_eq h, hz])
    · rw [hx] at hz
      cases hz
      exact .inr ⟨rfl, rfl⟩
  refine ⟨⟨fun z e' hz c hc => ?_, fun r d y hr => ?_, fun z hz => ?_, fun z e' hz => ?_⟩,
    hf.mirrored.of_linkOf_eq hlink, fun z e' hz huntagged => ?_, fun u d n v hu hd => ?_⟩
  · rcases hold hz with h | ⟨-, rfl⟩
    · obtain ⟨ec, hec⟩ := Option.ne_none_iff_exists'.1 (hf.typed.closed z e' h c hc)
      simp [hkept hec]
    · exact hchildren c hc
  · rcases hold hr with h | ⟨-, rfl⟩
    · obtain ⟨⟨ed, hed, hassignable⟩, hnot⟩ := hf.typed.target r d y h
      exact ⟨⟨ed, hkept hed, hassignable⟩, fun z => hlink ▸ hnot z⟩
    · exact hassign d y rfl
  · rw [hlink] at hz
    obtain ⟨ez, hez, hassignable⟩ := hf.typed.link z hz
    exact ⟨ez, hkept hez, hassignable⟩
  · rcases hold hz with h | ⟨-, rfl⟩
    · exact hf.typed.location z e' h
    · exact hadmits
  · rw [hlink]
    rcases hold hz with h | ⟨rfl, -⟩
    · exact hf.untagged z e' h huntagged
    · exact .inl (linkOf_eq_unlinked (by simpa [exprAt] using hnone))
  · rw [hlink] at hu
    obtain ⟨ed, hed⟩ := Option.ne_none_iff_exists'.1 (hf.typed.linked hf.mirrored hu)
    have hed' := hkept hed
    rw [hd] at hed'
    cases hed'
    exact hkept (hf.register u d n v hu hed)

/-- A copy of a tree is linked like the tree. -/
theorem copies (hf : f.Wired V) (h : f.Copies g R t t') (ht : f.Stands p t) (hrecords : f.Records g)
    (htied : g.Tied) (hread : ∀ a b, R a b → g.linkOf a = (g.linkOf b).read) : g.Wired V := by
  have hlinked := fun {x} => h.exists_linked (x := x) ht hrecords hread htied
  refine ⟨h.typed ht hrecords hread hf.typed htied, htied.mirrored,
    fun x e hx he => h.free ht hrecords hread hf.untagged hx he, fun u d n v hu hd => ?_⟩
  · obtain ⟨x₀, e', e₀, he', he₀, hhead, -, hread⟩ := hlinked (x := u) (by simp [hu])
    have hu₀ := hread _ hu
    obtain ⟨ed, hed⟩ := Option.ne_none_iff_exists'.1 (hf.typed.linked hf.mirrored hu₀)
    have hed' : f.exprAt d = some (.register n v) := by
      rw [← hd, h.grows.retains.exprAt_eq (by simp [hed])]
    have hx₀ := hf.register x₀ d n v hu₀ hed'
    rw [he₀] at hx₀
    cases hx₀
    exact Expr.eq_register_of_head_eq hhead ▸ he'

end Wired

end Flow

end FrameRecovery
