import FrameRecovery.Proofs.Pruning
import FrameRecovery.Proofs.Tagging.Marks

namespace FrameRecovery

namespace Tagging

open Flow

variable {f g h : Flow} {V : Locations} {todo done : NodeId → Prop} {x : NodeId}

/-- The state of a flow while links are removed one by one: the nodes `todo` still have theirs, the
    nodes `done` have lost theirs but may come to read the value on entry. Uses may be recorded
    that are no reads any more. -/
structure Fading (f : Flow) (todo done : NodeId → Prop) : Prop where
  closed : f.Closed
  target : ∀ r d y, f.exprAt r = some (.assign d y) →
    (∃ e, f.exprAt d = some e ∧ e.isAssignable = true) ∧ (∀ z, f.linkOf d ≠ .use z) ∧
      ∀ d' us, f.linkOf d' = .definition us → d ∉ us
  link : ∀ x, f.linkOf x ≠ .unlinked → (todo x ∨ done x) ∧
    ∃ e, f.exprAt x = some e ∧ e.isAssignable = true
  apart : ∀ x, todo x → ¬ done x
  free : ∀ x, done x → (f.linkOf x).Free
  read : ∀ u d, f.linkOf u = .use (some d) → f.exprAt d ≠ none
  recorded : ∀ d us, f.linkOf d = .definition us → ∀ u ∈ us,
    (f.linkOf u = .use (some d) ∨ done u) ∧ ∃ e, f.exprAt u = some e ∧ e.isAssignable = true

/-- In the beginning all links are mirrored. -/
theorem Fading.start (hf : f.Wired V) (htodo : ∀ x, f.linkOf x ≠ .unlinked → todo x) :
    Fading f todo fun _ => False := by
  have huse : ∀ {d us u}, f.linkOf d = .definition us → u ∈ us → f.linkOf u = .use (some d) := by
    intro d us u hd hu
    exact (hf.mirrored.recorded u d).2 (by simpa [hd] using hu)
  refine ⟨hf.typed.closed, fun r d y hr => ?_, fun x hx => ⟨.inl (htodo x hx), hf.typed.link x hx⟩,
    fun _ _ h => h, nofun, fun u d hu => hf.typed.linked hf.mirrored hu,
    fun d us hd u hu => ?_⟩
  · obtain ⟨hassignable, hnot⟩ := hf.typed.target r d y hr
    exact ⟨hassignable, hnot, fun d' us hd' hd => hnot _ (huse hd' hd)⟩
  · have hlink := huse hd hu
    exact ⟨.inl hlink, hf.typed.link u (by simp [hlink])⟩

/-- In the end there is no definition left. -/
theorem Fading.wired (hf : Fading f (fun _ => False) done) : f.Wired .any := by
  have hfree : ∀ x, (f.linkOf x).Free := by
    intro x
    by_cases hx : f.linkOf x = .unlinked
    · exact .inl hx
    · exact hf.free x ((hf.link x hx).1.resolve_left id)
  refine ⟨⟨hf.closed, fun r d y hr => ?_, fun x hx => (hf.link x hx).2,
    fun _ e _ => Locations.admits_any e⟩,
    ⟨fun x d => ?_, fun d => ?_⟩, fun x _ _ _ => hfree x, fun u d n v hu => ?_⟩
  · obtain ⟨hassignable, hnot, -⟩ := hf.target r d y hr
    exact ⟨hassignable, hnot⟩
  · rw [(hfree d).uses_eq_nil]
    exact iff_of_false ((hfree x).ne_use d) List.not_mem_nil
  · rw [(hfree d).uses_eq_nil]
    exact List.nodup_nil
  · exact absurd hu ((hfree u).ne_use d)

/-- A flow `g` is a flow `f` in which some locations have lost their versions. -/
def Bares (f g : Flow) : Prop :=
  ∀ y, g.shapeAt y = f.shapeAt y ∨ ∃ e e' p, f.shapeAt y = some (e, p) ∧
    e.withVersion? none = some e' ∧ g.shapeAt y = some (e', p)

/-- A node that has lost its link is done. -/
theorem Fading.clear (hf : Fading f todo done) (hx : todo x) (hshape : g.shapeAt = f.shapeAt)
    (hlink : g.linkOf = Function.update f.linkOf x .unlinked) :
    Fading g (fun y => todo y ∧ y ≠ x) fun y => done y ∨ y = x := by
  have hexpr : g.exprAt = f.exprAt := by
    funext y
    simp [exprAt, hshape]
  have hself : g.linkOf x = .unlinked := by rw [hlink, Function.update_self]
  have hother : ∀ {y}, y ≠ x → g.linkOf y = f.linkOf y := fun {y} hy => by
    rw [hlink, Function.update_of_ne hy]
  have hne : ∀ {y l}, g.linkOf y = l → l ≠ .unlinked → y ≠ x ∧ f.linkOf y = l := by
    intro y l hy hl
    have hyx : y ≠ x := by
      rintro rfl
      exact hl (hy.symm.trans hself)
    exact ⟨hyx, (hother hyx).symm.trans hy⟩
  refine ⟨fun z e hz => hexpr ▸ hf.closed z e (hexpr ▸ hz), fun r d y hr => ?_, fun y hy => ?_,
    fun y h => not_or.2 ⟨hf.apart y h.1, h.2⟩, fun y hy => ?_, fun u d hu => ?_,
    fun d us hd u hu => ?_⟩
  · obtain ⟨hassignable, hnot, hrecord⟩ := hf.target r d y (hexpr ▸ hr)
    refine ⟨hexpr ▸ hassignable, fun z hz => ?_, fun d' us hd' => ?_⟩
    · exact hnot z (hne hz (by simp)).2
    · exact hrecord d' us (hne hd' (by simp)).2
  · obtain ⟨hyx, hlinky⟩ := hne rfl hy
    obtain ⟨hkind, hassignable⟩ := hf.link y (hlinky ▸ hy)
    exact ⟨hkind.imp (⟨·, hyx⟩) .inl, hexpr ▸ hassignable⟩
  · by_cases hyx : y = x
    · exact .inl (hyx ▸ hself)
    · rw [hother hyx]
      exact hf.free y (hy.resolve_right hyx)
  · exact hexpr ▸ hf.read u d (hne hu (by simp)).2
  · obtain ⟨hkind, hassignable⟩ := hf.recorded d us (hne hd (by simp)).2 u hu
    refine ⟨?_, hexpr ▸ hassignable⟩
    by_cases hux : u = x
    · exact .inr (.inr hux)
    · rw [hother hux]
      exact hkind.imp_right .inl

/-- What becomes of the link of a node when that of another one is removed. -/
theorem unlinked_cases (link : NodeId → Link) {x y : NodeId} (hyx : y ≠ x) :
    (∃ us, link x = .definition us ∧ y ∈ us ∧ Edit.unlinked link x y = .use none) ∨
      (∃ us, link y = .definition us ∧ Edit.unlinked link x y = .definition (us.filter (· != x))) ∨
      Edit.unlinked link x y = link y ∧ (link x = .use (some y) → ∀ us, link y ≠ .definition us) := by
  unfold Edit.unlinked
  rcases hx : link x with _ | us | _ | d
  · simp [hyx]
  · by_cases hy : y ∈ us
    · exact .inl ⟨us, rfl, hy, by simp [hy]⟩
    · exact .inr (.inr ⟨by simp [hy, hyx], nofun⟩)
  · simp [hyx]
  · by_cases hyd : y = d
    · subst hyd
      rcases hy : link y with _ | us | d'
      · simp [hyx]
      · exact .inr (.inl ⟨us, rfl, by simp [hyx]⟩)
      · simp [hyx]
    · refine .inr (.inr ⟨by simp [hyx, hyd], fun h => ?_⟩)
      cases h
      exact absurd rfl hyd

section Unlink

variable (hf : Fading f todo done) (hx : todo x) (hlink : g.linkOf = Edit.unlinked f.linkOf x)
include hf hx

/-- What is recorded of a node that is still to be unlinked is what it reads. -/
theorem Fading.reads {d : NodeId} {us : List NodeId} (hd : f.linkOf d = .definition us) (hmem : x ∈ us) :
    f.linkOf x = .use (some d) :=
  (hf.recorded d us hd x hmem).1.resolve_right (hf.apart x hx)

include hlink

theorem Fading.unlinked_self : g.linkOf x = .unlinked := by
  rw [hlink]
  unfold Edit.unlinked
  rcases hl : f.linkOf x with _ | us | _ | d
  · simp
  · have hmem : x ∉ us := fun hmem => by
      rw [hf.reads hx hl hmem] at hl
      cases hl
    simp [hmem]
  · simp
  · simp

theorem Fading.ne_of_linkOf {y : NodeId} {l : Link} (hy : g.linkOf y = l) (hl : l ≠ .unlinked) : y ≠ x := by
  rintro rfl
  exact hl (hy.symm.trans (hf.unlinked_self hx hlink))

theorem Fading.use_of_unlinked {y z : NodeId} (hy : g.linkOf y = .use (some z)) : f.linkOf y = .use (some z) := by
  obtain ⟨us, -, -, h⟩ | ⟨us, -, h⟩ | ⟨h, -⟩ := hlink ▸ unlinked_cases f.linkOf (hf.ne_of_linkOf hx hlink hy (by simp))
  · rw [h] at hy
    cases hy
  · rw [h] at hy
    cases hy
  · exact h ▸ hy

theorem Fading.definition_of_unlinked {y : NodeId} {us : List NodeId} (hy : g.linkOf y = .definition us) :
    ∃ us₀, f.linkOf y = .definition us₀ ∧ us ⊆ us₀ ∧ x ∉ us := by
  obtain ⟨us', -, -, h⟩ | ⟨us', hus', h⟩ | ⟨h, hnot⟩ :=
    hlink ▸ unlinked_cases f.linkOf (hf.ne_of_linkOf hx hlink hy (by simp))
  · rw [h] at hy
    cases hy
  · rw [h] at hy
    cases hy
    exact ⟨us', hus', List.filter_subset_self _, by simp⟩
  · rw [h] at hy
    exact ⟨us, hy, fun _ hu => hu, fun hmem => hnot (hf.reads hx hy hmem) us hy⟩

/-- What is assigned to does not come to be a read. -/
theorem Fading.target_of_unlinked {r d y : NodeId} (hr : f.exprAt r = some (.assign d y)) (z : Option NodeId) :
    g.linkOf d ≠ .use z := by
  obtain ⟨-, hnot, hrecord⟩ := hf.target r d y hr
  intro hz
  obtain ⟨us, hus, hmem, -⟩ | ⟨us, -, h⟩ | ⟨h, -⟩ :=
    hlink ▸ unlinked_cases f.linkOf (hf.ne_of_linkOf hx hlink hz (by simp))
  · exact hrecord x us hus hmem
  · rw [h] at hz
    cases hz
  · exact hnot z (h ▸ hz)

theorem Fading.link_of_unlinked {y : NodeId} (hy : g.linkOf y ≠ .unlinked) :
    ((todo y ∧ y ≠ x) ∨ done y) ∧ ∃ e, f.exprAt y = some e ∧ e.isAssignable = true := by
  have hyx := hf.ne_of_linkOf hx hlink rfl hy
  have hkept : f.linkOf y ≠ .unlinked → ((todo y ∧ y ≠ x) ∨ done y) ∧ ∃ e, f.exprAt y = some e ∧ e.isAssignable = true :=
    fun hne => ⟨(hf.link y hne).1.imp_left (⟨·, hyx⟩), (hf.link y hne).2⟩
  obtain ⟨us, hus, hmem, -⟩ | ⟨us, hus, -⟩ | ⟨h, -⟩ := hlink ▸ unlinked_cases f.linkOf hyx
  · obtain ⟨hread | hdone, hassignable⟩ := hf.recorded x us hus y hmem
    · exact hkept (by simp [hread])
    · exact ⟨.inr hdone, hassignable⟩
  · exact hkept (by simp [hus])
  · exact hkept (h ▸ hy)

theorem Fading.recorded_of_unlinked {d u : NodeId} {us : List NodeId} (hd : g.linkOf d = .definition us) (hu : u ∈ us) :
    (g.linkOf u = .use (some d) ∨ done u) ∧ ∃ e, f.exprAt u = some e ∧ e.isAssignable = true := by
  obtain ⟨us₀, hus₀, hsub, hxus⟩ := hf.definition_of_unlinked hx hlink hd
  obtain ⟨hread | hdone, hassignable⟩ := hf.recorded d us₀ hus₀ u (hsub hu)
  · refine ⟨?_, hassignable⟩
    have hux : u ≠ x := fun h => hxus (h ▸ hu)
    obtain ⟨us', hus', hmem, -⟩ | ⟨us', hus', -⟩ | ⟨h, -⟩ := hlink ▸ unlinked_cases f.linkOf hux
    · obtain hread' | hdone := (hf.recorded x us' hus' u hmem).1
      · rw [hread] at hread'
        cases hread'
        exact absurd rfl (hf.ne_of_linkOf hx hlink hd (by simp))
      · exact .inr hdone
    · rw [hread] at hus'
      cases hus'
    · exact .inl (h.trans hread)
  · exact ⟨.inr hdone, hassignable⟩

/-- A node whose link was removed on both sides is no longer part of what goes on. -/
theorem Fading.unlink (hshape : g.shapeAt = f.shapeAt) : Fading g (fun y => todo y ∧ y ≠ x) done := by
  have hexpr : g.exprAt = f.exprAt := by
    funext y
    simp [exprAt, hshape]
  refine ⟨fun z e hz => hexpr ▸ hf.closed z e (hexpr ▸ hz), fun r d y hr => ?_, fun y hy => ?_, fun y hy => hf.apart y hy.1,
    fun y hy => ?_, fun u d hu => hexpr ▸ hf.read u d (hf.use_of_unlinked hx hlink hu), fun d us hd u hu => ?_⟩
  · obtain ⟨hassignable, -, hrecord⟩ := hf.target r d y (hexpr ▸ hr)
    refine ⟨hexpr ▸ hassignable, hf.target_of_unlinked hx hlink (hexpr ▸ hr), fun d' us hd' hmem => ?_⟩
    obtain ⟨us₀, hus₀, hsub, -⟩ := hf.definition_of_unlinked hx hlink hd'
    exact hrecord d' us₀ hus₀ (hsub hmem)
  · exact hexpr ▸ hf.link_of_unlinked hx hlink hy
  · have hyx : y ≠ x := fun h => hf.apart x hx (h ▸ hy)
    obtain ⟨us, -, -, h⟩ | ⟨us, hus, -⟩ | ⟨h, -⟩ := hlink ▸ unlinked_cases f.linkOf hyx
    · exact .inr h
    · have hfree := hf.free y hy
      simp [Link.Free, hus] at hfree
    · exact h ▸ hf.free y hy
  · exact hexpr ▸ hf.recorded_of_unlinked hx hlink hd hu

end Unlink

namespace Bares

theorem refl (f : Flow) : Bares f f :=
  fun _ => .inl rfl

theorem trans (hfg : Bares f g) (hgh : Bares g h) : Bares f h := by
  intro y
  obtain hg | ⟨e, e', p, he, hv, he'⟩ := hfg y
  · exact hg ▸ hgh y
  · obtain hh | ⟨e₁, e₂, q, he₁, hv', he₂⟩ := hgh y
    · exact .inr ⟨e, e', p, he, hv, hh.trans he'⟩
    · rw [he'] at he₁
      cases he₁
      refine .inr ⟨e, e', p, he, hv, ?_⟩
      rw [he₂]
      cases e <;> cases hv <;> cases hv' <;> rfl

theorem exprAt_cases (hfg : Bares f g) (x : NodeId) : g.exprAt x = f.exprAt x ∨
    ∃ e e', f.exprAt x = some e ∧ e.withVersion? none = some e' ∧ g.exprAt x = some e' := by
  obtain h | ⟨e, e', p, he, hv, he'⟩ := hfg x
  · exact .inl (by simp [exprAt, h])
  · exact .inr ⟨e, e', exprAt_eq_some he, hv, exprAt_eq_some he'⟩

theorem exists_expr (hfg : Bares f g) {e : Expr NodeId} (hx : f.exprAt x = some e) :
    ∃ e', g.exprAt x = some e' ∧ e'.children = e.children ∧ e'.isAssignable = e.isAssignable := by
  obtain h | ⟨e₀, e', he, hv, he'⟩ := hfg.exprAt_cases x
  · exact ⟨e, h.trans hx, rfl, rfl⟩
  · rw [hx] at he
    cases he
    exact ⟨e', he', by cases e <;> cases hv <;> exact ⟨rfl, rfl⟩⟩

theorem exprAt_eq_none (hfg : Bares f g) (hx : f.exprAt x = none) : g.exprAt x = none := by
  obtain h | ⟨e, e', he, -⟩ := hfg.exprAt_cases x
  · exact h.trans hx
  · rw [hx] at he
    cases he

/-- An assignment has no version to lose. -/
theorem exprAt_assign_iff (hfg : Bares f g) {d y : NodeId} :
    g.exprAt x = some (.assign d y) ↔ f.exprAt x = some (.assign d y) := by
  obtain h | ⟨e, e', he, hv, he'⟩ := hfg.exprAt_cases x
  · rw [h]
  · rw [he, he']
    refine iff_of_false (fun h => ?_) fun h => ?_
    · cases h
      cases e <;> cases hv
    · cases h
      cases hv

theorem exists_stands (hfg : Bares f g) {p : Place} {t : Term} (ht : f.Stands p t) :
    ∃ t', g.Stands p t' ∧ t'.id = t.id ∧ t'.preorder = t.preorder := by
  refine ht.exists_similar fun y _ e q hy => ?_
  obtain h | ⟨e₀, e', p', he, hv, he'⟩ := hfg y
  · exact ⟨e, h.trans hy, rfl⟩
  · rw [hy] at he
    cases he
    exact ⟨e', he', by cases e <;> cases hv <;> rfl⟩

theorem exists_holds (hfg : Bares f g) (hstatements : g.statementAt = f.statementAt)
    {s : StatementId} {t : Term} (ht : f.Holds s t) :
    ∃ t', g.Holds s t' ∧ t'.id = t.id ∧ t'.preorder = t.preorder := by
  obtain ⟨st, hst, hroot, hstands⟩ := ht
  obtain ⟨t', ht', hid, hpreorder⟩ := hfg.exists_stands hstands
  exact ⟨t', ⟨st, hstatements ▸ hst, hroot.trans hid.symm, ht'⟩, hid, hpreorder⟩

end Bares

/-- Versions play no part in what happens to links. -/
theorem Fading.bares (hf : Fading f todo done) (hfg : Bares f g) (hlink : g.linkOf = f.linkOf) :
    Fading g todo done := by
  have hassignable : ∀ {x}, (∃ e, f.exprAt x = some e ∧ e.isAssignable = true) →
      ∃ e, g.exprAt x = some e ∧ e.isAssignable = true := by
    rintro x ⟨e, he, hkind⟩
    obtain ⟨e', he', -, hkind'⟩ := hfg.exists_expr he
    exact ⟨e', he', hkind'.trans hkind⟩
  have hne : ∀ {x}, f.exprAt x ≠ none → g.exprAt x ≠ none := by
    intro x hx
    obtain ⟨e, he⟩ := Option.ne_none_iff_exists'.1 hx
    obtain ⟨e', he', -⟩ := hfg.exists_expr he
    simp [he']
  refine ⟨fun z e' hz c hc => ?_, fun r d y hr => ?_, fun x hx => ?_, hf.apart,
    fun x hx => hlink ▸ hf.free x hx, fun u d hu => hne (hf.read u d (hlink ▸ hu)), fun d us hd u hu => ?_⟩
  · obtain ⟨e, he⟩ := Option.ne_none_iff_exists'.1 fun h => by
      rw [hfg.exprAt_eq_none h] at hz
      cases hz
    obtain ⟨e₁, he₁, hchildren, -⟩ := hfg.exists_expr he
    rw [hz] at he₁
    cases he₁
    exact hne (hf.closed z e he c (hchildren ▸ hc))
  · obtain ⟨hkind, hnot, hrecord⟩ := hf.target r d y (hfg.exprAt_assign_iff.1 hr)
    exact ⟨hassignable hkind, hlink ▸ hnot, hlink ▸ hrecord⟩
  · obtain ⟨htodo, hkind⟩ := hf.link x (hlink ▸ hx)
    exact ⟨htodo, hassignable hkind⟩
  · obtain ⟨hread, hkind⟩ := hf.recorded d us (hlink ▸ hd) u hu
    exact ⟨hlink ▸ hread, hassignable hkind⟩

/-- A flow `g` is a flow `f` with the same statements, in which the nodes `xs` have lost their links
    and versions. -/
structure Strips (f : Flow) (xs : List NodeId) (g : Flow) : Prop where
  bares : Bares f g
  kept : ∀ y, y ∉ xs → g.shapeAt y = f.shapeAt y
  bare : ∀ y ∈ xs, ∀ e p, g.shapeAt y = some (e, p) → e.version? = none
  link : ∀ y, g.linkOf y = if y ∈ xs then .unlinked else f.linkOf y
  entry_eq : g.entry = f.entry
  statements_eq : g.statements = f.statements
  blocks_eq : g.blocks = f.blocks

namespace Strips

variable {xs ys : List NodeId}

theorem nil (f : Flow) : Strips f [] f :=
  ⟨.refl f, fun _ _ => rfl, nofun, fun _ => rfl, rfl, rfl, rfl⟩

theorem append (hfg : Strips f xs g) (hgh : Strips g ys h) : Strips f (xs ++ ys) h := by
  refine ⟨hfg.bares.trans hgh.bares, fun y hy => ?_, fun y hy e p he => ?_, fun y => ?_,
    hgh.entry_eq.trans hfg.entry_eq, hgh.statements_eq.trans hfg.statements_eq,
    hgh.blocks_eq.trans hfg.blocks_eq⟩
  · rw [List.mem_append, not_or] at hy
    rw [hgh.kept y hy.2, hfg.kept y hy.1]
  · by_cases hys : y ∈ ys
    · exact hgh.bare y hys e p he
    · rw [hgh.kept y hys] at he
      exact hfg.bare y ((List.mem_append.1 hy).resolve_right hys) e p he
  · rw [hgh.link, hfg.link]
    by_cases hys : y ∈ ys <;> simp [hys]

end Strips

/-- The link and the version of a node can be removed. -/
theorem clear_gives (hf : Fading f todo done) (hx : todo x) (hnode : f.shapeAt x ≠ none) :
    Gives (clear x) f fun _ g =>
      Strips f [x] g ∧ Fading g (fun y => todo y ∧ y ≠ x) fun y => done y ∨ y = x := by
  obtain ⟨⟨e, p⟩, hshape⟩ := Option.ne_none_iff_exists'.1 hnode
  unfold clear
  refine .of_bind ((Edit.setLink_gives hshape _).mono fun _ g hg => ?_)
  have hfading := hf.clear hx hg.shape_eq hg.link_eq
  have hbares : Bares f g := fun y => .inl (by rw [hg.shape_eq])
  have hshape' : g.shapeAt x = some (e, p) := hg.shape_eq ▸ hshape
  have hlink : ∀ y, g.linkOf y = if y ∈ [x] then .unlinked else f.linkOf y := fun y => by
    simp [hg.link_eq, Function.update_apply]
  refine .of_bind (.of_view (expr_eq hshape') ?_)
  cases hkind : e.isAssignable with
  | false =>
    refine .of_pure ⟨⟨hbares, fun y _ => by rw [hg.shape_eq], fun y hy e' p' he' => ?_, hlink, hg.entry_eq,
      hg.statements_eq, hg.blocks_eq⟩, hfading⟩
    obtain rfl := List.mem_singleton.1 hy
    rw [hshape'] at he'
    cases he'
    cases e <;> simp_all [Expr.isAssignable, Expr.version?]
  | true =>
    obtain ⟨e', he', hversion⟩ := Expr.exists_withVersion hkind none
    refine (Edit.setVersion_gives hshape' he').mono fun _ h hh => ?_
    have hother : ∀ y, y ≠ x → h.shapeAt y = g.shapeAt y := fun y hy => by
      rw [hh.shape_eq, Function.update_of_ne hy]
    have hself : h.shapeAt x = some (e', p) := by rw [hh.shape_eq, Function.update_self]
    have hbares' : Bares g h := by
      intro y
      by_cases hy : y = x
      · subst hy
        exact .inr ⟨e, e', p, hshape', he', hself⟩
      · exact .inl (hother y hy)
    refine ⟨⟨hbares.trans hbares', fun y hy => ?_, fun y hy e₁ p₁ he₁ => ?_, hh.link_eq ▸ hlink,
      hh.entry_eq.trans hg.entry_eq, hh.statements_eq.trans hg.statements_eq,
      hh.blocks_eq.trans hg.blocks_eq⟩, hfading.bares hbares' hh.link_eq⟩
    · rw [hother y (by simpa using hy), hg.shape_eq]
    · obtain rfl := List.mem_singleton.1 hy
      rw [hself] at he₁
      cases he₁
      cases e <;> cases he' <;> rfl

theorem Fading.congr {todo' done' : NodeId → Prop} (hf : Fading f todo done)
    (htodo : ∀ x, todo x ↔ todo' x) (hdone : ∀ x, done x ↔ done' x) : Fading f todo' done' := by
  obtain rfl : todo = todo' := funext fun x => propext (htodo x)
  obtain rfl : done = done' := funext fun x => propext (hdone x)
  exact hf

theorem clears_gives (xs : List NodeId) (hf : Fading f todo done) (hnodup : xs.Nodup)
    (hxs : ∀ x ∈ xs, todo x ∧ f.shapeAt x ≠ none) : Gives (xs.forM clear) f fun _ g =>
      Strips f xs g ∧ Fading g (fun y => todo y ∧ y ∉ xs) fun y => done y ∨ y ∈ xs := by
  induction xs generalizing f todo done with
  | nil =>
    exact .of_pure ⟨.nil f, hf.congr (by simp) (by simp)⟩
  | cons x rest ih =>
    obtain ⟨hx, hnodup⟩ := List.nodup_cons.1 hnodup
    obtain ⟨htodo, hnode⟩ := hxs x (by simp)
    refine .of_bind ((clear_gives hf htodo hnode).mono fun _ g ⟨hstrips, hg⟩ => ?_)
    refine (ih hg hnodup fun y hy => ?_).mono fun _ h ⟨hstrips', hh⟩ => ?_
    · obtain ⟨htodo, hnode⟩ := hxs y (by simp [hy])
      refine ⟨⟨htodo, fun h => hx (h ▸ hy)⟩, ?_⟩
      obtain ⟨e, he⟩ := Option.ne_none_iff_exists'.1 (exprAt_ne_none.2 hnode)
      obtain ⟨e', he', -⟩ := hstrips.bares.exists_expr he
      exact exprAt_ne_none.1 (by simp [he'])
    · refine ⟨hstrips.append hstrips', hh.congr (fun y => ?_) fun y => ?_⟩
      · simp only [List.mem_cons, not_or, and_assoc]
      · simp only [List.mem_cons, or_assoc]

/-- Links are removed one after the other. -/
theorem unlinks_fade (xs : List NodeId) (hf : Fading f todo done) (hnodup : xs.Nodup)
    (hxs : ∀ x ∈ xs, todo x ∧ f.shapeAt x ≠ none) : Gives (xs.forM Edit.unlink) f fun _ g =>
      f.Becomes g f.shapeAt (xs.foldl Edit.unlinked f.linkOf) ∧
        Fading g (fun y => todo y ∧ y ∉ xs) done := by
  induction xs generalizing f todo with
  | nil => exact .of_pure ⟨.refl f, hf.congr (by simp) (by simp)⟩
  | cons x rest ih =>
    obtain ⟨hx, hnodup⟩ := List.nodup_cons.1 hnodup
    obtain ⟨htodo, hnode⟩ := hxs x (by simp)
    have hread : ∀ d, f.linkOf x = .use (some d) → f.shapeAt d ≠ none := fun d hd =>
      exprAt_ne_none.1 (hf.read x d hd)
    have huses : ∀ u ∈ (f.linkOf x).uses, f.shapeAt u ≠ none := by
      intro u hu
      obtain ⟨-, e, he, -⟩ := hf.recorded x _ (Link.eq_definition_of_mem_uses hu) u hu
      exact exprAt_ne_none.1 (by simp [he])
    refine .of_bind ((Edit.unlink_becomes hnode hread huses).mono fun _ g hg => ?_)
    have hfading := hf.unlink htodo hg.link_eq hg.shape_eq
    refine (ih hfading hnodup fun y hy => ?_).mono fun _ h ⟨hh, hfading'⟩ => ?_
    · obtain ⟨htodo, hnode⟩ := hxs y (by simp [hy])
      exact ⟨⟨htodo, fun h => hx (h ▸ hy)⟩, hg.shape_eq ▸ hnode⟩
    · refine ⟨?_, hfading'.congr (fun y => ?_) fun _ => Iff.rfl⟩
      · rw [List.foldl_cons, ← hg.link_eq, ← hg.shape_eq]
        exact hg.trans hh
      · simp only [List.mem_cons, not_or, and_assoc]

/-- A node is in one of some statements. -/
def Among (f : Flow) (ss : List StatementId) (x : NodeId) : Prop :=
  ∃ s ∈ ss, ∃ t, f.Holds s t ∧ x ∈ t.preorder

/-- A node is in another statement that is not removed. -/
def Beside (f : Flow) (ss : List StatementId) (x : NodeId) : Prop :=
  ∃ s t, s ∉ ss ∧ f.Live s ∧ f.Holds s t ∧ x ∈ t.preorder

/-- The state of a flow, `f₀` before, in which the statements `rest` are still to be untagged. -/
structure Untagging (f₀ : Flow) (rest : List StatementId) (f : Flow) : Prop where
  forest : f.Forest
  rooted : f.Rooted
  graph : f₀.SameGraph f
  live : ∀ s ∈ rest, f.Live s
  nodup : rest.Nodup
  fading : Fading f (Among f rest) (Beside f rest)

variable {f₀ : Flow} {s : StatementId} {rest : List StatementId}

theorem isThetaAssignment_eq {t : Term} (ht : f.Holds s t) : ∃ b, isThetaAssignment f s = .ok b := by
  unfold isThetaAssignment
  rw [ht.rootExpr_eq]
  obtain ⟨r, e⟩ := t
  cases e with
  | assign a b =>
    have hb : Term.Within b (.node r (.assign a b)) := .of_mem_children (by simp [Expr.children])
    obtain ⟨q, hq⟩ := ht.stands.exists_of_within hb
    change ∃ c, (f.expr b.id >>= _) = _
    rw [expr_eq hq.shape_id]
    exact ⟨_, rfl⟩
  | _ => exact ⟨_, rfl⟩

/-- A statement is removed. -/
private theorem Untagging.remove {t : Term} {st : Statement} (hf : Untagging f₀ (s :: rest) f)
    (ht : f.Holds s t) (hst : f.statementAt s = some st) (hg : f.Removes g s st)
    (hfading : Fading g (fun y => Among f (s :: rest) y ∧ y ∉ t.postorder) (Beside f (s :: rest))) :
    Untagging f₀ rest g := by
  obtain ⟨hs, hnodup⟩ := List.nodup_cons.1 hf.nodup
  have hforest := hg.forest hf.forest hst
  have hold : ∀ {s' u}, g.Holds s' u → f.Live s' → f.Holds s' u := by
    rintro s' u hu ⟨st', hst', -⟩
    obtain ⟨u', hu'⟩ := hf.forest.holds s' st' hst'
    exact hu.unique (hg.holds hst hu') ▸ hu'
  have hlive : ∀ s' ∈ rest, f.Live s' ∧ s' ≠ s := fun s' hs' =>
    ⟨hf.live s' (by simp [hs']), fun h => hs (h ▸ hs')⟩
  refine ⟨hforest, hg.rooted hf.rooted hst, hf.graph.trans hg.graph, fun s' hs' =>
    hg.live (hlive s' hs').2 (hlive s' hs').1, hnodup, hfading.congr (fun x => ?_) fun x => ?_⟩
  · constructor
    · rintro ⟨⟨s', hs', u, hu, hx⟩, hxt⟩
      obtain rfl | hs' := List.mem_cons.1 hs'
      · exact absurd (Term.mem_postorder.2 (hu.unique ht ▸ hx)) hxt
      · exact ⟨s', hs', u, hg.holds hst hu, hx⟩
    · rintro ⟨s', hs', u, hu, hx⟩
      have hu := hold hu (hlive s' hs').1
      refine ⟨⟨s', by simp [hs'], u, hu, hx⟩, fun hxt => (hlive s' hs').2 ?_⟩
      exact hu.statement_unique ht hx (Term.mem_postorder.1 hxt)
  · constructor
    · rintro ⟨s', u, hs', hlive', hu, hx⟩
      rw [List.mem_cons, not_or] at hs'
      exact ⟨s', u, hs'.2, hg.live hs'.1 hlive', hg.holds hst hu, hx⟩
    · rintro ⟨s', u, hs', hlive', hu, hx⟩
      obtain ⟨hne, hlive'⟩ := hg.live_old hlive'
      exact ⟨s', u, by simp [hne, hs'], hlive', hold hu hlive', hx⟩

/-- A statement is stripped of its links and versions. -/
private theorem Untagging.strip {t : Term} {xs : List NodeId} (hf : Untagging f₀ (s :: rest) f)
    (ht : f.Holds s t) (hxs : ∀ x, x ∈ xs ↔ x ∈ t.preorder) (hg : Strips f xs g)
    (hfading : Fading g (fun y => Among f (s :: rest) y ∧ y ∉ xs)
      fun y => Beside f (s :: rest) y ∨ y ∈ xs) : Untagging f₀ rest g := by
  obtain ⟨hs, hnodup⟩ := List.nodup_cons.1 hf.nodup
  have hstatement : g.statementAt = f.statementAt := by
    funext s'
    simp [statementAt, hg.statements_eq]
  have hholds := fun {s' : StatementId} {u : Term} => hg.bares.exists_holds (s := s') (t := u) hstatement
  have hforest : g.Forest := hf.forest.of_holds hg.blocks_eq (fun s' => by rw [hstatement]) fun s' u hu => by
    obtain ⟨u', hu', -⟩ := hholds hu
    exact ⟨u', hu'⟩
  have hold : ∀ {s' u}, g.Holds s' u → ∃ u', f.Holds s' u' ∧ u'.preorder = u.preorder := by
    intro s' u hu
    obtain ⟨st', hst', -⟩ := id hu
    obtain ⟨u', hu'⟩ := hf.forest.holds s' st' (hstatement ▸ hst')
    obtain ⟨u'', hu'', -, hpreorder⟩ := hholds hu'
    exact ⟨u', hu', by rw [← hpreorder, hu.unique hu'']⟩
  refine ⟨hforest, fun r d y hr => ?_, hf.graph.trans (.of_blocks_eq hg.entry_eq hg.blocks_eq),
    fun s' hs' => (hf.live s' (by simp [hs'])).congr (by rw [hstatement]), hnodup,
    hfading.congr (fun x => ?_) fun x => ?_⟩
  · obtain ⟨s', u, hu, rfl⟩ := hf.rooted r d y (hg.bares.exprAt_assign_iff.1 hr)
    obtain ⟨u', hu', hid, -⟩ := hholds hu
    exact ⟨s', u', hu', hid⟩
  · constructor
    · rintro ⟨⟨s', hs', u, hu, hx⟩, hxt⟩
      obtain ⟨u', hu', -, hpreorder⟩ := hholds hu
      obtain rfl | hs' := List.mem_cons.1 hs'
      · exact absurd ((hxs x).2 (hu.unique ht ▸ hx)) hxt
      · exact ⟨s', hs', u', hu', hpreorder ▸ hx⟩
    · rintro ⟨s', hs', u, hu, hx⟩
      obtain ⟨u', hu', hpreorder⟩ := hold hu
      refine ⟨⟨s', by simp [hs'], u', hu', hpreorder ▸ hx⟩, fun hxt => hs ?_⟩
      rwa [← hu'.statement_unique ht (hpreorder ▸ hx) ((hxs x).1 hxt)]
  · constructor
    · rintro (⟨s', u, hs', hlive', hu, hx⟩ | hx)
      · obtain ⟨u', hu', -, hpreorder⟩ := hholds hu
        rw [List.mem_cons, not_or] at hs'
        exact ⟨s', u', hs'.2, hlive'.congr (by rw [hstatement]), hu', hpreorder ▸ hx⟩
      · obtain ⟨t', ht', -, hpreorder⟩ := hholds ht
        exact ⟨s, t', hs, (hf.live s (by simp)).congr (by rw [hstatement]), ht',
          hpreorder ▸ (hxs x).1 hx⟩
    · rintro ⟨s', u, hs', hlive', hu, hx⟩
      obtain ⟨u', hu', hpreorder⟩ := hold hu
      by_cases hss : s' = s
      · subst hss
        exact .inr ((hxs x).2 (hu'.unique ht ▸ hpreorder ▸ hx))
      · exact .inl ⟨s', u', by simp [hss, hs'], hlive'.congr (by rw [hstatement]), hu', hpreorder ▸ hx⟩

/-- What untagging does to a statement with a tree: a merge goes with its links, and any other statement
    loses its links and versions. -/
inductive Untags (f : Flow) (s : StatementId) (t : Term) (g : Flow) : Prop
  | merge {st : Statement} (merges : isThetaAssignment f s = .ok true) (statement : f.statementAt s = some st)
    (removes : f.Removes g s st) (link : g.linkOf = t.postorder.foldl Edit.unlinked f.linkOf)
  | plain {xs : List NodeId} (keeps : isThetaAssignment f s = .ok false) (nodes : ∀ x, x ∈ xs ↔ x ∈ t.preorder)
    (strips : Strips f xs g)

theorem untagStatement_gives {t : Term} (hf : Untagging f₀ (s :: rest) f) (ht : f.Holds s t) :
    Gives (untagStatement s) f fun _ g => Untagging f₀ rest g ∧ Untags f s t g := by
  obtain ⟨st, hst, hremoved⟩ := hf.live s (by simp)
  obtain ⟨st', hst', hroot, -⟩ := id ht
  obtain rfl := Option.some.inj (hst.symm.trans hst')
  have hnodes : ∀ x ∈ t.preorder, Among f (s :: rest) x ∧ f.shapeAt x ≠ none := fun x hx =>
    ⟨⟨s, by simp, t, ht, hx⟩, ht.stands.shapeAt_ne_none hx⟩
  obtain ⟨b, hb⟩ := isThetaAssignment_eq ht
  unfold untagStatement
  refine .of_bind (.of_view (statement_eq hst) (.of_bind (.of_view hb ?_)))
  rw [hroot]
  cases b with
  | true =>
    have hnodup := t.postorder_perm.nodup_iff.2 ht.nodup
    unfold Edit.unlinkSubtree
    refine .of_bind (.of_bind (.of_view (ht.term_eq (.refl t)) ?_))
    refine (unlinks_fade t.postorder hf.fading hnodup fun x hx => ?_).mono fun _ g ⟨hg, hfading⟩ => ?_
    · exact hnodes x (Term.mem_postorder.1 hx)
    · refine (Edit.removeStatement_removes hg hst hremoved).mono fun _ h ⟨hremoves, hlink⟩ => ?_
      have hbares : Bares g h := fun y => .inl (by rw [hremoves.shape_eq, hg.shape_eq])
      exact ⟨hf.remove ht hst hremoves (hfading.bares hbares hlink),
        .merge hb hst hremoves (hlink.trans hg.link_eq)⟩
  | false =>
    have hmem : ∀ x, x ∈ t.preorder.tail ++ [t.id] ↔ x ∈ t.preorder := by
      intro x
      rw [t.preorder_eq, List.tail_cons, List.mem_append, List.mem_singleton, List.mem_cons, or_comm]
    have hnodup : (t.preorder.tail ++ [t.id]).Nodup := by
      have hnodup := ht.nodup
      rw [t.preorder_eq] at hnodup
      exact (List.perm_append_singleton _ _).nodup_iff.2 hnodup
    refine .of_bind (.of_view ht.operands_eq ?_)
    have hclears := clears_gives (t.preorder.tail ++ [t.id]) hf.fading hnodup fun x hx =>
      hnodes x ((hmem x).1 hx)
    simp only [List.forM_eq_forM, List.forM_append, List.forM_cons, List.forM_nil, bind_pure_unit]
      at hclears ⊢
    refine hclears.mono fun _ g ⟨hstrips, hfading⟩ => ?_
    exact ⟨hf.strip ht hmem hstrips hfading, .plain hb hmem hstrips⟩

/-- All statements of a sound flow are still to be untagged. -/
theorem Untagging.start (hf : f.Sound V) (hrooted : f.Rooted) : Untagging f f.liveStatements f := by
  refine ⟨hf.forest, hrooted, .refl f, fun s hs => hf.forest.mem_liveStatements.1 hs,
    hf.forest.nodup_liveStatements, ?_⟩
  have hfading : Fading f (Among f f.liveStatements) fun _ => False := .start hf.wired fun x hx => by
    obtain ⟨s, t, hs, ht, hxt⟩ := hf.held x hx
    exact ⟨s, hf.forest.mem_liveStatements.2 hs, t, ht, hxt⟩
  refine hfading.congr (fun _ => Iff.rfl) fun x => iff_of_false id ?_
  rintro ⟨s, t, hs, hlive, -⟩
  exact hs (hf.forest.mem_liveStatements.2 hlive)

/-- A flow in which all statements are untagged is sound. -/
theorem Untagging.sound (hf : Untagging f₀ [] f) : f.Sound .any := by
  have hnone : ∀ x, ¬ Among f [] x := by
    rintro x ⟨s, hs, -⟩
    cases hs
  have hfading := hf.fading.congr (fun x => (iff_of_false (hnone x) id : Among f [] x ↔ False))
    fun _ => Iff.rfl
  refine hfading.wired.sound hf.forest fun x hx => ?_
  obtain ⟨s, t, -, hlive, ht, hxt⟩ := (hfading.link x hx).1.resolve_left id
  exact ⟨s, t, hlive, ht, hxt⟩

/-- Whatever each statement that is untagged keeps holds in the end. -/
theorem untag_keeps {I : List StatementId → Flow → Prop} (hf : f.Sound V) (hrooted : f.Rooted)
    (hstart : I f.liveStatements f)
    (hstep : ∀ s rest t g h, Untagging f (s :: rest) g → g.Holds s t → Untags g s t h → I (s :: rest) g → I rest h) :
    Gives untag f fun _ g => Untagging f [] g ∧ I [] g := by
  unfold untag
  refine .of_bind (.of_get (Gives.of_forM (I := fun rest g => Untagging f rest g ∧ I rest g) ?_ _
    ⟨.start hf hrooted, hstart⟩))
  rintro s rest g ⟨hg, hI⟩
  obtain ⟨st, hst, -⟩ := hg.live s (by simp)
  obtain ⟨t, ht⟩ := hg.forest.holds s st hst
  exact (untagStatement_gives hg ht).mono fun _ h ⟨hh, huntags⟩ => ⟨hh, hstep s rest t g h hg ht huntags hI⟩

/-- Tags can be removed from every sound flow, which stays sound. -/
theorem untag_gives (hf : f.Sound V) (hrooted : f.Rooted) : Gives untag f fun _ g =>
    g.Sound .any ∧ g.Rooted ∧ f.SameGraph g :=
  (untag_keeps (I := fun _ _ => True) hf hrooted trivial fun _ _ _ _ _ _ _ _ _ => trivial).mono
    fun _ _ ⟨hg, _⟩ => ⟨hg.sound, hg.rooted, hg.graph⟩

end Tagging

end FrameRecovery
