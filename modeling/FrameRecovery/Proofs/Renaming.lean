import FrameRecovery.Proofs.Flow.Wired
import FrameRecovery.Proofs.Machine
import FrameRecovery.Proofs.Propagation
import FrameRecovery.Proofs.Pruning
import FrameRecovery.Renaming

namespace FrameRecovery

open Flow

namespace Renaming

variable {σ α β : Type} {state : σ} {f : Flow}

/-- A change of a flow and of a state beside it does not fail, and its result and both states after
    it are as stated. -/
def Succeeds (x : Renaming σ α) (state : σ) (f : Flow) (Q : α → σ → Flow → Prop) : Prop :=
  Gives (x.run.run state) f fun r g => ∃ a, r.1 = .ok a ∧ Q a r.2 g

namespace Succeeds

theorem mono {x : Renaming σ α} {Q R : α → σ → Flow → Prop} (h : Succeeds x state f Q)
    (hmono : ∀ a state' g, Q a state' g → R a state' g) : Succeeds x state f R :=
  Gives.mono h fun _ _ ⟨a, hr, hQ⟩ => ⟨a, hr, hmono _ _ _ hQ⟩

theorem of_pure {a : α} {Q : α → σ → Flow → Prop} (h : Q a state f) :
    Succeeds (pure a) state f Q :=
  Gives.of_pure ⟨a, rfl, h⟩

theorem of_bind {x : Renaming σ α} {k : α → Renaming σ β} {Q : β → σ → Flow → Prop}
    (h : Succeeds x state f fun a state' g => Succeeds (k a) state' g Q) :
    Succeeds (x >>= k) state f Q := by
  unfold Succeeds
  rw [ExceptT.run_bind, StateT.run_bind]
  refine Gives.of_bind (Gives.mono h ?_)
  rintro ⟨r, state'⟩ g ⟨a, rfl, hk⟩
  exact hk

theorem of_edit {x : Edit α} {Q : α → Flow → Prop} (h : Gives x f Q) :
    Succeeds (liftM x) state f fun a state' g => state' = state ∧ Q a g := by
  obtain ⟨a, g, hx, hQ⟩ := h
  refine ⟨(.ok a, state), g, ?_, a, rfl, rfl, hQ⟩
  change ((x f >>= fun r => Except.ok ((r.1, state), r.2)) >>=
    fun r => Except.ok ((Except.ok r.1.1, r.1.2), r.2)) = _
  rw [hx]
  rfl

theorem of_pass {x : Pass α} {Q : α → Flow → Prop} (h : FrameRecovery.Succeeds x f Q) :
    Succeeds (ExceptT.mk (liftM x.run)) state f fun a state' g => state' = state ∧ Q a g := by
  obtain ⟨r, g, hx, a, rfl, hQ⟩ := h
  refine ⟨(.ok a, state), g, ?_, a, rfl, rfl, hQ⟩
  change (x.run f >>= fun r => Except.ok ((r.1, state), r.2)) = _
  rw [hx]
  rfl

theorem of_view {read : Flow → Except Fault α} {a : α} {Q : α → σ → Flow → Prop}
    (hread : read f = .ok a) (h : Q a state f) : Succeeds (Edit.view read) state f Q := by
  have hlook : Gives (Edit.look read) f fun a' g => a' = a ∧ g = f :=
    ⟨a, f, by rw [Edit.look, hread]; rfl, rfl, rfl⟩
  refine (of_edit hlook).mono ?_
  rintro _ _ _ ⟨rfl, rfl, rfl⟩
  exact h

theorem of_getThe {Q : σ → σ → Flow → Prop} (h : Q state state f) :
    Succeeds (getThe σ : Renaming σ σ) state f Q :=
  ⟨(.ok state, state), f, rfl, state, rfl, h⟩

theorem of_set {state' : σ} {Q : Unit → σ → Flow → Prop} (h : Q () state' f) :
    Succeeds (set state' : Renaming σ Unit) state f Q :=
  ⟨(.ok (), state'), f, rfl, (), rfl, h⟩

end Succeeds

end Renaming

namespace Flow

variable {f g : Flow} {V : Locations} {s : StatementId} {T t t' : Term} {x : NodeId} {e : Expr NodeId}
  {R : NodeId → NodeId → Prop} {p : Place}

/-- Removing the links of some nodes keeps links right. -/
theorem Wired.without {xs : List NodeId} (hf : f.Wired V) (hexpr : g.exprAt = f.exprAt)
    (hlink : g.linkOf = f.linksWithout xs) : g.Wired V := by
  refine ⟨hf.typed.without hexpr hlink, hf.mirrored.without hlink, fun x e hx huntagged => ?_,
    fun u d n v hu hd => ?_⟩
  · rw [hexpr] at hx
    exact Free.without (hf.untagged x e hx huntagged) hlink
  · rw [hexpr] at hd ⊢
    rw [hlink, linksWithout] at hu
    split at hu
    · cases hu
    · exact hf.register u d n v (Link.drop_eq_use.1 hu).1 hd

/-- A node of a copy is of the kind of a node of the tree. -/
theorem Copies.old_or_source (h : f.Copies g R t t') (ht : f.Stands p t) (hx : g.exprAt x = some e) :
    f.exprAt x = some e ∨
      f.exprAt x = none ∧ ∃ x₀ ∈ t.preorder, ∃ e₀, f.exprAt x₀ = some e₀ ∧ e.head = e₀.head := by
  cases hfx : f.exprAt x with
  | some e' =>
    rw [h.grows.retains.exprAt_eq (by simp [hfx]), hfx] at hx
    exact .inl hx
  | none =>
    have hshape : g.shapeAt x ≠ none := exprAt_ne_none.1 (by simp [hx])
    obtain hfx' | hmem := h.grows.made x hshape
    · exact absurd hfx (exprAt_ne_none.2 hfx')
    · obtain ⟨x₀, hx₀, hR⟩ := h.source x hmem
      obtain ⟨e', e₀, he', he₀, hhead, -⟩ := h.mimics.exists_expr hR
      rw [hx] at he'
      cases he'
      have hne := exprAt_ne_none.2 (ht.shapeAt_ne_none hx₀)
      exact .inr ⟨rfl, x₀, hx₀, e₀, h.grows.retains.exprAt_eq hne ▸ he₀, hhead⟩

/-- A copy without links keeps links right, as long as it holds no assignment. -/
theorem Wired.snapshot (hf : f.Wired V) (h : f.Copies g R t t') (ht : f.Stands p t)
    (hlink : g.linkOf = f.linkOf)
    (hplain : ∀ x ∈ t.preorder, ∀ d y, f.exprAt x ≠ some (.assign d y)) : g.Wired V := by
  have hkept : ∀ {x e}, f.exprAt x = some e → g.exprAt x = some e := fun {x e} hx => by
    rw [h.grows.retains.exprAt_eq (by simp [hx]), hx]
  have hold := fun {x e} => h.old_or_source (x := x) (e := e) ht
  refine ⟨⟨hf.typed.closed.pending h.pending, fun r d y hr => ?_, fun x hx => ?_, fun x e' hx => ?_⟩,
    hf.mirrored.of_linkOf_eq hlink, fun x e hx huntagged => ?_, fun u d n v hu hd => ?_⟩
  · obtain hr | ⟨-, x₀, hx₀, e₀, he₀, hhead⟩ := hold hr
    · obtain ⟨⟨e, he, hassignable⟩, hnot⟩ := hf.typed.target r d y hr
      exact ⟨⟨e, hkept he, hassignable⟩, fun z => hlink ▸ hnot z⟩
    · obtain ⟨d₀, y₀, rfl⟩ := Expr.eq_assign_of_head_eq hhead.symm
      exact absurd he₀ (hplain x₀ hx₀ d₀ y₀)
  · rw [hlink] at hx
    obtain ⟨e, he, hassignable⟩ := hf.typed.link x hx
    exact ⟨e, hkept he, hassignable⟩
  · obtain hx | ⟨-, x₀, -, e₀, he₀, hhead⟩ := hold hx
    · exact hf.typed.location x e' hx
    · exact (Locations.admits_iff_of_head_eq hhead).2 (hf.typed.location x₀ e₀ he₀)
  · rw [hlink]
    obtain hx | ⟨hnone, -⟩ := hold hx
    · exact hf.untagged x e hx huntagged
    · exact .inl (linkOf_eq_unlinked (by simpa [exprAt] using hnone))
  · rw [hlink] at hu
    obtain hd | ⟨hnone, -⟩ := hold hd
    · exact hkept (hf.register u d n v hu hd)
    · exact absurd hnone (hf.typed.linked hf.mirrored hu)

/-- A flow `g` has what is in a flow `f`, with changes to at most the nodes `xs`. -/
structure Alters (f g : Flow) (xs : List NodeId) : Prop where
  statementAt_eq : g.statementAt = f.statementAt
  ne_none : ∀ x, f.shapeAt x ≠ none → g.shapeAt x ≠ none
  shapeAt_eq : ∀ x, f.shapeAt x ≠ none → x ∉ xs → g.shapeAt x = f.shapeAt x

namespace Alters

variable {h : Flow} {xs ys : List NodeId}

theorem refl (f : Flow) (xs : List NodeId) : f.Alters f xs :=
  ⟨rfl, fun _ h => h, fun _ _ _ => rfl⟩

theorem trans (hfg : f.Alters g xs) (hgh : g.Alters h ys) : f.Alters h (xs ++ ys) := by
  refine ⟨hgh.statementAt_eq.trans hfg.statementAt_eq, fun x hx => hgh.ne_none x (hfg.ne_none x hx), fun x hx hout => ?_⟩
  rw [List.mem_append, not_or] at hout
  rw [hgh.shapeAt_eq x (hfg.ne_none x hx) hout.2, hfg.shapeAt_eq x hx hout.1]

theorem mono (hfg : f.Alters g xs) (hsub : xs ⊆ ys) : f.Alters g ys :=
  ⟨hfg.statementAt_eq, hfg.ne_none, fun x hx hout => hfg.shapeAt_eq x hx fun hmem => hout (hsub hmem)⟩

theorem stands (hfg : f.Alters g xs) (ht : f.Stands p t) (hout : ∀ x ∈ t.preorder, x ∉ xs) : g.Stands p t :=
  ht.congr fun x hx => hfg.shapeAt_eq x (ht.shapeAt_ne_none hx) (hout x hx)

theorem holds (hfg : f.Alters g xs) (ht : f.Holds s t) (hout : ∀ x ∈ t.preorder, x ∉ xs) : g.Holds s t := by
  obtain ⟨st, hst, hroot, hstands⟩ := ht
  exact ⟨st, by rw [hfg.statementAt_eq, hst], hroot, hfg.stands hstands hout⟩

theorem exprAt_eq (hfg : f.Alters g xs) (hx : f.exprAt x = some e) (hout : x ∉ xs) : g.exprAt x = some e := by
  obtain ⟨q, hq⟩ := exists_shapeAt_of_exprAt hx
  exact exprAt_eq_some ((hfg.shapeAt_eq x (by simp [hq]) hout).trans hq)

end Alters

/-- What stands for an operand: a location for a location, and otherwise no location. -/
structure StandsFor (f : Flow) (x : NodeId) (e : Expr NodeId) : Prop where
  closed : ∀ c ∈ e.children, f.exprAt c ≠ none
  new : (∃ n v o, e = .var n v o) ∨ ∃ y, e = .addressOf y
  location : e.isAssignable = true → ∃ a v, f.exprAt x = some (.deref a v)
  other : e.isAssignable = false → f.linkOf x = .unlinked ∧ ∀ r y, f.exprAt r ≠ some (.assign x y)

/-- Putting something else at an operand keeps links right. -/
theorem Wired.standsFor (hf : f.Wired .any) (he : f.StandsFor x e)
    (hexpr : g.exprAt = Function.update f.exprAt x (some e)) (hlink : g.linkOf = f.linkOf) :
    g.Wired .any := by
  have hself : g.exprAt x = some e := by rw [hexpr, Function.update_self]
  have hne : ∀ {z}, z ≠ x → g.exprAt z = f.exprAt z := fun {z} hz => by
    rw [hexpr, Function.update_of_ne hz]
  have hassign : ∀ d y, e ≠ .assign d y := by
    obtain ⟨n, v, o, rfl⟩ | ⟨y, rfl⟩ := he.new <;> exact nofun
  have hregister : ∀ n v, e ≠ .register n v := by
    obtain ⟨n, v, o, rfl⟩ | ⟨y, rfl⟩ := he.new <;> exact nofun
  refine ⟨⟨hf.typed.closed.update he.closed hexpr, fun r d y hr => ?_, fun z hz => ?_, fun _ e _ => Locations.admits_any e⟩,
    hf.mirrored.of_linkOf_eq hlink, fun z e' hz huntagged => ?_, fun u d n v hu hd => ?_⟩
  · have hrx : r ≠ x := by
      rintro rfl
      exact hassign d y (Option.some.inj (hself.symm.trans hr))
    rw [hne hrx] at hr
    obtain ⟨⟨ed, hed, hassignable⟩, hnot⟩ := hf.typed.target r d y hr
    refine ⟨?_, fun z => hlink ▸ hnot z⟩
    by_cases hdx : d = x
    · subst hdx
      refine ⟨e, hself, ?_⟩
      by_contra hlocation
      exact (he.other (Bool.eq_false_iff.2 hlocation)).2 r y hr
    · exact ⟨ed, (hne hdx).trans hed, hassignable⟩
  · rw [hlink] at hz
    by_cases hzx : z = x
    · subst hzx
      refine ⟨e, hself, ?_⟩
      by_contra hlocation
      exact hz (he.other (Bool.eq_false_iff.2 hlocation)).1
    · rw [hne hzx]
      exact hf.typed.link z hz
  · rw [hlink]
    by_cases hzx : z = x
    · subst hzx
      rw [hself] at hz
      cases hz
      obtain ⟨n, v, o, rfl⟩ | ⟨y, rfl⟩ := he.new <;> cases huntagged
    · rw [hne hzx] at hz
      exact hf.untagged z e' hz huntagged
  · rw [hlink] at hu
    have hdx : d ≠ x := by
      rintro rfl
      exact hregister n v (Option.some.inj (hself.symm.trans hd))
    rw [hne hdx] at hd
    have hu' := hf.register u d n v hu hd
    have hux : u ≠ x := by
      rintro rfl
      by_cases hlocation : e.isAssignable = true
      · obtain ⟨a, w, hderef⟩ := he.location hlocation
        rw [hu'] at hderef
        cases hderef
      · rw [(he.other (Bool.eq_false_iff.2 hlocation)).1] at hu
        cases hu
    rw [hne hux, hu']

/-- The links in several trees of a statement can be removed. -/
theorem unlinkSubtrees_gives (ts : List Term) (hf : f.Tied) (hT : f.Holds s T)
    (hts : ∀ t ∈ ts, Term.Within t T) :
    Gives ((ts.map Term.id).forM Edit.unlinkSubtree) f fun _ g =>
      f.Becomes g f.shapeAt (f.linksWithout (ts.flatMap Term.postorder)) := by
  induction ts generalizing f with
  | nil => exact .of_pure (by simpa using Becomes.refl f)
  | cons t rest ih =>
    refine .of_bind ((Edit.unlinkSubtree_gives hf hT (hts t (by simp))).mono fun _ g hg => ?_)
    have hTg : g.Holds s T := hT.congr (congrFun hg.statementAt_eq s) fun y _ => by rw [hg.shape_eq]
    have hrest := ih (hf.without hg.shape_eq hg.link_eq) hTg fun u hu => hts u (by simp [hu])
    refine hrest.mono fun _ h hh => ?_
    have h := hg.trans hh
    rw [linksWithout_append hg.link_eq, hg.shape_eq] at h
    exact h

end Flow

namespace Renaming

open Flow

variable {f f₁ : Flow} {s : StatementId} {T : Term} {i : NodeId} {e e₁ : Expr Term} {xs : List NodeId}

/-- A flow `g` is a flow `f` with another tree `T'` of a statement, in which `t'` stands for one
    operand of the tree `T` that was there. -/
structure Puts (f g : Flow) (s : StatementId) (t t' T T' : Term) : Prop where
  sound : g.Sound .any
  rooted : g.Rooted
  replaces : f.Replaces g (.root s) T T'
  id_eq : T'.id = T.id
  beside : ∀ w, Term.Within w T → (∀ x ∈ w.preorder, x ∉ t.preorder) → Term.Within w T'
  links : ∃ zs, g.linkOf = f.linksWithout zs
  change : Term.Somewhere (fun u u' => u = t ∧ u' = t') T T'

/-- In the place of an operand `t` of a flow `f` there is a tree `t'` in a flow `g`. Nothing else is changed. -/
structure Swaps (f g : Flow) (t t' : Term) : Prop where
  alters : f.Alters g t.preorder
  stands : ∀ p, f.Stands p t → g.Stands p t'
  fresh : ∀ x ∈ t'.preorder, x ∈ t.preorder ∨ f.shapeAt x = none

/-- A variable or an address `e₁` can be put at the operand `i` in the tree `T`. What is below it is new in the flow
    `f₁`, to which `f` has grown. -/
structure Offered (f f₁ : Flow) (s : StatementId) (T : Term) (i : NodeId) (e e₁ : Expr Term) (xs : List NodeId) :
    Prop where
  sound : f.Sound .any
  rooted : f.Rooted
  holds : f.Holds s T
  within : Term.Within (.node i e) T
  inner : i ≠ T.id
  grows : f.Grows f₁ xs
  link_eq : f₁.linkOf = f.linkOf
  wired : f₁.Wired .any
  noNewAssign : f.NoNewAssign f₁
  stands : ∀ c ∈ e₁.children, f₁.Stands .detached c
  fresh : ∀ c ∈ e₁.children, c.preorder ⊆ xs
  nodup : (e₁.children.flatMap Term.preorder).Nodup
  new : (∃ n v o, e₁ = .var n v o) ∨ ∃ c, e₁ = .addressOf c
  location : e₁.isAssignable = true → ∃ a v, e = .deref a v
  other : e₁.isAssignable = false → ∀ r y, f.exprAt r ≠ some (.assign i y)

namespace Offered

variable {x : NodeId} (h : Offered f f₁ s T i e e₁ xs)
include h

omit h in
theorem isAssignable_ids (e : Expr Term) : (e.map Term.id).isAssignable = e.isAssignable :=
  Expr.isAssignable_eq_of_head_eq (by simp)

theorem exists_shape : ∃ q, f.shapeAt i = some (e.map Term.id, q) ∧ f₁.shapeAt i = some (e.map Term.id, q) := by
  obtain ⟨q, hq⟩ := h.holds.stands.exists_of_within h.within
  have hi : f.shapeAt i = some (e.map Term.id, q) := hq.shape_id
  exact ⟨q, hi, (h.grows.kept i (by simp [hi])).trans hi⟩

theorem not_fresh (hx : f.shapeAt x ≠ none) : x ∉ xs := fun hmem =>
  hx (h.grows.fresh x hmem)

theorem mem : i ∈ T.preorder :=
  h.within.preorder_subset (Term.id_mem_preorder _)

/-- What is put at the operand is new below it. -/
theorem mem_or_fresh (hx : x ∈ (Term.node i e₁).preorder) : x ∈ (Term.node i e).preorder ∨ f.shapeAt x = none := by
  rw [Term.preorder_node, List.mem_cons, List.mem_flatMap] at hx
  obtain rfl | ⟨c, hc, hx⟩ := hx
  · exact .inl (Term.id_mem_preorder _)
  · exact .inr (h.grows.fresh x (h.fresh c hc hx))

/-- What was put at the operand has taken nothing from a tree that no statement holds, unless it is that tree. -/
theorem stands_detached {g : Flow} {t : Term} (hshape : ∀ y, y ∉ (Term.node i e).preorder →
    y ∉ (Term.node i e₁).preorder → g.shapeAt y = f₁.shapeAt y) (ht : f₁.Stands .detached t)
    (hne : ∀ c ∈ e₁.children, t.id ≠ c.id) : g.Stands .detached t := by
  have hT := h.holds.grows h.grows
  refine ht.congr fun y hy => hshape y (fun hy' => ?_) fun hy' => ?_
  · exact hT.not_mem_detached ht hy (h.within.preorder_subset hy')
  · rw [Term.preorder_node, List.mem_cons, List.mem_flatMap] at hy'
    obtain rfl | ⟨c, hc, hy'⟩ := hy'
    · exact hT.not_mem_detached ht hy h.mem
    · exact hne c hc (ht.id_eq_of_mem (h.stands c hc) Place.top_detached Place.top_detached hy hy')

/-- The links below the operand go, and its own unless a location takes its place. -/
theorem unlinks_gives : Gives (do
      (← Edit.view (·.children i)).forM Edit.unlinkSubtree
      if !(e₁.map Term.id).isAssignable then
        Edit.unlink i) f₁ fun _ f₂ => ∃ zs, f₁.Becomes f₂ f₁.shapeAt (f₁.linksWithout zs) ∧
          (∀ x ∈ (Term.node i e).preorder, x ∈ zs ∨ x = i) ∧ (e₁.isAssignable = false → i ∈ zs) := by
  obtain ⟨q, -, hi⟩ := h.exists_shape
  refine .of_bind (.of_view (children_eq hi) (.of_bind ?_))
  rw [Expr.children_map]
  have hbelow : ∀ c ∈ e.children, Term.Within c T := fun c hc =>
    (Term.Within.of_mem_children hc).trans h.within
  refine (unlinkSubtrees_gives e.children h.wired.tied (h.holds.grows h.grows) hbelow).mono fun _ f₂ hf₂ => ?_
  have hmem : ∀ x ∈ (Term.node i e).preorder, x ∈ e.children.flatMap Term.postorder ∨ x = i := by
    intro x hx
    rw [Term.preorder_node, List.mem_cons] at hx
    refine hx.symm.imp_left fun hx => ?_
    obtain ⟨c, hc, hx⟩ := List.mem_flatMap.1 hx
    exact List.mem_flatMap.2 ⟨c, hc, Term.mem_postorder.2 hx⟩
  rw [isAssignable_ids]
  cases hkind : e₁.isAssignable with
  | true => exact .of_pure ⟨_, hf₂, hmem, by simp⟩
  | false =>
    have htied₂ := h.wired.tied.without hf₂.shape_eq hf₂.link_eq
    have hi₂ : f₂.shapeAt i ≠ none := by simp [hf₂.shape_eq, hi]
    refine (Edit.unlink_gives htied₂.mirrored htied₂.exists_node hi₂).mono fun _ f₃ hf₃ => ?_
    have h := hf₂.trans hf₃
    rw [linksWithout_append hf₂.link_eq, hf₂.shape_eq] at h
    exact ⟨_, h, fun x hx => (hmem x hx).imp_left fun h => List.mem_append_left _ h, by simp⟩

end Offered

/-- In the flow `f₂` the links `zs` are gone, and in `g` what was offered is put at the operand. The tree `T` is then
    the tree `T'`. -/
structure Accepted (f f₁ f₂ g : Flow) (s : StatementId) (T T' : Term) (i : NodeId) (e e₁ : Expr Term)
    (xs zs : List NodeId) : Prop where
  offered : Offered f f₁ s T i e e₁ xs
  becomes : f₁.Becomes f₂ f₁.shapeAt (f₁.linksWithout zs)
  below : ∀ x ∈ (Term.node i e).preorder, x ∈ zs ∨ x = i
  self : e₁.isAssignable = false → i ∈ zs
  replaces : f.Replaces g (.root s) T T'
  id_eq : T'.id = T.id
  kept : ∀ x ∈ T.preorder, x ∈ (Term.node i e).preorder ∨ x ∈ T'.preorder
  mem : i ∈ T'.preorder
  links : g.linkOf = f₂.linkOf
  exprs : g.exprAt = Function.update f₂.exprAt i (some (e₁.map Term.id))

namespace Accepted

variable {f₂ g : Flow} {T' : Term} {zs : List NodeId} {x r d y : NodeId}
  (h : Accepted f f₁ f₂ g s T T' i e e₁ xs zs)
include h

theorem unlinked_exprs : f₂.exprAt = f₁.exprAt := by
  funext y
  simp [exprAt, h.becomes.shape_eq]

theorem link_eq : g.linkOf = f.linksWithout zs := by
  rw [h.links, h.becomes.link_eq]
  unfold linksWithout
  rw [h.offered.link_eq]

theorem expr_eq : g.exprAt = Function.update f₁.exprAt i (some (e₁.map Term.id)) := by
  rw [h.exprs, h.unlinked_exprs]

theorem exprAt_of_ne (hx : x ≠ i) : g.exprAt x = f₁.exprAt x := by
  rw [h.expr_eq, Function.update_of_ne hx]

theorem standsFor : f₂.StandsFor i (e₁.map Term.id) := by
  obtain ⟨q, -, hi⟩ := h.offered.exists_shape
  refine ⟨fun c hc => ?_, ?_, fun hkind => ?_, fun hkind => ?_⟩
  · rw [Expr.children_map] at hc
    obtain ⟨c', hc', rfl⟩ := List.mem_map.1 hc
    rw [h.unlinked_exprs]
    exact exprAt_ne_none.2 ((h.offered.stands c' hc').shapeAt_ne_none c'.id_mem_preorder)
  · obtain ⟨n, v, o, rfl⟩ | ⟨c, rfl⟩ := h.offered.new
    · exact .inl ⟨n, v, o, rfl⟩
    · exact .inr ⟨c.id, rfl⟩
  · obtain ⟨a, v, rfl⟩ := h.offered.location (Offered.isAssignable_ids e₁ ▸ hkind)
    exact ⟨a.id, v, by rw [h.unlinked_exprs]; exact exprAt_eq_some hi⟩
  · rw [Offered.isAssignable_ids] at hkind
    refine ⟨by simp [h.becomes.link_eq, linksWithout, h.self hkind], fun r y hr => ?_⟩
    obtain ⟨y', hr⟩ := h.offered.noNewAssign r i y (h.unlinked_exprs ▸ hr)
    exact h.offered.other hkind r y' hr

theorem wired : g.Wired .any :=
  (h.offered.wired.without h.unlinked_exprs h.becomes.link_eq).standsFor h.standsFor h.exprs h.links

theorem held (hx : g.linkOf x ≠ .unlinked) : g.Held x := by
  rw [h.link_eq, linksWithout] at hx
  split at hx
  · exact absurd rfl hx
  next hxzs =>
    have hx : f.linkOf x ≠ .unlinked := fun hnone => hx (by simp [hnone])
    refine (h.offered.sound.held x hx).replaces h.offered.holds h.replaces fun hxT => ?_
    obtain hxi | hxT' := h.kept x hxT
    · exact (h.below x hxi).resolve_left hxzs ▸ h.mem
    · exact hxT'

theorem noNewAssign : f.NoNewAssign g := by
  intro r d y hr
  by_cases hri : r = i
  · rw [hri, h.expr_eq, Function.update_self] at hr
    obtain ⟨n, v, o, rfl⟩ | ⟨c, rfl⟩ := h.offered.new <;> cases hr
  · exact h.offered.noNewAssign r d y (h.exprAt_of_ne hri ▸ hr)

theorem assigns {s' : StatementId} (hassigns : f.Assigns s' r d) : g.Assigns s' r d := by
  obtain ⟨⟨st, hst, hroot⟩, y, hr⟩ := hassigns
  have hri : r ≠ i := by
    rintro rfl
    exact h.offered.rooted.ne_assign h.offered.holds h.offered.mem h.offered.inner d y hr
  refine ⟨?_, y, by rw [h.exprAt_of_ne hri, h.offered.grows.retains.exprAt_eq (by simp [hr]), hr]⟩
  rw [h.replaces.statementAt_eq, hst]
  split
  next hs =>
    cases hs
    obtain ⟨st', hst', hroot', -⟩ := id h.offered.holds
    obtain rfl := Option.some.inj (hst.symm.trans hst')
    exact ⟨_, rfl, h.id_eq.trans (hroot'.symm.trans hroot)⟩
  next => exact ⟨st, rfl, hroot⟩

theorem statementAt_eq : g.statementAt = f.statementAt := by
  funext s'
  rw [h.replaces.statementAt_eq, h.id_eq]
  split
  next hs' =>
    cases hs'
    obtain ⟨st, hst, hroot, -⟩ := h.offered.holds
    rw [hst, ← hroot]
    rfl
  next => rfl

theorem sound : g.Sound .any :=
  h.wired.sound (h.offered.sound.forest.replaces h.offered.holds h.replaces) fun _ => h.held

theorem rooted : g.Rooted :=
  h.offered.rooted.of_assigns h.sound.forest h.noNewAssign fun _ _ _ => h.assigns

end Accepted

/-- A variable or an address can be put at an operand. -/
theorem put_gives (h : Offered f f₁ s T i e e₁ xs) :
    Gives (put i (e₁.map Term.id)) f₁ fun _ g =>
      (∃ T', Puts f g s (.node i e) (.node i e₁) T T') ∧
      g.exprAt = Function.update f₁.exprAt i (some (e₁.map Term.id)) ∧
      (∀ y, y ∉ (Term.node i e).preorder → y ∉ (Term.node i e₁).preorder →
        g.shapeAt y = f₁.shapeAt y) ∧
      Swaps f g (.node i e) (.node i e₁) := by
  obtain ⟨q, hsits, hlift⟩ := Replaces.lift_within h.holds.sits h.within
  have hput : put i (e₁.map Term.id) = (do
      (← Edit.view (·.children i)).forM Edit.unlinkSubtree
      if !(e₁.map Term.id).isAssignable then
        Edit.unlink i) >>= fun _ => Edit.replace i (e₁.map Term.id) := by
    cases h : (e₁.map Term.id).isAssignable <;> simp [put, h]
  rw [hput]
  refine .of_bind (h.unlinks_gives.mono ?_)
  rintro - f₂ ⟨zs, hbecomes, hbelow, hself⟩
  have hgrows₂ : f.Grows f₂ xs :=
    h.grows.congr hbecomes.shape_eq hbecomes.entry_eq hbecomes.statements_eq hbecomes.blocks_eq
  have hstands : ∀ c ∈ e₁.children, ∃ q, f₂.Stands q c := fun c hc =>
    ⟨_, (h.stands c hc).congr fun y _ => by rw [hbecomes.shape_eq]⟩
  have hi : f.shapeAt i ≠ none := hsits.stands.shapeAt_ne_none (Term.id_mem_preorder _)
  refine (Edit.replace_replaces e₁ hgrows₂ hsits hstands (fun c hc hmem => h.not_fresh hi (h.fresh c hc hmem))
    (fun c hc x hx => .inr (h.fresh c hc hx)) h.nodup).mono ?_
  rintro - g ⟨hreplaces, hlinkg, hexprg, hshapeg⟩
  obtain ⟨T', hT', hid, hkept, hmade, hbeside, hchange⟩ := hlift g _ hreplaces
  have hg : Accepted f f₁ f₂ g s T T' i e e₁ xs zs :=
    { offered := h, becomes := hbecomes, below := hbelow, self := hself, replaces := hT',
      id_eq := hid fun heq => h.inner (congrArg Term.id heq), kept := hkept,
      mem := hmade i (Term.id_mem_preorder _), links := hlinkg, exprs := hexprg }
  have hshape : ∀ y, y ∉ (Term.node i e).preorder → y ∉ (Term.node i e₁).preorder → g.shapeAt y = f₁.shapeAt y :=
    fun y hy hy₁ => by rw [hshapeg y hy hy₁, hbecomes.shape_eq]
  refine ⟨⟨T', hg.sound, hg.rooted, hT', hg.id_eq, hbeside, ⟨zs, hg.link_eq⟩, hchange⟩, hg.expr_eq, hshape,
    ⟨hg.statementAt_eq, hT'.ne_none, fun x hx hout => ?_⟩, fun p hp => ?_, fun x => h.mem_or_fresh⟩
  · rw [hshape x hout fun hmem => (h.mem_or_fresh hmem).elim hout hx, h.grows.kept x hx]
  · obtain ⟨-, rfl⟩ := Prod.mk.inj (Option.some.inj (hp.shape_id.symm.trans hsits.stands.shape_id))
    exact hreplaces.sits.stands

end Renaming

namespace StackRenaming

open Flow

variable {m : Machine} {negate : Bool} {f g : Flow} {frame : Frame} {s : StatementId} {T t : Term}
  {x : NodeId} {v : Option Nat} {w : Word}

theorem locate_succeeds (hT : f.Holds s T) (ht : Term.Within t T)
    (hw : m.Locates negate (addressOf t) v w) :
    FrameRecovery.Succeeds (locate m negate t.id) f fun r g => g = f ∧ r = w := by
  unfold locate
  refine .of_bind (.of_view (hT.term_eq ht) ?_)
  rw [hw.offset?_eq]
  exact .of_pure ⟨rfl, rfl⟩

/-- There is no merge and no variable in an operand that denotes a place in the frame. -/
theorem plain_of_locates (hw : m.Locates negate (addressOf t) v w) {u : Term} (hu : Term.Within u t) :
    u.expr.isTheta = false ∧ ∀ n k o, u.expr ≠ .var n k o := by
  obtain ⟨i, e⟩ := t
  cases e with
  | deref a k =>
    cases hu with
    | refl => exact ⟨rfl, nofun⟩
    | inside hc hu =>
      obtain rfl := List.mem_singleton.1 hc
      exact hw.plain hu
  | _ => exact hw.plain hu

/-- A flow `f₁` is a flow `f` with the new nodes `xs`: a record of the operand `t`, and perhaps a
    variable of the given name that refers to it. -/
structure Records (f f₁ : Flow) (t : Term) (name : String) (o : NodeId) (xs : List NodeId) : Prop where
  grows : f.Grows f₁ xs
  link_eq : f₁.linkOf = f.linkOf
  wired : f₁.Wired .any
  noNewAssign : f.NoNewAssign f₁
  record : ∃ t', f₁.Stands .detached t' ∧ t'.id = o ∧ t'.form = t.form
  vars : ∀ x n k o', f₁.exprAt x = some (.var n k o') →
    f.exprAt x = some (.var n k o') ∨ f.exprAt x = none ∧ n = name ∧ o' = o

theorem records_of_copies {f₁ : Flow} {R : NodeId → NodeId → Prop} {t' : Term} (hf : f.Sound .any)
    (hrooted : f.Rooted) (hT : f.Holds s T) (ht : Term.Within t T) (hne : t.id ≠ T.id)
    (hw : m.Locates negate (addressOf t) v w) (hcopies : f.Copies f₁ R t t')
    (hlink : f₁.linkOf = f.linkOf) (name : String) : Records f f₁ t name t'.id t'.preorder := by
  obtain ⟨p, hp⟩ := hT.stands.exists_of_within ht
  have hplain : ∀ x ∈ t.preorder, ∀ d y, f.exprAt x ≠ some (.assign d y) := by
    intro x hx
    refine hrooted.ne_assign hT (ht.preorder_subset hx) fun h => hne ?_
    exact congrArg Term.id (ht.eq_of_id_mem hT.nodup (h ▸ hx))
  refine ⟨hcopies.grows, hlink, hf.wired.snapshot hcopies hp hlink hplain, fun r d y hr => ?_,
    ⟨t', hcopies.stands, rfl, hcopies.form_eq hp⟩, fun x n k o hx => ?_⟩
  · obtain hr | ⟨-, x₀, hx₀, e₀, he₀, hhead⟩ := hcopies.old_or_source hp hr
    · exact ⟨y, hr⟩
    · obtain ⟨d₀, y₀, rfl⟩ := Expr.eq_assign_of_head_eq hhead.symm
      exact absurd he₀ (hplain x₀ hx₀ d₀ y₀)
  · obtain hx | ⟨-, x₀, hx₀, e₀, he₀, hhead⟩ := hcopies.old_or_source hp hx
    · exact .inl hx
    · obtain ⟨u, hu, rfl⟩ := Term.exists_within_of_mem_preorder hx₀
      obtain ⟨q, hq⟩ := hp.exists_of_within hu
      obtain rfl := Expr.eq_var_of_head_eq hhead.symm
      rw [exprAt_eq_some hq.shape_id, Option.some.injEq] at he₀
      have hvar : u.expr.head = .var n k o := by rw [← Expr.head_map Term.id, he₀]; rfl
      exact absurd (Expr.eq_var_of_head_eq hvar) ((plain_of_locates hw hu).2 n k o)

/-- A variable can be made beside the record that it refers to. -/
theorem Records.alloc_gives {f₁ : Flow} {name : String} {o : NodeId} {xs : List NodeId}
    (h : Records f f₁ t name o xs) :
    Gives (Edit.alloc (.var name none o)) f₁ fun x f₂ =>
      Records f f₂ t name o (xs ++ [x]) ∧ x ≠ o ∧
        f₂.Stands .detached (.node x (.var name none o)) := by
  have halloc := Pending.alloc_gives (e := .var name none o) (Pending.nil f₁)
  refine halloc.mono ?_
  rintro x f₂ ⟨hpending, hretains, hx, hlink⟩
  have hgrows : f₁.Grows f₂ [x] := by simpa [Expr.children] using hpending.grows
  have hstands : f₂.Stands .detached (.node x (.var name none o)) := hpending.stands _ (by simp)
  have hexpr : f₂.exprAt x = some (.var name none o) := exprAt_eq_some hstands.shape_id
  have hnone : f₁.exprAt x = none := by
    have h := hgrows.fresh x (by simp)
    simp [exprAt, h]
  have hmade : ∀ z, f₂.exprAt z ≠ none → f₁.exprAt z ≠ none ∨ z = x := fun z hz =>
    (hgrows.made z (exprAt_ne_none.1 hz)).imp exprAt_ne_none.2 List.mem_singleton.1
  have hold : ∀ {z e}, f₂.exprAt z = some e → z ≠ x → f₁.exprAt z = some e := by
    intro z e hz hne
    rw [← hretains.exprAt_eq ((hmade z (by simp [hz])).resolve_right hne), hz]
  refine ⟨⟨h.grows.trans hgrows, hlink.trans h.link_eq, ?_, fun r d y hr => ?_, ?_, fun z n k o' hz => ?_⟩,
    ?_, hstands⟩
  · exact h.wired.of_made hretains hlink hexpr hmade hnone (by simp [Expr.children]) trivial (by simp)
  · refine h.noNewAssign r d y (hold hr ?_)
    rintro rfl
    rw [hexpr] at hr
    cases hr
  · obtain ⟨t', ht', hid, hform⟩ := h.record
    exact ⟨t', hgrows.stands ht', hid, hform⟩
  · by_cases hzx : z = x
    · subst hzx
      rw [hexpr] at hz
      cases hz
      refine .inr ⟨?_, rfl, rfl⟩
      by_contra hne
      exact exprAt_ne_none.1 (h.grows.retains.exprAt_eq hne ▸ hne) (hgrows.fresh z (by simp))
    · exact h.vars z n k o' (hold hz hzx)
  · rintro rfl
    obtain ⟨t', ht', rfl, -⟩ := h.record
    exact ht'.shapeAt_ne_none t'.id_mem_preorder (hgrows.fresh t'.id (by simp))

/-- What is put in the place of an operand `t`: a variable for a read or a write, and else the address of a new one. -/
inductive Replacement (f₁ : Flow) (t : Term) (name : String) (o : NodeId) (xs : List NodeId) : Expr Term → Prop
  | location {a : Term} {k k' : Option Nat} (h : t.expr = .deref a k) : Replacement f₁ t name o xs (.var name k' o)
  | address {j : NodeId} (h : ∀ a k, t.expr ≠ .deref a k) (hmem : j ∈ xs) (hne : j ≠ o)
    (hstands : f₁.Stands .detached (.node j (.var name none o))) :
    Replacement f₁ t name o xs (.addressOf (.node j (.var name none o)))

/-- A variable, or the address of one, is made for an operand that denotes a place in the frame. -/
theorem replacement_succeeds (hf : f.Sound .any) (hrooted : f.Rooted) (hT : f.Holds s T)
    (ht : Term.Within t T) (hne : t.id ≠ T.id) (hw : m.Locates negate (addressOf t) v w) :
    Renaming.Succeeds (replacement m negate t.id) frame f fun e₁ frame' f₁ =>
      frame' = (frame.assign w).2 ∧ ∃ o xs E₁, e₁ = Expr.map Term.id E₁ ∧
        Records f f₁ t (Frame.variableName (frame.assign w).1) o xs ∧
        Replacement f₁ t (Frame.variableName (frame.assign w).1) o xs E₁ := by
  unfold replacement
  refine .of_bind ((Renaming.Succeeds.of_pass (locate_succeeds hT ht hw)).mono ?_)
  rintro w frame f ⟨rfl, rfl, rfl⟩
  obtain ⟨p, hp⟩ := hT.stands.exists_of_within ht
  refine .of_bind (.of_getThe ?_)
  obtain ⟨⟨slot, frame'⟩, hassign⟩ : ∃ r, frame.assign w = r := ⟨_, rfl⟩
  rw [hassign]
  refine .of_bind (.of_set (.of_bind
    ((Renaming.Succeeds.of_edit (Edit.snapshot_gives hp.spells)).mono ?_)))
  rintro _ frame' f₁ ⟨rfl, t', R, rfl, hcopies, hlink⟩
  have hrecords := records_of_copies hf hrooted hT ht hne hw hcopies hlink (Frame.variableName slot)
  have hshape := (hcopies.grows.stands hp).shape_id
  refine .of_bind (.of_view (expr_eq hshape) ?_)
  obtain ⟨i, e⟩ := t
  cases e with
  | deref a k =>
    refine .of_bind (.of_view (link_eq hshape) ?_)
    split
    · exact .of_pure ⟨rfl, _, _, .var _ k t'.id, rfl, hrecords, .location rfl⟩
    · exact .of_pure ⟨rfl, _, _, .var _ none t'.id, rfl, hrecords, .location rfl⟩
  | _ =>
    refine .of_bind ((Renaming.Succeeds.of_edit hrecords.alloc_gives).mono ?_)
    rintro x _ f₂ ⟨rfl, hrecords₂, hx, hstands⟩
    exact .of_pure ⟨rfl, _, _, .addressOf (.node x (.var _ none t'.id)), rfl, hrecords₂,
      .address nofun (by simp) hx hstands⟩

/-- A variable stands for an operand of a flow `f` that denotes a place in the frame: its name is
    that of the place, and there is a record of the operand. -/
structure Stands (m : Machine) (negate : Bool) (f g : Flow) (frame : Frame) (t : Term) (name : String)
    (o : NodeId) : Prop where
  old : ∃ p, f.Stands p t
  place : ∃ v w slot, m.Locates negate (addressOf t) v w ∧ frame.index? w = some slot ∧
    name = Frame.variableName slot
  record : ∃ t', g.Stands .detached t' ∧ t'.id = o ∧ t'.form = t.form

theorem Stands.mono {h : Flow} {frame' : Frame} {name : String} {o : NodeId}
    (ht : Stands m negate f g frame t name o)
    (hframe : ∀ w slot, frame.index? w = some slot → frame'.index? w = some slot)
    (hdetached : ∀ t', g.Stands .detached t' → h.Stands .detached t') :
    Stands m negate f h frame' t name o := by
  obtain ⟨v, w, slot, hw, hslot, hname⟩ := ht.place
  obtain ⟨t', ht', hid, hform⟩ := ht.record
  exact ⟨ht.old, ⟨v, w, slot, hw, hframe w slot hslot, hname⟩, t', hdetached t' ht', hid, hform⟩

/-- A variable, or the address of one, in the place of an operand that denotes a place in the frame. -/
def Renames (m : Machine) (negate : Bool) (t t' : Term) : Prop :=
  (∃ v w, m.Locates negate (addressOf t) v w) ∧ ∃ e, t' = .node t.id e ∧
    ((∃ n k o, e = .var n k o) ∨ ∃ x n o, e = .addressOf (.node x (.var n none o)))

namespace Replacement

variable {f₁ : Flow} {name : String} {o : NodeId} {xs : List NodeId} {e₁ : Expr Term}

theorem renames (h : Replacement f₁ t name o xs e₁) (hw : m.Locates negate (addressOf t) v w) :
    Renames m negate t (.node t.id e₁) := by
  refine ⟨⟨v, w, hw⟩, e₁, rfl, ?_⟩
  cases h with
  | location => exact .inl ⟨_, _, _, rfl⟩
  | address => exact .inr ⟨_, _, _, rfl⟩

theorem children (h : Replacement f₁ t name o xs e₁) :
    ∀ c ∈ e₁.children, c.preorder ⊆ xs ∧ c.id ≠ o ∧ f₁.Stands .detached c := by
  cases h with
  | location => exact nofun
  | address _ hmem hne hstands =>
    intro c hc
    obtain rfl := List.mem_singleton.1 hc
    exact ⟨by simp [Expr.children, hmem], hne, hstands⟩

theorem offered {i : NodeId} {e : Expr Term} (h : Replacement f₁ (.node i e) name o xs e₁) (hf : f.Sound .any)
    (hrooted : f.Rooted) (hT : f.Holds s T) (ht : Term.Within (.node i e) T) (hne : i ≠ T.id)
    (hrecords : Records f f₁ (.node i e) name o xs)
    (hother : (∃ a k, e = .deref a k) ∨ ∀ r y, f.exprAt r ≠ some (.assign i y)) :
    Renaming.Offered f f₁ s T i e e₁ xs := by
  have hchildren := h.children
  refine ⟨hf, hrooted, hT, ht, hne, hrecords.grows, hrecords.link_eq, hrecords.wired, hrecords.noNewAssign,
    fun c hc => (hchildren c hc).2.2, fun c hc => (hchildren c hc).1, ?_, ?_, ?_, ?_⟩
  · cases h with
    | location => exact List.nodup_nil
    | address => simp [Expr.children]
  · cases h with
    | location => exact .inl ⟨_, _, _, rfl⟩
    | address => exact .inr ⟨_, rfl⟩
  · cases h with
    | @location a k _ hderef => exact fun _ => ⟨a, k, hderef⟩
    | address => exact nofun
  · cases h with
    | location => exact nofun
    | address hderef => exact fun _ => hother.resolve_left fun ⟨a, k, h⟩ => hderef a k h

end Replacement

/-- The outcome of renaming: the flow stays sound, and every new variable stands for an operand,
    either in its place or below a new address. -/
structure Renamed (m : Machine) (negate : Bool) (f g : Flow) (frame : Frame) : Prop where
  sound : g.Sound .any
  rooted : g.Rooted
  entry_eq : g.entry = f.entry
  blocks_eq : g.blocks = f.blocks
  vars : ∀ x n k o, g.exprAt x = some (.var n k o) → f.exprAt x = some (.var n k o) ∨
    ∃ t, Stands m negate f g frame t n o ∧
      ((t.id = x ∧ ∃ a v, t.expr = .deref a v) ∨ f.exprAt x = none)
  definition : ∀ x us, g.linkOf x = .definition us → ∃ us', f.linkOf x = .definition us'
  kept : ∀ x, f.exprAt x ≠ none → g.exprAt x ≠ none
  inputs : ∀ x, f.IsInput x → g.IsInput x ∧ g.exprAt x = f.exprAt x
  evolves : f.Evolves (Relation.ReflTransGen (Term.Somewhere (Renames m negate))) g

/-- The operands of merges stay when something else is put at an operand that denotes a place in the frame, and is
    none of them. -/
theorem isInput_of_puts {f₁ h : Flow} {e₁ : Expr Term} {xs : List NodeId} (hT : f.Holds s T) (ht : Term.Within t T)
    (hw : m.Locates negate (addressOf t) v w) (hgrows : f.Grows f₁ xs)
    (hfresh : ∀ c ∈ e₁.children, c.preorder ⊆ xs)
    (hexpr : h.exprAt = Function.update f₁.exprAt t.id (some (e₁.map Term.id)))
    (hshape : ∀ y, y ∉ t.preorder → y ∉ (Term.node t.id e₁).preorder → h.shapeAt y = f₁.shapeAt y)
    (hselected : ¬ f.IsInput t.id) (hx : f.IsInput x) : h.IsInput x ∧ h.exprAt x = f.exprAt x := by
  obtain ⟨inputs, hx'⟩ := id hx
  obtain ⟨e, y, p, hxshape, hyshape⟩ := exists_of_parentExpr? hx'
  have hkept : ∀ {z}, f.exprAt z ≠ none → z ≠ t.id → h.exprAt z = f.exprAt z := fun {z} hz hne => by
    rw [hexpr, Function.update_of_ne hne, hgrows.retains.exprAt_eq hz]
  have hxexpr := exprAt_eq_some hxshape
  have hyexpr := exprAt_eq_some hyshape
  have hxt : x ≠ t.id := fun h => hselected (h ▸ hx)
  -- there is no merge in the operand
  have hnotheta : ∀ u, Term.Within u t → u.id ≠ y := by
    rintro u hu rfl
    obtain ⟨q, hq⟩ := hT.stands.exists_of_within (hu.trans ht)
    rw [exprAt_eq_some hq.shape_id, Option.some.injEq] at hyexpr
    have htheta := (plain_of_locates hw hu).1
    obtain ⟨i, e⟩ := u
    cases e <;> cases hyexpr
    cases htheta
  have hyt : y ≠ t.id := fun h => hnotheta t (.refl t) h.symm
  have hxin : x ∉ t.preorder := by
    intro hmem
    obtain ⟨q, hq⟩ := hT.stands.exists_of_within ht
    obtain ⟨i, e', u, hwithin, -, rfl, hstands⟩ := hq.exists_parent hmem hxt
    rw [hstands.shape_id] at hxshape
    cases hxshape
    exact hnotheta _ hwithin rfl
  have hxnew : x ∉ (Term.node t.id e₁).preorder := by
    rw [Term.preorder_node, List.mem_cons, List.mem_flatMap]
    rintro (hxid | ⟨c, hc, hmem⟩)
    · exact hxt hxid
    · exact absurd (hgrows.fresh x (hfresh c hc hmem)) (by simp [hxshape])
  have hxshape' : h.shapeAt x = some (e, .child y) := by
    rw [hshape x hxin hxnew, hgrows.kept x (by simp [hxshape]), hxshape]
  obtain ⟨q, hyshape'⟩ := exists_shapeAt_of_exprAt ((hkept (by simp [hyexpr]) hyt).trans hyexpr)
  exact ⟨⟨inputs, parentExpr?_eq_some hxshape' hyshape'⟩, hkept (by simp [hxexpr]) hxt⟩

/-- Putting a variable at an operand adds one that stands for the operand. -/
theorem Renamed.puts {f₁ h : Flow} {frame' : Frame} {name : String} {o : NodeId} {xs : List NodeId}
    {T' : Term} {e₁ : Expr Term} (hg : Renamed m negate f g frame)
    (hrecords : Records g f₁ t name o xs) (hputs : Renaming.Puts g h s t (.node t.id e₁) T T')
    (hexpr : h.exprAt = Function.update f₁.exprAt t.id (some (e₁.map Term.id)))
    (hreplacement : Replacement f₁ t name o xs e₁) (hT : g.Holds s T)
    (hframe : ∀ w slot, frame.index? w = some slot → frame'.index? w = some slot)
    (hdetached : ∀ t', g.Stands .detached t' → h.Stands .detached t')
    (hstands : Stands m negate f h frame' t name o)
    (hinputs : ∀ x, g.IsInput x → h.IsInput x ∧ h.exprAt x = g.exprAt x) : Renamed m negate f h frame' := by
  have hkept : ∀ x, g.exprAt x ≠ none → h.exprAt x ≠ none := by
    intro x hx
    rw [hexpr]
    by_cases hxt : x = t.id
    · simp [hxt]
    · rwa [Function.update_of_ne hxt, hrecords.grows.retains.exprAt_eq hx]
  have hrenames : Renames m negate t (.node t.id e₁) := by
    obtain ⟨v, w, slot, hw, -⟩ := hstands.place
    exact hreplacement.renames hw
  refine ⟨hputs.sound, hputs.rooted, hputs.replaces.entry_eq.trans hg.entry_eq,
    hputs.replaces.blocks_eq.trans hg.blocks_eq, fun x n k o' hx => ?_, fun x us hx => ?_,
    fun x hx => hkept x (hg.kept x hx), fun x hx => ?_,
    (hg.evolves.trans (hputs.replaces.evolves hT hputs.change)).mono fun u u' hu => ?_⟩
  · rw [hexpr] at hx
    by_cases hxt : x = t.id
    · subst hxt
      rw [Function.update_self, Option.some.injEq] at hx
      cases hreplacement with
      | @location a k₁ _ hderef =>
        cases hx
        exact .inr ⟨t, hstands, .inl ⟨rfl, a, k₁, hderef⟩⟩
      | address => cases hx
    · rw [Function.update_of_ne hxt] at hx
      obtain hx | ⟨hx, rfl, rfl⟩ := hrecords.vars x n k o' hx
      · obtain hx | ⟨u, hu, hux⟩ := hg.vars x n k o' hx
        · exact .inl hx
        · exact .inr ⟨u, hu.mono hframe hdetached, hux⟩
      · refine .inr ⟨t, hstands, .inr ?_⟩
        by_contra hne
        exact hg.kept x hne hx
  · obtain ⟨zs, hzs⟩ := hputs.links
    rw [hzs, linksWithout] at hx
    split at hx
    · cases hx
    · cases hl : g.linkOf x with
      | definition us' => exact hg.definition x us' hl
      | unlinked =>
        rw [hl] at hx
        cases hx
      | use d =>
        rw [hl] at hx
        cases d <;> cases hx
  · obtain ⟨hxg, hsame⟩ := hg.inputs x hx
    exact ⟨(hinputs x hxg).1, (hinputs x hxg).2.trans hsame⟩
  · obtain ⟨v, huv, rfl | hvu⟩ := hu
    · exact huv
    · exact huv.tail (hvu.mono fun w w' h => h.1 ▸ h.2 ▸ hrenames)

/-- The state of a flow, `f₀` before, in which the operands `todo` of a statement and the
    statements `others` are still to be visited. -/
structure Visiting (m : Machine) (negate : Bool) (f₀ : Flow) (s : StatementId)
    (others : List StatementId) (todo : List Term) (frame : Frame) (f : Flow) : Prop where
  renamed : Renamed m negate f₀ f frame
  live : f.Live s
  holds : ∃ T, f.Holds s T ∧ ∀ t ∈ todo, Term.Within t T ∧ t.id ≠ T.id
  apart : (todo.flatMap Term.preorder).Nodup
  old : ∀ t ∈ todo, ∃ p, f₀.Stands p t
  others : ∀ s' ∈ others, s' ≠ s ∧ f.Live s' ∧ ∃ T, f₀.Holds s' T ∧ f.Holds s' T

variable {f₀ : Flow} {others : List StatementId} {rest : List Term}

/-- When something else is put at an operand, the next ones are still to be visited. -/
theorem Visiting.puts {frame' : Frame} {t' T' : Term} (h : Visiting m negate f₀ s others (t :: rest) frame f)
    (hT : f.Holds s T) (hputs : Renaming.Puts f g s t t' T T') (hrenamed : Renamed m negate f₀ g frame') :
    Visiting m negate f₀ s others rest frame' g := by
  obtain ⟨U, hU, htodo⟩ := h.holds
  obtain rfl := hU.unique hT
  have hreplaces := hputs.replaces
  have hapart := h.apart
  rw [List.flatMap_cons, List.nodup_append] at hapart
  refine ⟨hrenamed, h.live.of_statementAt (hreplaces.statementAt_map s), ⟨T', hT.replaces hreplaces, fun u hu => ?_⟩,
    hapart.2.1, fun u hu => h.old u (by simp [hu]), fun s' hs' => ?_⟩
  · obtain ⟨hwithin, hid⟩ := htodo u (by simp [hu])
    refine ⟨hputs.beside u hwithin fun x hx hxt => ?_, hputs.id_eq ▸ hid⟩
    exact hapart.2.2 x hxt x (List.mem_flatMap.2 ⟨u, hu, hx⟩) rfl
  · obtain ⟨hne, hlive, U, hU₀, hU⟩ := h.others s' hs'
    exact ⟨hne, hlive.of_statementAt (hreplaces.statementAt_map s'), U, hU₀, hT.replaces_other hreplaces hne hU⟩

/-- A selected operand is replaced. -/
theorem visitSelected_succeeds (h : Visiting m negate f₀ s others (t :: rest) frame f)
    (hw : m.Locates negate (addressOf t) v w) (hselected : ¬ f.IsInput t.id)
    (hother : (∃ a k, t.expr = .deref a k) ∨ ∀ r y, f.exprAt r ≠ some (.assign t.id y)) :
    Renaming.Succeeds (do Renaming.put t.id (← replacement m negate t.id)) frame f
      fun _ frame' g => Visiting m negate f₀ s others rest frame' g ∧ frame' = (frame.assign w).2 ∧
        ∃ t', Renames m negate t t' ∧ Renaming.Swaps f g t t' := by
  obtain ⟨T, hT, htodo⟩ := h.holds
  obtain ⟨ht, hne⟩ := htodo t (by simp)
  refine .of_bind ((replacement_succeeds h.renamed.sound h.renamed.rooted hT ht hne hw).mono ?_)
  rintro _ _ f₁ ⟨rfl, o, xs, E₁, rfl, hrecords, hreplacement⟩
  obtain ⟨i, e⟩ := t
  have hchildren := hreplacement.children
  have hoffered := hreplacement.offered h.renamed.sound h.renamed.rooted hT ht hne hrecords hother
  refine (Renaming.Succeeds.of_edit (Renaming.put_gives hoffered)).mono ?_
  rintro - _ g ⟨rfl, ⟨T', hputs⟩, hexpr, hshape, hswaps⟩
  -- the records that were made before stay, and so does the one of this operand
  have hold : ∀ t', f.Stands .detached t' → g.Stands .detached t' := by
    intro t' ht'
    refine hoffered.stands_detached hshape (hrecords.grows.stands ht') fun c hc hid => ?_
    refine ht'.shapeAt_ne_none t'.id_mem_preorder (hrecords.grows.fresh t'.id ?_)
    exact (hchildren c hc).1 (hid ▸ c.id_mem_preorder)
  have hstands : Stands m negate f₀ g (frame.assign w).2 (.node i e)
      (Frame.variableName (frame.assign w).1) o := by
    obtain ⟨t', ht', rfl, hform⟩ := hrecords.record
    exact ⟨h.old _ (by simp), ⟨v, w, _, hw, Numbering.index?_assign frame w, rfl⟩, t',
      hoffered.stands_detached hshape ht' fun c hc => (hchildren c hc).2.1.symm, rfl, hform⟩
  have hrenamed := h.renamed.puts hrecords hputs hexpr hreplacement hT
    (fun w' slot h => Numbering.index?_assign_of_some h w) hold hstands fun x hx =>
      isInput_of_puts hT ht hw hrecords.grows (fun c hc => (hchildren c hc).1) hexpr hshape hselected hx
  exact ⟨h.puts hT hputs hrenamed, rfl, _, hreplacement.renames hw, hswaps⟩

/-- Instead of an operand, those below it may be visited. -/
theorem Visiting.below {i : NodeId} {e : Expr Term}
    (h : Visiting m negate f₀ s others (.node i e :: rest) frame f) :
    Visiting m negate f₀ s others (e.children ++ rest) frame f := by
  obtain ⟨T, hT, htodo⟩ := h.holds
  obtain ⟨hwithin, hne⟩ := htodo (.node i e) (by simp)
  have hapart := h.apart
  rw [List.flatMap_cons, Term.preorder_node, List.cons_append, List.nodup_cons] at hapart
  refine ⟨h.renamed, h.live, ⟨T, hT, fun u hu => ?_⟩, by simpa using hapart.2, fun u hu => ?_, h.others⟩
  · obtain hu | hu := List.mem_append.1 hu
    · have hu := Term.Within.of_mem_children (i := i) hu
      refine ⟨hu.trans hwithin, fun hid => hne ?_⟩
      have heq := (hu.trans hwithin).eq_of_id_mem hT.nodup (hid ▸ u.id_mem_preorder)
      have hmem := hwithin.eq_of_id_mem hT.nodup (hu.preorder_subset (heq ▸ u.id_mem_preorder))
      exact congrArg Term.id hmem
    · exact htodo u (by simp [hu])
  · obtain hu | hu := List.mem_append.1 hu
    · obtain ⟨p, hp⟩ := h.old _ List.mem_cons_self
      exact hp.exists_of_within (.of_mem_children hu)
    · exact h.old u (by simp [hu])

end StackRenaming

end FrameRecovery
