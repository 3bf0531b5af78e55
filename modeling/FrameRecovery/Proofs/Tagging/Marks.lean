import FrameRecovery.Proofs.Flow.Paths
import FrameRecovery.Proofs.Flow.Wired
import FrameRecovery.Tagging.Basic

namespace FrameRecovery

namespace Expr

theorem exists_withVersion {α : Type} {e : Expr α} (h : e.isAssignable = true) (v : Option Nat) :
    ∃ e', e.withVersion? v = some e' ∧ e'.children = e.children ∧ e'.isAssignable = true ∧
      e'.version? = v := by
  cases e <;> simp_all [isAssignable, withVersion?, children, version?]

end Expr

namespace LocationKind

/-- Whether an expression is an operand of a kind in a version. For a register the location is
    its name. -/
def Fits : LocationKind → Location → Option Nat → Expr NodeId → Prop
  | registers, l, v, e => e = .register l v
  | derefs, _, v, e => ∃ x, e = .deref x v

variable {kind : LocationKind} {l : Location} {v w : Option Nat} {e e' : Expr NodeId} {t : Term}

theorem Fits.isAssignable (h : kind.Fits l v e) : e.isAssignable = true := by
  cases kind
  · subst h
    rfl
  · obtain ⟨x, rfl⟩ := h
    rfl

theorem Fits.isUntagged (h : kind.Fits l none e) : e.isUntagged = true := by
  cases kind
  · subst h
    rfl
  · obtain ⟨x, rfl⟩ := h
    rfl

theorem Fits.isUntagged_eq_false {v : Nat} (h : kind.Fits l (some v) e) : e.isUntagged = false := by
  cases kind
  · subst h
    rfl
  · obtain ⟨x, rfl⟩ := h
    rfl

theorem Fits.version?_eq (h : kind.Fits l v e) : e.version? = v := by
  cases kind
  · subst h
    rfl
  · obtain ⟨x, rfl⟩ := h
    rfl

theorem Fits.withVersion (h : kind.Fits l v e) (he : e.withVersion? w = some e') :
    kind.Fits l w e' := by
  cases kind
  · subst h
    exact (Option.some.inj he).symm
  · obtain ⟨x, rfl⟩ := h
    exact ⟨x, (Option.some.inj he).symm⟩

/-- The expression without a version, if it is an operand of a kind. -/
def untag {α : Type} : LocationKind → Expr α → Expr α
  | registers, .register n _ => .register n none
  | derefs, .deref x _ => .deref x none
  | _, e => e

/-- The tree without the versions of the operands of a kind. -/
def strip (kind : LocationKind) (t : Term) : Term :=
  t.fold fun i e => .node i (kind.untag e)

theorem untag_map {α β : Type} (k : α → β) (e : Expr α) : kind.untag (e.map k) = (kind.untag e).map k := by
  cases kind <;> cases e <;> rfl

@[simp] theorem children_untag {α : Type} (e : Expr α) : (kind.untag e).children = e.children := by
  cases kind <;> cases e <;> rfl

@[simp] theorem strip_node (i : NodeId) (e : Expr Term) :
    kind.strip (.node i e) = .node i (kind.untag (e.map kind.strip)) := by
  unfold strip
  rw [Term.fold_node]

theorem form_strip (t : Term) : (kind.strip t).form = kind.strip t.form := by
  induction t using Term.induction with
  | step i e ih =>
    rw [strip_node, Term.form_node, Term.form_node, strip_node, ← untag_map, Expr.map_map, Expr.map_map]
    congr 2
    refine Expr.ext_children (by simp) ?_
    simp only [Expr.children_map, List.map_inj_left, Function.comp_apply]
    exact ih

theorem Fits.untag_eq (h : kind.Fits l v e) (he : e.withVersion? w = some e') :
    kind.untag e' = kind.untag e := by
  cases kind
  · subst h
    rw [← Option.some.inj he]
    rfl
  · obtain ⟨x, rfl⟩ := h
    rw [← Option.some.inj he]
    rfl

theorem exists_fits_of_locate (h : kind.locate t = some l) : kind.Fits l none (t.expr.map Term.id) := by
  unfold locate at h
  split at h
  · cases h
    rfl
  · exact ⟨_, rfl⟩
  · cases h

/-- The operands of a kind may have any version. -/
def Permits (kind : LocationKind) (V : Locations) : Prop :=
  kind = derefs → ∀ v, V.deref v

theorem permits_registers (V : Locations) : registers.Permits V :=
  nofun

theorem permits_any (kind : LocationKind) : kind.Permits .any :=
  fun _ _ => trivial

theorem Fits.admits {V : Locations} (hV : kind.Permits V) (h : kind.Fits l v e)
    (he : V.Admits e) (h' : kind.Fits l w e') : V.Admits e' := by
  cases kind with
  | registers =>
    obtain rfl := h
    obtain rfl := h'
    exact he
  | derefs =>
    obtain ⟨a, rfl⟩ := h'
    exact hV rfl w

end LocationKind

namespace Flow

variable {f g h : Flow} {V : Locations} {kind : LocationKind} {x d : NodeId} {l : Location}
  {v : Nat}

/-- A flow `g` is a flow `f` in which some untagged operands of a kind have been tagged, perhaps
    with more nodes. -/
structure Marks (f : Flow) (kind : LocationKind) (g : Flow) : Prop where
  expr : ∀ z e, f.exprAt z = some e → g.exprAt z = some e ∨
    ∃ l v, kind.Fits l none e ∧ g.exprAt z = e.withVersion? (some v)
  link : ∀ z e, f.exprAt z = some e → (f.linkOf z).Extends (g.linkOf z) ∨
    ((f.linkOf z).Free ∧ ∃ l, kind.Fits l none e)

namespace Marks

theorem of_retains (hfg : f.Retains g)
    (hlink : ∀ z, f.shapeAt z ≠ none → (f.linkOf z).Extends (g.linkOf z)) : f.Marks kind g := by
  refine ⟨fun z e hz => .inl ?_, fun z e hz => .inl (hlink z (exprAt_ne_none.1 (by simp [hz])))⟩
  rw [hfg.exprAt_eq (by simp [hz]), hz]

theorem of_eq (hexpr : g.exprAt = f.exprAt) (hlink : g.linkOf = f.linkOf) : f.Marks kind g :=
  ⟨fun _ _ h => .inl (hexpr ▸ h), fun _ _ _ => .inl (hlink ▸ .refl _)⟩

theorem refl (f : Flow) : f.Marks kind f :=
  of_eq rfl rfl

/-- What has a version keeps its expression. -/
theorem exprAt_eq (hfg : f.Marks kind g) {e : Expr NodeId} (hx : f.exprAt x = some e)
    (he : e.version? ≠ none ∨ e.isAssignable = false) : g.exprAt x = some e := by
  rcases hfg.expr x e hx with h | ⟨l, v, hfits, -⟩
  · exact h
  · simp [hfits.version?_eq, hfits.isAssignable] at he

theorem extends_of_tagged (hfg : f.Marks kind g) {e : Expr NodeId} (hx : f.exprAt x = some e)
    (he : e.isUntagged = false) : (f.linkOf x).Extends (g.linkOf x) := by
  rcases hfg.link x e hx with h | ⟨-, l, hfits⟩
  · exact h
  · simp [hfits.isUntagged] at he

theorem untag_eq (hfg : f.Marks kind g) {e e' : Expr NodeId} (hx : f.exprAt x = some e)
    (hx' : g.exprAt x = some e') : kind.untag e' = kind.untag e := by
  rcases hfg.expr x e hx with h | ⟨l, v, hfits, h⟩
  · rw [hx'] at h
    cases h
    rfl
  · exact hfits.untag_eq (h.symm.trans hx')

/-- Trees of the same topmost node differ in versions alone. -/
theorem strip_eq (hfg : f.Marks kind g) {t t' : Term} {p q : Place} (ht : f.Stands p t)
    (ht' : g.Stands q t') (hid : t'.id = t.id) : kind.strip t' = kind.strip t := by
  induction t using Term.induction generalizing p q t' with
  | step i e ih =>
    obtain ⟨i', e'⟩ := t'
    obtain rfl : i' = i := hid
    obtain ⟨shape, -, below⟩ := ht
    obtain ⟨shape', -, below'⟩ := ht'
    have huntag := hfg.untag_eq (exprAt_eq_some shape) (exprAt_eq_some shape')
    rw [LocationKind.untag_map, LocationKind.untag_map] at huntag
    have hids : e'.children.map Term.id = e.children.map Term.id := by
      simpa using congrArg Expr.children huntag
    rw [LocationKind.strip_node, LocationKind.strip_node, LocationKind.untag_map, LocationKind.untag_map]
    congr 1
    refine Expr.ext_children (by simpa using congrArg Expr.head huntag) ?_
    rw [Expr.children_map, Expr.children_map, LocationKind.children_untag, LocationKind.children_untag]
    have hlength : e'.children.length = e.children.length := by simpa using congrArg List.length hids
    refine List.ext_getElem (by simpa using hlength) fun n hn hn' => ?_
    simp only [List.length_map] at hn hn'
    rw [List.getElem_map, List.getElem_map]
    refine ih _ (List.getElem_mem hn') (below _ (List.getElem_mem hn'))
      (below' _ (List.getElem_mem hn)) ?_
    have h := List.getElem_of_eq hids (by simpa using hn)
    simpa using h

theorem exists_exprAt (hfg : f.Marks kind g) {e : Expr NodeId} (hx : f.exprAt x = some e) :
    ∃ e', g.exprAt x = some e' ∧ e'.children = e.children ∧ e'.isAssignable = e.isAssignable := by
  rcases hfg.expr x e hx with h | ⟨l, v, hfits, h⟩
  · exact ⟨e, h, rfl, rfl⟩
  · obtain ⟨e', he', hchildren, hassignable, -⟩ := Expr.exists_withVersion hfits.isAssignable (some v)
    exact ⟨e', h.trans he', hchildren, hassignable.trans hfits.isAssignable.symm⟩

theorem trans (hfg : f.Marks kind g) (hgh : g.Marks kind h) : f.Marks kind h := by
  refine ⟨fun z e hz => ?_, fun z e hz => ?_⟩
  · rcases hfg.expr z e hz with hg | ⟨l, v, hfits, hg⟩
    · exact hgh.expr z e hg
    · obtain ⟨e', he', -, -, hv⟩ := Expr.exists_withVersion hfits.isAssignable (some v)
      exact .inr ⟨l, v, hfits, he' ▸ hgh.exprAt_eq (hg.trans he') (.inl (by simp [hv]))⟩
  · rcases hfg.link z e hz with hext | hfree
    · rcases hfg.expr z e hz with hgz | ⟨l, v, hfits, hgz⟩
      · rcases hgh.link z e hgz with h | ⟨hfree, h⟩
        · exact .inl (hext.trans h)
        · exact .inr ⟨hext.free hfree, h⟩
      · obtain ⟨e', he', -⟩ := Expr.exists_withVersion hfits.isAssignable (some v)
        have htagged := (hfits.withVersion he').isUntagged_eq_false
        exact .inl (hext.trans (hgh.extends_of_tagged (hgz.trans he') htagged))
    · exact .inr hfree

end Marks

/-- A node is the definition of a version of a location. -/
def Defines (f : Flow) (kind : LocationKind) (l : Location) (d : NodeId) (v : Nat) : Prop :=
  1 ≤ v ∧ (∃ e, f.exprAt d = some e ∧ kind.Fits l (some v) e) ∧ ∃ us, f.linkOf d = .definition us

/-- A node reads a definition of a location, in the same version; or the value on entry, which
    is version 0. -/
def Reads (f : Flow) (kind : LocationKind) (l : Location) (x : NodeId) (d : Option NodeId) : Prop :=
  ∃ v, (∃ e, f.exprAt x = some e ∧ kind.Fits l (some v) e) ∧ f.linkOf x = .use d ∧
    match d with
    | some d => f.Defines kind l d v
    | none => v = 0

theorem Defines.marks (hd : f.Defines kind l d v) (hfg : f.Marks kind g) : g.Defines kind l d v := by
  obtain ⟨hv, ⟨e, he, hfits⟩, us, hus⟩ := hd
  refine ⟨hv, ⟨e, hfg.exprAt_eq he (.inl (by simp [hfits.version?_eq])), hfits⟩, ?_⟩
  rcases hfg.extends_of_tagged he hfits.isUntagged_eq_false with h | ⟨us', vs, -, h⟩
  · exact ⟨us, h.trans hus⟩
  · exact ⟨_, h⟩

theorem Reads.marks {D : Option NodeId} (hx : f.Reads kind l x D) (hfg : f.Marks kind g) :
    g.Reads kind l x D := by
  obtain ⟨v, ⟨e, he, hfits⟩, hlink, hD⟩ := hx
  refine ⟨v, ⟨e, hfg.exprAt_eq he (.inl (by simp [hfits.version?_eq])), hfits⟩, ?_, ?_⟩
  · exact (hfg.extends_of_tagged he hfits.isUntagged_eq_false).use_iff.2 hlink
  · cases D with
    | none => exact hD
    | some d => exact hD.marks hfg

/-- A node is an operand of a location: it is the register, or the location is the text of its
    address as it was before some versions were given. -/
def Names (f : Flow) : LocationKind → Location → NodeId → Prop
  | .registers, l, x => ∃ v, f.exprAt x = some (.register l v)
  | .derefs, l, x => ∃ A v u, f.exprAt x = some (.deref A.id v) ∧ f.Stands (.child x) A ∧
      u.text = l ∧ (LocationKind.derefs.strip A).form = (LocationKind.derefs.strip u).form

theorem Defines.unique {v' : Nat} (h : f.Defines kind l d v) (h' : f.Defines kind l d v') : v = v' := by
  obtain ⟨-, ⟨e, he, hfits⟩, -⟩ := h
  obtain ⟨-, ⟨e', he', hfits'⟩, -⟩ := h'
  rw [he] at he'
  cases he'
  simpa [hfits.version?_eq] using hfits'.version?_eq

/-- What is paired with the members of one list has a member of the other for each. -/
theorem exists_of_forall₂ {α β : Type} {R : α → β → Prop} {xs : List α} {ys : List β}
    (h : List.Forall₂ R xs ys) : (∀ x ∈ xs, ∃ y ∈ ys, R x y) ∧ ∀ y ∈ ys, ∃ x ∈ xs, R x y := by
  induction h with
  | nil => simp
  | cons hR _ ih =>
    constructor
    · intro x hx
      rcases List.mem_cons.1 hx with rfl | hx
      · exact ⟨_, by simp, hR⟩
      · obtain ⟨y, hy, hxy⟩ := ih.1 x hx
        exact ⟨y, by simp [hy], hxy⟩
    · intro y hy
      rcases List.mem_cons.1 hy with rfl | hy
      · exact ⟨_, by simp, hR⟩
      · obtain ⟨x, hx, hxy⟩ := ih.2 y hy
        exact ⟨x, by simp [hx], hxy⟩

/-- A statement assigns to a node the merge of some points. -/
def Merges (f : Flow) (kind : LocationKind) (l : Location) (s : StatementId) (d : NodeId)
    (points : List Point) : Prop :=
  ∃ st y inputs v, f.statementAt s = some st ∧ f.exprAt st.root = some (.assign d y) ∧
    f.exprAt y = some (.theta inputs) ∧ f.Defines kind l d v ∧
    List.Forall₂ (fun p x => f.Reads kind l x (Tagging.definitionAt p)) points inputs

/-- A flow `g` is a flow `f` in which some untagged operands of a kind have been tagged, perhaps
    with more statements. -/
structure Later (f : Flow) (kind : LocationKind) (g : Flow) : Prop where
  marks : f.Marks kind g
  place : ∀ y e p, f.shapeAt y = some (e, p) → ∃ e', g.shapeAt y = some (e', p)
  assign : ∀ r d y, f.exprAt r = none → g.exprAt r = some (.assign d y) → f.exprAt d = none
  statement : ∀ s st, f.statementAt s = some st → g.statementAt s = some st
  graph : f.SameGraph g

namespace Later

theorem refl (f : Flow) : f.Later kind f :=
  ⟨.refl f, fun _ e _ h => ⟨e, h⟩, fun r d y h h' => by simp [h] at h', fun _ _ h => h, .refl f⟩

theorem trans (hfg : f.Later kind g) (hgh : g.Later kind h) : f.Later kind h := by
  refine ⟨hfg.marks.trans hgh.marks, fun y e p hy => ?_, fun r d y hr hr' => ?_,
    fun s st hst => hgh.statement s st (hfg.statement s st hst), hfg.graph.trans hgh.graph⟩
  · obtain ⟨e', hy⟩ := hfg.place y e p hy
    exact hgh.place y e' p hy
  · by_contra hd
    obtain ⟨ed, hed⟩ := Option.ne_none_iff_exists'.1 hd
    obtain ⟨ed', hed', -⟩ := hfg.marks.exists_exprAt hed
    cases hg : g.exprAt r with
    | none =>
      have hnone := hgh.assign r d y hg hr'
      simp [hnone] at hed'
    | some e =>
      obtain ⟨e', he', -, hassignable⟩ := hgh.marks.exists_exprAt hg
      rw [hr'] at he'
      cases he'
      have hkept := hgh.marks.exprAt_eq hg (.inr hassignable.symm)
      rw [hr'] at hkept
      cases hkept
      exact hd (hfg.assign r d y hr hg)

/-- A tree keeps its nodes and its place. -/
theorem exists_stands (hfg : f.Later kind g) {p : Place} {t : Term} (ht : f.Stands p t) :
    ∃ t', g.Stands p t' ∧ t'.id = t.id ∧ t'.preorder = t.preorder :=
  ht.exists_similar fun y _ e q hy => by
    obtain ⟨e', he', hchildren, -⟩ := hfg.marks.exists_exprAt (exprAt_eq_some hy)
    obtain ⟨e₁, he₁⟩ := hfg.place y e q hy
    rw [exprAt_eq_some he₁] at he'
    cases he'
    exact ⟨_, he₁, hchildren⟩

/-- A statement keeps its nodes. -/
theorem exists_holds (hfg : f.Later kind g) {s : StatementId} {t : Term} (ht : f.Holds s t) :
    ∃ t', g.Holds s t' ∧ t'.id = t.id ∧ t'.preorder = t.preorder := by
  obtain ⟨st, hst, hroot, hstands⟩ := ht
  obtain ⟨t', ht', hid, hpreorder⟩ := hfg.exists_stands hstands
  exact ⟨t', ⟨st, hfg.statement s st hst, hid ▸ hroot, ht'⟩, hid, hpreorder⟩

/-- A statement keeps its tree apart from versions. -/
theorem strip_eq (hfg : f.Later kind g) {s : StatementId} {t t' : Term} (ht : f.Holds s t) (ht' : g.Holds s t') :
    kind.strip t' = kind.strip t := by
  obtain ⟨t₁, ht₁, hid, -⟩ := hfg.exists_holds ht
  obtain rfl := ht'.unique ht₁
  exact hfg.marks.strip_eq ht.stands ht'.stands hid

theorem live (hfg : f.Later kind g) {s : StatementId} (hs : f.Live s) : g.Live s := by
  obtain ⟨st, hst, hremoved⟩ := hs
  exact ⟨st, hfg.statement s st hst, hremoved⟩

theorem held (hfg : f.Later kind g) (hx : f.Held x) : g.Held x := by
  obtain ⟨s, t, hs, ht, hx⟩ := hx
  obtain ⟨t', ht', -, hpreorder⟩ := hfg.exists_holds ht
  exact ⟨s, t', hfg.live hs, ht', hpreorder ▸ hx⟩

theorem statementAt_eq_none (hfg : f.Later kind g) {s : StatementId} (hs : g.statementAt s = none) :
    f.statementAt s = none := by
  by_contra hne
  obtain ⟨st, hst⟩ := Option.ne_none_iff_exists'.1 hne
  simp [hfg.statement s st hst] at hs

/-- A read of a definition stays one. -/
theorem use (hfg : f.Later kind g) (hx : f.linkOf x = .use (some d)) : g.linkOf x = .use (some d) := by
  cases hshape : f.shapeAt x with
  | none => simp [linkOf_eq_unlinked hshape] at hx
  | some s =>
    rcases hfg.marks.link x s.1 (exprAt_eq_some hshape) with h | ⟨hfree, -⟩
    · exact h.use_iff.2 hx
    · exact absurd hx (hfree.ne_use d)

end Later

theorem Assigns.later {s : StatementId} {r : NodeId} (h : f.Assigns s r d) (hfg : f.Later kind g) :
    g.Assigns s r d := by
  obtain ⟨⟨st, hst, hroot⟩, y, hr⟩ := h
  exact ⟨⟨st, hfg.statement s st hst, hroot⟩, y, hfg.marks.exprAt_eq hr (.inr rfl)⟩

theorem IsInput.later (hx : f.IsInput x) (hfg : f.Later kind g) : g.IsInput x := by
  obtain ⟨inputs, hx⟩ := hx
  obtain ⟨e, q, p, hshape, hparent⟩ := exists_of_parentExpr? hx
  obtain ⟨e', hshape'⟩ := hfg.place x e _ hshape
  obtain ⟨p', hparent'⟩ := exists_shapeAt_of_exprAt
    (hfg.marks.exprAt_eq (exprAt_eq_some hparent) (.inr rfl))
  exact ⟨inputs, parentExpr?_eq_some hshape' hparent'⟩

theorem Names.later (hx : f.Names kind l x) (hfg : f.Later kind g) : g.Names kind l x := by
  cases kind with
  | registers =>
    obtain ⟨v, hx⟩ := hx
    rcases hfg.marks.expr x _ hx with h | ⟨l', v', -, h⟩
    · exact ⟨v, h⟩
    · exact ⟨some v', h⟩
  | derefs =>
    obtain ⟨A, v, u, hx, hA, hu, hform⟩ := hx
    obtain ⟨A', hA', hid, -⟩ := hfg.exists_stands hA
    have hform' : (LocationKind.derefs.strip A').form = (LocationKind.derefs.strip u).form := by
      rw [hfg.marks.strip_eq hA hA' hid, hform]
    rcases hfg.marks.expr x _ hx with h | ⟨l', v', -, h⟩
    · exact ⟨A', v, u, hid ▸ h, hA', hu, hform'⟩
    · exact ⟨A', some v', u, hid ▸ h, hA', hu, hform'⟩

theorem Merges.later {s : StatementId} {points : List Point} (h : f.Merges kind l s d points)
    (hfg : f.Later kind g) : g.Merges kind l s d points := by
  obtain ⟨st, y, inputs, v, hst, hroot, hy, hd, hall⟩ := h
  exact ⟨st, y, inputs, v, hfg.statement s st hst, hfg.marks.exprAt_eq hroot (.inr rfl),
    hfg.marks.exprAt_eq hy (.inr rfl), hd.marks hfg.marks, hall.imp fun _ _ h => h.marks hfg.marks⟩

/-- A flow `g` is a flow `f` in which the operand `x` has been tagged. -/
structure Tags (f : Flow) (kind : LocationKind) (x : NodeId) (g : Flow) : Prop where
  marks : f.Marks kind g
  exprAt_ne : ∀ z, z ≠ x → g.exprAt z = f.exprAt z
  extends_ne : ∀ z, z ≠ x → (f.linkOf z).Extends (g.linkOf z)
  place_eq : ∀ z, (g.shapeAt z).map Prod.snd = (f.shapeAt z).map Prod.snd
  entry_eq : g.entry = f.entry
  statements_eq : g.statements = f.statements
  blocks_eq : g.blocks = f.blocks

theorem Becomes.exprAt_eq {e' : Expr NodeId} {p : Place} {link : NodeId → Link}
    (hg : f.Becomes g (Function.update f.shapeAt x (some (e', p))) link) :
    g.exprAt = Function.update f.exprAt x (some e') := by
  funext z
  unfold exprAt
  rw [hg.shape_eq]
  by_cases hz : z = x
  · simp [hz]
  · simp [Function.update_of_ne hz]

theorem Tags.later (h : f.Tags kind x g) (hx : f.exprAt x ≠ none) : f.Later kind g := by
  refine ⟨h.marks, fun y e p hy => ?_, fun r d y hr hr' => ?_, fun s st hst => ?_,
    .of_blocks_eq h.entry_eq h.blocks_eq⟩
  · have hplace := h.place_eq y
    rw [hy] at hplace
    obtain ⟨⟨e', p'⟩, hg, rfl⟩ := Option.map_eq_some_iff.1 hplace
    exact ⟨e', hg⟩
  · have hrx : r ≠ x := by
      rintro rfl
      exact hx hr
    rw [h.exprAt_ne r hrx, hr] at hr'
    cases hr'
  · rw [statementAt, h.statements_eq]
    exact hst

theorem Tags.noNewAssign (h : f.Tags kind x g) {e : Expr NodeId} (hx : f.exprAt x = some e)
    (he : e.isAssignable = true) : f.NoNewAssign g := by
  intro r d y hr
  by_cases hrx : r = x
  · subst hrx
    obtain ⟨e', he', -, hassignable⟩ := h.marks.exists_exprAt hx
    rw [hr] at he'
    cases he'
    rw [he] at hassignable
    cases hassignable
  · exact ⟨y, h.exprAt_ne r hrx ▸ hr⟩

theorem Rooted.later (hf : f.Rooted) (hfg : f.Later kind g) (hnew : f.NoNewAssign g) : g.Rooted := by
  intro r d y hr
  obtain ⟨y', hr⟩ := hnew r d y hr
  obtain ⟨s, t, ht, hid⟩ := hf r d y' hr
  obtain ⟨t', ht', hid', -⟩ := hfg.exists_holds ht
  exact ⟨s, t', ht', hid'.trans hid⟩

/-- Tagging an operand of a statement keeps a flow sound. -/
theorem Tags.sound (h : f.Tags kind x g) (hf : f.Sound V) (hg : g.Wired V) (hfg : f.Later kind g)
    (hx : f.Held x) : g.Sound V := by
  refine hg.sound (hf.forest.of_holds h.blocks_eq (fun s => ?_) fun s t ht => ?_) fun y hy => ?_
  · rw [statementAt, statementAt, h.statements_eq]
  · obtain ⟨t', ht', -⟩ := hfg.exists_holds ht
    exact ⟨t', ht'⟩
  · by_cases hyx : y = x
    · exact hyx ▸ hfg.held hx
    · refine hfg.held (hf.held y fun hunlinked => hy ?_)
      exact (h.extends_ne y hyx).unlinked_iff.2 hunlinked

section Tags

variable {e e' : Expr NodeId} {p : Place} {link : NodeId → Link}
  (hx : f.shapeAt x = some (e, p)) (hfits : kind.Fits l none e)
  (he' : e.withVersion? (some v) = some e') (hfree : (f.linkOf x).Free)
include hx hfits he' hfree

theorem Becomes.tags (hg : f.Becomes g (Function.update f.shapeAt x (some (e', p))) link)
    (hlink : ∀ z, z ≠ x → (f.linkOf z).Extends (link z)) : f.Tags kind x g := by
  have hexpr := hg.exprAt_eq
  have hlink : ∀ z, z ≠ x → (f.linkOf z).Extends (g.linkOf z) := hg.link_eq ▸ hlink
  refine ⟨⟨fun z e₀ hz => ?_, fun z e₀ hz => ?_⟩, fun z hz => ?_, hlink, fun z => ?_, hg.entry_eq,
    hg.statements_eq, hg.blocks_eq⟩
  · by_cases hzx : z = x
    · subst hzx
      rw [exprAt_eq_some hx] at hz
      cases hz
      exact .inr ⟨l, v, hfits, by rw [hexpr, Function.update_self, he']⟩
    · exact .inl (by rw [hexpr, Function.update_of_ne hzx, hz])
  · by_cases hzx : z = x
    · subst hzx
      rw [exprAt_eq_some hx] at hz
      cases hz
      exact .inr ⟨hfree, l, hfits⟩
    · exact .inl (hlink z hzx)
  · rw [hexpr, Function.update_of_ne hz]
  · rw [hg.shape_eq]
    by_cases hzx : z = x
    · simp [hzx, hx]
    · rw [Function.update_of_ne hzx]

theorem Wired.becomes (hV : kind.Permits V) (hf : f.Wired V)
    (hg : f.Becomes g (Function.update f.shapeAt x (some (e', p))) link)
    (hmirrored : g.Mirrored) (hextends : ∀ z, z ≠ x → (f.linkOf z).Extends (link z))
    (htarget : (∃ r y, f.exprAt r = some (.assign x y)) → ∀ z, link x ≠ .use z)
    (hregister : ∀ d n w, link x = .use (some d) → f.exprAt d = some (.register n w) →
      e' = .register n w) : g.Wired V := by
  have hexpr := hg.exprAt_eq
  obtain ⟨e₁, he₁, hchildren, hassignable, hversion⟩ :=
    Expr.exists_withVersion hfits.isAssignable (some v)
  obtain rfl : e' = e₁ := Option.some.inj (he'.symm.trans he₁)
  have hself : g.exprAt x = some e' := by rw [hexpr, Function.update_self]
  have hne : ∀ {z}, z ≠ x → g.exprAt z = f.exprAt z := fun {z} hz => by
    rw [hexpr, Function.update_of_ne hz]
  have hlinked : ∀ {z}, z ≠ x → g.linkOf z ≠ .unlinked → f.linkOf z ≠ .unlinked := by
    intro z hz h h'
    rw [hg.link_eq] at h
    exact h ((hextends z hz).unlinked_iff.2 h')
  have hx' := exprAt_eq_some hx
  refine ⟨⟨hf.typed.closed.update ?_ hexpr, fun r d y hr => ?_, fun z hz => ?_, fun z e₀ hz => ?_⟩,
    hmirrored, fun z e₀ he₀ huntagged => ?_, fun u d n w hu hd => ?_⟩
  · exact hchildren ▸ hf.typed.closed x e hx'
  · have hrx : r ≠ x := by
      rintro rfl
      rw [hself] at hr
      cases hr
      simp [Expr.isAssignable] at hassignable
    rw [hne hrx] at hr
    by_cases hdx : d = x
    · subst hdx
      exact ⟨⟨e', hself, hassignable⟩, hg.link_eq ▸ htarget ⟨r, y, hr⟩⟩
    · obtain ⟨⟨ed, hed, had⟩, hnot⟩ := hf.typed.target r d y hr
      refine ⟨⟨ed, (hne hdx).trans hed, had⟩, fun z hz => hnot z ?_⟩
      rw [hg.link_eq] at hz
      exact (hextends d hdx).use_iff.1 hz
  · by_cases hzx : z = x
    · subst hzx
      exact ⟨e', hself, hassignable⟩
    · rw [hne hzx]
      exact hf.typed.link z (hlinked hzx hz)
  · by_cases hzx : z = x
    · subst hzx
      rw [hself] at hz
      cases hz
      exact hfits.admits hV (hf.typed.location z e hx') (hfits.withVersion he')
    · rw [hne hzx] at hz
      exact hf.typed.location z e₀ hz
  · by_cases hzx : z = x
    · subst hzx
      rw [hself] at he₀
      cases he₀
      simp [(hfits.withVersion he').isUntagged_eq_false] at huntagged
    · rw [hne hzx] at he₀
      rw [hg.link_eq]
      obtain hl | hl := hf.untagged z e₀ he₀ huntagged
      · exact .inl ((hextends z hzx).unlinked_iff.2 hl)
      · exact .inr ((hextends z hzx).use_iff.2 hl)
  · by_cases hux : u = x
    · subst hux
      have hdu : d ≠ u := by
        rintro rfl
        have h := (hmirrored.recorded d d).1 hu
        rw [hu] at h
        cases h
      rw [hne hdu] at hd
      rw [hself, hregister d n w (hg.link_eq ▸ hu) hd]
    · rw [hg.link_eq] at hu
      have hu' := (hextends u hux).use_iff.1 hu
      have hdx : d ≠ x := fun h => hf.ne_of_free hfree u (h ▸ hu')
      rw [hne hdx] at hd
      exact (hne hux).trans (hf.register u d n w hu' hd)

end Tags

end Flow

namespace Tagging

open Flow

variable {f : Flow} {V : Locations} {kind : LocationKind} {x : NodeId} {l : Location} {v : Nat}
  {e : Expr NodeId} (hV : kind.Permits V) (hf : f.Wired V) (hx : f.exprAt x = some e)
  (hfits : kind.Fits l none e)
include hV hf hx hfits

theorem markDefinition_gives (hv : 1 ≤ v) :
    Gives (markDefinition x v) f fun _ g => g.Wired V ∧ f.Tags kind x g ∧ g.Defines kind l x v := by
  obtain ⟨p, hx⟩ := exists_shapeAt_of_exprAt hx
  obtain ⟨e', he', -⟩ := Expr.exists_withVersion hfits.isAssignable (some v)
  have hfree := hf.untagged x e (exprAt_eq_some hx) hfits.isUntagged
  unfold markDefinition
  refine .of_bind ((Edit.setVersion_gives hx he').mono fun _ g₁ h₁ => ?_)
  have hx₁ : g₁.shapeAt x = some (e', p) := by rw [h₁.shape_eq, Function.update_self]
  refine (Edit.setLink_gives hx₁ _).mono fun _ g h₂ => ?_
  have hg : f.Becomes g (Function.update f.shapeAt x (some (e', p)))
      (Function.update f.linkOf x (.definition [])) := by
    simpa [h₁.shape_eq, h₁.link_eq] using h₁.trans h₂
  have hextends : ∀ z, z ≠ x → (f.linkOf z).Extends (Function.update f.linkOf x (.definition []) z) := by
    intro z hz
    rw [Function.update_of_ne hz]
    exact .refl _
  have hmirrored : g.Mirrored := by
    have hnot := hf.ne_of_free hfree
    refine ⟨fun y d => ?_, fun d => ?_⟩
    · rw [hg.link_eq]
      by_cases hy : y = x <;> by_cases hd : d = x
      · simp [hy, hd]
      · subst hy
        simp [Function.update_of_ne hd, ← hf.mirrored.recorded, hfree.ne_use]
      · subst hd
        simp [Function.update_of_ne hy, hnot]
      · rw [Function.update_of_ne hy, Function.update_of_ne hd, hf.mirrored.recorded]
    · rw [hg.link_eq]
      by_cases hd : d = x
      · simp [hd]
      · rw [Function.update_of_ne hd]
        exact hf.mirrored.nodup d
  refine ⟨hf.becomes hx hfits he' hfree hV hg hmirrored hextends (by simp) (by simp),
    hg.tags hx hfits he' hfree hextends, hv, ⟨e', ?_, hfits.withVersion he'⟩, [], ?_⟩
  · rw [hg.exprAt_eq, Function.update_self]
  · rw [hg.link_eq, Function.update_self]

section Read

variable {D : Option NodeId} (hversion : ∀ d, D = some d → f.Defines kind l d v) (hentry : D = none → v = 0)
  (htarget : ∀ r y, f.exprAt r ≠ some (.assign x y))
include hversion hentry htarget

/-- An operand that gets the version of a definition and is linked to it reads it. -/
theorem setVersion_linkUse_gives : Gives (do
      Edit.setVersion x (some v)
      Edit.linkUse x D) f fun _ g => g.Wired V ∧ f.Tags kind x g ∧ g.Reads kind l x D := by
  obtain ⟨p, hx⟩ := exists_shapeAt_of_exprAt hx
  have hfree := hf.untagged x e (exprAt_eq_some hx) hfits.isUntagged
  obtain ⟨e', he', -⟩ := Expr.exists_withVersion hfits.isAssignable (some v)
  refine .of_bind ((Edit.setVersion_gives hx he').mono fun _ g₁ h₁ => ?_)
  have hx₁ : g₁.shapeAt x = some (e', p) := by rw [h₁.shape_eq, Function.update_self]
  have hdefinition : ∀ d, D = some d → d ≠ x ∧ ∃ us, f.linkOf d = .definition us := by
    intro d hd
    obtain ⟨-, -, us, hus⟩ := hversion d hd
    refine ⟨?_, us, hus⟩
    rintro rfl
    simp [Link.Free, hus] at hfree
  have hnode : ∀ d, D = some d → g₁.shapeAt d ≠ none ∧ d ≠ x := by
    intro d hd
    obtain ⟨hne, -⟩ := hdefinition d hd
    obtain ⟨-, ⟨ed, hed, -⟩, -⟩ := hversion d hd
    rw [h₁.shape_eq, Function.update_of_ne hne]
    exact ⟨exprAt_ne_none.1 (by simp [hed]), hne⟩
  refine (Edit.linkUse_gives (by simp [hx₁]) hnode).mono fun _ g h₂ => ?_
  have hg : f.Becomes g (Function.update f.shapeAt x (some (e', p))) (Edit.linked f.linkOf x D) := by
    simpa [h₁.shape_eq, h₁.link_eq] using h₁.trans h₂
  have htied₁ : g₁.Tied := by
    refine ⟨hf.mirrored.of_linkOf_eq h₁.link_eq, fun y hy => ?_⟩
    rw [h₁.link_eq] at hy
    rw [h₁.shape_eq]
    by_cases hyx : y = x
    · simp [hyx]
    · rw [Function.update_of_ne hyx]
      exact hf.typed.exists_node hy
  have htied := Edit.tied_linked htied₁ (by simp [hx₁]) (h₁.link_eq ▸ hfree)
    (fun d hd => h₁.link_eq ▸ (hdefinition d hd).2) h₂
  have hextends : ∀ z, z ≠ x → (f.linkOf z).Extends (Edit.linked f.linkOf x D z) :=
    fun _ hz => Edit.extends_linked hz
  have htags := hg.tags hx hfits he' hfree hextends
  refine ⟨hf.becomes hx hfits he' hfree hV hg htied.mirrored hextends ?_ ?_, htags, v,
    ⟨e', ?_, hfits.withVersion he'⟩, ?_, ?_⟩
  · rintro ⟨r, y, hr⟩
    exact absurd hr (htarget r y)
  · intro d n w hd hed
    obtain rfl : D = some d := by
      rw [Edit.linked_self] at hd
      exact Link.use.inj hd
    obtain ⟨-, ⟨ed, hed', hfitsd⟩, -⟩ := hversion d rfl
    rw [hed] at hed'
    cases hed'
    cases kind
    · cases hfitsd
      exact hfits.withVersion he'
    · obtain ⟨a, ha⟩ := hfitsd
      cases ha
  · rw [hg.exprAt_eq, Function.update_self]
  · rw [hg.link_eq, Edit.linked_self]
  · cases D with
    | none => exact hentry rfl
    | some d => exact (hversion d rfl).marks htags.marks

end Read

theorem markRead_gives {D : Option NodeId} (hD : ∀ d, D = some d → ∃ v, f.Defines kind l d v)
    (htarget : ∀ r y, f.exprAt r ≠ some (.assign x y)) :
    Gives (markRead x D) f fun _ g => g.Wired V ∧ f.Tags kind x g ∧ g.Reads kind l x D := by
  unfold markRead
  cases D with
  | none => exact .of_bind (.of_pure (setVersion_linkUse_gives hV hf hx hfits nofun (fun _ => rfl) htarget))
  | some d =>
    -- the version comes from the definition
    obtain ⟨v, hv⟩ := hD d rfl
    obtain ⟨-, ⟨ed, hed, hfitsd⟩, -⟩ := id hv
    obtain ⟨q, hd⟩ := exists_shapeAt_of_exprAt hed
    refine .of_bind (.of_view (expr_eq hd) (.of_bind (.of_pure ?_)))
    rw [hfitsd.version?_eq]
    exact setVersion_linkUse_gives hV hf hx hfits (fun _ h => Option.some.inj h ▸ hv) nofun htarget

end Tagging

end FrameRecovery
