import FrameRecovery.Proofs.Flow.Coherent
import FrameRecovery.Proofs.Simplify
import FrameRecovery.Propagation

namespace FrameRecovery

namespace Flow

variable {f g : Flow} {V : Locations} {R : NodeId → NodeId → Prop} {p : Place} {t t' : Term}
  {x y : NodeId}

theorem Mimics.exists_expr (hR : f.Mimics R) (hyx : R y x) : ∃ e' e, f.exprAt y = some e' ∧
    f.exprAt x = some e ∧ e'.head = e.head ∧ List.Forall₂ R e'.children e.children := by
  obtain ⟨e', p', e, p, hy, hx, hhead, hchildren⟩ := hR y x hyx
  exact ⟨e', e, exprAt_eq_some hy, exprAt_eq_some hx, hhead, hchildren⟩

/-- A copy has no value that its source has not. -/
theorem ValueAt.of_mimics {ρ : String → Word} {w : Word} (hR : f.Mimics R)
    (hread : ∀ a b, R a b → f.linkOf a = (f.linkOf b).read) (hy : f.ValueAt ρ y w) (hyx : R y x) :
    f.ValueAt ρ x w := by
  have hexpr : ∀ {y x e'}, R y x → f.exprAt y = some e' →
      ∃ e, f.exprAt x = some e ∧ e.head = e'.head ∧ List.Forall₂ R e'.children e.children := by
    intro y x e' hyx hy
    obtain ⟨e₁, e, hy', hx, hhead, hchildren⟩ := hR.exists_expr hyx
    rw [hy] at hy'
    cases hy'
    exact ⟨e, hx, hhead.symm, hchildren⟩
  induction hy generalizing x with
  | constant h =>
    obtain ⟨e, hx, hhead, -⟩ := hexpr hyx h
    exact .constant (Expr.eq_constant_of_head_eq hhead ▸ hx)
  | entry h =>
    obtain ⟨e, hx, hhead, -⟩ := hexpr hyx h
    exact .entry (Expr.eq_register_of_head_eq hhead ▸ hx)
  | @read y d r z n v w h hlink hassign hz ih =>
    obtain ⟨e, hx, hhead, -⟩ := hexpr hyx h
    refine .read (Expr.eq_register_of_head_eq hhead ▸ hx) ?_ hassign hz
    have h := hread y x hyx
    rw [hlink] at h
    cases hl : f.linkOf x <;> simp_all [Link.read]
  | binary h _ _ iha ihb =>
    obtain ⟨e, hx, hhead, hchildren⟩ := hexpr hyx h
    obtain ⟨a, b, rfl⟩ := Expr.eq_binary_of_head_eq hhead
    simp only [Expr.children, List.forall₂_cons, List.Forall₂.nil, and_true] at hchildren
    exact .binary hx (iha hchildren.1) (ihb hchildren.2)
  | unary h _ ih =>
    obtain ⟨e, hx, hhead, hchildren⟩ := hexpr hyx h
    obtain ⟨a, rfl⟩ := Expr.eq_unary_of_head_eq hhead
    simp only [Expr.children, List.forall₂_cons, List.Forall₂.nil, and_true] at hchildren
    exact .unary hx (ih hchildren)

theorem Free.without {xs : List NodeId} (hx : (f.linkOf x).Free) (hlink : g.linkOf = f.linksWithout xs) :
    (g.linkOf x).Free := by
  rw [hlink, linksWithout]
  split
  · exact .inl rfl
  · exact hx.drop xs

theorem Typed.without {xs : List NodeId} (hf : f.Typed V) (hexpr : g.exprAt = f.exprAt)
    (hlink : g.linkOf = f.linksWithout xs) : g.Typed V := by
  refine ⟨fun y e hy c hc => ?_, fun r d y hr => ?_, fun y hy => ?_, hexpr ▸ hf.location⟩
  · rw [hexpr] at hy ⊢
    exact hf.closed y e hy c hc
  · rw [hexpr] at hr ⊢
    obtain ⟨hd, hread⟩ := hf.target r d y hr
    refine ⟨hd, fun z hz => ?_⟩
    rw [hlink] at hz
    unfold linksWithout at hz
    split at hz
    · cases hz
    · rcases hl : f.linkOf d with _ | us | _ | d'
      · simp [hl, Link.drop] at hz
      · simp [hl, Link.drop] at hz
      · exact hread none hl
      · exact hread (some d') hl
  · rw [hexpr]
    refine hf.link y fun h => hy ?_
    simp [hlink, linksWithout, h]

namespace Copies

theorem pending (h : f.Copies g R t t') : f.Pending g [t'] :=
  ⟨by simpa using h.grows, by simpa using h.stands, by simp⟩

section Sources

variable (h : f.Copies g R t t') (ht : f.Stands p t) (hrecords : f.Records g)
  (hread : ∀ a b, R a b → g.linkOf a = (g.linkOf b).read)
include h ht

theorem old_of_source (hx : y ∈ t.preorder) : g.exprAt y = f.exprAt y ∧ f.shapeAt y ≠ none := by
  have hy := ht.shapeAt_ne_none hx
  exact ⟨h.grows.retains.exprAt_eq (exprAt_ne_none.2 hy), hy⟩

include hrecords hread

/-- A new node is of the kind of its source, and reads what that reads. -/
theorem exists_source (hx : x ∈ t'.preorder) : ∃ x₀ e e₀, x₀ ∈ t.preorder ∧ g.exprAt x = some e ∧
    f.exprAt x₀ = some e₀ ∧ e.head = e₀.head ∧ g.linkOf x = (f.linkOf x₀).read := by
  obtain ⟨x₀, hx₀, hR⟩ := h.source x hx
  obtain ⟨e, e₀, he, he₀, hhead, -⟩ := h.mimics.exists_expr hR
  obtain ⟨hold, hne⟩ := h.old_of_source ht hx₀
  refine ⟨x₀, e, e₀, hx₀, he, hold ▸ he₀, hhead, ?_⟩
  rw [hread x x₀ hR, (hrecords x₀ hne).read_eq]

/-- What is linked is of the kind of something that was linked before, and reads what that
    reads. -/
theorem exists_linked (htied : g.Tied) (hx : g.linkOf x ≠ .unlinked) : ∃ x₀ e e₀,
    g.exprAt x = some e ∧ f.exprAt x₀ = some e₀ ∧ e.head = e₀.head ∧ f.linkOf x₀ ≠ .unlinked ∧
    ∀ d, g.linkOf x = .use d → f.linkOf x₀ = .use d := by
  have hxne := htied.exists_node x hx
  rcases h.grows.made x hxne with hold | hnew
  · obtain ⟨e, he⟩ := Option.ne_none_iff_exists'.1 (exprAt_ne_none.2 hold)
    refine ⟨x, e, e, ?_, he, rfl, fun hl => hx ((hrecords x hold).unlinked_iff.2 hl),
      fun d hd => (hrecords x hold).use_iff.1 hd⟩
    rw [h.grows.retains.exprAt_eq (by simp [he]), he]
  · obtain ⟨x₀, e, e₀, -, he, he₀, hhead, hlink⟩ := h.exists_source ht hrecords hread hnew
    refine ⟨x₀, e, e₀, he, he₀, hhead, fun hl => ?_, fun d hd => ?_⟩
    · rw [hlink, hl] at hx
      exact hx rfl
    · rw [hlink] at hd
      cases hl : f.linkOf x₀ <;> simp_all [Link.read]

theorem typed (hf : f.Typed V) (htied : g.Tied) : g.Typed V := by
  have hkept : ∀ {y e}, f.exprAt y = some e → g.exprAt y = some e := fun {y e} hy => by
    rw [h.grows.retains.exprAt_eq (by simp [hy]), hy]
  refine ⟨hf.closed.pending h.pending, fun r d y hr => ?_, fun x hx => ?_, fun x e' hx => ?_⟩
  · have hrne := exprAt_ne_none.1 (by simp [hr] : g.exprAt r ≠ none)
    rcases h.grows.made r hrne with hrold | hrnew
    · have hr' : f.exprAt r = some (.assign d y) := by
        rw [← hr, h.grows.retains.exprAt_eq (exprAt_ne_none.2 hrold)]
      obtain ⟨⟨e, he, hassignable⟩, hnot⟩ := hf.target r d y hr'
      refine ⟨⟨e, hkept he, hassignable⟩, fun z hz => hnot z ?_⟩
      exact (hrecords d (exprAt_ne_none.1 (by simp [he]))).use_iff.1 hz
    · obtain ⟨r₀, hr₀, hR⟩ := h.source r hrnew
      obtain ⟨e, e₀, he, he₀, hhead, hchildren⟩ := h.mimics.exists_expr hR
      rw [hr] at he
      cases he
      obtain ⟨d₀, y₀, rfl⟩ := Expr.eq_assign_of_head_eq hhead.symm
      simp only [Expr.children, List.forall₂_cons, List.Forall₂.nil, and_true] at hchildren
      rw [(h.old_of_source ht hr₀).1] at he₀
      obtain ⟨⟨ed₀, hed₀, hassignable⟩, hnot⟩ := hf.target r₀ d₀ y₀ he₀
      obtain ⟨ed, ed₀', hed, hed₀', hheadd, -⟩ := h.mimics.exists_expr hchildren.1
      rw [hkept hed₀] at hed₀'
      cases hed₀'
      refine ⟨⟨ed, hed, (Expr.isAssignable_eq_of_head_eq hheadd).trans hassignable⟩, fun z hz => ?_⟩
      rw [hread d d₀ hchildren.1, (hrecords d₀ (exprAt_ne_none.1 (by simp [hed₀]))).read_eq] at hz
      refine hnot z ?_
      cases hl : f.linkOf d₀ <;> simp_all [Link.read]
  · obtain ⟨x₀, e, e₀, he, he₀, hhead, hx₀, -⟩ := h.exists_linked ht hrecords hread htied hx
    obtain ⟨e₁, he₁, hassignable⟩ := hf.link x₀ hx₀
    rw [he₀] at he₁
    cases he₁
    exact ⟨e, he, (Expr.isAssignable_eq_of_head_eq hhead).trans hassignable⟩
  · rcases h.grows.made x (exprAt_ne_none.1 (by simp [hx])) with hold | hnew
    · rw [h.grows.retains.exprAt_eq (exprAt_ne_none.2 hold)] at hx
      exact hf.location x e' hx
    · obtain ⟨x₀, e, e₀, -, he, he₀, hhead, -⟩ := h.exists_source ht hrecords hread hnew
      rw [hx] at he
      cases he
      exact (Locations.admits_iff_of_head_eq hhead).2 (hf.location x₀ e₀ he₀)

/-- A copy of an untagged operand is linked no more than that. -/
theorem free (hf : ∀ x e, f.exprAt x = some e → e.isUntagged = true → (f.linkOf x).Free)
    {e : Expr NodeId} (hx : g.exprAt x = some e) (he : e.isUntagged = true) : (g.linkOf x).Free := by
  rcases h.grows.made x (exprAt_ne_none.1 (by simp [hx])) with hold | hnew
  · rw [h.grows.retains.exprAt_eq (exprAt_ne_none.2 hold)] at hx
    obtain hl | hl := hf x e hx he
    · exact .inl ((hrecords x hold).unlinked_iff.2 hl)
    · exact .inr ((hrecords x hold).use_iff.2 hl)
  · obtain ⟨x₀, e', e₀, -, he', he₀, hhead, hlink⟩ := h.exists_source ht hrecords hread hnew
    rw [hx] at he'
    cases he'
    rw [Expr.isUntagged_eq_of_head_eq hhead] at he
    rw [hlink]
    obtain hl | hl := hf x₀ e₀ he₀ he <;> rw [hl]
    · exact .inl rfl
    · exact .inr rfl

/-- Definitions are no copies. -/
theorem old_of_definition {us : List NodeId} (htied : g.Tied) (hx : g.linkOf x = .definition us) :
    f.shapeAt x ≠ none := by
  rcases h.grows.made x (htied.exists_node x (by simp [hx])) with hold | hnew
  · exact hold
  · obtain ⟨x₀, e, e₀, -, -, -, -, hlink⟩ := h.exists_source ht hrecords hread hnew
    rw [hx] at hlink
    exact absurd hlink.symm (Link.Extends.read_ne_definition _ us)

end Sources

end Copies

/-- A statement assigns to a node. -/
def Assigns (f : Flow) (s : StatementId) (r d : NodeId) : Prop :=
  (∃ st, f.statementAt s = some st ∧ st.root = r) ∧ ∃ y, f.exprAt r = some (.assign d y)

/-- What assigns to a node is the assignment of a value. -/
theorem Assigns.exists_holds {s : StatementId} {r d : NodeId} (h : f.Assigns s r d) (hf : f.Forest) :
    ∃ a v, f.Holds s (.node r (.assign a v)) ∧ a.id = d := by
  obtain ⟨⟨st, hst, hroot⟩, y, hr⟩ := h
  obtain ⟨⟨i, e⟩, ht⟩ := hf.holds s st hst
  obtain ⟨st', hst', hroot', hstands⟩ := id ht
  obtain rfl := Option.some.inj (hst.symm.trans hst')
  obtain rfl : i = r := hroot'.symm.trans hroot
  rw [← Term.id_node i e, exprAt_eq_some hstands.shape_id, Option.some.injEq] at hr
  cases e <;> simp only [Term.expr_node, Expr.map, reduceCtorEq, Expr.assign.injEq] at hr
  exact ⟨_, _, ht, hr.1⟩

/-- Every assignment is the topmost node of a statement. -/
def Rooted (f : Flow) : Prop :=
  ∀ r d y, f.exprAt r = some (.assign d y) → ∃ s t, f.Holds s t ∧ t.id = r

/-- A flow `g` has no more assignments than a flow `f`. -/
def NoNewAssign (f g : Flow) : Prop :=
  ∀ r d y, g.exprAt r = some (.assign d y) → ∃ y', f.exprAt r = some (.assign d y')

/-- A flow `g` has no more definitions than a flow `f`, and they are what they were. -/
def NoNewDefinition (f g : Flow) : Prop :=
  ∀ x us, g.linkOf x = .definition us → (∃ us', f.linkOf x = .definition us') ∧
    ∃ e e', f.exprAt x = some e ∧ g.exprAt x = some e' ∧ e'.head = e.head

theorem NoNewDefinition.refl (hf : f.Typed V) : f.NoNewDefinition f := by
  intro x us hx
  obtain ⟨e, he, -⟩ := hf.link x (by simp [hx])
  exact ⟨⟨us, hx⟩, e, e, he, he, rfl⟩

theorem NoNewDefinition.trans {h : Flow} (hfg : f.NoNewDefinition g) (hgh : g.NoNewDefinition h) :
    f.NoNewDefinition h := by
  intro x us hx
  obtain ⟨⟨us', hx'⟩, e, e', he, he', hhead⟩ := hgh x us hx
  obtain ⟨hold, e₀, e₁, he₀, he₁, hhead₀⟩ := hfg x us' hx'
  rw [he] at he₁
  cases he₁
  exact ⟨hold, e₀, e', he₀, he', hhead.trans hhead₀⟩

theorem NoNewAssign.trans {h : Flow} (hfg : f.NoNewAssign g) (hgh : g.NoNewAssign h) :
    f.NoNewAssign h := by
  intro r d y hr
  obtain ⟨y', hr⟩ := hgh r d y hr
  exact hfg r d y' hr

/-- There is no assignment below the topmost node of a statement. -/
theorem Rooted.ne_assign (hf : f.Rooted) {s : StatementId} (ht : f.Holds s t) (hx : x ∈ t.preorder)
    (hne : x ≠ t.id) (d y : NodeId) : f.exprAt x ≠ some (.assign d y) := by
  intro hassign
  obtain ⟨s', u, hu, rfl⟩ := hf x d y hassign
  obtain rfl := ht.statement_unique hu hx u.id_mem_preorder
  exact hne (hu.unique ht ▸ rfl)

/-- A statement with an assignment at the top. -/
theorem Holds.exists_assign {s : StatementId} {d y : NodeId} (h : f.Holds s t)
    (hassign : f.exprAt t.id = some (.assign d y)) :
    ∃ D Y, t = .node t.id (.assign D Y) ∧ D.id = d ∧ Y.id = y := by
  rw [exprAt_eq_some h.stands.shape_id, Option.some.injEq] at hassign
  obtain ⟨i, e⟩ := t
  cases e <;> simp_all [Expr.map]

/-- An operand is assigned to by one assignment. -/
theorem Rooted.eq_of_assigns (hf : f.Rooted) (hforest : f.Forest) {s : StatementId} {r r' d y : NodeId}
    (h : f.Assigns s r d) (h' : f.exprAt r' = some (.assign d y)) : r' = r := by
  obtain ⟨⟨st, hst, rfl⟩, y₀, hr⟩ := h
  obtain ⟨t, ht⟩ := hforest.holds s st hst
  obtain ⟨s', t', ht', rfl⟩ := hf r' d y h'
  obtain ⟨st', hst', hroot, -⟩ := id ht
  obtain rfl := Option.some.inj (hst.symm.trans hst')
  rw [hroot] at hr ⊢
  obtain ⟨D, Y, heq, hD, -⟩ := ht.exists_assign hr
  obtain ⟨D', Y', heq', hD', -⟩ := ht'.exists_assign h'
  have hmem : d ∈ t.preorder := by
    rw [heq]
    simp [Expr.children, ← hD, Term.id_mem_preorder]
  have hmem' : d ∈ t'.preorder := by
    rw [heq']
    simp [Expr.children, ← hD', Term.id_mem_preorder]
  obtain rfl := ht.statement_unique ht' hmem hmem'
  exact congrArg Term.id (ht'.unique ht)

/-- Two assignments to an operand are the same. -/
theorem Rooted.eq_of_assign (hf : f.Rooted) (hforest : f.Forest) {r r' d y y' : NodeId}
    (h : f.exprAt r = some (.assign d y)) (h' : f.exprAt r' = some (.assign d y')) : r' = r := by
  obtain ⟨s, t, ht, rfl⟩ := hf r d y h
  obtain ⟨st, hst, hroot, -⟩ := id ht
  exact hf.eq_of_assigns hforest ⟨⟨st, hst, hroot⟩, y, h⟩ h'

theorem Rooted.of_assigns (hf : f.Rooted) (hg : g.Forest) (hnew : f.NoNewAssign g)
    (hassigns : ∀ s r d, f.Assigns s r d → g.Assigns s r d) : g.Rooted := by
  intro r d y hr
  obtain ⟨y', hr⟩ := hnew r d y hr
  obtain ⟨s, t, ⟨st, hst, hroot, -⟩, hid⟩ := hf r d y' hr
  obtain ⟨⟨st', hst', hroot'⟩, -⟩ := hassigns s r d ⟨⟨st, hst, hroot.trans hid⟩, y', hr⟩
  obtain ⟨u, hu⟩ := hg.holds s st' hst'
  obtain ⟨st'', hst'', hroot'', -⟩ := id hu
  obtain rfl := Option.some.inj (hst'.symm.trans hst'')
  exact ⟨s, u, hu, hroot''.symm.trans hroot'⟩

/-- There is no assignment in the value that an assignment assigns. -/
theorem Rooted.value_ne_assign (hf : f.Rooted) {s : StatementId} {S v : Term} {r d : NodeId}
    (hS : f.Holds s S) (hv : Term.Within v S) (hr : f.exprAt r = some (.assign d v.id))
    (hx : x ∈ v.preorder) (d' y : NodeId) : f.exprAt x ≠ some (.assign d' y) := by
  refine hf.ne_assign hS (hv.preorder_subset hx) ?_ d' y
  rintro rfl
  obtain rfl := hv.eq_of_id_mem hS.nodup hx
  obtain ⟨s', u, hu, rfl⟩ := hf r d v.id hr
  have h := exprAt_eq_some hu.stands.shape_id
  rw [hr, Option.some.injEq] at h
  obtain ⟨i, e⟩ := u
  obtain ⟨c, hc, hid⟩ : ∃ c ∈ e.children, c.id = v.id := by
    cases e <;> simp [Expr.map] at h
    exact ⟨_, by simp [Expr.children], h.2.symm⟩
  obtain ⟨-, -, below⟩ := hu.stands
  have hshape := (below c hc).shape_id
  rw [hid, hS.stands.shape_id, Option.some.injEq, Prod.mk.injEq] at hshape
  cases hshape.2

/-- Assignments stay where they are when a statement is simplified. -/
theorem Assigns.simplifies {t t' : Term} {d r : NodeId} {s' : StatementId} (hf : f.Assigns s' r d)
    (ht : f.Holds s t) (hfg : f.Simplifies g (.root s) t t')
    (hid : t.expr.isArithmetic = false → t'.id = t.id) : g.Assigns s' r d := by
  obtain ⟨⟨st, hst, hroot⟩, y, hr⟩ := hf
  refine ⟨?_, ?_⟩
  · rw [hfg.replaces.statementAt_eq]
    split
    next hs =>
      cases hs
      obtain ⟨st', hst', hroot', hstands⟩ := ht
      obtain rfl := Option.some.inj (hst.symm.trans hst')
      have hidr : r = t.id := hroot.symm.trans hroot'
      have harith : t.expr.isArithmetic = false := by
        have h := exprAt_eq_some hstands.shape_id
        rw [← hidr, hr, Option.some.injEq] at h
        have hhead := @Expr.isArithmetic_eq_of_head_eq _ _ t.expr (t.expr.map Term.id) (by simp)
        rw [hhead, ← h]
        rfl
      exact ⟨{ st with root := t'.id }, by rw [hst]; rfl, (hid harith).trans hidr.symm⟩
    next => exact ⟨st, hst, hroot⟩
  · obtain ⟨e', he', hhead⟩ := hfg.kept r _ hr rfl
    obtain ⟨d', y', rfl⟩ := Expr.eq_assign_of_head_eq hhead
    obtain ⟨y₀, hy₀⟩ := hfg.assign r d' y' he'
    rw [hr] at hy₀
    cases hy₀
    exact ⟨y', he'⟩

end Flow

namespace Propagation

open Flow

variable {f : Flow} {V : Locations} {s around : StatementId} {S T v : Term} {u d r : NodeId}
  {n : String} {k : Option Nat}

/-- The outcome of replacing a read: the flow stays sound, computes nothing that it did not
    compute before, and no other read has changed. -/
structure Substituted (V : Locations) (f g : Flow) (u : NodeId) : Prop where
  sound : g.Sound V
  refines : f.Refines g
  entry_eq : g.entry = f.entry
  blocks_eq : g.blocks = f.blocks
  unlinked : g.linkOf u = .unlinked
  reads : ∀ x D, x ≠ u → D ≠ some u → f.linkOf x = .use D → g.linkOf x = .use D
  assigns : ∀ s r d, f.Assigns s r d → g.Assigns s r d
  noNewAssign : f.Rooted → f.NoNewAssign g

/-- The outcome for the statements: in `around` there is the tree `T'` in the place of `T`, with a copy
    of the tree `v` in the place of the read `u`. The copy reads what `v` reads, and nothing else
    reads anything new. -/
structure Inlined (f g : Flow) (around : StatementId) (u : NodeId) (v T T' : Term) : Prop where
  holds : g.Holds around T'
  address : ∀ s st, f.statementAt s = some st → ∃ st', g.statementAt s = some st' ∧ st'.address = st.address
  others : ∀ s t, s ≠ around → f.Holds s t → g.Holds s t
  change : ∃ b T₁, b.form = v.form ∧
    Term.Somewhere (fun w w' => (∃ n k, w = .node u (.register n k)) ∧ w' = b) T T₁ ∧ T₁.Rewrites T'
  linked : ∀ x, g.linkOf x ≠ .unlinked → ∃ y e e₀, g.exprAt x = some e ∧ f.exprAt y = some e₀ ∧
    e.head = e₀.head ∧ f.linkOf y ≠ .unlinked ∧ ∀ D, g.linkOf x = .use D → f.linkOf y = .use D
  old : ∀ x D, f.exprAt x ≠ none → g.linkOf x = .use D → f.linkOf x = .use D
  definition : f.NoNewDefinition g
  read : ∀ x ∈ T'.preorder, ∀ D, g.linkOf x = .use D →
    x ∈ T.preorder ∧ f.linkOf x = .use D ∨ ∃ y ∈ v.preorder, f.linkOf y = .use D
  source : ∀ x ∈ T'.preorder, ∀ e, g.exprAt x = some e → e.isArithmetic = false →
    (x ∈ T.preorder ∧ x ≠ u ∧ ∃ e₀, f.exprAt x = some e₀ ∧ e.head = e₀.head) ∨
      ∃ y ∈ v.preorder, (∃ e₀, f.exprAt y = some e₀ ∧ e.head = e₀.head) ∧
        ∀ D, f.linkOf y = .use D → g.linkOf x = .use D

theorem Inlined.simplifies {g h : Flow} {T' T'' : Term} (hg : Inlined f g around u v T T')
    (hsound : g.Sound V) (hgh : g.Simplifies h (.root around) T' T'') :
    Inlined f h around u v T T'' := by
  obtain ⟨b, T₁, hform, hchange, hrewrites⟩ := hg.change
  refine ⟨hg.holds.replaces hgh.replaces, fun s st hst => ?_, fun s t hne ht => ?_,
    ⟨b, T₁, hform, hchange, hrewrites.trans hgh.rewrites⟩, fun x hx => ?_, fun x D hx hD => ?_,
    hg.definition.trans fun x us hx => ?_, fun x hx D hD => ?_, fun x hx e he harith => ?_⟩
  · obtain ⟨st', hst', haddress⟩ := hg.address s st hst
    obtain ⟨st'', hst'', haddress'⟩ := hgh.replaces.address s st' hst'
    exact ⟨st'', hst'', haddress'.trans haddress⟩
  · exact hg.holds.replaces_other hgh.replaces hne (hg.others s t hne ht)
  · rw [hgh.link_eq] at hx ⊢
    obtain ⟨y, e, e₀, he, he₀, hhead, hy⟩ := hg.linked x hx
    obtain ⟨e₁, he₁, hassignable⟩ := hsound.typed.link x hx
    rw [he] at he₁
    cases he₁
    obtain ⟨e', he', hhead'⟩ := hgh.kept x e he (Expr.isArithmetic_eq_false_of_isAssignable hassignable)
    exact ⟨y, e', e₀, he', he₀, hhead'.trans hhead, hy⟩
  · exact hg.old x D hx (hgh.link_eq ▸ hD)
  · rw [hgh.link_eq] at hx
    obtain ⟨e, he, hassignable⟩ := hsound.typed.link x (by simp [hx])
    obtain ⟨e', he', hhead⟩ := hgh.kept x e he (Expr.isArithmetic_eq_false_of_isAssignable hassignable)
    exact ⟨⟨us, hx⟩, e, e', he, he', hhead⟩
  · rw [hgh.link_eq] at hD
    refine hg.read x ((hgh.replaces.fresh x hx).resolve_right fun hnone => ?_) D hD
    exact hsound.typed.exists_node (by simp [hD]) hnone
  · obtain ⟨e', he', hhead⟩ := hgh.old x e he harith
    have hmem := (hgh.replaces.fresh x hx).resolve_right (exprAt_ne_none.1 (by simp [he']))
    obtain ⟨hT, hne, e₀, he₀, hhead₀⟩ | ⟨y, hy, ⟨e₀, he₀, hhead₀⟩, hlink⟩ :=
      hg.source x hmem e' he' ((Expr.isArithmetic_eq_of_head_eq hhead).symm.trans harith)
    · exact .inl ⟨hT, hne, e₀, he₀, hhead.trans hhead₀⟩
    · exact .inr ⟨y, hy, ⟨e₀, he₀, hhead.trans hhead₀⟩, hgh.link_eq ▸ hlink⟩

/-- In a flow `f` a copy `b` of the tree `v` was made, which gave `f₁`, then a read `u` in the tree `T` was unlinked,
    which gave `f₂`, and then the copy was put in its place `q`, which gave `g`. The tree `T` is then `T'`. -/
structure Pasted (V : Locations) (f f₁ f₂ g : Flow) (R : NodeId → NodeId → Prop) (around : StatementId) (q : Place)
    (u d : NodeId) (n : String) (k : Option Nat) (v b T T' : Term) : Prop where
  sound : f.Sound V
  live : f.Live around
  holds : f.Holds around T
  sits : f.Sits q (.node u (.register n k))
  link : f.linkOf u = .use (some d)
  source : ∃ p, f.Stands p v
  copies : f.Copies f₁ R v b
  tied : f₁.Tied
  records : f.Records f₁
  read : ∀ a b, R a b → f₁.linkOf a = (f₁.linkOf b).read
  place : f.Replaces g q (.node u (.register n k)) b
  replaces : f.Replaces g (.root around) T T'
  kept : ∀ x ∈ T.preorder, x = u ∨ x ∈ T'.preorder
  put : ∀ x ∈ b.preorder, x ∈ T'.preorder
  change : Term.Somewhere (fun w w' => w = .node u (.register n k) ∧ w' = b) T T'
  unlinked_exprs : f₂.exprAt = f₁.exprAt
  unlinked_links : f₂.linkOf = f₁.linksWithout [u]
  links : g.linkOf = f₂.linkOf
  exprs : g.exprAt = Edit.substituted f₂ q u b.id

namespace Pasted

variable {f₁ f₂ g : Flow} {R : NodeId → NodeId → Prop} {q : Place} {b T' : Term} {x D : NodeId} {e : Expr NodeId}
  (h : Pasted V f f₁ f₂ g R around q u d n k v b T T')
include h

theorem expr : f.exprAt u = some (.register n k) :=
  exprAt_eq_some h.sits.stands.shape_id

theorem shape_ne_none : f.shapeAt u ≠ none :=
  h.sits.stands.shapeAt_ne_none (Term.id_mem_preorder _)

theorem not_mem_copy : u ∉ b.preorder := fun hu =>
  h.shape_ne_none (h.copies.grows.fresh u hu)

theorem typed : f₁.Typed V := by
  obtain ⟨p, hv⟩ := h.source
  exact h.copies.typed hv h.records h.read h.sound.typed h.tied

theorem exprAt_old (hx : f.shapeAt x ≠ none) : f₁.exprAt x = f.exprAt x :=
  h.copies.grows.retains.exprAt_eq (exprAt_ne_none.2 hx)

theorem exprAt_of_some (hx : f.exprAt x = some e) : f₁.exprAt x = some e :=
  (h.exprAt_old (exprAt_ne_none.1 (by simp [hx]))).trans hx

theorem link_copied : f₁.linkOf u = .use (some d) :=
  (h.records u h.shape_ne_none).use_iff.2 h.link

/-- The read is assigned to by nothing. -/
theorem target {r y : NodeId} (hr : f₁.exprAt r = some (.assign D y)) : D ≠ u := by
  rintro rfl
  exact (h.typed.target r D y hr).2 _ h.link_copied

/-- What is a read itself is not read. -/
theorem unread (x : NodeId) : f₁.linkOf x ≠ .use (some u) := by
  intro hx
  have hmem := (h.tied.mirrored.recorded x u).1 hx
  rw [h.link_copied] at hmem
  cases hmem

theorem link_eq : g.linkOf = f₁.linksWithout [u] :=
  h.links.trans h.unlinked_links

theorem expr_eq : g.exprAt = Edit.substituted f₁ q u b.id :=
  h.exprs.trans (Edit.substituted_congr h.unlinked_exprs q u b.id)

theorem linked (hx : g.linkOf x ≠ .unlinked) : x ≠ u ∧ f₁.linkOf x ≠ .unlinked := by
  rw [h.link_eq, linksWithout] at hx
  split at hx
  · exact absurd rfl hx
  next hxu => exact ⟨by simpa using hxu, fun hnone => hx (by simp [hnone])⟩

/-- All reads but the one that was replaced are as they were. -/
theorem use_iff {D : Option NodeId} (hx : x ≠ u) : g.linkOf x = .use D ↔ f₁.linkOf x = .use D := by
  rw [h.link_eq, linksWithout, if_neg (by simpa using hx), Link.drop_eq_self (h.unread x)]

theorem use_of_use {D : Option NodeId} (hx : g.linkOf x = .use D) : f₁.linkOf x = .use D :=
  (h.use_iff (h.linked (by simp [hx])).1).1 hx

theorem unlinked : g.linkOf u = .unlinked := by
  by_contra hu
  exact (h.linked hu).1 rfl

/-- What is new is of the kind of something in the tree that was copied, and reads what that reads. -/
theorem exists_source (hx : f₁.exprAt x ≠ none) (hnew : f.shapeAt x = none) : ∃ y e e₀, y ∈ v.preorder ∧
    f₁.exprAt x = some e ∧ f.exprAt y = some e₀ ∧ e.head = e₀.head ∧ f₁.linkOf x = (f.linkOf y).read := by
  obtain ⟨p, hv⟩ := h.source
  exact h.copies.exists_source hv h.records h.read
    ((h.copies.grows.made x (exprAt_ne_none.1 hx)).resolve_left fun hold => hold hnew)

theorem exists_linked (hx : f₁.linkOf x ≠ .unlinked) : ∃ y e e₀, f₁.exprAt x = some e ∧ f.exprAt y = some e₀ ∧
    e.head = e₀.head ∧ f.linkOf y ≠ .unlinked ∧ ∀ D, f₁.linkOf x = .use D → f.linkOf y = .use D := by
  obtain ⟨p, hv⟩ := h.source
  exact h.copies.exists_linked hv h.records h.read h.tied hx

theorem old_of_definition {us : List NodeId} (hx : f₁.linkOf x = .definition us) : f.shapeAt x ≠ none := by
  obtain ⟨p, hv⟩ := h.source
  exact h.copies.old_of_definition hv h.records h.read h.tied hx

theorem exists_expr (hx : f₁.exprAt x = some e) : ∃ e', g.exprAt x = some e' ∧ e'.head = e.head := by
  rw [h.expr_eq]
  exact exists_substituted q u b.id hx

theorem exists_of_expr (hx : g.exprAt x = some e) : ∃ e₁, f₁.exprAt x = some e₁ ∧ e.head = e₁.head :=
  exists_of_substituted (h.expr_eq ▸ hx)

theorem assign_of_expr {r y : NodeId} (hr : g.exprAt r = some (.assign D y)) :
    ∃ y', f₁.exprAt r = some (.assign D y') :=
  assign_of_substituted (fun _ _ _ => h.target) (h.expr_eq ▸ hr)

theorem copy_ne_none : f₁.exprAt b.id ≠ none :=
  exprAt_ne_none.2 (h.copies.stands.shapeAt_ne_none b.id_mem_preorder)

theorem held (hx : g.linkOf x ≠ .unlinked) : g.Held x := by
  obtain ⟨hxu, hx₁⟩ := h.linked hx
  rcases h.copies.grows.made x (h.tied.exists_node x hx₁) with hold | hnew
  · refine (h.sound.held x fun hnone => ?_).replaces h.holds h.replaces fun hxT => (h.kept x hxT).resolve_left hxu
    exact hx₁ ((h.records x hold).unlinked_iff.2 hnone)
  · exact ⟨around, T', h.live.of_statementAt (h.replaces.statementAt_map around), h.holds.replaces h.replaces,
      h.put x hnew⟩

theorem untagged (hx : g.exprAt x = some e) (he : e.isUntagged = true) : (g.linkOf x).Free := by
  obtain ⟨p, hv⟩ := h.source
  obtain ⟨e₁, he₁, hhead⟩ := h.exists_of_expr hx
  rw [Expr.isUntagged_eq_of_head_eq hhead] at he
  exact Free.without (h.copies.free hv h.records h.read h.sound.untagged he₁ he) h.link_eq

/-- A read is still of the register that its definition is of. -/
theorem register {m : String} {j : Option Nat} (hx : g.linkOf x = .use (some D))
    (hD : g.exprAt D = some (.register m j)) : g.exprAt x = some (.register m j) := by
  have hx₁ := h.use_of_use hx
  obtain ⟨y, e, e₀, he, he₀, hhead, -, hy⟩ := h.exists_linked (x := x) (by simp [hx₁])
  have hold := h.old_of_definition (Link.eq_definition_of_mem_uses ((h.tied.mirrored.recorded x D).1 hx₁))
  obtain ⟨eD, heD, hheadD⟩ := h.exists_of_expr hD
  obtain rfl := Expr.eq_register_of_head_eq hheadD.symm
  rw [h.exprAt_old hold] at heD
  rw [h.sound.register y D m j (hy _ hx₁) heD, Option.some.injEq] at he₀
  subst he₀
  obtain rfl := Expr.eq_register_of_head_eq hhead
  obtain ⟨e', he', hhead'⟩ := h.exists_expr he
  exact Expr.eq_register_of_head_eq hhead' ▸ he'

theorem sound_pasted : g.Sound V := by
  refine ⟨h.sound.forest.replaces h.holds h.replaces, ?_, h.tied.mirrored.without h.link_eq, fun x => h.held,
    fun x e => h.untagged, fun x D m j => h.register⟩
  refine (h.typed.without h.unlinked_exprs h.unlinked_links).substituted ?_ (fun r D y hr => ?_) h.exprs h.links
  · exact h.unlinked_exprs ▸ h.copy_ne_none
  · exact h.target (h.unlinked_exprs ▸ hr)

/-- Nothing is computed that was not computed before. -/
theorem refines {r : NodeId} (hr : f.exprAt r = some (.assign d v.id)) : f.Refines g := by
  have hcopied : f.Refines f₁ := .of_pending h.sound.typed.closed h.copies.pending fun z n v d hz hd => by
    have hd := (h.records z (exprAt_ne_none.1 (by simp [hz]))).use_iff.1 hd
    exact ⟨hd, h.sound.typed.linked h.sound.mirrored hd⟩
  refine hcopied.trans (.of_substituted h.typed.closed (fun z D => h.typed.linked h.tied.mirrored)
    (fun _ _ _ => h.target) h.copy_ne_none (fun q' hq' => ?_) h.expr_eq (fun z D => h.use_of_use) fun ρ w hw => ?_)
  · obtain ⟨-, e, p, hshape, -⟩ := h.sits.above q' hq'
    simp [h.exprAt_of_some (exprAt_eq_some hshape)]
  · exact .read (h.exprAt_of_some h.expr) h.link_copied (h.exprAt_of_some hr)
      (hw.of_mimics h.copies.mimics h.read h.copies.ids)

/-- The reads other than the one that was replaced and those of itself stay. -/
theorem reads {D : Option NodeId} (hx : x ≠ u) (hD : f.linkOf x = .use D) : g.linkOf x = .use D :=
  (h.use_iff hx).2 ((h.records x (h.sound.typed.exists_node (by simp [hD]))).use_iff.2 hD)

theorem assigns {s' : StatementId} {r : NodeId} (hassigns : f.Assigns s' r D) : g.Assigns s' r D := by
  obtain ⟨⟨st, hst, hroot⟩, y, hr⟩ := hassigns
  refine ⟨⟨st, ?_, hroot⟩, ?_⟩
  · rw [h.place.statementAt_eq, if_neg, hst]
    intro hq
    obtain ⟨st', hst', hroot'⟩ := h.sits.rooted s' hq
    obtain rfl := Option.some.inj (hst.symm.trans hst')
    obtain rfl : r = u := hroot.symm.trans hroot'
    rw [h.expr] at hr
    cases hr
  · obtain ⟨e', he', hhead⟩ := h.exists_expr (h.exprAt_of_some hr)
    obtain ⟨D', y', rfl⟩ := Expr.eq_assign_of_head_eq hhead
    obtain ⟨y₀, hy₀⟩ := h.assign_of_expr he'
    rw [h.exprAt_of_some hr] at hy₀
    cases hy₀
    exact ⟨y', he'⟩

/-- No assignment was copied with the value of an assignment. -/
theorem noNewAssign {S : Term} {r : NodeId} (hS : f.Holds s S) (hv : Term.Within v S)
    (hr : f.exprAt r = some (.assign d v.id)) (hrooted : f.Rooted) : f.NoNewAssign g := by
  intro r' D y hr'
  obtain ⟨y', hr₁⟩ := h.assign_of_expr hr'
  by_cases hnew : f.shapeAt r' = none
  · obtain ⟨x, e, e₀, hx, he, he₀, hhead, -⟩ := h.exists_source (by simp [hr₁]) hnew
    rw [hr₁] at he
    cases he
    obtain ⟨a, c, rfl⟩ := Expr.eq_assign_of_head_eq hhead.symm
    exact absurd he₀ (hrooted.value_ne_assign hS hv hr hx a c)
  · exact ⟨y', h.exprAt_old hnew ▸ hr₁⟩

theorem noNewDefinition : f.NoNewDefinition g := by
  intro x us hx
  obtain ⟨us₁, hx₁⟩ := exists_definition_of_linksWithout (h.link_eq ▸ hx)
  have hold := h.old_of_definition hx₁
  obtain ⟨e, he⟩ := Option.ne_none_iff_exists'.1 (exprAt_ne_none.2 hold)
  obtain ⟨e', he', hhead⟩ := h.exists_expr (h.exprAt_of_some he)
  exact ⟨(h.records x hold).exists_definition hx₁, e, e', he, he', hhead⟩

/-- What is linked is of the kind of something that was linked before. -/
theorem exists_linked_before (hx : g.linkOf x ≠ .unlinked) : ∃ y e e₀, g.exprAt x = some e ∧ f.exprAt y = some e₀ ∧
    e.head = e₀.head ∧ f.linkOf y ≠ .unlinked ∧ ∀ D, g.linkOf x = .use D → f.linkOf y = .use D := by
  obtain ⟨y, e₁, e₀, he₁, he₀, hhead, hy, hread⟩ := h.exists_linked (h.linked hx).2
  obtain ⟨e, he, hhead'⟩ := h.exists_expr he₁
  exact ⟨y, e, e₀, he, he₀, hhead'.trans hhead, hy, fun D hD => hread D (h.use_of_use hD)⟩

/-- A read in the tree was there before, or it reads what something in the tree that was copied reads. -/
theorem read_cases {D : Option NodeId} (hx : x ∈ T'.preorder) (hD : g.linkOf x = .use D) :
    x ∈ T.preorder ∧ f.linkOf x = .use D ∨ ∃ y ∈ v.preorder, f.linkOf y = .use D := by
  have hD := h.use_of_use hD
  by_cases hnew : f.shapeAt x = none
  · obtain ⟨y, -, -, hy, -, -, -, hlink⟩ :=
      h.exists_source (exprAt_ne_none.2 (h.tied.exists_node x (by simp [hD]))) hnew
    refine .inr ⟨y, hy, ?_⟩
    rw [hD] at hlink
    exact (Link.eq_use_of_read hlink.symm)
  · exact .inl ⟨(h.replaces.fresh x hx).resolve_right hnew, (h.records x hnew).use_iff.1 hD⟩

/-- The replaced read is gone from the tree. -/
theorem not_mem : u ∉ T'.preorder :=
  (h.change.not_mem_preorder h.holds.nodup fun _ _ hw => by
    obtain ⟨rfl, rfl⟩ := hw
    exact ⟨rfl, h.not_mem_copy⟩).2

/-- What is in the tree was there before, or it is of the kind of something in the tree that was copied. -/
theorem source_cases (hx : x ∈ T'.preorder) (he : g.exprAt x = some e) :
    (x ∈ T.preorder ∧ x ≠ u ∧ ∃ e₀, f.exprAt x = some e₀ ∧ e.head = e₀.head) ∨
      ∃ y ∈ v.preorder, (∃ e₀, f.exprAt y = some e₀ ∧ e.head = e₀.head) ∧
        ∀ D, f.linkOf y = .use D → g.linkOf x = .use D := by
  obtain ⟨e₁, he₁, hhead⟩ := h.exists_of_expr he
  have hxu : x ≠ u := fun hxu => h.not_mem (hxu ▸ hx)
  by_cases hnew : f.shapeAt x = none
  · obtain ⟨y, e₂, e₀, hy, he₂, he₀, hhead₀, hlink⟩ := h.exists_source (by simp [he₁]) hnew
    rw [he₁] at he₂
    cases he₂
    refine .inr ⟨y, hy, ⟨e₀, he₀, hhead.trans hhead₀⟩, fun D hD => (h.use_iff hxu).2 ?_⟩
    rw [hlink, hD]
    rfl
  · exact .inl ⟨(h.replaces.fresh x hx).resolve_right hnew, hxu, e₁, h.exprAt_old hnew ▸ he₁, hhead⟩

theorem inlined : Inlined f g around u v T T' where
  holds := h.holds.replaces h.replaces
  address := h.replaces.address
  others _ _ hne ht := h.holds.replaces_other h.replaces hne ht
  change := by
    obtain ⟨p, hv⟩ := h.source
    exact ⟨b, T', h.copies.form_eq hv, h.change.mono fun w w' hw => ⟨⟨n, k, hw.1⟩, hw.2⟩, .refl⟩
  linked _ := h.exists_linked_before
  old x D hx hD := (h.records x (exprAt_ne_none.1 hx)).use_iff.1 (h.use_of_use hD)
  definition := h.noNewDefinition
  read _ hx _ := h.read_cases hx
  source _ hx _ he _ := h.source_cases hx he

end Pasted

/-- Putting a copy of the value of a definition in the place of a read of the definition. -/
private theorem replaceRead_gives (hf : f.Sound V) (hT : f.Holds around T)
    (hlive : f.Live around) (hS : f.Holds s S)
    (hv : Term.Within v S) (hu : u ∈ T.preorder) (hexpr : f.exprAt u = some (.register n k))
    (hlink : f.linkOf u = .use (some d)) (hr : f.exprAt r = some (.assign d v.id)) :
    Gives (do
      let new ← Edit.copy v.id
      Edit.unlink u
      Edit.replaceInParent u new) f fun _ g =>
        Substituted V f g u ∧ ∃ T', Inlined f g around u v T T' := by
  obtain ⟨pv, hvs⟩ := hS.stands.exists_of_within hv
  refine .of_bind ((Edit.copy_gives hf.tied hvs.spells).mono ?_)
  rintro _ f₁ ⟨b, R, rfl, hcopies, htied, hrecords, hread⟩
  have hgrows := hcopies.grows
  -- the read is a leaf
  obtain ⟨⟨i, e⟩, hwithin, hid⟩ := Term.exists_within_of_mem_preorder hu
  obtain rfl : i = u := hid
  obtain ⟨q, hsits, hlift⟩ := Replaces.lift_within hT.sits hwithin
  obtain rfl : e = .register n k := by
    have h : f.exprAt i = some (e.map Term.id) := exprAt_eq_some hsits.stands.shape_id
    rw [hexpr, Option.some.injEq] at h
    have h := (congrArg Expr.head h).symm
    rw [Expr.head_map] at h
    exact Expr.eq_register_of_head_eq h
  have hi : f.shapeAt i ≠ none := hsits.stands.shapeAt_ne_none (Term.id_mem_preorder _)
  refine .of_bind ((Edit.unlink_gives htied.mirrored htied.exists_node (hgrows.ne_none hi)).mono ?_)
  rintro - f₂ hbecomes
  have hgrows₂ : f.Grows f₂ b.preorder :=
    hgrows.congr hbecomes.shape_eq hbecomes.entry_eq hbecomes.statements_eq hbecomes.blocks_eq
  have hb : f₂.Stands .detached b := hcopies.stands.congr fun y _ => by rw [hbecomes.shape_eq]
  refine (Edit.replaceInParent_replaces hgrows₂ hsits hb (hb.nodup_preorder Place.top_detached)
    (fun h => hi (hgrows.fresh i h)) fun x hx => .inr hx).mono ?_
  rintro - g ⟨hplace, hlinkg, hexprg⟩
  obtain ⟨T', hT', -, hkept, hput, -, hchange⟩ := hlift g b hplace
  have h : Pasted V f f₁ f₂ g R around q i d n k v b T T' :=
    { sound := hf, live := hlive, holds := hT, sits := hsits, link := hlink, source := ⟨pv, hvs⟩,
      copies := hcopies, tied := htied, records := hrecords, read := hread, place := hplace, replaces := hT',
      kept := fun x hx => (hkept x hx).imp_left fun h => by simpa [Expr.children] using h,
      put := hput, change := hchange, unlinked_exprs := by funext y; simp [exprAt, hbecomes.shape_eq],
      unlinked_links := hbecomes.link_eq, links := hlinkg, exprs := hexprg }
  exact ⟨⟨h.sound_pasted, h.refines hr, hplace.entry_eq, hplace.blocks_eq, h.unlinked,
    fun x D hx _ hD => h.reads hx hD, fun _ _ _ => h.assigns, h.noNewAssign hS hv hr⟩, T', h.inlined⟩

theorem substitute_gives (hf : f.Sound V) (hT : f.Holds around T)
    (hlive : f.Live around) (hS : f.Holds s S)
    (hv : Term.Within v S) (hu : u ∈ T.preorder) (hexpr : f.exprAt u = some (.register n k))
    (hlink : f.linkOf u = .use (some d)) (hr : f.exprAt r = some (.assign d v.id)) :
    Gives (substitute v.id u around) f fun _ g =>
      Substituted V f g u ∧ ∃ T', Inlined f g around u v T T' ∧ Simplify.Normal T' := by
  have hread := replaceRead_gives hf hT hlive hS hv hu hexpr hlink hr
  have hboth := Gives.of_bind (k := fun _ => Edit.simplifyStatement around >>= fun _ => pure ())
    (Q := fun _ g => Substituted V f g u ∧ ∃ T', Inlined f g around u v T T' ∧ Simplify.Normal T') (hread.mono ?_)
  · simpa [substitute] using hboth
  rintro - g ⟨hg, T', hinlined⟩
  have hT' := hinlined.holds
  obtain ⟨st, hst, hroot, -⟩ := id hT'
  refine .of_bind ((Edit.simplifyStatement_gives hst hroot hT'.sits hg.sound.typed
    hg.sound.mirrored).mono ?_)
  rintro - h ⟨T'', hsimplifies, hnormal, hid⟩
  refine .of_pure ⟨⟨hg.sound.simplifies hT' hsimplifies, hg.refines.trans hsimplifies.refines,
    hsimplifies.replaces.entry_eq.trans hg.entry_eq, hsimplifies.replaces.blocks_eq.trans hg.blocks_eq,
    hsimplifies.link_eq ▸ hg.unlinked, fun x d' hx hd hl => hsimplifies.link_eq ▸ hg.reads x d' hx hd hl,
    fun s' r' d' hassigns => (hg.assigns s' r' d' hassigns).simplifies hT' hsimplifies hid,
    fun hrooted => (hg.noNewAssign hrooted).trans hsimplifies.assign⟩, T'',
    hinlined.simplifies hg.sound hsimplifies, hnormal⟩

end Propagation

end FrameRecovery
