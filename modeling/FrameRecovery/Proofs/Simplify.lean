import FrameRecovery.Proofs.Flow.Simplest
import FrameRecovery.Simplify

namespace FrameRecovery

namespace Flow

variable {f₀ f g : Flow} {V : Locations} {p q : Place} {i : NodeId} {e e₁ : Expr Term} {t b : Term} {xs : List NodeId}

namespace Simplifies

/-- Arithmetic that takes over trees from below it and new constants is simplified. -/
theorem of_replaces (hgrows : f₀.Grows f xs) (hf : f₀.Sits p (.node i e))
    (he : e.isArithmetic = true) (he₁ : e₁.isArithmetic = true)
    (hxs : ∀ x ∈ xs, ∃ w, f.exprAt x = some (.constant w)) (hlink : f.linkOf = f₀.linkOf)
    (hreplaces : f₀.Replaces g p (.node i e) (.node i e₁)) (hlink' : g.linkOf = f.linkOf)
    (hexpr : g.exprAt = Function.update f.exprAt i (some (e₁.map Term.id)))
    (hholds : ∀ x ∈ (Term.node i e).preorder,
      (∀ e', f₀.exprAt x = some e' → e'.isArithmetic = false) → x ∈ (Term.node i e₁).preorder)
    (hclosed : g.Closed) (hrefines : f₀.Refines g)
    (hrule : Simplify.Rule (.node i e) (.node i e₁)) :
    f₀.Simplifies g p (.node i e) (.node i e₁) := by
  have hi : f₀.exprAt i = some (e.map Term.id) := exprAt_eq_some hf.stands.shape_id
  have harith : ∀ e' : Expr Term, (e'.map Term.id).isArithmetic = e'.isArithmetic := fun e' =>
    Expr.isArithmetic_eq_of_head_eq (by simp)
  have hkept : ∀ x e', f₀.exprAt x = some e' → e'.isArithmetic = false → g.exprAt x = some e' := by
    intro x e' hx hne
    have hxi : x ≠ i := by
      rintro rfl
      rw [hi] at hx
      cases hx
      simp [harith, he] at hne
    rw [hexpr, Function.update_of_ne hxi, hgrows.retains.exprAt_eq (by simp [hx]), hx]
  have hold : ∀ x e', g.exprAt x = some e' → e'.isArithmetic = false → f₀.exprAt x = some e' := by
    intro x e' hx hne
    have hxi : x ≠ i := by
      rintro rfl
      rw [hexpr, Function.update_self] at hx
      cases hx
      simp [harith, he₁] at hne
    rw [hexpr, Function.update_of_ne hxi] at hx
    rcases hgrows.made x (exprAt_ne_none.1 (by simp [hx])) with hx₀ | hxxs
    · rw [← hx, hgrows.retains.exprAt_eq (exprAt_ne_none.2 hx₀)]
    · obtain ⟨w, hw⟩ := hxs x hxxs
      rw [hx] at hw
      cases hw
      simp [Expr.isArithmetic] at hne
  exact ⟨hreplaces, hlink'.trans hlink, fun x e' hx hne => ⟨e', hkept x e' hx hne, rfl⟩, hholds,
    fun x e' hx hne => ⟨e', hold x e' hx hne, rfl⟩, fun r d y hr => ⟨y, hold r _ hr rfl⟩, hclosed,
    hrefines, .single (.here hrule)⟩

/-- Arithmetic that gives way to a tree below it is simplified. -/
theorem of_substituted (hf : f.Sits p (.node i e)) (htyped : f.Typed V) (hmirrored : f.Mirrored)
    (he : e.isArithmetic = true) (hreplaces : f.Replaces g p (.node i e) b)
    (hlink : g.linkOf = f.linkOf) (hexpr : g.exprAt = Edit.substituted f p i b.id)
    (hholds : ∀ x ∈ (Term.node i e).preorder,
      (∀ e', f.exprAt x = some e' → e'.isArithmetic = false) → x ∈ b.preorder)
    (hb : f.exprAt b.id ≠ none) (hvalue : ∀ ρ w, f.ValueAt ρ b.id w → f.ValueAt ρ i w)
    (hrule : Simplify.Rule (.node i e) b) : f.Simplifies g p (.node i e) b := by
  have hi : f.exprAt i = some (e.map Term.id) := exprAt_eq_some hf.stands.shape_id
  have htarget : ∀ r d y, f.exprAt r = some (.assign d y) → d ≠ i := by
    rintro r d y hr rfl
    obtain ⟨⟨e', he', hassignable⟩, -⟩ := htyped.target r d y hr
    rw [hi] at he'
    cases he'
    have h := Expr.isArithmetic_eq_false_of_isAssignable hassignable
    rw [@Expr.isArithmetic_eq_of_head_eq _ _ _ e (by simp), he] at h
    cases h
  refine ⟨hreplaces, hlink, fun x e' hx _ => hexpr ▸ exists_substituted _ _ _ hx, hholds,
    fun x e' hx _ => exists_of_substituted (hexpr ▸ hx),
    fun r d y hr => assign_of_substituted htarget (hexpr ▸ hr), htyped.closed.substituted hb hexpr, ?_,
    .single (.here hrule)⟩
  refine .of_substituted htyped.closed (fun z d => htyped.linked hmirrored) htarget hb ?_ hexpr
    (fun z d h => hlink ▸ h) hvalue
  intro q hq
  obtain ⟨-, eq, pq, hshape, -⟩ := hf.above q hq
  simp [exprAt_eq_some hshape]

end Simplifies

/-- The outcome of simplifying a tree: it is replaced by one that the rules give, and if the flow was
    typed, nothing but the way it is computed changes. -/
structure Reduces (f g : Flow) (p : Place) (t t' : Term) : Prop where
  replaces : f.Replaces g p t t'
  link_eq : g.linkOf = f.linkOf
  rewrites : t.Rewrites t'
  grounded : f.Grounded → g.Grounded
  simplifies : ∀ {V}, f.Typed V → f.Mirrored → f.Simplifies g p t t'

namespace Reduces

variable {h : Flow} {t' t'' : Term}

theorem refl (hf : f.Sits p t) : f.Reduces f p t t :=
  ⟨.refl hf, rfl, .refl, id, fun htyped _ => .refl hf htyped.closed⟩

theorem trans (hf : f.Sits p t) (hfg : f.Reduces g p t t') (hgh : g.Reduces h p t' t'') : f.Reduces h p t t'' := by
  refine ⟨hfg.replaces.trans hf hgh.replaces, hgh.link_eq.trans hfg.link_eq, hfg.rewrites.trans hgh.rewrites,
    fun hgrounded => hgh.grounded (hfg.grounded hgrounded), fun htyped hmirrored => ?_⟩
  have hsimplifies := hfg.simplifies htyped hmirrored
  exact hsimplifies.trans hf
    (hgh.simplifies (hsimplifies.typed htyped) (hmirrored.of_linkOf_eq hsimplifies.link_eq))

open Replaces in
theorem lift {c c' : Term} (hf : f.Sits p (.node i e)) (hc : c ∈ e.children)
    (hfg : f.Reduces g (.child i) c c') : f.Reduces g p (.node i e) (.node i (swap e c c')) := by
  refine ⟨hfg.replaces.lift hf hc, hfg.link_eq, ?_, hfg.grounded,
    fun htyped hmirrored => (hfg.simplifies htyped hmirrored).lift hf hc⟩
  have hrewrites : (Term.node i (swap e c c)).Rewrites (.node i (swap e c c')) :=
    hfg.rewrites.lift (fun d => Term.node i (swap e c d)) fun _ _ h => somewhere_swap hf hc h
  rwa [swap_self hf hc] at hrewrites

end Reduces

end Flow

namespace Simplify

open Flow

variable {f g : Flow} {V : Locations} {p q : Place} {t c x y z : Term} {i : NodeId} {op : BinaryOp}

theorem constant?_eq (h : f.Stands q c) : constant? f c.id = .ok c.constant? := by
  obtain ⟨j, e⟩ := c
  have hexpr := expr_eq h.shape_id
  unfold constant?
  rw [hexpr]
  cases e <;> rfl

theorem exists_of_constant? {w : Word} (h : c.constant? = some w) : ∃ j, c = .node j (.constant w) := by
  obtain ⟨j, e⟩ := c
  cases e <;> simp [Term.constant?] at h
  exact ⟨j, by rw [h]⟩

/-- An offset is read from a node exactly if the tree there is one. -/
theorem offset?_eq (h : f.Stands q x) :
    offset? f x.id = .ok ((offsetOf? x).map fun o => ⟨o.1.id, o.2⟩) := by
  obtain ⟨j, e⟩ := x
  obtain ⟨shape, -, below⟩ := h
  rw [Term.id_node]
  unfold offset?
  cases e with
  | binary op z c =>
    have hz := constant?_eq (below z (by simp [Expr.children]))
    have hc := constant?_eq (below c (by simp [Expr.children]))
    rw [expr_eq shape, bind_ok]
    dsimp only [Expr.map]
    rw [hc, hz, bind_ok]
    cases hcc : c.constant? with
    | none => cases hzc : z.constant? <;> simp [offsetOf?, hcc, hzc]
    | some w =>
      cases hzc : z.constant? with
      | some w' => simp [offsetOf?, hcc, hzc, bind_ok]; rfl
      | none =>
        simp only [offsetOf?, hcc, hzc, bind_ok, Option.map_map]
        rfl
  | _ =>
    rw [expr_eq shape]
    rfl

theorem eval_of_signedAmount {w a : Word} (h : signedAmount op w = some a) (v : Word) :
    op.eval v w = v + a := by
  cases op <;> simp only [signedAmount, Option.some.injEq, reduceCtorEq] at h
  · subst h
    rfl
  · subst h
    exact Int64.sub_eq_add_neg v w

theorem eval_written (v amount : Word) :
    (written amount).1.eval v (written amount).2 = v + amount := by
  unfold written
  split
  · change v - -amount = v + amount
    rw [Int64.sub_eq_add_neg, Int64.neg_neg]
  · rfl

section Below

variable {e : Expr Term} {amount : Word} (hf : f.Sits p (.node i e)) (he : e.isArithmetic = true)
  (hz : f.Stands q z) (hwithin : Term.Within z (.node i e)) (hi : i ∉ z.preorder)
  (hholds : ∀ x ∈ (Term.node i e).preorder,
    (∀ e', f.exprAt x = some e' → e'.isArithmetic = false) → x ∈ z.preorder)

include hf he hz hwithin hi hholds

/-- Arithmetic gives way to a tree below it that has its value. -/
theorem substitute_gives (hvalue : ∀ ρ w, f.ValueAt ρ z.id w → f.ValueAt ρ i w)
    (hrule : Rule (.node i e) z) :
    Gives (Edit.replaceInParent i z.id) f fun _ g => f.Reduces g p (.node i e) z := by
  refine (Edit.replaceInParent_rebuilds (.refl f) hf hz (hwithin.nodup_preorder hf.nodup) hi
    fun x hx => .inl (hwithin.preorder_subset hx)).mono ?_
  rintro - g ⟨⟨hreplaces, hlink, hexpr⟩, hgrounded⟩
  have hzid : f.exprAt z.id ≠ none := by simp [exprAt_eq_some hz.shape_id]
  exact ⟨hreplaces, hlink, .single (.here hrule), hgrounded, fun htyped hmirrored =>
    .of_substituted hf htyped hmirrored he hreplaces hlink hexpr hholds hzid hvalue hrule⟩

/-- Arithmetic becomes an operation on a tree below it and a new constant. -/
theorem operate_gives (op : BinaryOp) (w : Word)
    (hvalue : ∀ ρ v, f.ValueAt ρ z.id v → f.ValueAt ρ i (op.eval v w))
    (hrule : ∀ k, Rule (.node i e) (.node i (.binary op z (.node k (.constant w))))) :
    Gives (do
      let k ← Edit.alloc (.constant w)
      Edit.replace i (.binary op z.id k)) f fun _ g =>
        ∃ k, f.Reduces g p (.node i e) (.node i (.binary op z (.node k (.constant w)))) := by
  refine .of_bind ((((Pending.nil f).alloc_gives (e := .constant w)).and_imp
    fun hgrounded => Edit.alloc_grounded hgrounded nofun nofun).mono ?_)
  rintro k h ⟨⟨hpending, -, -, hlink⟩, hgrounded⟩
  have hgrows := hpending.grows_of_singleton
  have hk : h.Stands .detached (.node k (.constant w)) := hpending.stands _ (by simp)
  have hkz : k ∉ z.preorder := fun hmem => hz.shapeAt_ne_none hmem (hgrows.fresh k (by simp))
  have hki : i ≠ k := by
    rintro rfl
    exact hf.stands.shapeAt_ne_none (Term.id_mem_preorder _) (hgrows.fresh i (by simp))
  refine (Edit.replace_rebuilds (.binary op z (.node k (.constant w))) hgrows hf ?_ ?_ ?_ ?_ nofun).mono ?_
  · simp only [Expr.children, List.mem_cons, List.not_mem_nil, or_false, forall_eq_or_imp, forall_eq]
    exact ⟨⟨q, hgrows.stands hz⟩, _, hk⟩
  · simpa [Expr.children] using ⟨hi, hki⟩
  · simp only [Expr.children, List.mem_cons, List.not_mem_nil, or_false, forall_eq_or_imp, forall_eq]
    exact ⟨fun x hx => .inl (hwithin.preorder_subset hx), fun x hx => .inr hx⟩
  · simpa [Expr.children, List.nodup_append] using
      ⟨hwithin.nodup_preorder hf.nodup, fun a ha h => hkz (h ▸ ha)⟩
  rintro - g ⟨⟨hreplaces, hlink', hexpr⟩, hgrounded'⟩
  refine ⟨k, hreplaces, hlink'.trans hlink, .single (.here (hrule k)),
    fun h => hgrounded' (hgrounded h), fun htyped hmirrored => ?_⟩
  have hconst : h.exprAt k = some (.constant w) := exprAt_eq_some hk.shape_id
  have hclosed := htyped.closed.pending hpending
  have hzid : f.exprAt z.id ≠ none := by simp [exprAt_eq_some hz.shape_id]
  have hzid' : h.exprAt z.id ≠ none := by rwa [hgrows.retains.exprAt_eq hzid]
  refine .of_replaces hgrows hf he rfl ?_ hlink hreplaces hlink' hexpr ?_ ?_ ?_ (hrule k)
  · intro x hx
    obtain rfl : x = k := by simpa [Expr.children] using hx
    exact ⟨_, hconst⟩
  · intro x hx hne
    have := hholds x hx hne
    simp [Expr.children, this]
  · refine hclosed.update ?_ hexpr
    simp only [Expr.map, Expr.children, List.mem_cons, List.not_mem_nil, or_false,
      forall_eq_or_imp, forall_eq]
    exact ⟨hzid', by simp [hconst]⟩
  · have hlinked : ∀ x d, h.linkOf x = .use (some d) → h.exprAt d ≠ none := fun x d hxd =>
      exprAt_ne_none.2 (hgrows.ne_none (exprAt_ne_none.1 (htyped.linked hmirrored (hlink ▸ hxd))))
    have hrefines : f.Refines h := .of_pending htyped.closed hpending fun x n v d hx hd => by
      rw [hlink] at hd
      exact ⟨hd, htyped.linked hmirrored hd⟩
    refine hrefines.trans (.of_binary hclosed hlinked (exprAt_eq_some (hgrows.stands hf.stands).shape_id)
      hzid' (by simp [hconst]) hexpr hlink' fun ρ wa wb ha hb => ?_)
    rw [hb.eq_of_constant hconst]
    exact (hvalue ρ wa (hrefines.value hzid ha)).mono hgrows.retains fun z d hd => hlink ▸ hd

/-- Putting an offset of a tree below a node simplifies the node. -/
theorem putOffset_gives (hvalue : ∀ ρ w, f.ValueAt ρ z.id w → f.ValueAt ρ i (w + amount))
    (hrule : ∀ t', IsOffset i z amount t' → Rule (.node i e) t') :
    Gives (putOffset i ⟨z.id, amount⟩) f fun y g => ∃ t', t'.id = y ∧
      f.Reduces g p (.node i e) t' ∧ IsOffset i z amount t' := by
  unfold putOffset
  by_cases hamount : amount = 0
  · rw [if_pos hamount]
    have hoffset : IsOffset i z amount z := .inl ⟨hamount, rfl⟩
    refine .of_bind ((substitute_gives hf he hz hwithin hi hholds (fun ρ w hw => ?_) (hrule z hoffset)).mono
      fun _ g hreduces => .of_pure ⟨z, rfl, hreduces, hoffset⟩)
    have h := hvalue ρ w hw
    rwa [hamount, Int64.add_zero] at h
  · rw [if_neg hamount]
    have hoffset : ∀ k, IsOffset i z amount
        (.node i (.binary (written amount).1 z (.node k (.constant (written amount).2)))) :=
      fun k => .inr ⟨hamount, k, rfl⟩
    have hgives := operate_gives hf he hz hwithin hi hholds (written amount).1 (written amount).2
      (fun ρ v hv => by rw [eval_written]; exact hvalue ρ v hv) fun k => hrule _ (hoffset k)
    dsimp only
    rw [← bind_assoc]
    exact .of_bind (hgives.mono fun _ g ⟨k, hreduces⟩ => .of_pure ⟨_, rfl, hreduces, hoffset k⟩)

end Below

/-- What is still to do at a node itself: to order its operands, or to turn a sign. -/
def disorder : Term → Nat
  | .node _ (.binary _ x y) =>
    if x.constant?.isSome then 2 else match y.constant? with
      | some w => if w < 0 ∧ w ≠ Int64.minValue then 1 else 0
      | none => 0
  | _ => 0

/-- A bound for the number of rules that can be applied at a node. -/
def weight (t : Term) : Nat :=
  3 * t.height + disorder t

theorem disorder_le (t : Term) : disorder t ≤ 2 := by
  unfold disorder
  split
  · split
    · exact Nat.le_refl 2
    · split
      · split <;> omega
      · omega
  · omega

theorem disorder_le_one {x y : Term} (hx : x.constant? = none) :
    disorder (.node i (.binary op x y)) ≤ 1 := by
  simp only [disorder, hx, Option.isSome_none, Bool.false_eq_true, if_false]
  split
  · split <;> omega
  · omega

theorem disorder_offset {j : NodeId} {w : Word} (hx : x.constant? = none) :
    disorder (.node i (.binary op x (.node j (.constant w)))) =
      if w < 0 ∧ w ≠ Int64.minValue then 1 else 0 := by
  simp only [disorder, hx]
  rfl

theorem height_binary (i : NodeId) (op : BinaryOp) (x y : Term) :
    (Term.node i (.binary op x y)).height = max x.height y.height + 1 := by
  simp [Expr.children]

theorem height_constant (i : NodeId) (w : Word) : (Term.node i (.constant w)).height = 1 := by
  simp [Expr.children]

theorem height_pos (t : Term) : 0 < t.height := by
  obtain ⟨i, e⟩ := t
  simp

/-- A node that is computed becomes a constant. -/
theorem replaceConstant_gives {e : Expr Term} {w : Word} (hf : f.Sits p (.node i e)) (he : e.isArithmetic = true)
    (harith : ∀ x ∈ (Term.node i e).preorder, ∃ e', f.exprAt x = some e' ∧ e'.isArithmetic = true)
    (hvalue : ∀ ρ, f.ValueAt ρ i w) (hrule : Rule (.node i e) (.node i (.constant w))) :
    Gives (Edit.replace i (.constant w)) f fun _ g =>
      f.Reduces g p (.node i e) (.node i (.constant w)) := by
  have hi := exprAt_eq_some hf.stands.shape_id
  refine (Edit.replace_rebuilds (.constant w) (.refl f) hf (by simp [Expr.children])
    (by simp [Expr.children]) (by simp [Expr.children]) (by simp [Expr.children]) nofun).mono ?_
  rintro - g ⟨⟨hreplaces, hlink, hexpr⟩, hgrounded⟩
  refine ⟨hreplaces, hlink, .single (.here hrule), hgrounded, fun htyped hmirrored => ?_⟩
  refine .of_replaces (.refl f) hf he rfl (by simp) rfl hreplaces hlink hexpr ?_ ?_ ?_ hrule
  · intro x hx hne
    obtain ⟨e', he', harith⟩ := harith x hx
    simp [hne e' he'] at harith
  · exact htyped.closed.update (by simp [Expr.map, Expr.children]) hexpr
  · exact .of_constant htyped.closed (fun z d => htyped.linked hmirrored) hi hexpr hlink hvalue

/-- A sum is the same with its operands the other way round. -/
theorem replaceSwapped_gives {x y : Term} (hf : f.Sits p (.node i (.binary .add x y)))
    (hrule : Rule (.node i (.binary .add x y)) (.node i (.binary .add y x))) :
    Gives (Edit.replace i (.binary .add y.id x.id)) f fun _ g =>
      f.Reduces g p (.node i (.binary .add x y)) (.node i (.binary .add y x)) := by
  have hi := exprAt_eq_some hf.stands.shape_id
  have hx := hf.child (c := x) (by simp [Expr.children])
  have hy := hf.child (c := y) (by simp [Expr.children])
  have hnodup := hf.nodup
  simp only [Term.preorder_node, Expr.children, List.flatMap_cons, List.flatMap_nil, List.append_nil,
    List.nodup_cons] at hnodup
  refine (Edit.replace_rebuilds (.binary .add y x) (.refl f) hf ?_ ?_ ?_ ?_ (fun o ho => by cases ho)).mono ?_
  · simp only [Expr.children, List.mem_cons, List.not_mem_nil, or_false, forall_eq_or_imp, forall_eq]
    exact ⟨⟨_, hy.stands⟩, _, hx.stands⟩
  · simp only [Expr.children, List.mem_cons, List.not_mem_nil, or_false, forall_eq_or_imp, forall_eq]
    exact ⟨(hy.above i rfl).1, (hx.above i rfl).1⟩
  · intro c hc z hz
    refine .inl ((Term.Within.of_mem_children (c := c) ?_).preorder_subset hz)
    simpa [Expr.children, or_comm] using hc
  · simpa [Expr.children] using List.nodup_append_comm.1 hnodup.2
  rintro - g ⟨⟨hreplaces, hlink, hexpr⟩, hgrounded⟩
  refine ⟨hreplaces, hlink, .single (.here hrule), hgrounded, fun htyped hmirrored => ?_⟩
  have hxid : f.exprAt x.id ≠ none := by simp [exprAt_eq_some hx.stands.shape_id]
  have hyid : f.exprAt y.id ≠ none := by simp [exprAt_eq_some hy.stands.shape_id]
  refine .of_replaces (.refl f) hf rfl rfl (by simp) rfl hreplaces hlink hexpr ?_ ?_ ?_ hrule
  · intro z hz _
    simp only [Term.preorder_node, Expr.children, List.flatMap_cons, List.flatMap_nil,
      List.append_nil, List.mem_cons, List.mem_append] at hz ⊢
    tauto
  · refine htyped.closed.update ?_ hexpr
    simpa [Expr.map, Expr.children] using ⟨hyid, hxid⟩
  · refine .of_binary htyped.closed (fun z d => htyped.linked hmirrored) hi hyid hxid hexpr hlink ?_
    intro ρ wy wx hwy hwx
    change f.ValueAt ρ i (wy + wx)
    rw [Int64.add_comm]
    exact .binary hi hwx hwy

/-- The outcome of trying one rule at a node: either there was none to apply and nothing was changed,
    or the tree there was rewritten and less is to be done. If all is done below it, the same is to become of it. -/
def Steps (f g : Flow) (p : Place) (t : Term) (next : Option NodeId) : Prop :=
  match next with
  | none => g = f ∧ isReducible t = false
  | some y => isReducible t = true ∧
    ∃ t', t'.id = y ∧ f.Reduces g p t t' ∧ Rule t t' ∧ weight t' < weight t ∧
      ((∀ c ∈ t.expr.children, Normal c) → simplest t' = simplest t)

section Offset

variable {j : NodeId} {b amount : Word} {ρ : String → Word}
  (hs : f.Stands q (.node i (.binary op x (.node j (.constant b)))))
include hs

/-- Apart from what is below its operand, there is arithmetic alone in an offset. -/
theorem mem_operand {v : NodeId} (hv : v ∈ (Term.node i (.binary op x (.node j (.constant b)))).preorder)
    (hne : ∀ e, f.exprAt v = some e → e.isArithmetic = false) : v ∈ x.preorder := by
  obtain ⟨hi, -, below⟩ := hs
  have hj := (below (.node j (.constant b)) (by simp [Expr.children])).shape_id
  simp only [Term.preorder_node, Expr.children, List.flatMap_cons, List.flatMap_nil,
    List.append_nil, List.mem_cons, List.mem_append, List.not_mem_nil, or_false] at hv
  rcases hv with rfl | hv | rfl
  · exact absurd (hne _ (exprAt_eq_some hi)) (by simp [Expr.map, Expr.isArithmetic])
  · exact hv
  · exact absurd (hne _ (exprAt_eq_some hj)) (by simp [Expr.map, Expr.isArithmetic])

theorem value_of_operand (hamount : signedAmount op b = some amount) {v : Word} (hv : f.ValueAt ρ x.id v) :
    f.ValueAt ρ i (v + amount) := by
  obtain ⟨hi, -, below⟩ := hs
  have hj := (below (.node j (.constant b)) (by simp [Expr.children])).shape_id
  rw [← eval_of_signedAmount hamount]
  exact .binary (exprAt_eq_some hi) hv (.constant (exprAt_eq_some hj))

end Offset

/-- Less is to be done at an offset that is written another way. -/
theorem weight_write_lt {j : NodeId} {b amount : Word} {t' : Term} (hx : x.constant? = none)
    (hamount : signedAmount op b = some amount) (hright : b = 0 ∨ b < 0 ∧ b ≠ Int64.minValue)
    (ht' : IsOffset i x amount t') : weight t' < weight (.node i (.binary op x (.node j (.constant b)))) := by
  have hdisorder := disorder_le x
  rcases ht' with ⟨-, rfl⟩ | ⟨hne, k, rfl⟩
  · simp only [weight, height_binary, height_constant]
    omega
  · have hb : b < 0 ∧ b ≠ Int64.minValue := by
      refine hright.resolve_left fun hb => hne ?_
      subst hb
      cases op <;> simp_all [signedAmount]
    simp only [weight, height_binary, height_constant, disorder_offset hx, if_pos hb,
      if_neg (written_nonneg amount)]
    omega

/-- Less is to be done when two offsets are joined. -/
theorem weight_join_lt {j k : NodeId} {w amount : Word} {op' : BinaryOp} {z t' : Term} (hz : z.constant? = none)
    (ht' : IsOffset i z amount t') :
    weight t' < weight (.node i (.binary op (.node k (.binary op' z (.node j (.constant w)))) x)) := by
  have hpos := height_pos z
  rcases ht' with ⟨-, rfl⟩ | ⟨-, k, rfl⟩
  · have hdisorder := disorder_le t'
    simp only [weight, height_binary, height_constant]
    omega
  · have hdisorder := @disorder_le_one i (written amount).1 _ (.node k (.constant (written amount).2)) hz
    simp only [weight, height_binary, height_constant]
    omega

theorem joinOffset_gives {b amount : Word} (hf : f.Sits p (.node i (.binary op x y)))
    (hx : x.constant? = none) (hy : y.constant? = some b) (hamount : signedAmount op b = some amount) :
    Gives (joinOffset i ⟨x.id, amount⟩ b) f fun r g => Steps f g p (.node i (.binary op x y)) r := by
  have hxs := hf.child (c := x) (by simp [Expr.children])
  obtain ⟨jy, rfl⟩ := exists_of_constant? hy
  have hxwithin : Term.Within x (.node i (.binary op x (.node jy (.constant b)))) :=
    .of_mem_children (by simp [Expr.children])
  have hix : i ∉ x.preorder := hf.not_mem_child (by simp [Expr.children])
  unfold joinOffset
  refine .of_bind (.of_view (offset?_eq hxs.stands) ?_)
  cases hinner : offsetOf? x with
  | none =>
    dsimp only [Option.map]
    split
    next hright =>
      refine .of_bind ((putOffset_gives hf rfl hxs.stands hxwithin hix (fun v => mem_operand hf.stands)
        (fun ρ v => value_of_operand hf.stands hamount) fun t' ht' => .write hamount ht').mono ?_)
      rintro _ g ⟨t', rfl, hreduces, ht'⟩
      refine .of_pure ⟨?_, t', rfl, hreduces, .write hamount ht', weight_write_lt hx hamount hright ht', fun hbelow => ?_⟩
      · simp [isReducible, hx, hy, hamount, hright]
      · exact simplest_write hx hamount (hbelow x List.mem_cons_self) hinner hright ht'
    next hright =>
      refine .of_pure ⟨rfl, ?_⟩
      simp [isReducible, hx, hy, hinner, hright]
  | some o =>
    obtain ⟨z, a⟩ := o
    obtain ⟨jx, op', c, w, rfl, hz, hc, ha⟩ := exists_of_offsetOf? hinner
    have hzs := hxs.child (c := z) (by simp [Expr.children])
    obtain ⟨jc, rfl⟩ := exists_of_constant? hc
    have hzwithin : Term.Within z (.node jx (.binary op' z (.node jc (.constant w)))) :=
      .of_mem_children (by simp [Expr.children])
    refine .of_bind ((putOffset_gives hf rfl hzs.stands (hzwithin.trans hxwithin)
      (fun hiz => hix (hzwithin.preorder_subset hiz)) (fun v hv hne => ?_) (fun ρ v hv => ?_)
      fun t' ht' => .join hamount ha ht').mono ?_)
    · exact mem_operand hxs.stands (mem_operand hf.stands hv hne) hne
    · have h := value_of_operand hf.stands hamount (value_of_operand hxs.stands ha hv)
      rwa [Int64.add_assoc, Int64.add_comm a] at h
    rintro _ g ⟨t', rfl, hreduces, ht'⟩
    refine .of_pure ⟨?_, t', rfl, hreduces, .join hamount ha ht', weight_join_lt hz ht', fun hbelow => ?_⟩
    · simp [isReducible, hx, hy, hamount, hinner]
    · exact simplest_join hx hamount (hbelow _ List.mem_cons_self) hinner ht'

theorem stepBinary_gives (hf : f.Sits p (.node i (.binary op x y))) :
    Gives (stepBinary i op x.id y.id) f fun r g => Steps f g p (.node i (.binary op x y)) r := by
  have hi := exprAt_eq_some hf.stands.shape_id
  have hxs := hf.child (c := x) (by simp [Expr.children])
  have hys := hf.child (c := y) (by simp [Expr.children])
  unfold stepBinary
  refine .of_bind (.of_view (constant?_eq hxs.stands) ?_)
  refine .of_bind (.of_view (constant?_eq hys.stands) ?_)
  cases hx : x.constant? with
  | some a =>
    cases hy : y.constant? with
    | some b =>
      obtain ⟨jx, rfl⟩ := exists_of_constant? hx
      obtain ⟨jy, rfl⟩ := exists_of_constant? hy
      have hxexpr := exprAt_eq_some hxs.stands.shape_id
      have hyexpr := exprAt_eq_some hys.stands.shape_id
      refine .of_bind ((replaceConstant_gives hf rfl ?_ (fun ρ => ?_) .binary).mono ?_)
      · intro v hv
        simp only [Term.preorder_node, Expr.children, List.flatMap_cons, List.flatMap_nil,
          List.append_nil, List.mem_cons, List.mem_append, List.not_mem_nil, or_false] at hv
        rcases hv with rfl | rfl | rfl
        · exact ⟨_, hi, rfl⟩
        · exact ⟨_, hxexpr, rfl⟩
        · exact ⟨_, hyexpr, rfl⟩
      · exact .binary hi (.constant hxexpr) (.constant hyexpr)
      · rintro - g hreduces
        refine .of_pure ⟨by simp [isReducible, hx, hy], _, rfl, hreduces, .binary, ?_, fun _ => ?_⟩
        · simp only [weight, height_binary, height_constant, disorder]
          omega
        · exact simplest_binary.symm
    | none =>
      dsimp only
      split
      next hop =>
        subst hop
        obtain ⟨jx, rfl⟩ := exists_of_constant? hx
        refine .of_bind ((replaceSwapped_gives hf .turn).mono ?_)
        rintro - g hreduces
        refine .of_pure ⟨by simp [isReducible, hx, hy], _, rfl, hreduces, .turn, ?_, fun _ => simplest_turn⟩
        have hle := @disorder_le_one i .add _ (.node jx (.constant a)) hy
        have htwo : disorder (.node i (.binary .add (.node jx (.constant a)) y)) = 2 := by
          simp [disorder, hx]
        simp only [weight, height_binary, htwo]
        omega
      next hop => exact .of_pure ⟨rfl, by simp [isReducible, hx, hy, hop]⟩
  | none =>
    cases hy : y.constant? with
    | some b =>
      dsimp only
      split
      next amount hamount => exact joinOffset_gives hf hx hy hamount
      next hamount => exact .of_pure ⟨rfl, by simp [isReducible, hx, hy, hamount]⟩
    | none => exact .of_pure ⟨rfl, by simp [isReducible, hx, hy]⟩

/-- A rule at a node rewrites what is there, if it can be rewritten. -/
theorem step_gives (hf : f.Sits p t) :
    Gives (step t.id) f fun r g => Steps f g p t r := by
  obtain ⟨i, e⟩ := t
  have hexpr := expr_eq hf.stands.shape_id
  unfold step
  refine .of_bind (.of_view hexpr ?_)
  cases e with
  | binary op x y => exact stepBinary_gives hf
  | unary op x =>
    have hi := exprAt_eq_some hf.stands.shape_id
    have hxs := hf.child (c := x) (by simp [Expr.children])
    refine .of_bind (.of_view (constant?_eq hxs.stands) ?_)
    cases hx : x.constant? with
    | none => exact .of_pure ⟨rfl, by simp [isReducible, hx]⟩
    | some w =>
      obtain ⟨jx, rfl⟩ := exists_of_constant? hx
      have hxexpr := exprAt_eq_some hxs.stands.shape_id
      refine .of_bind ((replaceConstant_gives hf rfl ?_ (fun ρ => ?_) .unary).mono ?_)
      · intro v hv
        simp only [Term.preorder_node, Expr.children, List.flatMap_cons, List.flatMap_nil,
          List.append_nil, List.mem_cons, List.not_mem_nil, or_false] at hv
        rcases hv with rfl | rfl
        · exact ⟨_, hi, rfl⟩
        · exact ⟨_, hxexpr, rfl⟩
      · exact .unary hi (.constant hxexpr)
      · rintro - g hreduces
        refine .of_pure ⟨by simp [isReducible, hx], .node i (.constant (op.eval w)), rfl, hreduces, .unary, ?_, fun _ => ?_⟩
        · simp [weight, disorder, Expr.children]
        · exact simplest_unary.symm
  | _ => exact .of_pure ⟨rfl, rfl⟩

/-- Rules are applied at a node until there is none, within the bound. What is below it stays normal, so
    that in the end the tree is. -/
theorem steps_gives {n : Nat} (hn : weight t < n) (hf : f.Sits p t) (hbelow : ∀ c ∈ t.expr.children, Normal c) :
    Gives (steps n t.id) f fun r g => ∃ t', t'.id = r.1 ∧ f.Reduces g p t t' ∧ Normal t' ∧ t'.form = simplest t ∧
      (t.expr.isArithmetic = false → t'.id = t.id) := by
  induction n generalizing f t with
  | zero => omega
  | succ n ih =>
    unfold steps
    refine .of_bind ((step_gives hf).mono ?_)
    rintro (_ | y) g hstep
    · obtain ⟨rfl, htop⟩ : g = f ∧ isReducible t = false := hstep
      obtain ⟨i, e⟩ := t
      have hnormal := normal_node_iff.2 ⟨htop, hbelow⟩
      exact .of_pure ⟨.node i e, rfl, .refl hf, hnormal, hnormal.simplest_eq.symm, fun _ => rfl⟩
    · obtain ⟨htop, t', rfl, hreduces, hrule, hlt, hsimplest⟩ := hstep
      refine .of_bind ((ih (by omega) hreduces.replaces.sits (hrule.normal_children hbelow)).mono ?_)
      rintro ⟨last, count⟩ h ⟨t'', hid, hreduces', hnormal, hform, -⟩
      exact .of_pure ⟨t'', hid, hreduces.trans hf hreduces', hnormal, hform.trans (hsimplest hbelow),
        fun h => by simp [isArithmetic_of_isReducible htop] at h⟩

theorem weight_lt_stepBound (hf : f.Sits p t) : weight t < stepBound f := by
  have hheight := hf.stands.height_le
  have hdisorder := disorder_le t
  unfold weight stepBound Flow.depthBound
  omega

/-- In the flow `g` the first children of a node of the flow `f` are simplified. The others, `rest`, are small. -/
structure ChildrenReduced (f g : Flow) (p : Place) (i : NodeId) (e e' : Expr Term) (done rest : List Term)
    (depth : Nat) : Prop where
  head_eq : e'.head = e.head
  reduces : f.Reduces g p (.node i e) (.node i e')
  children_eq : e'.children = done ++ rest
  simplest_eq : e'.children.map simplest = e.children.map simplest
  normal : ∀ c ∈ done, Normal c
  height_le : ∀ c ∈ rest, c.height ≤ depth

namespace ChildrenReduced

variable {g h : Flow} {i : NodeId} {e e' : Expr Term} {c c' : Term} {done rest : List Term} {depth : Nat}

theorem start (hf : f.Sits p (.node i e)) (hdepth : (Term.node i e).height ≤ depth + 1) :
    ChildrenReduced f f p i e e [] e.children depth := by
  refine ⟨rfl, .refl hf, rfl, rfl, by simp, fun c hc => ?_⟩
  have := Term.height_lt_of_mem_children (i := i) hc
  omega

open Replaces in
/-- One more child is simplified. -/
theorem next (hg : ChildrenReduced f g p i e e' done (c :: rest) depth) (hf : f.Sits p (.node i e))
    (hgh : g.Reduces h (.child i) c c') (hc' : Normal c') (hform : c'.form = simplest c) :
    ChildrenReduced f h p i e (swap e' c c') (done ++ [c']) rest depth := by
  have hsits := hg.reduces.replaces.sits
  have hc : c ∈ e'.children := by simp [hg.children_eq]
  have hchildren : (swap e' c c').children = done ++ c' :: rest := by
    obtain ⟨-, distinct, -⟩ := hsits.stands
    rw [hg.children_eq, List.map_append, List.map_cons, List.nodup_append, List.nodup_cons] at distinct
    obtain ⟨-, ⟨hnotin, -⟩, hapart⟩ := distinct
    have hdone : ∀ d ∈ done, (if d.id = c.id then c' else d) = d := fun d hd =>
      if_neg (hapart d.id (List.mem_map_of_mem hd) c.id (by simp))
    have hrest : ∀ d ∈ rest, (if d.id = c.id then c' else d) = d := fun d hd =>
      if_neg fun h : d.id = c.id => hnotin (h ▸ List.mem_map_of_mem hd)
    rw [swap, Expr.children_map, hg.children_eq, List.map_append, List.map_cons, if_pos rfl,
      List.map_congr_left hdone, List.map_congr_left hrest]
    simp
  refine ⟨?_, hg.reduces.trans hf (hgh.lift hsits hc), ?_, ?_, ?_, fun d hd => hg.height_le d (by simp [hd])⟩
  · rw [swap, Expr.head_map, hg.head_eq]
  · rw [hchildren, List.append_assoc, List.singleton_append]
  · rw [← hg.simplest_eq, hchildren, hg.children_eq]
    simp [hc'.simplest_eq, hform]
  · simpa [or_imp, forall_and] using ⟨hg.normal, hc'⟩

end ChildrenReduced

/-- Simplifying a tree gives a normal tree of the simplest form; what is no arithmetic stays where it is. -/
theorem within_gives {depth : Nat} (hdepth : t.height ≤ depth) (hf : f.Sits p t) :
    Gives (within depth t.id) f fun r g => ∃ t', t'.id = r.1 ∧ f.Reduces g p t t' ∧ Normal t' ∧ t'.form = simplest t ∧
      (t.expr.isArithmetic = false → t'.id = t.id) := by
  induction depth generalizing f p t with
  | zero =>
    have := height_pos t
    omega
  | succ depth ih =>
    obtain ⟨i, e⟩ := t
    have hchildren := children_eq hf.stands.shape_id
    unfold within
    refine .of_bind (.of_view hchildren ?_)
    have hloop := Gives.of_mapM (k := fun c => do return (← within depth c).2) (I := fun ids (_ : List Nat) g =>
        ∃ e' done rest, ids = rest.map Term.id ∧ ChildrenReduced f g p i e e' done rest depth) ?_
      (e.map Term.id).children (b := []) ⟨e, [], e.children, by simp, .start hf hdepth⟩
    · refine .of_bind (hloop.mono ?_)
      rintro counts g ⟨e', done, rest, hrest, hg⟩
      obtain rfl : rest = [] := List.map_eq_nil_iff.1 hrest.symm
      have hsits := hg.reduces.replaces.sits
      refine .of_bind (.of_get (.of_bind ?_))
      refine (steps_gives (weight_lt_stepBound hsits) hsits fun c hc => hg.normal c ?_).mono ?_
      · simpa [hg.children_eq] using hc
      rintro ⟨last, count⟩ h ⟨t', rfl, hreduces, hnormal, hform, hid⟩
      have hsame : e'.map simplest = e.map simplest :=
        Expr.ext_children (by simp [hg.head_eq]) (by simp [hg.simplest_eq])
      refine .of_pure ⟨t', rfl, hg.reduces.trans hf hreduces, hnormal, ?_, fun harith => hid ?_⟩
      · rw [hform, simplest_node, simplest_node, hsame]
      · exact (Expr.isArithmetic_eq_of_head_eq hg.head_eq).trans harith
    · rintro _ ids counts g ⟨e', done, _ | ⟨c, rest⟩, hids, hg⟩
      · cases hids
      · obtain ⟨rfl, rfl⟩ := List.cons.inj hids
        have hc : c ∈ e'.children := by simp [hg.children_eq]
        refine .of_bind ((ih (hg.height_le c (by simp)) (hg.reduces.replaces.sits.child hc)).mono ?_)
        rintro ⟨last, count⟩ h ⟨c', -, hreduces, hnormal, hform, -⟩
        exact .of_pure ⟨_, _, rest, rfl, hg.next hf hreduces hnormal hform⟩

end Simplify

namespace Edit

open Flow

variable {f : Flow} {V : Locations} {p : Place} {s : StatementId} {t : Term}

/-- Simplifying works on every tree that is in a flow, wherever it stands. -/
theorem simplify_gives (hf : f.Sits p t) : Gives (simplify t.id) f fun r g =>
    ∃ t', t'.id = r.1 ∧ f.Reduces g p t t' ∧ Simplify.Normal t' ∧ t'.form = Simplify.simplest t ∧
      (t.expr.isArithmetic = false → t'.id = t.id) :=
  .of_bind (.of_get (Simplify.within_gives (Nat.le_succ_of_le hf.stands.height_le) hf))

theorem simplifyStatement_reduces {st : Statement} (hst : f.statementAt s = some st)
    (hroot : st.root = t.id) (hf : f.Sits (.root s) t) :
    Gives (simplifyStatement s) f fun _ g => ∃ t', f.Reduces g (.root s) t t' ∧ Simplify.Normal t' ∧
      (t.expr.isArithmetic = false → t'.id = t.id) := by
  unfold simplifyStatement
  refine .of_bind (.of_view (statement_eq hst) ?_)
  rw [hroot]
  refine .of_bind ((simplify_gives hf).mono ?_)
  rintro r g ⟨t', -, hreduces, hnormal, -, hid⟩
  exact .of_pure ⟨t', hreduces, hnormal, hid⟩

theorem simplifyStatement_gives {st : Statement} (hst : f.statementAt s = some st)
    (hroot : st.root = t.id) (hf : f.Sits (.root s) t) (htyped : f.Typed V) (hmirrored : f.Mirrored) :
    Gives (simplifyStatement s) f fun _ g => ∃ t', f.Simplifies g (.root s) t t' ∧ Simplify.Normal t' ∧
      (t.expr.isArithmetic = false → t'.id = t.id) :=
  (simplifyStatement_reduces hst hroot hf).mono fun _ _ ⟨t', hreduces, hnormal, hid⟩ =>
    ⟨t', hreduces.simplifies htyped hmirrored, hnormal, hid⟩

end Edit

end FrameRecovery
