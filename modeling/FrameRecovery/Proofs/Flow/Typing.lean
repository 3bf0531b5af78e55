import FrameRecovery.Proofs.Flow.Copying
import FrameRecovery.Proofs.Flow.Rewriting
import FrameRecovery.Simplify
import Mathlib.Logic.Relation

namespace FrameRecovery

namespace Expr

variable {α β : Type}

/-- Whether the expression is computed from its children alone. -/
def isArithmetic : Expr α → Bool
  | constant _ | binary _ _ _ | unary _ _ => true
  | _ => false

theorem isArithmetic_eq_of_head_eq {e : Expr α} {e' : Expr β} (h : e.head = e'.head) :
    e.isArithmetic = e'.isArithmetic := by
  cases e <;> cases e' <;> simp_all [head, map, isArithmetic]

theorem isAssignable_eq_of_head_eq {e : Expr α} {e' : Expr β} (h : e.head = e'.head) :
    e.isAssignable = e'.isAssignable := by
  cases e <;> cases e' <;> simp_all [head, map, isAssignable]

theorem version?_eq_of_head_eq {e : Expr α} {e' : Expr β} (h : e.head = e'.head) :
    e.version? = e'.version? := by
  cases e <;> cases e' <;> simp_all [head, map, version?]

/-- Whether the expression is a register or a dereference without a version. -/
def isUntagged : Expr α → Bool
  | register _ v | deref _ v => v.isNone
  | _ => false

theorem isUntagged_eq_of_head_eq {e : Expr α} {e' : Expr β} (h : e.head = e'.head) :
    e.isUntagged = e'.isUntagged := by
  cases e <;> cases e' <;> simp_all [head, map, isUntagged]

theorem isArithmetic_eq_false_of_isUntagged {e : Expr α} (h : e.isUntagged = true) :
    e.isArithmetic = false := by
  cases e <;> simp_all [isUntagged, isArithmetic]

theorem isArithmetic_eq_false_of_isAssignable {e : Expr α} (h : e.isAssignable = true) :
    e.isArithmetic = false := by
  cases e <;> simp_all [isAssignable, isArithmetic]

end Expr

/-- Which locations may occur in a flow: registers by their names, dereferences by their versions,
    and variables. -/
structure Locations where
  register : String → Prop
  deref : Option Nat → Prop
  var : String → Option Nat → NodeId → Prop

namespace Locations

/-- All locations may occur. -/
def any : Locations :=
  ⟨fun _ => True, fun _ => True, fun _ _ _ => True⟩

/-- Whether an expression may occur, as far as it is a location. -/
def Admits {α : Type} (V : Locations) : Expr α → Prop
  | .register n _ => V.register n
  | .deref _ v => V.deref v
  | .var n v o => V.var n v o
  | _ => True

variable {α β : Type} {V : Locations} {e : Expr α} {e' : Expr β}

theorem admits_any (e : Expr α) : any.Admits e := by
  cases e <;> trivial

theorem admits_iff_of_head_eq (h : e.head = e'.head) : V.Admits e ↔ V.Admits e' := by
  cases e <;> cases e' <;> simp_all [Expr.head, Expr.map, Admits]

theorem admits_map (f : α → β) (e : Expr α) : V.Admits (e.map f) ↔ V.Admits e :=
  admits_iff_of_head_eq (Expr.head_map f e)

theorem admits_of_isArithmetic (h : e.isArithmetic = true) : V.Admits e := by
  cases e <;> trivial

end Locations

namespace Simplify

/-- The tree that stands for another one with an amount added, at the node `i` or in its place. -/
def IsOffset (i : NodeId) (z : Term) (amount : Word) (t : Term) : Prop :=
  amount = 0 ∧ t = z ∨ amount ≠ 0 ∧
    ∃ k, t = .node i (.binary (written amount).1 z (.node k (.constant (written amount).2)))

/-- The rules of simplification: constants are computed, a constant goes to the right of a sum, and
    constants that are added one after the other are added up. -/
inductive Rule : Term → Term → Prop
  | binary {i j k : NodeId} {op : BinaryOp} {a b : Word} :
    Rule (.node i (.binary op (.node j (.constant a)) (.node k (.constant b))))
      (.node i (.constant (op.eval a b)))
  | unary {i j : NodeId} {op : UnaryOp} {a : Word} :
    Rule (.node i (.unary op (.node j (.constant a)))) (.node i (.constant (op.eval a)))
  | turn {i j : NodeId} {a : Word} {y : Term} : Rule (.node i (.binary .add (.node j (.constant a)) y))
      (.node i (.binary .add y (.node j (.constant a))))
  | write {i j : NodeId} {op : BinaryOp} {x t : Term} {b amount : Word}
    (hamount : signedAmount op b = some amount) (ht : IsOffset i x amount t) :
    Rule (.node i (.binary op x (.node j (.constant b)))) t
  | join {i j k l : NodeId} {op op' : BinaryOp} {z t : Term} {b b' outer inner : Word}
    (houter : signedAmount op b = some outer) (hinner : signedAmount op' b' = some inner)
    (ht : IsOffset i z (outer + inner) t) :
    Rule (.node i (.binary op (.node k (.binary op' z (.node l (.constant b')))) (.node j (.constant b)))) t

end Simplify

/-- A tree is rewritten by the rules of simplification. -/
abbrev Term.Rewrites : Term → Term → Prop :=
  Relation.ReflTransGen (Somewhere Simplify.Rule)

namespace Flow

variable {f g h : Flow} {V : Locations} {p : Place} {t t' t'' : Term} {x : NodeId} {e : Expr NodeId}

/-- What stands where: children are nodes, what is assigned to is a location that is not read,
    what has a link is a location, and all locations are among the given ones. -/
structure Typed (f : Flow) (V : Locations) : Prop where
  closed : f.Closed
  target : ∀ r d y, f.exprAt r = some (.assign d y) →
    (∃ e, f.exprAt d = some e ∧ e.isAssignable = true) ∧ ∀ z, f.linkOf d ≠ .use z
  link : ∀ x, f.linkOf x ≠ .unlinked → ∃ e, f.exprAt x = some e ∧ e.isAssignable = true
  location : ∀ x e, f.exprAt x = some e → V.Admits e

theorem Typed.exists_node (hf : f.Typed V) {x : NodeId} (hx : f.linkOf x ≠ .unlinked) :
    f.shapeAt x ≠ none := by
  obtain ⟨e, he, -⟩ := hf.link x hx
  exact exprAt_ne_none.1 (by simp [he])

theorem Closed.update {q : NodeId} {e' : Expr NodeId} (hf : f.Closed)
    (he' : ∀ c ∈ e'.children, f.exprAt c ≠ none)
    (hg : g.exprAt = Function.update f.exprAt q (some e')) : g.Closed := by
  have hexists : ∀ c, f.exprAt c ≠ none → g.exprAt c ≠ none := by
    intro c hc
    rw [hg]
    by_cases hcq : c = q
    · simp [hcq]
    · rwa [Function.update_of_ne hcq]
  intro y e hy c hc
  rw [hg] at hy
  by_cases hyq : y = q
  · rw [hyq, Function.update_self] at hy
    cases hy
    exact hexists c (he' c hc)
  · rw [Function.update_of_ne hyq] at hy
    exact hexists c (hf y e hy c hc)

theorem Typed.linked (hf : f.Typed V) (hmirrored : f.Mirrored) {z d : NodeId}
    (hz : f.linkOf z = .use (some d)) : f.exprAt d ≠ none := by
  have hd := Link.eq_definition_of_mem_uses ((hmirrored.recorded z d).1 hz)
  obtain ⟨e, he, -⟩ := hf.link d (by rw [hd]; simp)
  simp [he]

section Substituted

variable {old new : NodeId}

open Edit

theorem exists_substituted (p : Place) (old new : NodeId) (hx : f.exprAt x = some e) :
    ∃ e', substituted f p old new x = some e' ∧ e'.head = e.head := by
  unfold substituted
  split
  · exact ⟨_, by rw [hx]; rfl, by simp⟩
  · exact ⟨e, hx, rfl⟩

theorem exists_of_substituted (hx : substituted f p old new x = some e) :
    ∃ e', f.exprAt x = some e' ∧ e.head = e'.head := by
  unfold substituted at hx
  split at hx
  · obtain ⟨e', he', rfl⟩ := Option.map_eq_some_iff.1 hx
    exact ⟨e', he', by simp⟩
  · exact ⟨e, hx, rfl⟩

theorem assign_of_substituted {r d y : NodeId}
    (htarget : ∀ r d y, f.exprAt r = some (.assign d y) → d ≠ old)
    (hr : substituted f p old new r = some (.assign d y)) : ∃ y', f.exprAt r = some (.assign d y') := by
  unfold substituted at hr
  split at hr
  · obtain ⟨e, he, he'⟩ := Option.map_eq_some_iff.1 hr
    cases e <;> simp only [Expr.map, reduceCtorEq] at he'
    next d' y' =>
    rw [if_neg (htarget r d' y' he)] at he'
    cases he'
    exact ⟨y', he⟩
  · exact ⟨y, hr⟩

theorem Closed.substituted (hf : f.Closed) (hnew : f.exprAt new ≠ none)
    (hg : g.exprAt = Edit.substituted f p old new) : g.Closed := by
  have hexists : ∀ c, f.exprAt c ≠ none → g.exprAt c ≠ none := by
    intro c hc
    obtain ⟨e, he⟩ := Option.ne_none_iff_exists'.1 hc
    obtain ⟨e', he', -⟩ := exists_substituted p old new he
    simp [hg, he']
  intro y e hy c hc
  rw [hg] at hy
  refine hexists c ?_
  unfold Edit.substituted at hy
  split at hy
  · obtain ⟨e₀, he₀, rfl⟩ := Option.map_eq_some_iff.1 hy
    rw [Expr.children_map] at hc
    obtain ⟨c₀, hc₀, rfl⟩ := List.mem_map.1 hc
    split
    next => exact hnew
    next => exact hf y e₀ he₀ c₀ hc₀
  · exact hf y e hy c hc

/-- Putting a node in the place of another one that has its value changes nothing else. -/
theorem Refines.of_substituted (hclosed : f.Closed)
    (hlinked : ∀ z d, f.linkOf z = .use (some d) → f.exprAt d ≠ none)
    (htarget : ∀ r d y, f.exprAt r = some (.assign d y) → d ≠ old) (hnew : f.exprAt new ≠ none)
    (hq : ∀ q, p = .child q → f.exprAt q ≠ none) (hg : g.exprAt = Edit.substituted f p old new)
    (hlink : ∀ z d, g.linkOf z = .use (some d) → f.linkOf z = .use (some d))
    (hvalue : ∀ ρ w, f.ValueAt ρ new w → f.ValueAt ρ old w) : f.Refines g := by
  by_cases hp : ∃ q, p = .child q
  · obtain ⟨q, rfl⟩ := hp
    obtain ⟨e, he⟩ := Option.ne_none_iff_exists'.1 (hq q rfl)
    refine .of_substitution hclosed hlinked he hnew ?_ hlink
      (fun d y heq => htarget q d y (heq ▸ he)) hvalue
    rw [hg]
    funext y
    unfold Edit.substituted
    by_cases hyq : y = q
    · simp [hyq, he]
    · rw [Function.update_of_ne hyq, if_neg fun h => hyq (Place.child.inj h).symm]
  · have hsame : g.exprAt = f.exprAt := by
      rw [hg]
      funext y
      exact if_neg fun h => hp ⟨y, h⟩
    refine .of_exprs hclosed (fun z e' hz => .inl (hsame ▸ hz)) ?_ ?_
    · exact fun z n v d _ hz => ⟨hlink z d hz, hlinked z d (hlink z d hz)⟩
    · intro r d y hr hr'
      rw [hsame, hr] at hr'
      cases hr'

theorem Typed.substituted (hf : f.Typed V) (hnew : f.exprAt new ≠ none)
    (htarget : ∀ r d y, f.exprAt r = some (.assign d y) → d ≠ old)
    (hg : g.exprAt = Edit.substituted f p old new) (hlink : g.linkOf = f.linkOf) : g.Typed V := by
  have hkept : ∀ {x e}, f.exprAt x = some e → e.isAssignable = true →
      ∃ e', g.exprAt x = some e' ∧ e'.isAssignable = true := by
    intro x e he hassignable
    obtain ⟨e', he', hhead⟩ := exists_substituted p old new he
    exact ⟨e', hg ▸ he', (Expr.isAssignable_eq_of_head_eq hhead).trans hassignable⟩
  refine ⟨hf.closed.substituted hnew hg, fun r d y hr => ?_, fun x hx => ?_, fun x e' hx => ?_⟩
  · obtain ⟨y', hr⟩ := assign_of_substituted htarget (hg ▸ hr)
    obtain ⟨⟨e, he, hassignable⟩, hnot⟩ := hf.target r d y' hr
    exact ⟨hkept he hassignable, fun z => hlink ▸ hnot z⟩
  · obtain ⟨e, he, hassignable⟩ := hf.link x (hlink ▸ hx)
    exact hkept he hassignable
  · obtain ⟨e, he, hhead⟩ := exists_of_substituted (hg ▸ hx)
    exact (Locations.admits_iff_of_head_eq hhead).2 (hf.location x e he)

end Substituted

/-- A flow `g` is a flow `f` with the tree `t` computed in another way, as `t'`: what is no
    arithmetic stays, and there is no more of it. -/
structure Simplifies (f g : Flow) (p : Place) (t t' : Term) : Prop where
  replaces : f.Replaces g p t t'
  link_eq : g.linkOf = f.linkOf
  kept : ∀ x e, f.exprAt x = some e → e.isArithmetic = false →
    ∃ e', g.exprAt x = some e' ∧ e'.head = e.head
  holds : ∀ x ∈ t.preorder, (∀ e, f.exprAt x = some e → e.isArithmetic = false) → x ∈ t'.preorder
  old : ∀ x e', g.exprAt x = some e' → e'.isArithmetic = false →
    ∃ e, f.exprAt x = some e ∧ e'.head = e.head
  assign : ∀ r d y, g.exprAt r = some (.assign d y) → ∃ y', f.exprAt r = some (.assign d y')
  closed : g.Closed
  refines : f.Refines g
  rewrites : t.Rewrites t'

namespace Simplifies

theorem refl (hf : f.Sits p t) (hclosed : f.Closed) : f.Simplifies f p t t :=
  ⟨.refl hf, rfl, fun _ e he _ => ⟨e, he, rfl⟩, fun _ hx _ => hx, fun _ e he _ => ⟨e, he, rfl⟩,
    fun _ _ y h => ⟨y, h⟩, hclosed, .refl f, .refl⟩

theorem trans (hf : f.Sits p t) (hfg : f.Simplifies g p t t') (hgh : g.Simplifies h p t' t'') :
    f.Simplifies h p t t'' := by
  refine ⟨hfg.replaces.trans hf hgh.replaces, hgh.link_eq.trans hfg.link_eq, ?_, ?_, ?_, ?_,
    hgh.closed, hfg.refines.trans hgh.refines, hfg.rewrites.trans hgh.rewrites⟩
  · intro x e he hne
    obtain ⟨e', he', hhead⟩ := hfg.kept x e he hne
    obtain ⟨e'', he'', hhead'⟩ := hgh.kept x e' he' ((Expr.isArithmetic_eq_of_head_eq hhead).trans hne)
    exact ⟨e'', he'', hhead'.trans hhead⟩
  · intro x hx hne
    have hxt' := hfg.holds x hx hne
    refine hgh.holds x hxt' fun e' he' => ?_
    obtain ⟨⟨e, q⟩, he⟩ := Option.ne_none_iff_exists'.1 (hf.stands.shapeAt_ne_none hx)
    have he := exprAt_eq_some he
    obtain ⟨e₁, he₁, hhead⟩ := hfg.kept x e he (hne e he)
    rw [he'] at he₁
    cases he₁
    rw [Expr.isArithmetic_eq_of_head_eq hhead, hne e he]
  · intro x e'' he'' hne
    obtain ⟨e', he', hhead⟩ := hgh.old x e'' he'' hne
    obtain ⟨e, he, hhead'⟩ := hfg.old x e' he' ((Expr.isArithmetic_eq_of_head_eq hhead).symm.trans hne)
    exact ⟨e, he, hhead.trans hhead'⟩
  · intro r d y hr
    obtain ⟨y', hr⟩ := hgh.assign r d y hr
    exact hfg.assign r d y' hr

theorem typed (hf : f.Typed V) (hfg : f.Simplifies g p t t') : g.Typed V := by
  have hkept : ∀ x e, f.exprAt x = some e → e.isAssignable = true →
      ∃ e', g.exprAt x = some e' ∧ e'.isAssignable = true := by
    intro x e he hassignable
    obtain ⟨e', he', hhead⟩ :=
      hfg.kept x e he (Expr.isArithmetic_eq_false_of_isAssignable hassignable)
    exact ⟨e', he', (Expr.isAssignable_eq_of_head_eq hhead).trans hassignable⟩
  refine ⟨hfg.closed, fun r d y hr => ?_, fun x hx => ?_, fun x e' hx => ?_⟩
  · obtain ⟨y', hr⟩ := hfg.assign r d y hr
    obtain ⟨⟨e, he, hassignable⟩, hread⟩ := hf.target r d y' hr
    exact ⟨hkept d e he hassignable, fun z => hfg.link_eq ▸ hread z⟩
  · rw [hfg.link_eq] at hx
    obtain ⟨e, he, hassignable⟩ := hf.link x hx
    exact hkept x e he hassignable
  · cases harith : e'.isArithmetic with
    | true => exact Locations.admits_of_isArithmetic harith
    | false =>
      obtain ⟨e, he, hhead⟩ := hfg.old x e' hx harith
      exact (Locations.admits_iff_of_head_eq hhead).2 (hf.location x e he)

open Replaces in
theorem lift {i : NodeId} {e : Expr Term} {c c' : Term} (hf : f.Sits p (.node i e))
    (hc : c ∈ e.children) (hfg : f.Simplifies g (.child i) c c') :
    f.Simplifies g p (.node i e) (.node i (swap e c c')) := by
  have hrewrites : (Term.node i (swap e c c)).Rewrites (.node i (swap e c c')) :=
    hfg.rewrites.lift (fun d => Term.node i (swap e c d)) fun _ _ h => somewhere_swap hf hc h
  rw [swap_self hf hc] at hrewrites
  refine ⟨hfg.replaces.lift hf hc, hfg.link_eq, hfg.kept, fun x hx hne => ?_, hfg.old, hfg.assign,
    hfg.closed, hfg.refines, hrewrites⟩
  rw [Term.preorder_node, List.mem_cons, List.mem_flatMap] at hx
  rw [Term.preorder_node, List.mem_cons, List.mem_flatMap, swap, Expr.children_map]
  rcases hx with rfl | ⟨d, hd, hx⟩
  · exact .inl rfl
  · refine .inr ⟨_, List.mem_map_of_mem hd, ?_⟩
    split
    next hid =>
      obtain rfl : d = c := (hf.child hd).stands.unique (hf.child hc).stands hid
      exact hfg.holds x hx hne
    next => exact hx

end Simplifies

end Flow

end FrameRecovery
