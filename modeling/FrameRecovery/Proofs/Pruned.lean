import FrameRecovery.Proofs.Precedence
import FrameRecovery.Proofs.RegisterValues
import FrameRecovery.Proofs.Tagging.Bared

namespace FrameRecovery

open Flow

/-- A tree that assigns a value without calls to a register. -/
def Term.IsDead (t : Term) : Prop :=
  ∃ i d n k v, t = .node i (.assign (.node d (.register n k)) v) ∧ v.containsCall = false

namespace Flow

variable {f g h : Flow} {V : Locations} {s : StatementId} {t : Term} {x d : NodeId}

/-- What is read in a statement is assigned by one. -/
def Anchored (f : Flow) : Prop :=
  ∀ s t x d, f.Live s → f.Holds s t → x ∈ t.preorder → f.linkOf x = .use (some d) →
    ∃ w i X Y, f.Holds w (.node i (.assign X Y)) ∧ X.id = d

/-- A flow `g` is a flow `f` without some dead definitions. What is left is linked as before. -/
structure Pares (f g : Flow) : Prop where
  shape_eq : g.shapeAt = f.shapeAt
  graph : f.SameGraph g
  statement : ∀ s, g.Live s → g.statementAt s = f.statementAt s
  holds : ∀ s t, f.Holds s t → g.Holds s t
  statements : ∀ a, g.statementsAt a = (f.statementsAt a).filter (· ∈ g.liveStatements)
  gone : ∀ s t, f.Live s → f.Holds s t → ¬ g.Live s → t.IsDead
  link : ∀ s t x D, g.Live s → f.Holds s t → x ∈ t.preorder → f.linkOf x = .use D → g.linkOf x = .use D

namespace Pares

theorem refl (hf : f.Forest) : f.Pares f := by
  refine ⟨rfl, .refl f, fun _ _ => rfl, fun _ _ ht => ht, fun a => ?_, fun _ _ hs _ hnot => absurd hs hnot,
    fun _ _ _ _ _ _ _ h => h⟩
  symm
  rw [List.filter_eq_self]
  intro s hs
  simpa using hf.mem_liveStatements.2 (hf.live hs)

theorem live (hfg : f.Pares g) (hs : g.Live s) : f.Live s := by
  obtain ⟨st, hst, hremoved⟩ := id hs
  exact ⟨st, hfg.statement s hs ▸ hst, hremoved⟩

theorem step (hfg : f.Pares g) (hanchored : f.Anchored) (hgh : Pruning.Prunes V g h) : f.Pares h := by
  obtain @⟨s, st, t, hsound, hst, ht, hprunable, hremoves, hlink⟩ := hgh
  have hforest := hremoves.forest hsound.forest hst
  obtain ⟨r, i, n, k, v, rfl, hcall, huses⟩ := Pruning.exists_of_isPrunable ht hprunable
  have holds : ∀ {c T}, f.Holds c T → g.Holds c T := fun {c T} => hfg.holds c T
  refine ⟨hremoves.shape_eq.trans hfg.shape_eq, hfg.graph.trans hremoves.graph, fun c hc => ?_,
    fun c T hT => hremoves.holds hst (holds hT), fun a => ?_, fun c T hc hT hnot => ?_,
    fun c T x D hc hT hx hread => ?_⟩
  · obtain ⟨hne, hlive⟩ := hremoves.live_old hc
    rw [hremoves.statementAt_eq, Function.update_of_ne hne, hfg.statement c hlive]
  · rw [hremoves.statementsAt_eq hsound.forest hst, hfg.statements, List.filter_filter]
    refine List.filter_congr fun c _ => ?_
    rw [Bool.eq_iff_iff]
    simp only [Bool.and_eq_true, bne_iff_ne, decide_eq_true_eq, hforest.mem_liveStatements,
      hsound.forest.mem_liveStatements]
    exact ⟨fun h => hremoves.live h.1 h.2, hremoves.live_old⟩
  · by_cases hlive : g.Live c
    · obtain rfl : c = s := by
        by_contra hne
        exact hnot (hremoves.live hne hlive)
      exact ⟨r, i, n, some k, v, (holds hT).unique ht, hcall⟩
    · exact hfg.gone c T hc hT hlive
  · obtain ⟨hne, hlive⟩ := hremoves.live_old hc
    have hread' := hfg.link c T x D hlive hT hx hread
    have hxt : x ∉ (Term.node r (.assign (.node i (.register n (some k))) v)).postorder := by
      intro hxt
      exact hne ((holds hT).statement_unique ht hx (Term.mem_postorder.1 hxt))
    rw [hlink, linksWithout, if_neg hxt, hread']
    cases D with
    | none => rfl
    | some d =>
      rw [Link.drop_eq_use]
      refine ⟨rfl, fun hd => ?_⟩
      -- what is read here is assigned by the statement that is pruned
      obtain ⟨w, j, X, Y, hw, rfl⟩ := hanchored c T x d (hfg.live hlive) hT hx hread
      have hmem : X.id ∈ (Term.node j (.assign X Y)).preorder := by
        simp [Expr.children, Term.id_mem_preorder]
      obtain rfl := (holds hw).statement_unique ht hmem (Term.mem_postorder.1 hd)
      cases (holds hw).unique ht
      have hmem := (hsound.mirrored.recorded x i).1 hread'
      obtain ⟨q, hi⟩ := ht.stands.exists_of_within (.of_mem_children (c := .node i (.register n (some k)))
        (by simp [Expr.children]))
      have huses := Except.ok.inj ((uses_eq hi.shape_id).symm.trans huses)
      rw [Term.id_node] at huses
      rw [huses] at hmem
      cases hmem

theorem of_pruned (hf : f.Forest) (hanchored : f.Anchored) (h : Pruning.Pruned V f g) : f.Pares g := by
  have hsteps := h.steps
  clear h
  induction hsteps with
  | refl => exact .refl hf
  | tail _ hstep ih => exact ih.step hanchored hstep

/-- What is still read is still assigned. -/
theorem live_of_read (hfg : f.Pares g) (hg : g.Sound V) (hs : g.Live s) (ht : f.Holds s t) (hx : x ∈ t.preorder)
    (hread : f.linkOf x = .use (some d)) {w : StatementId} {T : Term} (hw : f.Holds w T) (hd : d ∈ T.preorder) :
    g.Live w := by
  have hread := hfg.link s t x _ hs ht hx hread
  have hmem := (hg.mirrored.recorded x d).1 hread
  obtain ⟨c, u, hc, hu, hdu⟩ := hg.held d (by
    rw [Link.eq_definition_of_mem_uses hmem]
    simp)
  rwa [(hfg.holds w T hw).statement_unique hu hd hdu]

end Pares

end Flow

namespace Tagging

variable {f g h : Flow} {V : Locations} {a : Address} {s m w : StatementId} {t T : Term} {x d : NodeId}
  {as : List Address} {pre post heads : List StatementId} {points : List Point} {r : Read} {l : Location}
  {D : Option NodeId}

/-- The operands of a merge read its points. -/
theorem Merges.reads_iff (hm : g.Merges .registers l m d points) (hg : g.Forest) (hT : g.Holds m T) :
    (∀ p ∈ points, ∃ x ∈ T.preorder, g.linkOf x = .use (definitionAt p)) ∧
      ∀ x ∈ T.preorder, g.IsInput x → ∃ p ∈ points, g.linkOf x = .use (definitionAt p) := by
  obtain ⟨i, v, j, inputs, hholds, -, -, hall⟩ := Merges.holds hm hg
  obtain ⟨i', v', j', inputs', heq, -, hregister⟩ := Merges.exists_eq hm hg hholds
  cases heq
  obtain rfl := hT.unique hholds
  obtain ⟨hpoints, hinputs⟩ := exists_of_forall₂ hall
  constructor
  · intro p hp
    obtain ⟨x, hx, w, -, hlink, -⟩ := hpoints p hp
    refine ⟨x.id, ?_, hlink⟩
    simp only [Term.preorder_node, Expr.children, List.flatMap_cons, List.flatMap_nil, List.append_nil,
      List.mem_cons, List.mem_append, List.mem_flatMap]
    exact .inr (.inr (.inr ⟨x, hx, x.id_mem_preorder⟩))
  · intro x hx hinput
    obtain ⟨k, xs, u, hwithin, hu, rfl⟩ := (hT.isInput_iff hx).1 hinput
    obtain heq | ⟨-, w, heq⟩ | heq := Term.within_merge hregister hwithin
    · cases heq
    · cases heq
    · cases heq
      obtain ⟨p, hp, w, -, hlink, -⟩ := hinputs u hu
      exact ⟨p, hp, hlink⟩

/-- The last assignment to a location on a way stands in a statement of before. -/
theorem exists_assign_of_lastSite? (hf : f.Forest) (hlast : f.lastSite? .registers l as pre = some d)
    (hpre : ∀ s ∈ pre, f.Live s) : ∃ w i, f.Assigns w i d := by
  obtain ⟨w, D, hw, hD, -, rfl⟩ := exists_of_lastSite? hf hlast hpre
  obtain ⟨t, ht⟩ := hf.holds_of_live hw
  obtain ⟨i, X, Y, rfl, -, hX, -⟩ := (Summary.mem_definitionOf ht).1 hD
  exact ⟨w, i, hX ▸ ht.assigns⟩

section Registers

variable (ht : Tagged V f .registers g) (hf : f.Plain) (hconnected : f.Connected)
include ht hf hconnected

/-- What is read once the registers are tagged is assigned by a statement. -/
theorem Tagged.anchored : g.Anchored := by
  intro s T x d hs hT hx hlink
  suffices hassigns : ∃ w i, g.Assigns w i d by
    obtain ⟨w, i, ⟨st, hst, rfl⟩, y, hroot⟩ := hassigns
    obtain ⟨u, hu⟩ := ht.sound.forest.holds w st hst
    obtain ⟨st', hst', hid, -⟩ := id hu
    obtain rfl := Option.some.inj (hst.symm.trans hst')
    rw [hid] at hroot
    obtain ⟨X, Y, heq, hX, -⟩ := hu.exists_assign hroot
    exact ⟨w, _, X, Y, heq ▸ hu, hX⟩
  obtain hinput | ⟨w, i, hassigns, -⟩ := (Ordered.of_tagged ht hf hconnected).reads s T x d hs hT hx hlink
  · obtain ⟨a, heads, hexact, hhead | hbefore⟩ := ht.exists_place hf.forest hconnected hs
    · obtain ⟨-, l, d', points, hjoins⟩ := hexact.head s hhead
      obtain ⟨p, hp, hlink'⟩ := (Merges.reads_iff hjoins.merges ht.sound.forest hT).2 x hx hinput
      obtain ⟨as, -, hlast⟩ := (hjoins.mem_iff p).1 hp
      rw [Link.use.inj (hlink'.symm.trans hlink)] at hlast
      obtain ⟨w, i, hassigns⟩ := exists_assign_of_lastSite? hf.forest hlast.symm (by simp)
      exact ⟨w, i, hassigns.later ht.later⟩
    · exact absurd hinput (hT.not_isInput (ht.count_isTheta_of_mem hf hbefore hT) hx)
  · exact ⟨w, i, hassigns⟩

/-- When the registers are tagged and dead definitions are gone, the assignments that what is left
    reads from are there still. -/
theorem Tagged.live_of_lastSite? (hgh : g.Pares h) (hh : h.Sound V) (hpath : f.Path as a)
    (hsplit : f.statementsAt a = pre ++ s :: post) (hs : h.Live s) (hr : r ∈ BlockPlan.readsAt f .registers s)
    (hlast : f.lastSite? .registers r.location as pre = some d) (hw : f.Holds w t) (hd : d ∈ t.preorder) :
    h.Live w := by
  have ha : f.block? a ≠ none := hconnected.ne_none_of_path hpath
  obtain ⟨heads, hexact⟩ := ht.exact hf.forest hconnected ha
  obtain ⟨D, ⟨v, -, hlink, -⟩, hreaches⟩ := hexact.read pre s post hsplit r hr
  obtain ⟨S, hS⟩ := hf.forest.exists_holds (a := a) (s := s) (by simp [hsplit])
  obtain ⟨S', hS', -, hpreorder⟩ := ht.later.exists_holds hS
  obtain ⟨t', ht', -, hpreorder'⟩ := ht.later.exists_holds hw
  have hmem : r.operand ∈ S'.preorder :=
    hpreorder ▸ List.mem_of_mem_tail (BlockPlan.operand_mem hS hr)
  cases hreaches with
  | always hall =>
    obtain rfl : some d = D := hlast.symm.trans (hall as hpath)
    exact hgh.live_of_read hh hs hS' hmem hlink ht' (hpreorder' ▸ hd)
  | @merged m dm points hm hjoins hnone =>
    -- the merge is left, and with it what it reads
    obtain ⟨i, k, j, inputs, hM, -⟩ := Merges.holds hjoins.merges ht.sound.forest
    have hlive : h.Live m := hgh.live_of_read hh hs hS' hmem hlink hM (by simp [Expr.children])
    have hpoint : Point.definition d ∈ points := by
      refine (hjoins.mem_iff _).2 ⟨as, hpath, ?_⟩
      rw [lastSite?_eq, hnone, Option.none_or] at hlast
      exact hlast.symm
    obtain ⟨x, hx, hread⟩ := (Merges.reads_iff hjoins.merges ht.sound.forest hM).1 _ hpoint
    exact hgh.live_of_read hh hlive hM hx hread ht' (hpreorder' ▸ hd)

end Registers

end Tagging

end FrameRecovery
