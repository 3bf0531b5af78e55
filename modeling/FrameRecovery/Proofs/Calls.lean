import FrameRecovery.Proofs.Precedence
import Mathlib.Data.List.Flatten

namespace FrameRecovery

open Flow

/-- Versions do not matter to what has its address taken. -/
theorem LocationKind.noneAddressed_strip {p : Expr.Test} {kind : LocationKind}
    (hp : ∀ e : Expr Unit, p (kind.untag e) = p e) (t : Term) :
    (kind.strip t).NoneAddressed p ↔ t.NoneAddressed p := by
  induction t using Term.induction with
  | step i e ih =>
    have haddress : (∀ c, kind.untag (e.map kind.strip) = .addressOf c → c.count p = 0) ↔
        ∀ c, e = .addressOf c → c.count p = 0 := by
      cases e with
      | addressOf a => simp [Expr.map, untag, count_strip hp]
      | _ => cases kind <;> simp [Expr.map, untag]
    rw [strip_node, Term.noneAddressed_node, Term.noneAddressed_node, haddress, children_untag,
      Expr.children_map, List.forall_mem_map]
    exact and_congr_left' (forall₂_congr ih)

namespace Flow

variable {f g h : Flow} {V : Locations} {kind : LocationKind} {s : StatementId} {st : Statement} {t t' : Term}
  {R : Term → Term → Prop}

/-- One entry for each call in a statement: the address of its instruction. -/
def callsOf (f : Flow) (s : StatementId) : List Address :=
  match f.statement s, f.statementTerm s with
  | .ok st, .ok t => List.replicate (t.count Expr.isCall) st.address
  | _, _ => []

/-- Whether there is a merge in a statement. -/
def hasMerge (f : Flow) (s : StatementId) : Bool :=
  (f.statementTerm s).toOption.any fun t => t.count Expr.isTheta != 0

/-- The calls in all statements that are not removed, in their order. -/
def calls (f : Flow) : List Address :=
  f.liveStatements.flatMap f.callsOf

/-- The calls in all statements that are not removed and have no merge, in their order. -/
def callsApart (f : Flow) : List Address :=
  (f.liveStatements.filter fun s => !f.hasMerge s).flatMap f.callsOf

/-- No statement without a merge takes the address of anything with a call in it. -/
def NoCallAddressed (f : Flow) : Prop :=
  ∀ s t, f.Live s → f.Holds s t → t.count Expr.isTheta = 0 → t.NoneAddressed Expr.isCall

/-- Where no address is taken, none of a call is. -/
theorem NoCallAddressed.of_nodes (h : f.nodes.all fun n => n.expr.head != .addressOf ()) : f.NoCallAddressed := by
  intro s t _ ht _ i c hc
  obtain ⟨q, hq⟩ := ht.stands.exists_of_within hc
  obtain ⟨n, hn, hshape⟩ := Option.map_eq_some_iff.1 hq.shape_id
  have hmem := Array.all_eq_true_iff_forall_mem.1 h n (Array.mem_of_getElem? hn)
  rw [(Prod.mk.inj hshape).1] at hmem
  simp [Expr.head, Expr.map] at hmem

theorem Holds.callsOf_eq (h : f.Holds s t) (hst : f.statementAt s = some st) :
    f.callsOf s = List.replicate (t.count Expr.isCall) st.address := by
  unfold callsOf
  rw [statement_eq hst, h.statementTerm_eq]

theorem Holds.hasMerge_eq (h : f.Holds s t) : f.hasMerge s = (t.count Expr.isTheta != 0) := by
  unfold hasMerge
  rw [h.statementTerm_eq]
  rfl

/-- No call is lost and none changes its place, and no statement without a merge gets a call. -/
structure KeepsCalls (f g : Flow) : Prop where
  calls : f.calls.Sublist g.calls
  apart : g.callsApart = f.callsApart

namespace KeepsCalls

theorem refl (f : Flow) : f.KeepsCalls f :=
  ⟨List.Sublist.refl _, rfl⟩

theorem trans (hfg : f.KeepsCalls g) (hgh : g.KeepsCalls h) : f.KeepsCalls h :=
  ⟨hfg.calls.trans hgh.calls, hgh.apart.trans hfg.apart⟩

end KeepsCalls

namespace Evolves

variable (hfg : f.Evolves R g) (hf : f.Forest) (hlive : g.liveStatements = f.liveStatements)
include hfg hf hlive

theorem calls_sublist (hR : ∀ t t', R t t' → t.count Expr.isCall ≤ t'.count Expr.isCall) :
    f.calls.Sublist g.calls := by
  unfold calls
  rw [hlive]
  refine List.Sublist.flatMap_right _ fun s hs => ?_
  obtain ⟨t, ht⟩ := hf.holds_of_mem hs
  obtain ⟨st, hst, -⟩ := id ht
  obtain ⟨st', hst', haddress⟩ := hfg.address s st hst
  obtain ⟨t', ht', hR'⟩ := hfg.tree s t ht
  rw [ht.callsOf_eq hst, ht'.callsOf_eq hst', haddress, List.replicate_sublist_replicate]
  exact hR t t' hR'

theorem callsApart_eq (hR : ∀ t t', R t t' → t'.count Expr.isCall = t.count Expr.isCall ∧
    t'.count Expr.isTheta = t.count Expr.isTheta) : g.callsApart = f.callsApart := by
  have hsame : ∀ s ∈ f.liveStatements, g.callsOf s = f.callsOf s ∧ g.hasMerge s = f.hasMerge s := by
    intro s hs
    obtain ⟨t, ht⟩ := hf.holds_of_mem hs
    obtain ⟨st, hst, -⟩ := id ht
    obtain ⟨st', hst', haddress⟩ := hfg.address s st hst
    obtain ⟨t', ht', hR'⟩ := hfg.tree s t ht
    obtain ⟨hcalls, htheta⟩ := hR t t' hR'
    rw [ht.callsOf_eq hst, ht'.callsOf_eq hst', ht.hasMerge_eq, ht'.hasMerge_eq, haddress, hcalls, htheta]
    exact ⟨rfl, rfl⟩
  unfold callsApart
  rw [hlive, List.filter_congr fun s hs => by rw [(hsame s hs).2]]
  exact List.flatMap_congr fun s hs => (hsame s (List.mem_of_mem_filter hs)).1

theorem keepsCalls (hR : ∀ t t', R t t' → t'.count Expr.isCall = t.count Expr.isCall ∧
    t'.count Expr.isTheta = t.count Expr.isTheta) : f.KeepsCalls g :=
  ⟨hfg.calls_sublist hf hlive fun t t' h => (hR t t' h).1.ge, hfg.callsApart_eq hf hlive hR⟩

end Evolves

end Flow

namespace Tagging

variable {f g : Flow} {V : Locations} {kind : LocationKind} {a : Address} {s : StatementId} {t t' : Term}
  {heads : List StatementId}

section Tagged

variable (ht : Tagged V f kind g) (hf : f.Forest) (hconnected : f.Connected)
include ht hf

private theorem Tagged.callsOf_eq (hs : s ∈ f.statementsAt a) :
    g.callsOf s = f.callsOf s ∧ g.hasMerge s = f.hasMerge s := by
  obtain ⟨t, hholds⟩ := hf.exists_holds hs
  obtain ⟨st, hst, -⟩ := id hholds
  obtain ⟨t', hholds', -⟩ := ht.later.exists_holds hholds
  have hstrip := ht.later.strip_eq hholds hholds'
  have hcalls := congrArg (Term.count Expr.isCall) hstrip
  have hthetas := congrArg (Term.count Expr.isTheta) hstrip
  rw [LocationKind.count_isCall_strip, LocationKind.count_isCall_strip] at hcalls
  rw [LocationKind.count_isTheta_strip, LocationKind.count_isTheta_strip] at hthetas
  rw [hholds.callsOf_eq hst, hholds'.callsOf_eq (ht.later.statement s st hst), hholds.hasMerge_eq,
    hholds'.hasMerge_eq, hcalls, hthetas]
  exact ⟨rfl, rfl⟩

omit hf in
private theorem Tagged.hasMerge_of_head (hexact : Exact f g kind a heads) (hs : s ∈ heads) :
    g.hasMerge s = true := by
  obtain ⟨t, hholds⟩ := ht.sound.forest.exists_holds (a := a) (s := s) (by simp [hexact.statements_eq, hs])
  have hmerge := (hexact.head s hs).isMerge hholds
  rw [hholds.isMerge_eq] at hmerge
  rw [hholds.hasMerge_eq]
  exact bne_iff_ne.2 (Term.count_isTheta_of_isMerge hmerge)

include hconnected

private theorem Tagged.exact_of_mem_keys (ha : a ∈ f.blocks.keys) : ∃ heads, Exact f g kind a heads := by
  refine ht.exact hf hconnected ?_
  obtain ⟨b, hb⟩ := SortedMap.mem_keys.1 ha
  simp [block?, hb]

/-- Tagging puts calls nowhere but in merges. -/
theorem Tagged.keepsCalls : f.KeepsCalls g := by
  refine ⟨?_, ?_⟩
  · unfold calls
    rw [← flatMap_statementsAt, ← flatMap_statementsAt, ht.later.graph.keys_eq, List.flatMap_assoc,
      List.flatMap_assoc]
    refine List.Sublist.flatMap_right _ fun a ha => ?_
    obtain ⟨heads, hexact⟩ := ht.exact_of_mem_keys hf hconnected ha
    rw [hexact.statements_eq, List.flatMap_append, List.flatMap_congr fun s hs => (ht.callsOf_eq hf hs).1]
    exact List.sublist_append_right _ _
  · unfold callsApart
    rw [← flatMap_statementsAt, ← flatMap_statementsAt, ht.later.graph.keys_eq, List.filter_flatMap,
      List.filter_flatMap, List.flatMap_assoc, List.flatMap_assoc]
    refine List.flatMap_congr fun a ha => ?_
    obtain ⟨heads, hexact⟩ := ht.exact_of_mem_keys hf hconnected ha
    have hheads : heads.filter (fun s => !g.hasMerge s) = [] := by
      refine List.filter_eq_nil_iff.2 fun s hs => ?_
      simp [ht.hasMerge_of_head hexact hs]
    rw [hexact.statements_eq, List.filter_append, hheads, List.nil_append,
      List.filter_congr fun s hs => by rw [(ht.callsOf_eq hf hs).2]]
    exact List.flatMap_congr fun s hs => (ht.callsOf_eq hf (List.mem_of_mem_filter hs)).1

theorem Tagged.noCallAddressed (hcalls : f.NoCallAddressed) : g.NoCallAddressed := by
  intro s t hs hholds hcount
  obtain ⟨a, heads, hexact, hhead | hbefore⟩ := ht.exists_place hf hconnected hs
  · have hmerge := ht.hasMerge_of_head hexact hhead
    rw [hholds.hasMerge_eq, hcount] at hmerge
    cases hmerge
  · obtain ⟨t₀, hholds₀⟩ := hf.exists_holds hbefore
    have hstrip := ht.later.strip_eq hholds₀ hholds
    have hcount₀ : t₀.count Expr.isTheta = 0 := by
      rw [← LocationKind.count_isTheta_strip kind, ← hstrip, LocationKind.count_isTheta_strip, hcount]
    have hp : ∀ e : Expr Unit, (kind.untag e).isCall = e.isCall := fun e => by cases kind <;> cases e <;> rfl
    have h := hcalls s t₀ (hf.live hbefore) hholds₀ hcount₀
    rw [← LocationKind.noneAddressed_strip hp, ← hstrip] at h
    exact (LocationKind.noneAddressed_strip hp t).1 h

end Tagged

end Tagging

namespace Flow.Move

variable {f g : Flow} {V : Locations} {s around : StatementId} {r u : NodeId} {a v T T' : Term}
  (h : Move V f g s around r u a v T T')
include h

theorem count_isCall_le : T.count Expr.isCall ≤ T'.count Expr.isCall := by
  obtain ⟨b, T₁, -, hchange, hrewrites⟩ := h.inlined.change
  obtain ⟨w, w', ⟨⟨n, k, rfl⟩, -⟩, -, heq⟩ := hchange.exists_count (p := Expr.isCall)
  rw [Term.Rewrites.count_eq Expr.isApart_isCall hrewrites]
  simp only [Term.count_node, Expr.children, Expr.head, Expr.map, Expr.isCall, List.map_nil, List.sum_nil,
    Bool.toNat_false, Nat.add_zero] at heq
  omega

/-- What is moved has no call in it, unless its address is taken. -/
theorem count_isCall_eq (hcalls : f.NoCallAddressed) :
    T'.count Expr.isCall = T.count Expr.isCall ∧ T'.NoneAddressed Expr.isCall := by
  obtain ⟨b, T₁, hform, hchange, hrewrites⟩ := h.inlined.change
  have hv : Term.Within v (.node r (.assign a v)) := .of_mem_children (by simp [Expr.children])
  have hnone := (hcalls s _ h.live h.source h.source_apart).within hv
  have hb : b.count Expr.isCall = 0 := by
    rw [← Term.count_form, hform, Term.count_form]
    exact Term.count_isCall_of_isReplaceable h.replaceable hnone
  have hbnone : b.NoneAddressed Expr.isCall := by
    intro i c hc
    have hmem : c ∈ (Expr.addressOf c).children := by simp [Expr.children]
    have hle := (Term.Within.of_mem_children (i := i) hmem).count_le (p := Expr.isCall)
    have hle' := hc.count_le (p := Expr.isCall)
    omega
  obtain ⟨hcount, hT₁⟩ := (hcalls around T h.live_around h.holds h.apart).somewhere hchange <| by
    rintro _ w' ⟨⟨n, k, rfl⟩, rfl⟩ -
    refine ⟨?_, hbnone⟩
    simp [hb, Expr.children, Expr.head, Expr.map, Expr.isCall]
  rw [Term.Rewrites.count_eq Expr.isApart_isCall hrewrites]
  exact ⟨hcount, hT₁.rewrites hrewrites Expr.isApart_isCall⟩

theorem calls_sublist : f.calls.Sublist g.calls := by
  refine h.evolves.calls_sublist h.sound.forest h.liveStatements_eq ?_
  rintro t _ (rfl | ⟨rfl, rfl⟩)
  · exact Nat.le_refl _
  · exact h.count_isCall_le

theorem keepsCalls (hcalls : f.NoCallAddressed) : f.KeepsCalls g := by
  refine h.evolves.keepsCalls h.sound.forest h.liveStatements_eq ?_
  rintro t _ (rfl | ⟨rfl, rfl⟩)
  · exact ⟨rfl, rfl⟩
  · exact ⟨(h.count_isCall_eq hcalls).1, h.apart'.trans h.apart.symm⟩

theorem noCallAddressed (hcalls : f.NoCallAddressed) : g.NoCallAddressed := by
  intro c t hc ht hcount
  have hlive := h.live_iff.1 hc
  obtain ⟨t₀, ht₀⟩ := h.sound.forest.holds_of_mem (h.sound.forest.mem_liveStatements.2 hlive)
  obtain ⟨t₁, ht₁, heq⟩ := h.evolves.tree c t₀ ht₀
  obtain rfl := ht.unique ht₁
  obtain rfl | ⟨rfl, rfl⟩ := heq
  · exact hcalls c t hlive ht₀ hcount
  · exact (h.count_isCall_eq hcalls).2

end Flow.Move

namespace Flow

variable {f g : Flow} {V : Locations} {m : Machine}

/-- Propagating the stack pointer loses no call. -/
theorem Ordered.calls_sublist (hf : f.Ordered)
    (h : Relation.ReflTransGen (Propagation.Step (.stackPointer m) V) f g) : f.calls.Sublist g.calls := by
  induction h with
  | refl => exact List.Sublist.refl _
  | tail hsteps hstep ih =>
    obtain ⟨s, around, r, u, a, v, T, T', -, hmove⟩ := (hf.steps hsteps).exists_move hstep
    exact ih.trans hmove.calls_sublist

/-- Propagating the stack pointer moves no call, as long as no address of one is taken. -/
theorem Ordered.keepsCalls (hf : f.Ordered) (hcalls : f.NoCallAddressed)
    (h : Relation.ReflTransGen (Propagation.Step (.stackPointer m) V) f g) :
    f.KeepsCalls g ∧ g.NoCallAddressed := by
  induction h with
  | refl => exact ⟨.refl f, hcalls⟩
  | tail hsteps hstep ih =>
    obtain ⟨s, around, r, u, a, v, T, T', -, hmove⟩ := (hf.steps hsteps).exists_move hstep
    exact ⟨ih.1.trans (hmove.keepsCalls ih.2), hmove.noCallAddressed ih.2⟩

end Flow

namespace Pruning

variable {f g : Flow} {V : Locations}

private theorem flatMap_filter_eq {α β : Type} {p : α → Bool} {k : α → List β} {xs : List α}
    (h : ∀ x ∈ xs, p x = false → k x = []) : (xs.filter p).flatMap k = xs.flatMap k := by
  induction xs with
  | nil => rfl
  | cons x rest ih =>
    have hrest := ih fun y hy => h y (List.mem_cons_of_mem _ hy)
    cases hx : p x with
    | true => rw [List.filter_cons_of_pos hx, List.flatMap_cons, List.flatMap_cons, hrest]
    | false => rw [List.filter_cons_of_neg (by simp [hx]), List.flatMap_cons, h x (by simp) hx, hrest,
        List.nil_append]

/-- The statement that is pruned goes from the list of statements. -/
theorem liveStatements_of_removes {s : StatementId} {st : Statement} (hf : f.Forest) (h : f.Removes g s st)
    (hst : f.statementAt s = some st) : g.liveStatements = f.liveStatements.filter (· != s) := by
  rw [← flatMap_statementsAt, ← flatMap_statementsAt, h.graph.keys_eq, List.filter_flatMap]
  exact List.flatMap_congr fun a _ => h.statementsAt_eq hf hst a

/-- Nothing with a call is pruned. -/
theorem Prunes.keepsCalls (h : Prunes V f g) : f.KeepsCalls g := by
  obtain @⟨s, st, t, hsound, hst, hholds, hprunable, hremoves, -⟩ := h
  have hlive := liveStatements_of_removes hsound.forest hremoves hst
  have hnone : f.callsOf s = [] := by
    obtain ⟨r, i, n, k, v, rfl, hcall, -⟩ := exists_of_isPrunable hholds hprunable
    rw [hholds.callsOf_eq hst]
    simp [Expr.children, Term.containsCall_eq_false_iff.1 hcall, Expr.head, Expr.map, Expr.isCall]
  have hsame : ∀ c ∈ f.liveStatements, c ≠ s → g.callsOf c = f.callsOf c ∧ g.hasMerge c = f.hasMerge c := by
    intro c hc hcs
    obtain ⟨u, hu⟩ := hsound.forest.holds_of_mem hc
    obtain ⟨st', hst', -⟩ := id hu
    have hu' := hremoves.holds hst hu
    have hstg : g.statementAt c = some st' := by rw [hremoves.statementAt_eq, Function.update_of_ne hcs, hst']
    rw [hu.callsOf_eq hst', hu'.callsOf_eq hstg, hu.hasMerge_eq, hu'.hasMerge_eq]
    exact ⟨rfl, rfl⟩
  have hlost : ∀ c, (c != s) = false → f.callsOf c = [] := by
    intro c hc
    obtain rfl : c = s := by simpa using hc
    exact hnone
  have hcalls : ∀ ss : List StatementId, (∀ c ∈ ss, c ∈ f.liveStatements) →
      (ss.filter (· != s)).flatMap g.callsOf = ss.flatMap f.callsOf := by
    intro ss hss
    rw [← flatMap_filter_eq fun c (_ : c ∈ ss) => hlost c]
    refine List.flatMap_congr fun c hc => ?_
    obtain ⟨hc, hcs⟩ := List.mem_filter.1 hc
    exact (hsame c (hss c hc) (bne_iff_ne.1 hcs)).1
  refine ⟨?_, ?_⟩
  · unfold calls
    rw [hlive, hcalls _ fun _ hc => hc]
  · have hmerges : (f.liveStatements.filter (· != s)).filter (fun c => !g.hasMerge c) =
        (f.liveStatements.filter fun c => !f.hasMerge c).filter (· != s) := by
      rw [List.filter_filter, List.filter_filter]
      refine List.filter_congr fun c hc => ?_
      by_cases hcs : c = s
      · simp [hcs]
      · rw [(hsame c hc hcs).2, Bool.and_comm]
    unfold callsApart
    rw [hlive, hmerges, hcalls _ fun _ hc => List.mem_of_mem_filter hc]

/-- Pruning loses no call. -/
theorem Pruned.keepsCalls (h : Pruned V f g) : f.KeepsCalls g := by
  have hsteps := h.steps
  clear h
  induction hsteps with
  | refl => exact .refl f
  | tail _ hstep ih => exact ih.trans hstep.keepsCalls

end Pruning

namespace StackRenaming

variable {f g : Flow} {m : Machine} {negate : Bool} {frame : Frame} {t t' : Term} {p : Expr.Test}

private theorem Renames.count_eq (h : Renames m negate t t') : t.count Expr.isCall = 0 ∧
    t.count Expr.isTheta = 0 ∧ t'.count Expr.isCall = 0 ∧ t'.count Expr.isTheta = 0 := by
  obtain ⟨⟨v, w, hlocates⟩, e, rfl, hnew⟩ := h
  have hplace : ∀ {x : Term}, m.Locates negate x v w → x.count Expr.isCall = 0 ∧ x.count Expr.isTheta = 0 := by
    intro x hx
    cases hx <;> simp [Expr.children, Expr.head, Expr.map, Expr.isCall, Expr.isTheta]
  have hold : t.count Expr.isCall = 0 ∧ t.count Expr.isTheta = 0 := by
    obtain ⟨i, e⟩ := t
    cases e with
    | deref x k =>
      have hx : x.count Expr.isCall = 0 ∧ x.count Expr.isTheta = 0 := hplace hlocates
      simpa [Expr.children, Expr.head, Expr.map, Expr.isCall, Expr.isTheta] using hx
    | _ => exact hplace hlocates
  refine ⟨hold.1, hold.2, ?_⟩
  obtain ⟨n, k, o, rfl⟩ | ⟨x, n, o, rfl⟩ := hnew
  · simp [Expr.children, Expr.head, Expr.map, Expr.isCall, Expr.isTheta]
  · simp [Expr.children, Expr.head, Expr.map, Expr.isCall, Expr.isTheta]

/-- Renaming replaces no call. -/
theorem Renamed.keepsCalls (h : Renamed m negate f g frame) (hf : f.Forest) : f.KeepsCalls g := by
  refine h.evolves.keepsCalls hf ?_ fun t t' hrenames => ?_
  · unfold liveStatements
    rw [h.blocks_eq]
  induction hrenames with
  | refl => exact ⟨rfl, rfl⟩
  | tail _ hstep ih =>
    obtain ⟨u, u', hu, -, hcalls⟩ := hstep.exists_count (p := Expr.isCall)
    obtain ⟨w, w', hw, -, hthetas⟩ := hstep.exists_count (p := Expr.isTheta)
    have hu := hu.count_eq
    have hw := hw.count_eq
    omega

end StackRenaming

namespace Recovery.Course

variable {t : Task} {entry : Address} {S : Phase → Session} (h : Course t entry S)
include h

theorem noMerge_irForm {s : StatementId} {u : Term} (hu : (S .irForm).flow.Holds s u) :
    u.count Expr.isTheta = 0 :=
  (h.plain.action s u hu).count_isTheta_eq_zero

theorem callsApart_irForm : (S .irForm).flow.callsApart = (S .irForm).flow.calls := by
  unfold callsApart
  rw [List.filter_eq_self.2 fun s hs => ?_]
  · rfl
  · obtain ⟨u, hu⟩ := h.plain.forest.holds_of_mem hs
    simp [hu.hasMerge_eq, h.noMerge_irForm hu]

/-- After the stack pointer is propagated, calls stay where they are. -/
theorem keepsCalls_stackPropagated {p : Phase} (hp : Phase.stackPropagated.rank ≤ p.rank) :
    (S .stackPropagated).flow.KeepsCalls (S p).flow := by
  have hderefs := h.derefs.keepsCalls h.propagated.sound.forest h.connected_stackPropagated
  have hpruned := hderefs.trans h.pruned.keepsCalls
  have hrenamed := hpruned.trans (h.renamed.keepsCalls h.pruned.sound.forest)
  cases p with
  | stackPropagated => exact .refl _
  | ssaDerefs => exact hderefs
  | pruned => exact hpruned
  | stackRenamed => exact hrenamed
  | _ => simp [Phase.rank] at hp

theorem calls_sublist {p : Phase} (hp : Phase.irForm.rank ≤ p.rank) :
    (S .irForm).flow.calls.Sublist (S p).flow.calls := by
  have hregisters := (h.registers.keepsCalls h.plain.forest h.connected).calls
  have hpropagated := hregisters.trans
    ((Ordered.of_tagged h.registers h.plain h.connected).calls_sublist h.propagated.steps)
  cases p with
  | irForm => exact List.Sublist.refl _
  | ssaRegisters => exact hregisters
  | stackPropagated | ssaDerefs | pruned | stackRenamed =>
    exact hpropagated.trans (h.keepsCalls_stackPropagated (by decide)).calls
  | _ => simp [Phase.rank] at hp

theorem callsApart_eq {p : Phase} (hp : Phase.irForm.rank ≤ p.rank)
    (hcalls : (S .irForm).flow.NoCallAddressed) : (S p).flow.callsApart = (S .irForm).flow.calls := by
  rw [← h.callsApart_irForm]
  have hregisters := (h.registers.keepsCalls h.plain.forest h.connected).apart
  have hpropagated := ((Ordered.of_tagged h.registers h.plain h.connected).keepsCalls
    (h.registers.noCallAddressed h.plain.forest h.connected hcalls) h.propagated.steps).1.apart
  cases p with
  | irForm => rfl
  | ssaRegisters => exact hregisters
  | stackPropagated | ssaDerefs | pruned | stackRenamed =>
    exact ((h.keepsCalls_stackPropagated (by decide)).apart.trans hpropagated).trans hregisters
  | _ => simp [Phase.rank] at hp

end Recovery.Course

end FrameRecovery
