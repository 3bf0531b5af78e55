import FrameRecovery.Proofs.AddressTexts
import FrameRecovery.Proofs.Movable
import FrameRecovery.Proofs.Versioned

namespace FrameRecovery

open Flow

namespace LocationKind

/-- The versions of dereferences do not matter to what comes of a tree. -/
theorem outcome_strip_derefs (t : Term) (C : Context) : (derefs.strip t).outcome C = t.outcome C := by
  induction t using Term.induction with
  | step i e ih =>
    have heval : ∀ E : Expr Outcome, C.eval i (derefs.untag E) = C.eval i E := fun E => by
      cases E <;> rfl
    rw [strip_node, Term.outcome_node, Term.outcome_node, ← untag_map, heval, Expr.map_map]
    exact congrArg _ (Expr.map_congr ih)

theorem count_isForeign_strip_derefs (t : Term) :
    (derefs.strip t).count Expr.isForeign = t.count Expr.isForeign :=
  count_strip (fun e => by cases e <;> rfl) t

theorem cells_strip_derefs (t : Term) : (derefs.strip t).cells = t.cells := by
  induction t using Term.induction with
  | step i e ih =>
    have hcell : (derefs.untag (e.map derefs.strip)).cell? = e.cell? := by
      cases e <;> rfl
    rw [strip_node, Term.cells_node, Term.cells_node, hcell, children_untag, Expr.children_map, List.flatMap_map]
    exact congrArg _ (List.flatMap_congr ih)

end LocationKind

namespace Term

variable {X Y : Term} {C C' : Context}

/-- A value that is safe to move is the same wherever its registers are, and however its nodes are numbered and
    the memory in it is tagged. -/
theorem Movable.value_eq (hX : X.Movable)
    (halike : (LocationKind.derefs.strip Y).form = (LocationKind.derefs.strip X).form) (hC : C.Agrees C' X) :
    (Y.outcome C').value = (X.outcome C).value := by
  have hcount : ∀ {p : Expr.Test}, (∀ e : Expr Unit, p (LocationKind.derefs.untag e) = p e) →
      Y.count p = X.count p := by
    intro p hp
    rw [← LocationKind.count_strip hp Y, ← count_form, halike, count_form, LocationKind.count_strip hp]
  have hcall := hcount (p := Expr.isCall) fun e => by cases e <;> rfl
  have htheta := hcount (p := Expr.isTheta) fun e => by cases e <;> rfl
  obtain ⟨hcallX, hthetaX⟩ := hX.count_eq_zero
  have hform : ∀ Z : Term, Z.count Expr.isCall = 0 → Z.count Expr.isTheta = 0 →
      (LocationKind.derefs.strip Z).form.outcome C' = Z.outcome C' := by
    intro Z hcall htheta
    rw [outcome_form (by rwa [LocationKind.count_isCall_strip]) (by rwa [LocationKind.count_isTheta_strip]),
      LocationKind.outcome_strip_derefs]
  rw [← hform Y (hcall.trans hcallX) (htheta.trans hthetaX), halike, hform X hcallX hthetaX, hX.outcome_eq hC]

/-- The same, where only the registers are known to be the same. -/
theorem Movable.value_eq_of_cells (hX : X.Movable)
    (halike : (LocationKind.derefs.strip Y).form = (LocationKind.derefs.strip X).form)
    (hforeign : Y.count Expr.isForeign = 0) (haddress : C'.address = C.address)
    (hcells : ∀ x ∈ Y.cells, C'.store.register x.1 x.2 = C.store.register x.1 x.2) :
    (Y.outcome C').value = (X.outcome C).value := by
  have hcellsX : X.cells = Y.cells := by
    rw [← LocationKind.cells_strip_derefs X, ← cells_form, ← halike, cells_form, LocationKind.cells_strip_derefs]
  have hforeignX : X.count Expr.isForeign = 0 := by
    rw [← LocationKind.count_isForeign_strip_derefs, ← count_form, ← halike, count_form,
      LocationKind.count_isForeign_strip_derefs, hforeign]
  refine hX.value_eq halike ⟨haddress, fun i n v hu => ?_, fun i n v o hu => ?_⟩
  · exact hcells (n, v) (hcellsX ▸ mem_cells_of_within hu)
  · cases count_eq_zero_iff.1 hforeignX _ hu

end Term

namespace Tagging

variable {f g : Flow} {V : Locations} {a : Address} {s c : StatementId} {t t₀ X X₀ : Term} {x d : NodeId} {n : String}
  {k k₀ : Option Nat}

/-- A flow as it is when its dereferences are going to be tagged. -/
structure Prepared (f : Flow) : Prop where
  sound : f.Sound .listed
  connected : f.Connected
  ordered : f.Ordered
  versioned : f.Versioned
  legible : f.LegibleApart

/-- A statement with a dereference in it is no merge. -/
theorem Prepared.count_isTheta (hf : Prepared f) (hs : f.Live s) (hT : f.Holds s t)
    (hx : Term.Within (.node x (.deref X k)) t) : t.count Expr.isTheta = 0 :=
  (hf.ordered.merges s t hs hT).resolve_right fun hm => hm.no_deref _ hx X k rfl

/-- Dereferences of the same text have the same address, apart from the numbers of its nodes. -/
theorem Prepared.form_eq (hf : Prepared f) {w : StatementId} {B t' : Term} {k' : Option Nat} (hs : f.Live s)
    (hT : f.Holds s t) (hx : Term.Within (.node x (.deref X k)) t) (hw : f.Live w) (hT' : f.Holds w t')
    (hd : Term.Within (.node d (.deref B k')) t') (htext : B.text = X.text) : B.form = X.form :=
  hf.legible.form_eq hw hs hT' hT (hf.count_isTheta hw hT' hd) (hf.count_isTheta hs hT hx)
    ((Term.Within.of_mem_children (by simp [Expr.children])).trans hd)
    ((Term.Within.of_mem_children (by simp [Expr.children])).trans hx)
    (hd.ne_of_mem_children (by simp [Expr.children])) (hx.ne_of_mem_children (by simp [Expr.children])) htext

/-- In the address of a dereference nothing is but registers, memory and constants. -/
theorem Prepared.count_isForeign (hf : Prepared f) (hs : f.Live s) (hT : f.Holds s t)
    (hx : Term.Within (.node x (.deref X k)) t) : X.count Expr.isForeign = 0 :=
  (hf.legible.legible hs hT (hf.count_isTheta hs hT hx)
    ((Term.Within.of_mem_children (by simp [Expr.children])).trans hx)
    (hx.ne_of_mem_children (by simp [Expr.children]))).count_isForeign

/-- What defines a location is a store. -/
theorem Prepared.exists_store (hf : Prepared f) {D : Definition} (hs : f.Live s)
    (hD : Summary.definitionOf f LocationKind.derefs.locate s = some D) :
    ∃ r B b, f.Holds s (.node r (.assign (.node D.site (.deref B none)) b)) ∧ B.text = D.location := by
  obtain ⟨T, hT⟩ := hf.sound.forest.holds_of_live hs
  obtain ⟨r, ⟨i, e⟩, y, rfl, hlocate, hsite, -⟩ := (Summary.mem_definitionOf hT).1 hD
  obtain ⟨B, rfl, htext⟩ : ∃ B, e = .deref B none ∧ B.text = D.location := by
    unfold LocationKind.locate at hlocate
    split at hlocate <;> simp_all
  exact ⟨r, B, y, hsite ▸ hT, htext⟩

section Derefs

variable (ht : Tagged V f .derefs g) (hf : Prepared f)
include ht hf

omit hf in
/-- An address is what it was before, apart from the versions of the dereferences in it. -/
theorem Tagged.strip_address_eq (hT : g.Holds s t) (hT₀ : f.Holds s t₀) (hx : Term.Within (.node x (.deref X k)) t)
    (hx₀ : Term.Within (.node x (.deref X₀ k₀)) t₀) : LocationKind.derefs.strip X = LocationKind.derefs.strip X₀ := by
  obtain ⟨q, hq⟩ := hT.stands.exists_of_within hx
  obtain ⟨q₀, hq₀⟩ := hT₀.stands.exists_of_within hx₀
  simpa [Expr.map, LocationKind.untag] using ht.later.marks.strip_eq hq₀ hq rfl

omit hf in
/-- Where there is a dereference, there was one before. -/
theorem Tagged.exists_address (hT : g.Holds s t) (hT₀ : f.Holds s t₀) (hx : Term.Within (.node x (.deref X k)) t) :
    ∃ X₀ k₀, Term.Within (.node x (.deref X₀ k₀)) t₀ := by
  obtain ⟨t', hT', -, hpreorder⟩ := ht.later.exists_holds hT₀
  obtain rfl := hT.unique hT'
  obtain ⟨⟨z, e₀⟩, hu₀, hid⟩ := Term.exists_within_of_mem_preorder
    (hpreorder ▸ hx.preorder_subset (Term.id_mem_preorder _) : x ∈ t₀.preorder)
  obtain rfl : z = x := hid
  obtain ⟨q, hq⟩ := hT.stands.exists_of_within hx
  obtain ⟨q₀, hq₀⟩ := hT₀.stands.exists_of_within hu₀
  have huntag := ht.later.marks.untag_eq (exprAt_eq_some hq₀.shape_id) (exprAt_eq_some hq.shape_id)
  obtain ⟨X₀, k₀, rfl⟩ : ∃ X₀ k₀, e₀ = .deref X₀ k₀ := by
    cases e₀ <;> simp_all [LocationKind.untag, Expr.map]
  exact ⟨X₀, k₀, hu₀⟩

/-- Tagging dereferences sets no registers. -/
theorem Tagged.sets_of_sets (hc : g.Live c) (hset : g.Sets c n k d) : f.Live c ∧ f.Sets c n k d := by
  obtain ⟨t, hT⟩ := ht.sound.forest.holds_of_live hc
  obtain ⟨i, y, rfl⟩ := hT.sets_iff.1 hset
  obtain ⟨a, heads, hexact, hhead | hbefore⟩ := ht.exists_place hf.sound.forest hf.connected hc
  · -- what a merge assigns to is a dereference
    obtain ⟨-, l, d', points, hjoins⟩ := hexact.head c hhead
    obtain ⟨st', y', inputs, v, hst', hroot, -, ⟨-, ⟨e, he, x, rfl⟩, -⟩, -⟩ := hjoins.merges
    obtain rfl := hT.assigns.eq ⟨⟨st', hst', rfl⟩, y', hroot⟩
    obtain ⟨-, -, hbelow⟩ := hT.stands
    have hd := exprAt_eq_some (hbelow (.node d (.register n k)) (by simp [Expr.children])).shape_id
    rw [he] at hd
    cases hd
  · obtain ⟨t₀, hT₀⟩ := hf.sound.forest.exists_holds hbefore
    refine ⟨hf.sound.forest.live hbefore, hT₀.sets_iff.2 ?_⟩
    have hstrip := ht.later.strip_eq hT₀ hT
    obtain ⟨i₀, e₀⟩ := t₀
    obtain ⟨X, Y, rfl⟩ : ∃ X Y, e₀ = .assign X Y := by
      cases e₀ <;> simp_all [LocationKind.untag, Expr.map]
    obtain ⟨j, e⟩ := X
    obtain ⟨rfl, rfl⟩ : j = d ∧ e = .register n k := by
      cases e <;> simp_all [LocationKind.untag, Expr.map]
    exact ⟨i₀, Y, rfl⟩

/-- A dereference that is linked to a definition was found as a read. -/
theorem Tagged.mem_readsAt_of_link (hs : s ∈ f.statementsAt a) (hT₀ : f.Holds s t₀)
    (hx : Term.Within (.node x (.deref X₀ k₀)) t₀) (hlink : g.linkOf x = .use (some d)) :
    ⟨x, X₀.text⟩ ∈ BlockPlan.readsAt f .derefs s := by
  have hlive := hf.sound.forest.live hs
  have hmem : x ∈ t₀.preorder := hx.preorder_subset (Term.id_mem_preorder _)
  obtain ⟨q, hq⟩ := hT₀.stands.exists_of_within hx
  obtain ⟨t, hT, -, hpreorder⟩ := ht.later.exists_holds hT₀
  cases ht.sources x d hlink with
  | kept h =>
    -- before, no dereference had a version
    have hexpr := exprAt_eq_some hq.shape_id
    have hversion : k₀ = none := hf.sound.typed.location _ _ hexpr
    subst hversion
    exact absurd h ((hf.sound.untagged _ _ hexpr rfl).ne_use d)
  | input h =>
    have hcount := hf.count_isTheta hlive hT₀ hx
    rw [← LocationKind.count_isTheta_strip .derefs, ← ht.later.strip_eq hT₀ hT,
      LocationKind.count_isTheta_strip] at hcount
    exact absurd h (hT.not_isInput hcount (hpreorder ▸ hmem))
  | @found _ r h hr =>
    obtain ⟨s', t', -, hT', hread⟩ := h
    obtain ⟨operand, location⟩ := r
    obtain rfl : operand = x := hr
    obtain rfl := hT₀.statement_unique hT' hmem (List.mem_of_mem_tail (BlockPlan.operand_mem hT' hread))
    obtain rfl := hT₀.unique hT'
    obtain ⟨i, e, u, hwithin, hu, -, hlocate, hid⟩ := (BlockPlan.mem_readsAt hT₀).1 hread
    obtain ⟨q', hq'⟩ := hT₀.stands.exists_of_within ((Term.Within.of_mem_children hu).trans hwithin)
    obtain rfl := hq'.unique hq hid
    obtain ⟨-, rfl⟩ : k₀ = none ∧ X₀.text = location := by
      cases k₀ <;> simp_all [LocationKind.locate]
    exact hread
  | copied hfresh hm hT' hx' =>
    obtain rfl := hT.statement_unique hT' (hpreorder ▸ hmem) hx'
    obtain ⟨st, hst, -⟩ := hlive
    simp [hst] at hfresh

/-- A read is linked to a store under the same text that was there before, or to a merge. -/
theorem Tagged.exists_store {l : Location} (hs : s ∈ f.statementsAt a)
    (hread : ⟨x, l⟩ ∈ BlockPlan.readsAt f .derefs s) (hlink : g.linkOf x = .use (some d)) :
    (∃ w r Y v y, g.isMerge w = true ∧ g.Holds w (.node r (.assign (.node d (.deref Y v)) y))) ∨
      ∃ w r Y y, f.Live w ∧ f.Holds w (.node r (.assign (.node d (.deref Y none)) y)) ∧ Y.text = l := by
  have ha : f.block? a ≠ none := fun hnone => by simp [statementsAt, hnone] at hs
  obtain ⟨pre, post, hsplit⟩ := List.append_of_mem hs
  obtain ⟨heads, hexact⟩ := ht.exact hf.sound.forest hf.connected ha
  obtain ⟨D, ⟨v, -, hlink', -⟩, hreaches⟩ := hexact.read pre s post hsplit _ hread
  obtain rfl : D = some d := Link.use.inj (hlink'.symm.trans hlink)
  cases hreaches with
  | always h =>
    obtain ⟨as, has⟩ := hf.connected.path a ha
    obtain ⟨w, D, hw, hD, rfl, rfl⟩ := exists_of_lastSite? hf.sound.forest (h as has) fun c hc =>
      hf.sound.forest.live (a := a) (by simp [hsplit, hc])
    obtain ⟨r, Y, y, hT, htext⟩ := hf.exists_store hw hD
    exact .inr ⟨w, r, Y, y, hw, hT, htext⟩
  | @merged m _ points hm hjoins =>
    obtain ⟨st, y, inputs, v', hst, hroot, -, ⟨-, ⟨e, he, Z, rfl⟩, -⟩, -⟩ := hjoins.merges
    have hassigns : g.Assigns m st.root d := ⟨⟨st, hst, rfl⟩, y, hroot⟩
    obtain ⟨⟨i, e⟩, v, hT, rfl⟩ := hassigns.exists_holds ht.sound.forest
    obtain ⟨-, -, hbelow⟩ := hT.stands
    have hexpr := exprAt_eq_some (hbelow (.node i e) (by simp [Expr.children])).shape_id
    rw [Term.id_node] at he
    rw [Term.id_node, he, Option.some.injEq] at hexpr
    obtain ⟨Y, rfl⟩ : ∃ Y, e = .deref Y (some v') := by
      cases e <;> simp_all [Expr.map]
    exact .inl ⟨m, st.root, Y, some v', v, (hexact.head m hm).isMerge hT, hT⟩

/-- Between the last time that a store is executed and a statement that it precedes, the address that was stored to
    stays the same. -/
theorem Tagged.address_eq {w : StatementId} {r : NodeId} {Y Y₀ y₀ : Term} {before between : List StatementId}
    {env : Surroundings} {σ : Store} (hw : f.Live w) (hS : f.Holds w (.node r (.assign (.node d (.deref Y₀ k₀)) y₀)))
    (hY : LocationKind.derefs.strip Y = LocationKind.derefs.strip Y₀) (hforeign : Y₀.count Expr.isForeign = 0)
    (hX : X.Movable) (halike : (LocationKind.derefs.strip Y).form = (LocationKind.derefs.strip X).form)
    (hwc : g.Precedes w c) (hwalk : g.Walk (before ++ w :: between) c) (hlast : w ∉ between) :
    (X.outcome (g.context env (g.run env σ (before ++ w :: between)))).value =
      (Y.outcome (g.context env (g.run env σ before))).value := by
  have hforest := ht.sound.forest
  have hcells : Y.cells = Y₀.cells := by
    rw [← LocationKind.cells_strip_derefs Y, hY, LocationKind.cells_strip_derefs]
  have hvars : Y.count Expr.isForeign = 0 := by
    rw [← LocationKind.count_isForeign_strip_derefs, hY, LocationKind.count_isForeign_strip_derefs, hforeign]
  symm
  refine hX.value_eq_of_cells halike hvars rfl fun x hx => ?_
  -- what sets a register in the address precedes the store
  change (g.run env σ before).register x.1 x.2 = (g.run env σ (before ++ w :: between)).register x.1 x.2
  rw [run_append]
  refine (register_run_of_not_sets fun c' hc' d' hset => ?_).symm
  have hlive' := (hforest.live_of_walk hwalk).2 c' (by simp_all)
  obtain ⟨hlive', hset⟩ := ht.sets_of_sets hf hlive' hset
  have hcount := hf.count_isTheta hw hS (.of_mem_children (c := .node d (.deref Y₀ k₀)) (by simp [Expr.children]))
  have hmem : x ∈ (Term.node r (.assign (.node d (.deref Y₀ k₀)) y₀)).cells := by
    simp [Expr.children, ← hcells, hx]
  obtain rfl | hprecedes := hf.versioned.before w _ hw hS hcount x hmem c' d' hlive' hset
  · obtain ⟨i, y, heq⟩ := hS.sets_iff.1 hset
    cases heq
  · exact (ht.precedes hf.sound.forest hf.connected hw hprecedes).not_mem_between hwc hforest hwalk hlast hc'

/-- A read of memory outside of merges at an address that is safe to move is linked to a merge; or it is linked to a
    store that is executed before, and reads at the address that this wrote to the last time. -/
theorem Tagged.read_at_stored (hc : g.Live c) (hmerge : g.isMerge c = false) (hT : g.Holds c t)
    (hx : Term.Within (.node x (.deref X k)) t) (hlink : g.linkOf x = .use (some d)) (hX : X.Movable) :
    ∃ w r Y v y, g.Holds w (.node r (.assign (.node d (.deref Y v)) y)) ∧ (g.isMerge w = true ∨
      ∀ env σ ss, g.Walk ss c → ∃ before between, ss = before ++ w :: between ∧ w ∉ between ∧
        (X.outcome (g.context env (g.run env σ ss))).value =
          (Y.outcome (g.context env (g.run env σ before))).value) := by
  have hforest := hf.sound.forest
  obtain ⟨a, heads, hexact, hhead | hbefore⟩ := ht.exists_place hforest hf.connected hc
  · rw [(hexact.head c hhead).isMerge hT] at hmerge
    cases hmerge
  obtain ⟨t₀, hT₀⟩ := hforest.exists_holds hbefore
  obtain ⟨X₀, k₀, hx₀⟩ := ht.exists_address hT hT₀ hx
  have hread := ht.mem_readsAt_of_link hf hbefore hT₀ hx₀ hlink
  obtain ⟨w, r, Y, v, y, hw, hS⟩ | ⟨w, r, Y₀, y₀, hw, hS₀, htext⟩ := ht.exists_store hf hbefore hread hlink
  · exact ⟨w, r, Y, v, y, hS, .inl hw⟩
  have hc₀ := hforest.live hbefore
  have hy₀ : Term.Within (.node d (.deref Y₀ none)) (.node r (.assign (.node d (.deref Y₀ none)) y₀)) :=
    .of_mem_children (by simp [Expr.children])
  -- the same text means the same address, apart from versions of dereferences
  have hform := hf.form_eq hc₀ hT₀ hx₀ hw hS₀ hy₀ htext
  obtain ⟨⟨i, e⟩, y, hS, hid⟩ := (hS₀.assigns.later ht.later).exists_holds ht.sound.forest
  obtain rfl : i = d := hid
  have hstrip := ht.later.strip_eq hS₀ hS
  obtain ⟨Y, v, rfl, hY⟩ : ∃ Y v, e = .deref Y v ∧ LocationKind.derefs.strip Y = LocationKind.derefs.strip Y₀ := by
    cases e <;> simp_all [LocationKind.untag, Expr.map]
  have halike : (LocationKind.derefs.strip Y).form = (LocationKind.derefs.strip X).form := by
    rw [hY, ht.strip_address_eq hT hT₀ hx hx₀, LocationKind.form_strip, LocationKind.form_strip, hform]
  have hprecedes : g.Precedes w c := by
    obtain ⟨w', r', hassigns, hprecedes⟩ := ht.definedBefore_of_readIn hforest hf.connected hbefore hread hlink
    obtain ⟨T, hT', hmem⟩ := hassigns.exists_mem ht.sound.forest
    obtain rfl := hT'.statement_unique hS hmem (by simp [Expr.children])
    exact hprecedes
  refine ⟨w, r, Y, v, y, hS, .inr fun env σ ss hwalk => ?_⟩
  obtain ⟨before, between, rfl, hlast⟩ := hprecedes.exists_last hwalk
  exact ⟨before, between, rfl, hlast,
    ht.address_eq hf hw hS₀ hY (hf.count_isForeign hw hS₀ hy₀) hX halike hprecedes hwalk hlast⟩

end Derefs

end Tagging

/-- When a recovery has propagated the stack pointer, its flow is ready for the dereferences. -/
theorem Recovery.Course.prepared {t : Task} {entry : Address} {S : Phase → Session} {text : String}
    (h : Course t entry S) (hl : Listing.parse text = .ok t.listing) :
    Tagging.Prepared (S .stackPropagated).flow where
  sound := h.propagated.sound
  connected := h.connected_stackPropagated
  ordered := h.ordered_stackPropagated
  versioned := (h.registers.versioned h.plain h.connected).propagated (.of_tagged h.registers h.plain h.connected)
    h.registers.rooted h.propagated
  legible := h.legibleApart_stackPropagated hl

/-- When the dereferences are linked, a read of memory is linked to what wrote it: if it reads the definition `d`, which
    is no merge, at an address that is safe to move, then `d` was stored to on every way to the read, and the read is
    at the address that was written to the last time. What merges read is left out. -/
theorem Session.read_at_stored {text name stackPointer : String} {l : Listing} {options : Options} {entry : Address}
    {s : Session} (hl : Listing.parse text = .ok l)
    (hs : (Task.mk l { name, stackPointer } options).sessionAt? entry .ssaDerefs = some s)
    {c : StatementId} {t X : Term} {x d : NodeId} {k : Option Nat} (hc : s.flow.Live c)
    (hmerge : s.flow.isMerge c = false) (ht : s.flow.Holds c t) (hx : Term.Within (.node x (.deref X k)) t)
    (hlink : s.flow.linkOf x = .use (some d)) (hX : X.Movable) :
    ∃ w r Y v y, s.flow.Holds w (.node r (.assign (.node d (.deref Y v)) y)) ∧ (s.flow.isMerge w = true ∨
      ∀ env σ ss, s.flow.Walk ss c → ∃ before between, ss = before ++ w :: between ∧ w ∉ between ∧
        (X.outcome (s.flow.context env (s.flow.run env σ ss))).value =
          (Y.outcome (s.flow.context env (s.flow.run env σ before))).value) := by
  obtain ⟨S, h, rfl⟩ := Recovery.exists_course_of_sessionAt?
    (t := ⟨l, { name, stackPointer }, options⟩) (Listing.wellFormed_of_parse hl) rfl (by decide) hs
  exact h.derefs.read_at_stored (h.prepared hl) hc hmerge ht hx hlink hX

/-- A loop that moves on in memory, and reads what it has just written. -/
def steppedText : String :=
  "0: ecx = 8\n1: ecx = ecx + 8\n2: [esp + ecx] = eax\n3: ebx = [esp + ecx]\n4: if ebx goto 1\n5: return ebx"

/-- The state in which the dereferences of the loop are linked. -/
def steppedSession : Session :=
  (Session.ofText? steppedText "x86" "esp" 0 .ssaDerefs).get (by decide +kernel)

/-- In each round the loop reads where it wrote in that round. -/
theorem Session.read_at_stored_stepped : ∃ t X k r Y v y, steppedSession.flow.Holds ⟨3⟩ t ∧
    Term.Within (.node ⟨18⟩ (.deref X k)) t ∧
      steppedSession.flow.Holds ⟨2⟩ (.node r (.assign (.node ⟨11⟩ (.deref Y v)) y)) ∧
        ∀ env σ ss, steppedSession.flow.Walk ss ⟨3⟩ → ∃ before between,
          ss = before ++ ⟨2⟩ :: between ∧ ⟨2⟩ ∉ between ∧
            (X.outcome (steppedSession.flow.context env (steppedSession.flow.run env σ ss))).value =
              (Y.outcome (steppedSession.flow.context env (steppedSession.flow.run env σ before))).value := by
  have hs : Session.ofText? steppedText "x86" "esp" 0 .ssaDerefs = some steppedSession := (Option.some_get _).symm
  have hforest : steppedSession.flow.Forest := by
    obtain ⟨_, S, h, hS⟩ := Recovery.exists_course_of_ofText? (by decide) hs
    have heq : S .ssaDerefs = steppedSession := Option.some.inj ((hS _).symm.trans hs)
    exact heq ▸ h.derefs.sound.forest
  obtain ⟨hstatements, hstore, hread, hmerge, hmerge', hlink, hderef, haddress⟩ :
      steppedSession.flow.statementsAt 1 = [⟨6⟩, ⟨1⟩, ⟨2⟩, ⟨3⟩, ⟨4⟩] ∧
      (steppedSession.flow.operands ⟨2⟩).toOption = some [⟨11⟩, ⟨10⟩, ⟨8⟩, ⟨9⟩, ⟨12⟩] ∧
      (steppedSession.flow.operands ⟨3⟩).toOption = some [⟨14⟩, ⟨18⟩, ⟨17⟩, ⟨15⟩, ⟨16⟩] ∧
      steppedSession.flow.isMerge ⟨3⟩ = false ∧ steppedSession.flow.isMerge ⟨2⟩ = false ∧
      steppedSession.flow.linkOf ⟨18⟩ = .use (some ⟨11⟩) ∧
      steppedSession.flow.exprAt ⟨18⟩ = some (.deref ⟨17⟩ (some 1)) ∧
      (steppedSession.flow.term ⟨17⟩).toOption.any Term.isInlineable = true := by
    decide +kernel
  obtain ⟨t, hlive, ht, hx⟩ := hforest.exists_holds_of_operands (a := 1) (by simp [hstatements]) hread
    (show ⟨18⟩ ∈ _ by simp)
  obtain ⟨X, hx, hX⟩ : ∃ X, Term.Within (.node ⟨18⟩ (.deref X (some 1))) t ∧ X.Movable := by
    obtain ⟨⟨i, e⟩, hwithin, rfl⟩ := Term.exists_within_of_mem_preorder hx
    obtain ⟨q, hq⟩ := ht.stands.exists_of_within hwithin
    have hexpr := Option.some.inj (hderef.symm.trans (exprAt_eq_some hq.shape_id))
    obtain ⟨X, rfl⟩ := Expr.eq_deref_of_head_eq ((Expr.head_map ..).symm.trans (congrArg Expr.head hexpr).symm)
    rw [(Expr.deref.inj hexpr).1, ht.term_eq (.trans (.of_mem_children (by simp [Expr.children])) hwithin)] at haddress
    exact ⟨X, hwithin, (Term.inlineable_iff.2 haddress).movable⟩
  obtain ⟨l, hl, hs⟩ := Session.exists_parse_of_ofText? hs
  obtain ⟨w, r, Y, v, y, hw, hstored⟩ := Session.read_at_stored hl hs hlive hmerge ht hx hlink hX
  obtain ⟨_, -, ht', hmem⟩ := hforest.exists_holds_of_operands (a := 1) (by simp [hstatements]) hstore
    (show ⟨11⟩ ∈ _ by simp)
  obtain rfl := ht'.statement_unique hw hmem (by simp [Expr.children])
  exact ⟨_, X, _, r, Y, v, y, ht, hx, hw, hstored.resolve_left (by simp [hmerge'])⟩

end FrameRecovery
