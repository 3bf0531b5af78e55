import FrameRecovery.Proofs.Relabel.Plan
import FrameRecovery.Proofs.Restored

namespace FrameRecovery

open Flow

variable {ρ : String → String} {f : Flow} {V : Locations} {a : Address}

namespace Restored

theorem carries_locateTagged (f : Flow) : f.Carries ρ ρ locateTagged := by
  intro s t u _ _ _
  obtain ⟨i, e⟩ := u
  cases e with
  | register n v => cases v <;> simp [Expr.map, Expr.relabel, locateTagged]
  | _ => simp [Expr.map, Expr.relabel, locateTagged]

theorem assignedValue?_relabel (f : Flow) (d : NodeId) : assignedValue? (f.relabel ρ) d = assignedValue? f d := by
  unfold assignedValue?
  rw [parentExpr?_relabel]
  cases f.parentExpr? d with
  | error e => rfl
  | ok e =>
    cases e with
    | none => rfl
    | some e => cases e <;> rfl

section Chase

variable (hρ : ρ.Injective)
include hρ

theorem holdsEntryValue_relabel (f : Flow) (register : String) {chase chase' : NodeId → Nat → Except Fault (Bool × Nat)}
    (hchase : ∀ d n, chase' d n = chase d n) (x : NodeId) (n : Nat) :
    holdsEntryValue (f.relabel ρ) (ρ register) chase' x n = holdsEntryValue f register chase x n := by
  unfold holdsEntryValue
  rw [expr_relabel, link_relabel]
  cases f.expr x with
  | error e => rfl
  | ok e =>
    change (if !(e.relabel ρ).isAssignable then _ else _) = (if !e.isAssignable then _ else _)
    rw [Expr.isAssignable_relabel]
    split
    · rfl
    · refine bind_congr fun l => ?_
      cases l with
      | use D =>
        cases D with
        | some d => exact hchase d n
        | none =>
          cases e with
          | register m v =>
            change Except.ok (ρ m == ρ register, n) = Except.ok (m == register, n)
            simp [hρ.eq_iff]
          | _ => rfl
      | _ => rfl

omit hρ in
theorem allWithin_congr {α : Type} {test test' : α → Nat → Except Fault (Bool × Nat)} (h : ∀ x n, test' x n = test x n)
    (xs : List α) (n : Nat) : allWithin test' xs n = allWithin test xs n := by
  induction xs generalizing n with
  | nil => rfl
  | cons x rest ih =>
    unfold allWithin
    rw [h]
    refine bind_congr fun r => ?_
    obtain ⟨b, n⟩ := r
    cases b
    · rfl
    · exact ih n

theorem definesEntryValue_relabel (f : Flow) (register : String) (depth : Nat) (d : NodeId) (n : Nat) :
    definesEntryValue (f.relabel ρ) (ρ register) depth d n = definesEntryValue f register depth d n := by
  induction depth generalizing d n with
  | zero => rfl
  | succ depth ih =>
    cases n with
    | zero => rfl
    | succ n =>
      unfold definesEntryValue
      rw [assignedValue?_relabel]
      refine bind_congr fun value => ?_
      cases value with
      | none => rfl
      | some value =>
        have hholds := holdsEntryValue_relabel hρ f register ih
        change ((f.relabel ρ).expr value >>= _) = (f.expr value >>= _)
        rw [expr_relabel]
        cases f.expr value with
        | error e => rfl
        | ok e =>
          cases e with
          | theta inputs => exact allWithin_congr hholds inputs n
          | _ => exact hholds value n

theorem bringsEntryValue_relabel (f : Flow) (register : String) :
    bringsEntryValue (f.relabel ρ) (ρ register) = bringsEntryValue f register := by
  funext p
  cases p with
  | entry => rfl
  | definition d =>
    change (definesEntryValue (f.relabel ρ) (ρ register) chaseLimit d chaseLimit >>= _) = _
    rw [definesEntryValue_relabel hρ]
    rfl

theorem isRestored_relabel (f : Flow) {rs rs' : List Reach} (h : List.Forall₂ (Reach.Relocates ρ) rs rs')
    (register : String) : isRestored (f.relabel ρ) rs' (ρ register) = isRestored f rs register := by
  unfold isRestored
  rw [bringsEntryValue_relabel hρ]
  induction h with
  | nil => rfl
  | cons hr _ ih =>
    rw [List.allM, List.allM, hr register, ih]

end Chase

/-- What reaches the returns of a block is the same in both flows. -/
theorem returnsOf_relocates (hρ : ρ.Injective) (hf : f.Forest) (hg : (f.relabel ρ).Forest) {ss : List StatementId}
    (hss : ∀ s ∈ ss, s ∈ f.statementsAt a) {r r' : Reach} (hr : r.Relocates ρ r') {rs : List Reach}
    (hrun : returnsOf f r ss = .ok rs) :
    ∃ rs', returnsOf (f.relabel ρ) r' ss = .ok rs' ∧ List.Forall₂ (Reach.Relocates ρ) rs rs' := by
  induction ss generalizing r r' rs with
  | nil =>
    cases hrun
    exact ⟨[], rfl, .nil⟩
  | cons s rest ih =>
    have hs := hss s (by simp)
    obtain ⟨t, ht⟩ := hf.exists_holds hs
    have ht' := ht.relabel (hf.live hs) hg
    -- what is behind the statement is reached from both sides by what its definition leaves
    have hafter : ((Summary.definitionOf f locateTagged s).elim r r.after).Relocates ρ
        ((Summary.definitionOf (f.relabel ρ) locateTagged s).elim r' r'.after) := by
      rw [definitionOf_relabel hf (carries_locateTagged f) hs]
      cases Summary.definitionOf f locateTagged s with
      | none => exact hr
      | some d => exact hr.after hρ d
    rw [returnsOf_cons ht] at hrun
    rw [returnsOf_cons ht', rootExpr_relabel]
    obtain ⟨later, hlater, hrun⟩ := exists_of_except_bind hrun
    obtain ⟨e, he, hrun⟩ := exists_of_except_bind hrun
    obtain ⟨later', hlater', hall⟩ := ih (fun s hs => hss s (by simp [hs])) hafter hlater
    rw [hlater', he]
    cases hrun
    refine ⟨_, rfl, ?_⟩
    rw [Expr.isReturn_relabel]
    split
    · exact .cons hr hall
    · exact hall

private theorem mapM_relates {α β : Type} {R : β → β → Prop} {k k' : α → Except Fault β} {xs : List α} {ys : List β}
    (h : ∀ x ∈ xs, ∀ y, k x = .ok y → ∃ y', k' x = .ok y' ∧ R y y') (hrun : xs.mapM k = .ok ys) :
    ∃ ys', xs.mapM k' = .ok ys' ∧ List.Forall₂ R ys ys' := by
  induction xs generalizing ys with
  | nil =>
    cases hrun
    exact ⟨[], rfl, .nil⟩
  | cons x rest ih =>
    rw [List.mapM_cons] at hrun
    obtain ⟨y, hy, hrun⟩ := exists_of_except_bind hrun
    obtain ⟨zs, hzs, hrun⟩ := exists_of_except_bind hrun
    cases hrun
    obtain ⟨y', hy', hR⟩ := h x (by simp) y hy
    obtain ⟨zs', hzs', hall⟩ := ih (fun x hx => h x (by simp [hx])) hzs
    refine ⟨y' :: zs', ?_, .cons hR hall⟩
    rw [List.mapM_cons, hy', bind_ok, hzs']
    rfl

section Flow

variable (hρ : ρ.Injective) (hf : f.Forest) (hg : (f.relabel ρ).Forest)
include hρ hf hg

theorem allReturns_relocates (hconnected : f.Connected) {rs : List Reach}
    (hrun : allReturns f (Summary.summaryOf f locateTagged) = .ok rs) :
    ∃ rs', allReturns (f.relabel ρ) (Summary.summaryOf (f.relabel ρ) locateTagged) = .ok rs' ∧
      List.Forall₂ (Reach.Relocates ρ) rs rs' := by
  have hblocks : ∀ (h : Flow), allReturns h (Summary.summaryOf h locateTagged) = (do
      let rs ← h.blocks.keys.mapM fun a =>
        returnsOf h (((Summary.summaryOf h locateTagged).analyze.ins.find? a).getD .empty) (h.statementsAt a)
      return rs.flatten) := by
    intro h
    have hblocks : (Summary.summaryOf h locateTagged).blocks = h.blocks.keys.map (Summary.blockAt h locateTagged) := rfl
    unfold allReturns
    dsimp only
    rw [hblocks, List.mapM_map]
    rfl
  have hblock : ∀ a ∈ f.blocks.keys, ∀ rs, returnsOf f
      (((Summary.summaryOf f locateTagged).analyze.ins.find? a).getD .empty) (f.statementsAt a) = .ok rs →
      ∃ rs', returnsOf (f.relabel ρ) (((Summary.summaryOf (f.relabel ρ) locateTagged).analyze.ins.find? a).getD .empty)
        ((f.relabel ρ).statementsAt a) = .ok rs' ∧ List.Forall₂ (Reach.Relocates ρ) rs rs' := by
    intro a ha rs hrs
    obtain ⟨b, hb⟩ := SortedMap.mem_keys.1 ha
    have hne : f.block? a ≠ none := Option.ne_none_iff_exists'.2 ⟨b, hb⟩
    rw [Summary.ins_summaryOf hf hne] at hrs
    rw [Summary.ins_summaryOf hg hne]
    exact returnsOf_relocates hρ hf hg (fun s hs => hs)
      (reachIn_relocates hf (carries_locateTagged f) hg hconnected hρ hne) hrs
  rw [hblocks] at hrun ⊢
  obtain ⟨rss, hrss, hrun⟩ := exists_of_except_bind hrun
  obtain ⟨rss', hrss', hall⟩ := mapM_relates hblock hrss
  cases hrun
  refine ⟨rss'.flatten, ?_, List.rel_flatten hall⟩
  change (f.blocks.keys.mapM _ >>= _) = _
  rw [hrss']
  rfl

omit hρ hg in
/-- The locations of a flow with other names are those of the flow, under their other names. -/
theorem mem_locations_relabel {n : String} : n ∈ (Summary.summaryOf (f.relabel ρ) locateTagged).locations ↔
    ∃ m ∈ (Summary.summaryOf f locateTagged).locations, ρ m = n := by
  have hdefinitions : ∀ a, (Summary.blockAt (f.relabel ρ) locateTagged a).definitions =
      (Summary.blockAt f locateTagged a).definitions.map (Definition.relocate ρ) := fun a =>
    filterMap_definitionOf_relabel hf (carries_locateTagged f) fun _ hs => ⟨a, hs⟩
  simp only [Summary.summaryOf, SortedSet.mem_ofList, List.flatMap_map, hdefinitions, List.mem_flatMap, List.mem_map]
  constructor
  · rintro ⟨a, ha, _, ⟨d, hd, rfl⟩, rfl⟩
    exact ⟨d.location, ⟨a, ha, d, hd, rfl⟩, rfl⟩
  · rintro ⟨_, ⟨a, ha, d, hd, rfl⟩, rfl⟩
    exact ⟨a, ha, _, ⟨d, hd, rfl⟩, rfl⟩

end Flow

end Restored

open Restored

/-- The registers that are restored in a flow are those that are restored in the flow with other names. -/
theorem Flow.restoredRegisters_relabel (hρ : ρ.Injective) (hf : f.Forest) (hg : (f.relabel ρ).Forest)
    (hconnected : f.Connected) {stackPointer : String} {rs : List String} (hrun : f.restoredRegisters stackPointer = .ok rs) :
    ∃ rs', (f.relabel ρ).restoredRegisters (ρ stackPointer) = .ok rs' ∧ rs'.Perm (rs.map ρ) := by
  unfold restoredRegisters at hrun ⊢
  rw [Summary.ofFlow_eq hf, bind_ok] at hrun
  rw [Summary.ofFlow_eq hg, bind_ok]
  obtain ⟨returns, hreturns, hrun⟩ := exists_of_except_bind hrun
  obtain ⟨returns', hreturns', hall⟩ := allReturns_relocates hρ hf hg hconnected hreturns
  have hempty : returns'.isEmpty = returns.isEmpty := by
    cases hall <;> rfl
  rw [hreturns', bind_ok, hempty]
  split at hrun
  next =>
    cases hrun
    exact ⟨[], if_pos ‹_›, .nil⟩
  next hne =>
    rw [if_neg hne]
    have hrestored := isRestored_relabel hρ f hall
    have hassigned : ∀ n, n ∈ (Summary.summaryOf (f.relabel ρ) locateTagged).locations.elements.filter (· != ρ stackPointer) ↔
        ∃ m ∈ (Summary.summaryOf f locateTagged).locations.elements.filter (· != stackPointer), ρ m = n := by
      intro n
      simp only [List.mem_filter, ← SortedSet.mem_def, mem_locations_relabel hf, bne_iff_ne]
      constructor
      · rintro ⟨⟨m, hm, rfl⟩, hne⟩
        exact ⟨m, ⟨hm, fun heq => hne (congrArg ρ heq)⟩, rfl⟩
      · rintro ⟨m, ⟨hm, hne⟩, rfl⟩
        exact ⟨⟨m, hm, rfl⟩, hρ.ne hne⟩
    obtain ⟨hok, rfl⟩ := filterM_eq_ok_iff.1 hrun
    refine ⟨_, filterM_eq_ok_iff.2 ⟨fun n hn => ?_, rfl⟩, ?_⟩
    · obtain ⟨m, hm, rfl⟩ := (hassigned n).1 hn
      rw [hrestored]
      exact hok m hm
    · have hnodup : ∀ {s : SortedSet String} (p q : String → Bool), ((s.elements.filter p).filter q).Nodup := fun {s} p q =>
        (s.nodup_elements.filter p).filter q
      refine (List.perm_ext_iff_of_nodup (hnodup _ _) ((hnodup _ _).map hρ)).2 fun n => ?_
      rw [List.mem_filter, hassigned, List.mem_map]
      constructor
      · rintro ⟨⟨m, hm, rfl⟩, htest⟩
        rw [hrestored] at htest
        exact ⟨m, List.mem_filter.2 ⟨hm, htest⟩, rfl⟩
      · rintro ⟨m, hm, rfl⟩
        obtain ⟨hm, htest⟩ := List.mem_filter.1 hm
        refine ⟨⟨m, hm, rfl⟩, ?_⟩
        rw [hrestored]
        exact htest

end FrameRecovery
