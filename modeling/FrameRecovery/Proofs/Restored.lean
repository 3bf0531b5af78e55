import FrameRecovery.Proofs.Tagging.Plan
import FrameRecovery.Tagging.Restored

namespace FrameRecovery

open Flow

/-- A list is filtered by a test that can fail, if that does not fail for any of its members. -/
theorem filterM_eq_ok_iff {α : Type} {k : α → Except Fault Bool} {xs ys : List α} : xs.filterM k = .ok ys ↔
    (∀ x ∈ xs, ∃ b, k x = .ok b) ∧ ys = xs.filter fun x => (k x).toOption.getD false := by
  have haux : ∀ acc zs, List.filterAuxM k xs acc = .ok zs ↔ (∀ x ∈ xs, ∃ b, k x = .ok b) ∧
      zs = (xs.filter fun x => (k x).toOption.getD false).reverse ++ acc := by
    induction xs with
    | nil => intro acc zs; simp [List.filterAuxM, pure, Except.pure, eq_comm]
    | cons x rest ih =>
      intro acc zs
      rw [List.filterAuxM]
      cases hx : k x with
      | error e => simp [hx, bind, Except.bind]
      | ok b =>
        rw [bind_ok, ih]
        cases b <;> simp [hx, Except.toOption, cond]
  unfold List.filterM
  constructor
  · intro h
    obtain ⟨zs, hzs, h⟩ := exists_of_except_bind h
    cases h
    obtain ⟨hall, rfl⟩ := (haux [] zs).1 hzs
    exact ⟨hall, by simp⟩
  · rintro ⟨hall, rfl⟩
    rw [(haux [] _).2 ⟨hall, rfl⟩]
    simp [bind_ok, pure, Except.pure]

namespace Restored

variable {f : Flow} {V : Locations} {d x : NodeId} {r : Reach} {s : StatementId} {register : String}

private theorem exists_mapM {α β : Type} {P : β → Prop} {k : α → Except Fault β} {xs : List α}
    (h : ∀ x ∈ xs, ∃ y, k x = .ok y ∧ P y) : ∃ ys, xs.mapM k = .ok ys ∧ ∀ y ∈ ys, P y := by
  induction xs with
  | nil => exact ⟨[], rfl, by simp⟩
  | cons x rest ih =>
    obtain ⟨y, hy, hPy⟩ := h x (by simp)
    obtain ⟨ys, hys, hPys⟩ := ih fun x hx => h x (by simp [hx])
    refine ⟨y :: ys, ?_, by simpa using ⟨hPy, hPys⟩⟩
    rw [List.mapM_cons, hy, hys]
    rfl

private theorem exists_allM {α : Type} {k : α → Except Fault Bool} {xs : List α}
    (h : ∀ x ∈ xs, ∃ b, k x = .ok b) : ∃ b, xs.allM k = .ok b := by
  induction xs with
  | nil => exact ⟨true, rfl⟩
  | cons x rest ih =>
    obtain ⟨b, hb⟩ := h x (by simp)
    obtain ⟨b', hb'⟩ := ih fun x hx => h x (by simp [hx])
    rw [List.allM, hb]
    cases b with
    | false => exact ⟨false, rfl⟩
    | true => exact ⟨b', hb'⟩

private theorem exists_allWithin {α : Type} {test : α → Nat → Except Fault (Bool × Nat)}
    {xs : List α} (h : ∀ x ∈ xs, ∀ budget, ∃ r, test x budget = .ok r) (budget : Nat) :
    ∃ r, allWithin test xs budget = .ok r := by
  induction xs generalizing budget with
  | nil => exact ⟨_, rfl⟩
  | cons x rest ih =>
    obtain ⟨⟨b, left⟩, hr⟩ := h x (by simp) budget
    rw [allWithin, hr]
    cases b with
    | false => exact ⟨_, rfl⟩
    | true => exact ih (fun x hx => h x (by simp [hx])) left

/-- Whoever asks about an operand is told. -/
theorem exists_holdsEntryValue (hf : f.Sound V) (hx : f.exprAt x ≠ none)
    {chase : NodeId → Nat → Except Fault (Bool × Nat)}
    (hchase : ∀ d, f.Held d → ∀ budget, ∃ r, chase d budget = .ok r) (budget : Nat) :
    ∃ r, holdsEntryValue f register chase x budget = .ok r := by
  obtain ⟨e, hx⟩ := Option.ne_none_iff_exists'.1 hx
  obtain ⟨p, hshape⟩ := exists_shapeAt_of_exprAt hx
  unfold holdsEntryValue
  rw [expr_eq hshape, bind_ok]
  split
  · exact ⟨_, rfl⟩
  · rw [link_eq hshape, bind_ok]
    split
    · split
      · exact ⟨_, rfl⟩
      · exact ⟨_, rfl⟩
    next d hlink =>
      refine hchase d (hf.held d ?_) budget
      rw [Link.eq_definition_of_mem_uses ((hf.mirrored.recorded x d).1 hlink)]
      simp
    · exact ⟨_, rfl⟩

/-- What a definition assigns, if it assigns something, is a node. -/
theorem exists_assignedValue? (hf : f.Sound V) (hd : f.Held d) : ∃ value, assignedValue? f d = .ok value ∧
    ∀ y, value = some y → f.exprAt y ≠ none := by
  obtain ⟨s, t, -, ht, hd⟩ := hd
  unfold assignedValue?
  rcases ht.parentExpr?_eq hd with h | ⟨i, e, u, hwithin, hu, rfl, h⟩
  · rw [h]
    exact ⟨none, rfl, nofun⟩
  · rw [h]
    obtain ⟨q, hq⟩ := ht.stands.exists_of_within hwithin
    have hi := exprAt_eq_some hq.shape_id
    cases e with
    | assign a b =>
      change ∃ value, Except.ok (if a.id = u.id then some b.id else none) = Except.ok value ∧ _
      refine ⟨_, rfl, fun y hy => ?_⟩
      split at hy
      · cases hy
        exact hf.typed.closed _ _ hi b.id (by simp [Expr.map, Expr.children])
      · cases hy
    | _ => exact ⟨none, rfl, nofun⟩

theorem exists_definesEntryValue (hf : f.Sound V) (depth : Nat) : ∀ d, f.Held d → ∀ budget,
    ∃ r, definesEntryValue f register depth d budget = .ok r := by
  induction depth with
  | zero => exact fun d _ budget => ⟨_, rfl⟩
  | succ depth ih =>
    intro d hd budget
    cases budget with
    | zero => exact ⟨_, rfl⟩
    | succ budget =>
      obtain ⟨value, hvalue, hnode⟩ := exists_assignedValue? hf hd
      rw [definesEntryValue, hvalue]
      cases value with
      | none => exact ⟨_, rfl⟩
      | some y =>
        obtain ⟨e, hy⟩ := Option.ne_none_iff_exists'.1 (hnode y rfl)
        obtain ⟨p, hshape⟩ := exists_shapeAt_of_exprAt hy
        change ∃ r, (f.expr y >>= fun e => _) = Except.ok r
        rw [expr_eq hshape]
        have hself := @exists_holdsEntryValue f V y register hf (hnode y rfl) _ ih budget
        cases e with
        | theta inputs =>
          refine exists_allWithin (fun x hx => ?_) budget
          exact exists_holdsEntryValue hf (hf.typed.closed y _ hy x hx) ih
        | _ => exact hself

/-- The definitions that a reach speaks of are in statements. -/
def Safe (f : Flow) (r : Reach) : Prop :=
  ∀ l d, r.Has l (.definition d) → f.Held d

theorem Safe.after (hr : Safe f r) {definition : Definition} (hd : f.Held definition.site) :
    Safe f (r.after definition) := by
  intro l d h
  have h := (@Reach.has_foldl_after _ _ _ [definition]).1 h
  split at h
  next x hx =>
    cases h
    obtain ⟨_, hmem, -, rfl⟩ := Definition.exists_of_lastSite? hx
    rwa [List.mem_singleton.1 hmem]
  next => exact hr l d h

theorem held_of_definitionOf {locate : Term → Option Location} {definition : Definition}
    (hf : f.Forest) (hs : s ∈ f.liveStatements)
    (h : Summary.definitionOf f locate s = some definition) : f.Held definition.site := by
  obtain ⟨t, ht⟩ := hf.holds_of_mem hs
  obtain ⟨i, x, y, rfl, -, hsite, -⟩ := (Summary.mem_definitionOf ht).1 h
  refine ⟨s, _, hf.mem_liveStatements.1 hs, ht, hsite ▸ ?_⟩
  exact (Term.Within.of_mem_children (by simp [Expr.children])).preorder_subset x.id_mem_preorder

theorem exists_bringsEntryValue (hf : f.Sound V) (hr : Safe f r) {l : Location} {p : Point}
    (hp : p ∈ r.points l) : ∃ b, bringsEntryValue f register p = .ok b := by
  cases p with
  | entry => exact ⟨true, rfl⟩
  | definition d =>
    have hd : f.Held d := by
      rcases r.points_eq l with ⟨h, -⟩ | ⟨h, -⟩ | ⟨hmem, -⟩
      · simp [h] at hp
      · simp [h] at hp
      · exact hr l d ((hmem _).1 hp)
    obtain ⟨⟨b, left⟩, hb⟩ := @exists_definesEntryValue f V register hf chaseLimit d hd chaseLimit
    refine ⟨b, ?_⟩
    change (definesEntryValue f register chaseLimit d chaseLimit >>= fun r => Except.ok r.1) = _
    rw [hb]
    rfl

/-- What reaches the returns behind a statement is reached from what its definition leaves. -/
theorem returnsOf_cons {t : Term} (ht : f.Holds s t) (r : Reach) (rest : List StatementId) :
    returnsOf f r (s :: rest) = (do
      let later ← returnsOf f ((Summary.definitionOf f locateTagged s).elim r r.after) rest
      return if (← f.rootExpr s).isReturn then r :: later else later) := by
  rw [returnsOf, Summary.definitionAt?_eq ht]
  cases Summary.definitionOf f locateTagged s <;> rfl

theorem exists_returnsOf (hf : f.Sound V) {ss : List StatementId} (hss : ∀ s ∈ ss, s ∈ f.liveStatements)
    (hr : Safe f r) : ∃ rs, returnsOf f r ss = .ok rs ∧ ∀ r' ∈ rs, Safe f r' := by
  induction ss generalizing r with
  | nil => exact ⟨[], rfl, by simp⟩
  | cons s rest ih =>
    obtain ⟨t, ht⟩ := hf.forest.holds_of_mem (hss s (by simp))
    have hafter : Safe f ((Summary.definitionOf f locateTagged s).elim r r.after) := by
      cases hd : Summary.definitionOf f locateTagged s with
      | some d => exact hr.after (held_of_definitionOf hf.forest (hss s (by simp)) hd)
      | none => exact hr
    obtain ⟨rs, hrs, hsafe⟩ := ih (fun s hs => hss s (by simp [hs])) hafter
    rw [returnsOf_cons ht, hrs, bind_ok, ht.rootExpr_eq]
    refine ⟨_, rfl, fun r' hr' => ?_⟩
    split at hr'
    · rcases List.mem_cons.1 hr' with rfl | hr'
      · exact hr
      · exact hsafe r' hr'
    · exact hsafe r' hr'

end Restored

open Restored in
/-- The restored registers are found in every sound flow that control can come through. -/
theorem Flow.exists_restoredRegisters {f : Flow} {V : Locations} (hf : f.Sound V) (hconnected : f.Connected)
    (stackPointer : String) : ∃ rs, f.restoredRegisters stackPointer = .ok rs := by
  have hforest := hf.forest
  obtain ⟨rss, hrss, hsafe⟩ := @exists_mapM _ _ (fun rs => ∀ r ∈ rs, Safe f r)
    (fun b : BlockSummary => returnsOf f
      (((Summary.summaryOf f locateTagged).analyze.ins.find? b.address).getD .empty) (f.statementsAt b.address))
    (Summary.summaryOf f locateTagged).blocks fun b hb => by
      obtain ⟨a, ha, rfl⟩ := Summary.mem_blocks.1 hb
      refine exists_returnsOf hf (fun s hs => ?_) fun l d hd => ?_
      · obtain ⟨st, hst, hremoved, -⟩ := hforest.mem_statementsAt.1 hs
        exact hforest.mem_liveStatements.2 ⟨st, hst, hremoved⟩
      · change (((Summary.summaryOf f locateTagged).analyze.ins.find? a).getD .empty).Has _ _ at hd
        rw [Summary.ins_summaryOf hforest ha] at hd
        obtain ⟨as, -, hlast⟩ := (Summary.brings_iff hforest hconnected ha).1 (.inl hd)
        obtain ⟨definition, hmem, -, rfl⟩ := Definition.exists_of_lastSite? hlast.symm
        obtain ⟨s, hs, hdefinition⟩ := List.mem_filterMap.1 hmem
        obtain ⟨c, -, hs⟩ := List.mem_flatMap.1 hs
        obtain ⟨st, hst, hremoved, -⟩ := hforest.mem_statementsAt.1 hs
        exact held_of_definitionOf hforest (hforest.mem_liveStatements.2 ⟨st, hst, hremoved⟩) hdefinition
  have hsafe' : ∀ r ∈ rss.flatten, Safe f r := fun r hr => by
    obtain ⟨rs, hrs, hr⟩ := List.mem_flatten.1 hr
    exact hsafe rs hrs r hr
  have hfilter : ∃ rs, ((Summary.summaryOf f locateTagged).locations.elements.filter
      (· != stackPointer)).filterM (isRestored f rss.flatten) = .ok rs :=
    ⟨_, filterM_eq_ok_iff.2 ⟨fun register _ => exists_allM fun r hr => exists_allM fun p hp =>
      exists_bringsEntryValue hf (hsafe' r hr) hp, rfl⟩⟩
  have hreturns : allReturns f (Summary.summaryOf f locateTagged) = .ok rss.flatten := by
    change (List.mapM _ _ >>= fun rs : List (List Reach) => _) = _
    rw [hrss]
    rfl
  unfold restoredRegisters
  rw [Summary.ofFlow_eq hforest]
  change ∃ rs, (allReturns f (Summary.summaryOf f locateTagged) >>= fun returns => _) = Except.ok rs
  rw [hreturns]
  change ∃ rs, (if rss.flatten.isEmpty then _ else _) = Except.ok rs
  split
  · exact ⟨[], rfl⟩
  · exact hfilter

end FrameRecovery
