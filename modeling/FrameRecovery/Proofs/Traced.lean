import FrameRecovery.Proofs.Restored

namespace FrameRecovery

open Flow

namespace Restored

variable {f : Flow} {n : String} {a : Address} {as : List Address} {c s : StatementId} {x d r : NodeId}
  {budget left : Nat} {pre post : List StatementId} {rs : List String}

private theorem exists_of_mapM {α β : Type} {k : α → Except Fault β} {xs : List α} {ys : List β} {x : α}
    (h : xs.mapM k = .ok ys) (hx : x ∈ xs) : ∃ y ∈ ys, k x = .ok y := by
  induction xs generalizing ys with
  | nil => cases hx
  | cons x' rest ih =>
    rw [List.mapM_cons] at h
    obtain ⟨y, hy, h⟩ := exists_of_except_bind h
    obtain ⟨zs, hzs, h⟩ := exists_of_except_bind h
    obtain rfl := Except.ok.inj h
    obtain rfl | hx := List.mem_cons.1 hx
    · exact ⟨y, by simp, hy⟩
    · obtain ⟨z, hz, heq⟩ := ih hzs hx
      exact ⟨z, by simp [hz], heq⟩

private theorem eq_true_of_allM {α : Type} {k : α → Except Fault Bool} {xs : List α} (h : xs.allM k = .ok true) :
    ∀ x ∈ xs, k x = .ok true := by
  induction xs with
  | nil => simp
  | cons x rest ih =>
    obtain ⟨b, hb, h⟩ := exists_of_except_bind h
    cases b with
    | false => cases h
    | true => exact List.forall_mem_cons.2 ⟨hb, ih h⟩

/-- The links of a flow lead from an operand back to a register as it was on entry, through copies and merges. -/
inductive Traced (f : Flow) (n : String) : NodeId → Prop
  | entry {x : NodeId} {k : Option Nat} (hx : f.exprAt x = some (.register n k)) (hlink : f.linkOf x = .use none) :
    Traced f n x
  | copy {x d r y : NodeId} (hlink : f.linkOf x = .use (some d)) (hr : f.exprAt r = some (.assign d y))
    (hy : Traced f n y) : Traced f n x
  | merge {x d r y : NodeId} {inputs : List NodeId} (hlink : f.linkOf x = .use (some d))
    (hr : f.exprAt r = some (.assign d y)) (hy : f.exprAt y = some (.theta inputs))
    (h : ∀ z ∈ inputs, Traced f n z) : Traced f n x

/-- The links lead back from what is assigned to a definition. -/
def AssignsTraced (f : Flow) (n : String) (d : NodeId) : Prop :=
  ∃ r y, f.exprAt r = some (.assign d y) ∧
    (Traced f n y ∨ ∃ inputs, f.exprAt y = some (.theta inputs) ∧ ∀ z ∈ inputs, Traced f n z)

theorem AssignsTraced.traced (h : AssignsTraced f n d) (hlink : f.linkOf x = .use (some d)) : Traced f n x := by
  obtain ⟨r, y, hr, hy | ⟨inputs, hy, hall⟩⟩ := h
  · exact .copy hlink hr hy
  · exact .merge hlink hr hy hall

theorem traced_of_holdsEntryValue {chase : NodeId → Nat → Except Fault (Bool × Nat)}
    (hchase : ∀ d budget left, chase d budget = .ok (true, left) → AssignsTraced f n d)
    (h : holdsEntryValue f n chase x budget = .ok (true, left)) : Traced f n x := by
  obtain ⟨e, he, h⟩ := exists_of_except_bind h
  split at h
  · cases h
  obtain ⟨l, hl, h⟩ := exists_of_except_bind h
  have hlink := linkOf_of_link hl
  split at h
  · split at h
    next m k _ _ =>
      obtain rfl : m = n := by simpa using congrArg Prod.fst (Except.ok.inj h)
      exact .entry (exprAt_of_expr he) hlink
    · cases h
  next d => exact (hchase d budget left h).traced hlink
  · cases h

theorem exists_of_allWithin {α : Type} {test : α → Nat → Except Fault (Bool × Nat)} {xs : List α} {y : α}
    (h : allWithin test xs budget = .ok (true, left)) (hy : y ∈ xs) : ∃ b l, test y b = .ok (true, l) := by
  induction xs generalizing budget with
  | nil => cases hy
  | cons x rest ih =>
    obtain ⟨⟨b, l⟩, hx, h⟩ := exists_of_except_bind h
    cases b with
    | false => cases h
    | true =>
      obtain rfl | hy := List.mem_cons.1 hy
      · exact ⟨_, _, hx⟩
      · exact ih h hy

/-- A definition that is found to assign the value on entry has links that lead back to it. -/
theorem assignsTraced_of_definesEntryValue {depth : Nat}
    (h : definesEntryValue f n depth d budget = .ok (true, left)) : AssignsTraced f n d := by
  induction depth generalizing d budget left with
  | zero => cases h
  | succ depth ih =>
    cases budget with
    | zero => cases h
    | succ budget =>
      obtain ⟨value, hvalue, h⟩ := exists_of_except_bind h
      cases value with
      | none => cases h
      | some y =>
        obtain ⟨r, hr⟩ : ∃ r, f.exprAt r = some (.assign d y) := by
          obtain ⟨e, he, hvalue⟩ := exists_of_except_bind hvalue
          split at hvalue
          next target value =>
            obtain ⟨_, r, _, -, hr⟩ := exists_of_parentExpr? he
            have hvalue := Except.ok.inj hvalue
            split at hvalue
            next htarget =>
              obtain rfl := Option.some.inj hvalue
              exact ⟨r, htarget ▸ exprAt_eq_some hr⟩
            · cases hvalue
          · cases hvalue
        obtain ⟨e, he, h⟩ := exists_of_except_bind h
        have hchase : ∀ d budget left, definesEntryValue f n depth d budget = .ok (true, left) →
            AssignsTraced f n d := fun d budget left h => ih h
        refine ⟨r, y, hr, ?_⟩
        split at h
        next inputs =>
          refine .inr ⟨inputs, exprAt_of_expr he, fun z hz => ?_⟩
          obtain ⟨b, l, hz⟩ := exists_of_allWithin h hz
          exact traced_of_holdsEntryValue hchase hz
        · exact .inl (traced_of_holdsEntryValue hchase h)

@[simp] theorem Expr.isReturn_map {α β : Type} (φ : α → β) (e : Expr α) : (e.map φ).isReturn = e.isReturn := by
  cases e <;> rfl

/-- What reaches a return in a block is found there. -/
theorem mem_of_returnsOf {reach : Reach} {t : Term} {reaches : List Reach} (hpre : ∀ s ∈ pre, ∃ t, f.Holds s t)
    (ht : f.Holds c t) (hreturn : t.expr.isReturn = true)
    (hrun : returnsOf f reach (pre ++ c :: post) = .ok reaches) :
    (pre.filterMap (Summary.definitionOf f locateTagged)).foldl Reach.after reach ∈ reaches := by
  induction pre generalizing reach reaches with
  | nil =>
    rw [List.nil_append, returnsOf_cons ht, ht.rootExpr_eq] at hrun
    obtain ⟨later, -, hrun⟩ := exists_of_except_bind hrun
    rw [bind_ok, Expr.isReturn_map, hreturn] at hrun
    obtain rfl := Except.ok.inj hrun
    exact List.mem_cons_self
  | cons s rest ih =>
    obtain ⟨u, hu⟩ := hpre s (by simp)
    rw [List.cons_append, returnsOf_cons hu, hu.rootExpr_eq] at hrun
    obtain ⟨later, hlater, hrun⟩ := exists_of_except_bind hrun
    obtain rfl := Except.ok.inj hrun
    have hmem := ih (fun s hs => hpre s (by simp [hs])) hlater
    have hfold : ((s :: rest).filterMap (Summary.definitionOf f locateTagged)).foldl Reach.after reach =
        (rest.filterMap (Summary.definitionOf f locateTagged)).foldl Reach.after
          ((Summary.definitionOf f locateTagged s).elim reach reach.after) := by
      cases h : Summary.definitionOf f locateTagged s <;> simp [h]
    rw [hfold]
    split
    · exact List.mem_cons_of_mem _ hmem
    · exact hmem

/-- On a way to a return, a register that is found to be restored was assigned last what the links lead back from. -/
theorem assignsTraced_of_restoredRegisters {stackPointer : String} {t : Term} (hf : f.Forest)
    (hconnected : f.Connected) (hrs : f.restoredRegisters stackPointer = .ok rs) (hn : n ∈ rs) (hpath : f.Path as a)
    (hsplit : f.statementsAt a = pre ++ c :: post) (ht : f.Holds c t) (hreturn : t.expr.isReturn = true)
    (hlast : Definition.lastSite? n
      ((as.flatMap f.statementsAt ++ pre).filterMap (Summary.definitionOf f locateTagged)) = some d) :
    AssignsTraced f n d := by
  have ha := hconnected.ne_none_of_path hpath
  unfold restoredRegisters at hrs
  rw [Summary.ofFlow_eq hf, bind_ok] at hrs
  obtain ⟨returns, hreturns, hrs⟩ := exists_of_except_bind hrs
  -- the definition reaches the return, and that is among those that are looked at
  obtain ⟨reach, hreach, hpoint⟩ : ∃ reach ∈ returns, .definition d ∈ reach.points n := by
    obtain ⟨rss, hrss, heq⟩ := exists_of_except_bind hreturns
    obtain rfl := Except.ok.inj heq
    obtain ⟨reaches, hmem, hrun⟩ := exists_of_mapM hrss (Summary.mem_blocks.2 ⟨a, ha, rfl⟩)
    have hstart : ((Summary.summaryOf f locateTagged).analyze.ins.find? a).getD .empty =
        (Summary.summaryOf f locateTagged).reachIn (Summary.summaryOf f locateTagged).reachOut
          (Summary.blockAt f locateTagged a) := by
      rw [Summary.ins_summaryOf hf ha, Option.getD_some]
    change returnsOf f (((Summary.summaryOf f locateTagged).analyze.ins.find? a).getD .empty)
      (f.statementsAt a) = _ at hrun
    rw [hstart, hsplit] at hrun
    refine ⟨_, List.mem_flatten.2 ⟨reaches, hmem, mem_of_returnsOf (fun s hs => hf.exists_holds (a := a)
      (by simp [hsplit, hs])) ht hreturn hrun⟩, Reach.mem_points_of_brings (Reach.brings_foldl_after.2 ?_)⟩
    rw [List.filterMap_append, Definition.lastSite?_append] at hlast
    cases hpre : Definition.lastSite? n (pre.filterMap (Summary.definitionOf f locateTagged)) with
    | some y =>
      rw [hpre] at hlast
      cases hlast
      rfl
    | none =>
      rw [hpre] at hlast
      exact (Summary.brings_iff hf hconnected ha).2 ⟨as, hpath, hlast.symm⟩
  split at hrs
  next hempty =>
    rw [List.isEmpty_iff.1 hempty] at hreach
    cases hreach
  · obtain ⟨-, rfl⟩ := filterM_eq_ok_iff.1 hrs
    obtain ⟨hlocation, htest⟩ := List.mem_filter.1 hn
    have htest : isRestored f returns n = .ok true := by
      cases h : isRestored f returns n <;> simp_all [Except.toOption]
    obtain ⟨⟨b, left⟩, hchase, heq⟩ := exists_of_except_bind (eq_true_of_allM (eq_true_of_allM htest _ hreach) _ hpoint)
    obtain rfl : b = true := Except.ok.inj heq
    exact assignsTraced_of_definesEntryValue hchase

end Restored

end FrameRecovery
