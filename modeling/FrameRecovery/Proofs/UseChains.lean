import FrameRecovery.Proofs.Flow.Coherent
import FrameRecovery.UseChains

namespace FrameRecovery

open Flow

namespace UseChains

variable {f : Flow} {V : Locations} {s : StatementId} {t : Term} {x d : NodeId}

theorem isLive_eq_true (hx : f.Held x) : f.isLive x = .ok true := by
  obtain ⟨s, t, hs, ht, hx⟩ := hx
  exact ht.isLive_eq hs hx

theorem checkRead_succeeds (hf : f.Sound V) (hx : f.linkOf x = .use (some d)) :
    Succeeds (checkRead x d) f fun _ g => g = f := by
  have hmem := (hf.mirrored.recorded x d).1 hx
  have hd := hf.held d (by rw [Link.eq_definition_of_mem_uses hmem]; simp)
  obtain ⟨e, p, hshape⟩ := hd.exists_shape
  unfold checkRead
  refine .of_bind (.of_view (isLive_eq_true hd) ?_)
  refine .of_bind (.of_view (uses_eq hshape) ?_)
  rw [if_neg (by simpa using hmem)]
  exact .of_pure rfl

theorem checkRecord_succeeds (hf : f.Sound V) (hx : f.linkOf x = .use (some d)) :
    Succeeds (checkRecord d x) f fun _ g => g = f := by
  have hheld := hf.held x (by simp [hx])
  obtain ⟨e, p, hshape⟩ := hheld.exists_shape
  unfold checkRecord
  refine .of_bind (.of_view (link_eq hshape) ?_)
  refine .of_bind (.of_view (isLive_eq_true hheld) ?_)
  rw [if_neg (by simp [hx])]
  exact .of_pure rfl

theorem checkNode_succeeds (hf : f.Sound V) (hx : f.shapeAt x ≠ none) :
    Succeeds (checkNode x) f fun _ g => g = f := by
  obtain ⟨⟨e, p⟩, hshape⟩ := Option.ne_none_iff_exists'.1 hx
  unfold checkNode
  refine .of_bind (.of_view (link_eq hshape) ?_)
  rcases hl : f.linkOf x with _ | us | _ | d
  · exact .of_pure rfl
  · refine (Succeeds.of_forM (I := fun us g => g = f ∧ ∀ u ∈ us, f.linkOf u = .use (some x)) ?_ us
      ⟨rfl, fun u hu => ?_⟩).mono fun _ g hg => hg.1
    · rintro u rest g ⟨rfl, hus⟩
      refine (checkRecord_succeeds hf (hus u (by simp))).mono ?_
      rintro - _ rfl
      exact ⟨rfl, fun v hv => hus v (by simp [hv])⟩
    · exact (hf.mirrored.recorded u x).2 (by simpa [hl] using hu)
  · exact .of_pure rfl
  · exact checkRead_succeeds hf hl

theorem checkStatement_succeeds (hf : f.Sound V) (ht : f.Holds s t) :
    Succeeds (checkStatement s) f fun _ g => g = f := by
  obtain ⟨st, hst, hroot, -⟩ := id ht
  have hchecks : Succeeds (t.preorder.tail.forM checkNode) f fun _ g => g = f := by
    refine (Succeeds.of_forM (I := fun xs g => g = f ∧ xs ⊆ t.preorder) ?_ _
      ⟨rfl, fun _ h => List.mem_of_mem_tail h⟩).mono fun _ g hg => hg.1
    rintro x rest g ⟨rfl, hxs⟩
    refine (checkNode_succeeds hf (ht.stands.shapeAt_ne_none (hxs (by simp)))).mono ?_
    rintro - _ rfl
    exact ⟨rfl, fun y hy => hxs (by simp [hy])⟩
  unfold checkStatement
  refine .of_bind (.of_view ht.operands_eq (.of_bind (hchecks.mono ?_)))
  rintro - _ rfl
  refine .of_bind (.of_view (statement_eq hst) ?_)
  rw [hroot]
  exact checkNode_succeeds hf (ht.stands.shapeAt_ne_none t.id_mem_preorder)

end UseChains

open UseChains in
/-- The use chains of a sound flow are in order. -/
theorem verifyUseChains_succeeds {f : Flow} {V : Locations} (hf : f.Sound V) :
    Succeeds verifyUseChains f fun _ g => g = f := by
  unfold verifyUseChains
  refine .of_bind (.of_get ?_)
  refine (Succeeds.of_forM (I := fun rest g => g = f ∧ rest ⊆ f.liveStatements) ?_ _
    ⟨rfl, fun _ h => h⟩).mono fun _ g hg => hg.1
  rintro s rest g ⟨rfl, hrest⟩
  obtain ⟨t, ht⟩ := hf.forest.holds_of_mem (hrest (List.mem_cons_self ..))
  refine (checkStatement_succeeds hf ht).mono ?_
  rintro - _ rfl
  exact ⟨rfl, fun x hx => hrest (by simp [hx])⟩

end FrameRecovery
