import FrameRecovery.Proofs.Passes
import FrameRecovery.Proofs.Tagging.Bared

namespace FrameRecovery

open FrameRecovery.Flow

theorem List.pair_sublist_concat_iff {α : Type} {a b c : α} {l : List α} :
    [a, b].Sublist (l ++ [c]) ↔ [a, b].Sublist l ∨ a ∈ l ∧ b = c := by
  have hreverse : ∀ r : List α, [a, b].Sublist r ↔ [b, a].Sublist r.reverse := fun _ => List.reverse_sublist.symm
  rw [hreverse, hreverse, List.reverse_append, List.reverse_singleton, List.singleton_append, List.sublist_cons_iff]
  refine or_congr_right ⟨?_, ?_⟩
  · rintro ⟨r, heq, hr⟩
    obtain ⟨rfl, rfl⟩ := List.cons.inj heq
    exact ⟨List.mem_reverse.1 (List.singleton_sublist.1 hr), rfl⟩
  · rintro ⟨ha, rfl⟩
    exact ⟨[a], rfl, List.singleton_sublist.2 (List.mem_reverse.2 ha)⟩

namespace Tagging

/-- What is recorded as a read has no reads recorded. -/
def Flat (link : NodeId → Link) : Prop :=
  ∀ d, ∀ u ∈ (link d).uses, (link u).uses = []

variable {link : NodeId → Link} {x y d u : NodeId} {ys : List NodeId}

/-- Removing a link records nothing. -/
theorem uses_unlinked_subset (link : NodeId → Link) (x y : NodeId) :
    (Edit.unlinked link x y).uses ⊆ (link y).uses := by
  unfold Edit.unlinked
  split <;> grind [Link.uses]

theorem Flat.unlinked (h : Flat link) (x : NodeId) : Flat (Edit.unlinked link x) := fun d u hu =>
  List.subset_nil.1 (h d u (uses_unlinked_subset link x d hu) ▸ uses_unlinked_subset link x u)

/-- What is recorded of one node elsewhere is not touched when the link of another one is removed. -/
theorem Flat.mem_uses_unlinked_iff (h : Flat link) (hd : d ≠ x) (hu : u ≠ x) :
    u ∈ (Edit.unlinked link x d).uses ↔ u ∈ (link d).uses := by
  obtain ⟨us, hus, hmem, heq⟩ | ⟨us, hus, heq⟩ | ⟨heq, -⟩ := unlinked_cases link hd
  · rw [heq, h x d (by simpa [hus] using hmem)]
    exact Iff.rfl
  · simp [heq, hus, hu]
  · rw [heq]

theorem Flat.mem_uses_foldl_iff (h : Flat link) (hd : d ∉ ys) (hu : u ∉ ys) :
    u ∈ (ys.foldl Edit.unlinked link d).uses ↔ u ∈ (link d).uses := by
  induction ys generalizing link with
  | nil => rfl
  | cons y ys ih =>
    rw [List.mem_cons, not_or] at hd hu
    rw [List.foldl_cons, ih (h.unlinked y) hd.2 hu.2, h.mem_uses_unlinked_iff hd.1 hu.1]

theorem uses_foldl_subset : (ys.foldl Edit.unlinked link d).uses ⊆ (link d).uses := by
  induction ys generalizing link with
  | nil => exact List.Subset.refl _
  | cons y ys ih => exact List.Subset.trans ih (uses_unlinked_subset link y d)

/-- A node without a definition comes to read the value on entry where a node that recorded it is unlinked. -/
theorem unlinked_eq_use_none_iff (hx : (link x).Free) (hne : x ≠ y) : (Edit.unlinked link y x).Free ∧
    (Edit.unlinked link y x = .use none ↔ link x = .use none ∨ x ∈ (link y).uses) := by
  by_cases hmem : x ∈ (link y).uses
  · have heq : Edit.unlinked link y x = .use none := by
      unfold Edit.unlinked
      rw [Link.eq_definition_of_mem_uses hmem]
      exact if_pos hmem
    exact ⟨.inr heq, iff_of_true heq (.inr hmem)⟩
  · obtain ⟨us, hus, hmem', -⟩ | ⟨us, hus, -⟩ | ⟨heq, -⟩ := unlinked_cases link hne
    · exact absurd (by simpa [hus] using hmem') hmem
    · simp [Link.Free, hus] at hx
    · exact ⟨heq ▸ hx, by simp [heq, hmem]⟩

/-- After some nodes were unlinked a node reads the value on entry if it did before, or if one of them recorded it. -/
theorem Flat.foldl_eq_use_none_iff (h : Flat link) (hx : (link x).Free) (hnot : x ∉ ys) (hnodup : ys.Nodup) :
    ys.foldl Edit.unlinked link x = .use none ↔ link x = .use none ∨ ∃ y ∈ ys, x ∈ (link y).uses := by
  induction ys generalizing link with
  | nil => simp
  | cons y ys ih =>
    rw [List.mem_cons, not_or] at hnot
    obtain ⟨hy, hnodup⟩ := List.nodup_cons.1 hnodup
    obtain ⟨hfree, hread⟩ := unlinked_eq_use_none_iff hx hnot.1
    have hothers : (∃ z ∈ ys, x ∈ (Edit.unlinked link y z).uses) ↔ ∃ z ∈ ys, x ∈ (link z).uses :=
      exists_congr fun z => and_congr_right fun hz =>
        h.mem_uses_unlinked_iff (fun hzy => hy (hzy ▸ hz)) hnot.1
    rw [List.foldl_cons, ih (h.unlinked y) hfree hnot.2 hnodup, hread, hothers, or_assoc, List.exists_mem_cons_iff]

end Tagging

namespace Flow

variable {f : Flow} {ss : List StatementId} {s m : StatementId} {x : NodeId}

/-- A statement `s` stands in a list before a merge that its node `x` reads. -/
def ReadsAhead (f : Flow) (ss : List StatementId) (s : StatementId) (x : NodeId) : Prop :=
  ∃ m t d, [s, m].Sublist ss ∧ f.isMerge m = true ∧ f.Holds m t ∧ d ∈ t.preorder ∧ f.linkOf x = .use (some d)

theorem readsAhead_concat_iff : f.ReadsAhead (ss ++ [m]) s x ↔ f.ReadsAhead ss s x ∨
    s ∈ ss ∧ f.isMerge m = true ∧ ∃ t d, f.Holds m t ∧ d ∈ t.preorder ∧ f.linkOf x = .use (some d) := by
  constructor
  · rintro ⟨m', t, d, hsub, hrest⟩
    obtain hsub | ⟨hs, rfl⟩ := List.pair_sublist_concat_iff.1 hsub
    · exact .inl ⟨m', t, d, hsub, hrest⟩
    · exact .inr ⟨hs, hrest.1, t, d, hrest.2⟩
  · rintro (⟨m', t, d, hsub, hrest⟩ | ⟨hs, hmerge, t, d, hrest⟩)
    · exact ⟨m', t, d, List.pair_sublist_concat_iff.2 (.inl hsub), hrest⟩
    · exact ⟨m, t, d, List.pair_sublist_concat_iff.2 (.inr ⟨hs, rfl⟩), hmerge, hrest⟩

end Flow

namespace Tagging

variable {f g h : Flow} {V : Locations} {s : StatementId} {t : Term} {done rest : List StatementId} {x : NodeId}

theorem flat_of_mirrored (hf : f.Mirrored) : Flat f.linkOf := fun d u hu => by
  rw [(hf.recorded u d).2 hu, Link.uses_use]

/-- The links of a flow, `f` before, in which the statements `done` are untagged and the statements `rest` are not. -/
structure Leaving (f : Flow) (done rest : List StatementId) (g : Flow) : Prop where
  shrunk : ∀ d, (g.linkOf d).uses ⊆ (f.linkOf d).uses
  kept : ∀ s t u d, f.Live s → f.isMerge s = false → f.Holds s t → u ∈ t.preorder → Among f rest d →
    f.linkOf u = .use (some d) → u ∈ (g.linkOf d).uses
  left : ∀ s t x, s ∈ done → f.isMerge s = false → f.Holds s t → x ∈ t.preorder →
    (g.linkOf x = .use none ↔ f.ReadsAhead done s x)

theorem Leaving.start (hf : f.Mirrored) : Leaving f [] f.liveStatements f :=
  ⟨fun _ _ h => h, fun _ _ u d _ _ _ _ _ hread => (hf.recorded u d).1 hread, nofun⟩

theorem Leaving.flat (hg : Leaving f done rest g) (hf : f.Mirrored) : Flat g.linkOf := fun d u hu =>
  List.subset_nil.1 (flat_of_mirrored hf d u (hg.shrunk d hu) ▸ hg.shrunk u)

section Step

variable (hg : Leaving f done (s :: rest) g) (hf : f.Sound V) (hbaring : Baring f (s :: rest) g)
  (huntagging : Untagging f (s :: rest) g) (hsplit : f.liveStatements = done ++ s :: rest) (ht : g.Holds s t)
include hg hf hbaring huntagging hsplit ht

/-- After a merge is gone, what read it and was untagged before reads the value on entry. -/
theorem Leaving.merge (hmerge : f.isMerge s = true) (hlink : h.linkOf = t.postorder.foldl Edit.unlinked g.linkOf) :
    Leaving f (done ++ [s]) rest h := by
  obtain ⟨T, hT, hpreorder⟩ := hbaring.exists_holds hf.forest (huntagging.live s (by simp)) ht
  have hnodup := hf.forest.nodup_liveStatements
  rw [hsplit] at hnodup
  have hflat := hg.flat hf.mirrored
  have hin : ∀ {s' t' x}, f.Holds s' t' → x ∈ t'.preorder → x ∈ t.postorder → s' = s := fun ht' hx hmem =>
    ht'.statement_unique hT hx (hpreorder ▸ Term.mem_postorder.1 hmem)
  have hplain : ∀ {s'}, f.isMerge s' = false → s' ≠ s := by
    rintro _ hs' rfl
    rw [hmerge] at hs'
    cases hs'
  refine ⟨fun d => hlink ▸ List.Subset.trans uses_foldl_subset (hg.shrunk d),
    fun s' t' u d hlive hs' ht' hu hd hread => ?_, fun s' t' x hdone hs' ht' hx => ?_⟩
  · obtain ⟨c, hc, tc, htc, hdc⟩ := hd
    have hdt : d ∉ t.postorder := fun hmem => by
      have hs := (List.nodup_cons.1 huntagging.nodup).1
      exact hs (hin htc hdc hmem ▸ hc)
    rw [hlink, hflat.mem_uses_foldl_iff hdt fun hmem => hplain hs' (hin ht' hu hmem)]
    exact hg.kept s' t' u d hlive hs' ht' hu ⟨c, by simp [hc], tc, htc, hdc⟩ hread
  · have hdone : s' ∈ done := (List.mem_append.1 hdone).resolve_right fun h => hplain hs' (List.mem_singleton.1 h)
    have hlive : s' ∈ f.liveStatements := by simp [hsplit, hdone]
    have hafter : s' ∉ s :: rest := fun hmem => (List.nodup_append.1 hnodup).2.2 s' hdone s' hmem rfl
    -- the node is one that was untagged before
    have hliveg := huntagging.forest.mem_liveStatements.1
      ((hbaring.mem_liveStatements_iff huntagging.graph).2 ⟨hlive, .inr hs'⟩)
    obtain ⟨st', hst', -⟩ := id hliveg
    obtain ⟨tg, htg⟩ := huntagging.forest.holds s' st' hst'
    obtain ⟨t'', ht'', hpreorder'⟩ := hbaring.exists_holds hf.forest hliveg htg
    obtain rfl := ht'.unique ht''
    have hfree := huntagging.fading.free x ⟨s', tg, hafter, hliveg, htg, hpreorder' ▸ hx⟩
    rw [hlink, hflat.foldl_eq_use_none_iff hfree (fun hmem => hplain hs' (hin ht' hx hmem))
      (t.postorder_perm.nodup_iff.2 ht.nodup), hg.left s' t' x hdone hs' ht' hx, readsAhead_concat_iff]
    refine or_congr_right ⟨?_, ?_⟩
    · rintro ⟨d, hd, hrecorded⟩
      exact ⟨hdone, hmerge, T, d, hT, hpreorder ▸ Term.mem_postorder.1 hd,
        (hf.mirrored.recorded x d).2 (hg.shrunk d hrecorded)⟩
    · rintro ⟨-, -, T', d, hT', hd, hread⟩
      obtain rfl := hT.unique hT'
      exact ⟨d, Term.mem_postorder.2 (hpreorder ▸ hd),
        hg.kept s' t' x d (hf.forest.mem_liveStatements.1 hlive) hs' ht' hx ⟨s, by simp, T, hT, hd⟩ hread⟩

/-- A statement that is no merge loses its links, and no other ones are touched. -/
theorem Leaving.plain {xs : List NodeId} (hplain : f.isMerge s = false) (hxs : ∀ x, x ∈ xs ↔ x ∈ t.preorder)
    (hstrips : Strips g xs h) : Leaving f (done ++ [s]) rest h := by
  obtain ⟨T, hT, hpreorder⟩ := hbaring.exists_holds hf.forest (huntagging.live s (by simp)) ht
  have hnodup := hf.forest.nodup_liveStatements
  rw [hsplit] at hnodup
  have hs : s ∉ done := fun hmem => (List.nodup_append.1 hnodup).2.2 s hmem s (by simp) rfl
  have hother : ∀ {s' t' x}, f.Holds s' t' → x ∈ t'.preorder → s' ≠ s → h.linkOf x = g.linkOf x := by
    intro s' t' x ht' hx hne
    rw [hstrips.link, if_neg fun hmem => hne (ht'.statement_unique hT hx (hpreorder ▸ (hxs x).1 hmem))]
  refine ⟨fun d => ?_, fun s' t' u d hlive hs' ht' hu hd hread => ?_, fun s' t' x hdone hs' ht' hx => ?_⟩
  · rw [hstrips.link]
    split
    · simp
    · exact hg.shrunk d
  · obtain ⟨c, hc, tc, htc, hdc⟩ := hd
    rw [hother htc hdc fun hcs => (List.nodup_cons.1 huntagging.nodup).1 (hcs ▸ hc)]
    exact hg.kept s' t' u d hlive hs' ht' hu ⟨c, by simp [hc], tc, htc, hdc⟩ hread
  · rw [readsAhead_concat_iff]
    by_cases hss : s' = s
    · subst hss
      have hx : x ∈ xs := (hxs x).2 (hpreorder ▸ hT.unique ht' ▸ hx)
      rw [hstrips.link, if_pos hx]
      refine iff_of_false nofun ?_
      rintro (⟨m, -, -, hsub, -⟩ | ⟨hmem, -⟩)
      · exact hs (hsub.subset (by simp))
      · exact hs hmem
    · have hdone : s' ∈ done := (List.mem_append.1 hdone).resolve_right (by simpa using hss)
      rw [hother ht' hx hss, hg.left s' t' x hdone hs' ht' hx]
      simp [hplain]

end Step

/-- Untagging clears the versions and links of all that is left, but for the reads of merges that stand before the
    merge they read: these come to read the value on entry. -/
theorem untag_clears (hf : f.Sound V) (hrooted : f.Rooted) : Gives untag f fun _ g => g.Sound .any ∧
    ∀ s t x, g.Live s → g.Holds s t → x ∈ t.preorder → (∀ e, g.exprAt x = some e → e.version? = none) ∧
      (f.ReadsAhead f.liveStatements s x → g.linkOf x = .use none) ∧
      (¬ f.ReadsAhead f.liveStatements s x → g.linkOf x = .unlinked) := by
  refine (untag_keeps (I := fun rest g => Baring f rest g ∧
    ∃ done, f.liveStatements = done ++ rest ∧ Leaving f done rest g) hf hrooted
    ⟨.start hf.forest, [], rfl, .start hf.mirrored⟩ ?_).mono ?_
  · rintro s rest t g h huntagging ht huntags ⟨hbaring, done, hsplit, hg⟩
    refine ⟨hbaring.untags hf.forest huntagging ht huntags, done ++ [s], by simp [hsplit], ?_⟩
    obtain ⟨hmerge, -, hlink⟩ | ⟨hplain, xs, hxs, hstrips⟩ :=
      huntags.isMerge_cases hbaring hf.forest (huntagging.live s (by simp))
    · exact hg.merge hf hbaring huntagging hsplit ht hmerge hlink
    · exact hg.plain hf hbaring huntagging hsplit ht hplain hxs hstrips
  · rintro - g ⟨huntagging, hbaring, done, hsplit, hg⟩
    refine ⟨huntagging.sound, fun s t x hs ht hx => ?_⟩
    rw [List.append_nil] at hsplit
    obtain ⟨hlive, hplain⟩ := (hbaring.mem_liveStatements_iff huntagging.graph).1
      (huntagging.forest.mem_liveStatements.2 hs)
    have hplain := hplain.resolve_left List.not_mem_nil
    obtain ⟨T, hT, hpreorder⟩ := hbaring.exists_holds hf.forest hs ht
    have hx' : x ∈ T.preorder := hpreorder ▸ hx
    refine ⟨fun e he => ?_, ?_⟩
    · obtain ⟨p, hp⟩ := exists_shapeAt_of_exprAt he
      exact hbaring.bare s T (hf.forest.mem_liveStatements.1 hlive) hplain List.not_mem_nil hT x hx' e p hp
    · rw [hsplit, ← hg.left s T x (hsplit ▸ hlive) hplain hT hx']
      refine ⟨id, fun hread => ?_⟩
      exact (huntagging.fading.free x ⟨s, t, List.not_mem_nil, hs, ht, hx⟩).resolve_right hread

end Tagging

namespace FlowPass

/-- Whatever passes were run before, untagging leaves no version and no link, but for the reads of merges that stand
    before the merge they read. -/
theorem untag_clears_after_passes {f : Flow} (hf : f.IsLowered) (name stackPointer : String) (passes : List FlowPass) :
    ∃ g h, (passes.forM (run { name, stackPointer })).run f = .ok (.ok (), g) ∧ Tagging.untag.run g = .ok ((), h) ∧
      ∀ s t x, h.Live s → h.Holds s t → x ∈ t.preorder → (∀ e, h.exprAt x = some e → e.version? = none) ∧
        (g.ReadsAhead g.liveStatements s x → h.linkOf x = .use none) ∧
        (¬ g.ReadsAhead g.liveStatements s x → h.linkOf x = .unlinked) := by
  obtain ⟨_, g, hrun, _, rfl, hg⟩ := runs_succeed (m := { name, stackPointer }) rfl hf passes
  obtain ⟨_, h, huntag, -, hcleared⟩ := Tagging.untag_clears hg.sound hg.rooted
  exact ⟨g, h, hrun, huntag, hcleared⟩

/-- A function in which two ways to change the stack pointer meet behind the statement that uses it. -/
def meetingText : String :=
  "0: if eax goto 5\n1: esp = esp - 8\n2: goto 5\n3: [esp] = 1\n4: return\n5: esp = esp - 4\n6: goto 3"

/-- The flow of the function. -/
def meetingFlow : Flow :=
  (Flow.ofText? meetingText 0).get (by decide +kernel)

/-- There propagation puts a read of the merge into the statement before it, and untagging leaves that read a link. -/
theorem untag_leaves_link : ∃ f g h x, f.IsLowered ∧
    ([tag .registers, propagateStackPointer].forM (run { name := "x86", stackPointer := "esp" })).run f =
      .ok (.ok (), g) ∧ Tagging.untag.run g = .ok ((), h) ∧ h.isLive x = .ok true ∧ h.linkOf x = .use none := by
  generalize hx : [tag .registers, propagateStackPointer].forM (run { name := "x86", stackPointer := "esp" }) = passes
  obtain ⟨⟨r, g⟩, hr, hok, ⟨⟨⟩, h⟩, hh, hlive, hlink⟩ : ∃ r ∈ (passes.run meetingFlow).toOption,
      r.1.isOk = true ∧ ∃ h ∈ (Tagging.untag.run r.2).toOption, h.2.isLive ⟨24⟩ = .ok true ∧ h.2.linkOf ⟨24⟩ = .use none := by
    subst hx
    decide +kernel
  cases r with
  | error e => cases hok
  | ok u =>
    exact ⟨meetingFlow, g, h, ⟨24⟩, ⟨meetingText, 0, (Option.some_get _).symm⟩, ok_of_mem_toOption hr,
      ok_of_mem_toOption hh, hlive, hlink⟩

end FlowPass

end FrameRecovery
