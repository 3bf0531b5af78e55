import FrameRecovery.Proofs.Flow.Orderly
import FrameRecovery.Proofs.Tagging.Tag
import FrameRecovery.Proofs.Tagging.Untag
import Mathlib.Data.List.Infix

namespace FrameRecovery

theorem LocationKind.Fits.of_untag_eq {kind : LocationKind} {l : Location} {v : Option Nat} {e e' : Expr NodeId}
    (h : kind.Fits l v e) (heq : kind.untag e' = kind.untag e) : ∃ w, kind.Fits l w e' := by
  cases kind with
  | registers =>
    obtain rfl := h
    cases e' <;> simp only [untag, reduceCtorEq, Expr.register.injEq] at heq
    exact ⟨_, congrArg (Expr.register · _) heq.1⟩
  | derefs =>
    obtain ⟨x, rfl⟩ := h
    cases e' <;> simp only [untag, reduceCtorEq, Expr.deref.injEq] at heq
    exact ⟨_, _, rfl⟩

namespace Flow

variable {f g h : Flow} {kind : LocationKind} {l : Location} {x y : NodeId} {ys : List NodeId}

/-- A node is an operand of a kind, in any version. -/
def Operand (f : Flow) (kind : LocationKind) (l : Location) (x : NodeId) : Prop :=
  ∃ e v, f.exprAt x = some e ∧ kind.Fits l v e

theorem Operand.exprAt_ne_none (h : f.Operand kind l x) : f.exprAt x ≠ none := by
  obtain ⟨e, v, he, -⟩ := h
  simp [he]

/-- The nodes of a flow `f` are in a flow `g`, with their expressions up to the versions of operands
    of a kind. -/
structure Keeps (f : Flow) (kind : LocationKind) (g : Flow) : Prop where
  expr : ∀ x e, f.exprAt x = some e → ∃ e', g.exprAt x = some e' ∧ kind.untag e' = kind.untag e
  graph : f.SameGraph g

namespace Keeps

theorem of_exprAt (hexpr : ∀ x, f.exprAt x ≠ none → g.exprAt x = f.exprAt x) (hgraph : f.SameGraph g) :
    f.Keeps kind g :=
  ⟨fun x e hx => ⟨e, (hexpr x (by simp [hx])).trans hx, rfl⟩, hgraph⟩

theorem refl (f : Flow) : f.Keeps kind f :=
  .of_exprAt (fun _ _ => rfl) (.refl f)

theorem trans (hfg : f.Keeps kind g) (hgh : g.Keeps kind h) : f.Keeps kind h := by
  refine ⟨fun x e hx => ?_, hfg.graph.trans hgh.graph⟩
  obtain ⟨e', hg, he'⟩ := hfg.expr x e hx
  obtain ⟨e'', hh, he''⟩ := hgh.expr x e' hg
  exact ⟨e'', hh, he''.trans he'⟩

theorem ne_none (hfg : f.Keeps kind g) (hx : f.exprAt x ≠ none) : g.exprAt x ≠ none := by
  obtain ⟨e, hx⟩ := Option.ne_none_iff_exists'.1 hx
  obtain ⟨e', hg, -⟩ := hfg.expr x e hx
  simp [hg]

theorem operand (hfg : f.Keeps kind g) (hx : f.Operand kind l x) : g.Operand kind l x := by
  obtain ⟨e, v, he, hfits⟩ := hx
  obtain ⟨e', hg, heq⟩ := hfg.expr x e he
  obtain ⟨w, hfits'⟩ := hfits.of_untag_eq heq
  exact ⟨e', w, hg, hfits'⟩

end Keeps

/-- A flow `g` is a flow `f` in which some drafts were made, one apart from the other. -/
structure Sketches (kind : LocationKind) (f g : Flow) (ys : List NodeId) : Prop where
  orderly : g.Orderly
  keeps : f.Keeps kind g
  draft : ∀ y ∈ ys, g.Draft y
  nodup : ys.Nodup
  blocks_eq : g.blocks = f.blocks

namespace Sketches

theorem start (hf : f.Orderly) : Sketches kind f f [] :=
  ⟨hf, .refl f, nofun, .nil, rfl⟩

theorem similar (hs : Sketches kind f g ys) (hh : h.Orderly) (hgh : g.Similar h) (hkeeps : g.Keeps kind h) :
    Sketches kind f h ys :=
  ⟨hh, hs.keeps.trans hkeeps, fun y hy => (hs.draft y hy).similar hgh, hs.nodup, hgh.blocks_eq.trans hs.blocks_eq⟩

/-- A new node over some of the drafts takes their place. -/
theorem alloc_gives (ys cs : List NodeId) {e : Expr NodeId} (hs : Sketches kind f g (ys ++ cs))
    (hchildren : e.children.Perm cs) (horigin : e.origin? = none) :
    Gives (Edit.alloc e) g fun x h => Sketches kind f h (ys ++ [x]) ∧ h.exprAt x = some e ∧
      ∀ z, g.exprAt z ≠ none → h.exprAt z = g.exprAt z := by
  obtain ⟨hys, hcs, hapart⟩ := List.nodup_append.1 hs.nodup
  refine (Edit.alloc_orderly hs.orderly (fun c hc => hs.draft c ?_) (hchildren.nodup_iff.2 hcs) ?_).mono ?_
  · exact List.mem_append_right _ (hchildren.mem_iff.1 hc)
  · simp [horigin]
  rintro x h ⟨hh, hx, hfresh, hexpr, hkept, hdrafts, hgraph, hblocks⟩
  refine ⟨⟨hh, hs.keeps.trans (.of_exprAt hkept hgraph), fun y hy => ?_, ?_, hblocks.trans hs.blocks_eq⟩, hexpr, hkept⟩
  · obtain hy | hy := List.mem_append.1 hy
    · refine hdrafts y (hs.draft y (List.mem_append_left _ hy)) fun hmem => ?_
      exact hapart y hy y (hchildren.mem_iff.1 hmem) rfl
    · rw [List.mem_singleton.1 hy]
      exact hx
  · refine List.nodup_append.2 ⟨hys, by simp, fun y hy z hz => ?_⟩
    rw [List.mem_singleton.1 hz]
    rintro rfl
    exact (hs.draft y (List.mem_append_left _ hy)).exprAt_ne_none hfresh

end Sketches

end Flow

namespace Tagging

open Flow

variable {f g : Flow} {kind : LocationKind} {l : Location} {x y : NodeId} {ys : List NodeId} {a : Address}
  {ds : List Definition} {p : Progress}

private theorem setVersion_keeps {v : Option Nat} (hf : f.Orderly) (hx : f.Operand kind l x) :
    Gives (Edit.setVersion x v) f fun _ g => g.Orderly ∧ f.Similar g ∧ f.Keeps kind g := by
  obtain ⟨e, w, he, hfits⟩ := hx
  obtain ⟨e', he', -⟩ := Expr.exists_withVersion hfits.isAssignable v
  refine (Edit.setVersion_orderly hf he he').mono fun _ g ⟨hg, hsimilar, hexpr⟩ => ?_
  refine ⟨hg, hsimilar, fun y ey hy => ?_, hsimilar.graph⟩
  rw [hexpr]
  by_cases hyx : y = x
  · subst hyx
    obtain rfl := Option.some.inj (he.symm.trans hy)
    exact ⟨e', Function.update_self .., hfits.untag_eq he'⟩
  · exact ⟨ey, by rwa [Function.update_of_ne hyx], rfl⟩

private theorem relinks_keeps (hfg : f.Relinks g) : f.Similar g ∧ f.Keeps kind g :=
  ⟨.of_relinks hfg, .of_exprAt (fun _ _ => by rw [hfg.exprAt_eq]) (Similar.of_relinks hfg).graph⟩

theorem markDefinition_orderly {v : Nat} (hf : f.Orderly) (hx : f.Operand kind l x) :
    Gives (markDefinition x v) f fun _ g => g.Orderly ∧ f.Similar g ∧ f.Keeps kind g := by
  unfold markDefinition
  refine .of_bind ((setVersion_keeps hf hx).mono fun _ g ⟨hg, hsimilar, hkeeps⟩ => ?_)
  refine (Edit.setLink_orderly hg (hsimilar.exprAt_ne_none hx.exprAt_ne_none) (by simp [Link.mentions])).mono ?_
  rintro - h ⟨hh, hgh⟩
  obtain ⟨hsimilar', hkeeps'⟩ := @relinks_keeps _ _ kind hgh
  exact ⟨hh, hsimilar.trans hsimilar', hkeeps.trans hkeeps'⟩

theorem markRead_orderly {D : Option NodeId} (hf : f.Orderly) (hx : f.Operand kind l x)
    (hD : ∀ d, D = some d → f.exprAt d ≠ none) :
    Gives (markRead x D) f fun _ g => g.Orderly ∧ f.Similar g ∧ f.Keeps kind g := by
  have hrest : ∀ v : Option Nat, Gives (do
      Edit.setVersion x v
      Edit.linkUse x D) f fun _ g => g.Orderly ∧ f.Similar g ∧ f.Keeps kind g := by
    intro v
    refine .of_bind ((setVersion_keeps hf hx).mono fun _ g ⟨hg, hsimilar, hkeeps⟩ => ?_)
    refine (Edit.linkUse_orderly hg (hsimilar.exprAt_ne_none hx.exprAt_ne_none)
      fun d hd => hsimilar.exprAt_ne_none (hD d hd)).mono ?_
    rintro - h ⟨hh, hgh⟩
    obtain ⟨hsimilar', hkeeps'⟩ := @relinks_keeps _ _ kind hgh
    exact ⟨hh, hsimilar.trans hsimilar', hkeeps.trans hkeeps'⟩
  unfold markRead
  cases D with
  | none => exact hrest (some 0)
  | some d =>
    obtain ⟨e, he⟩ := Option.ne_none_iff_exists'.1 (hD d rfl)
    obtain ⟨pd, hd⟩ := exists_shapeAt_of_exprAt he
    exact .of_bind (.of_view (expr_eq hd) (hrest e.version?))

/-- A fresh operand is a draft. -/
theorem freshLike_sketches (hs : Sketches kind f g ys) (hx : g.Operand kind l x) :
    Gives (freshLike x) g fun y h => Sketches kind f h (ys ++ [y]) ∧ h.Operand kind l y := by
  obtain ⟨e, v, he, hfits⟩ := hx
  obtain ⟨px, hshape⟩ := exists_shapeAt_of_exprAt he
  unfold freshLike
  refine .of_bind (.of_view (expr_eq hshape) ?_)
  cases kind with
  | registers =>
    obtain rfl := hfits
    refine (Sketches.alloc_gives ys [] (by simpa using hs) (.refl _) rfl).mono ?_
    rintro y h ⟨hh, hy, -⟩
    exact ⟨hh, _, none, hy, rfl⟩
  | derefs =>
    obtain ⟨b, rfl⟩ := hfits
    have hb : g.exprAt b ≠ none := by
      obtain ⟨t, ht, rfl, -⟩ := hs.orderly.grounded.spelledWithout he (c := b) (by simp [Expr.children])
      exact ht.exprAt_ne_none t.id_mem_preorder
    refine .of_bind ((Edit.copy_orderly hs.orderly hb).mono ?_)
    rintro _ g₁ ⟨t, rfl, hg₁, hgrows, hstands⟩
    have hs₁ : Sketches .derefs f g₁ (ys ++ [t.id]) := by
      refine ⟨hg₁, hs.keeps.trans (.of_exprAt (fun y => hgrows.retains.exprAt_eq)
        (.of_blocks_eq hgrows.entry_eq hgrows.blocks_eq)), fun y hy => ?_, ?_, hgrows.blocks_eq.trans hs.blocks_eq⟩
      · obtain hy | hy := List.mem_append.1 hy
        · exact (hs.draft y hy).grows hgrows
        · rw [List.mem_singleton.1 hy]
          exact ⟨t, hstands, rfl⟩
      · refine List.nodup_append.2 ⟨hs.nodup, by simp, fun y hy z hz => ?_⟩
        rw [List.mem_singleton.1 hz]
        rintro rfl
        exact exprAt_ne_none.1 (hs.draft _ hy).exprAt_ne_none (hgrows.fresh _ t.id_mem_preorder)
    refine (hs₁.alloc_gives ys [t.id] (.refl _) rfl).mono ?_
    rintro y h ⟨hh, hy, -⟩
    exact ⟨hh, _, none, hy, t.id, rfl⟩

/-- The points that a merge joins are nodes of the flow. -/
private theorem thetaInputs_sketches {points : List Point} (hf : f.Orderly) (hx : f.Operand kind l x)
    (hpoints : ∀ p ∈ points, ∀ d, definitionAt p = some d → f.exprAt d ≠ none) :
    Gives (points.mapM (thetaInput x)) f fun inputs g => Sketches kind f g inputs := by
  refine (Gives.of_mapM (I := fun rest inputs g => Sketches kind f g inputs ∧ rest ⊆ points) ?_ points
    (b := []) ⟨.start hf, fun _ h => h⟩).mono fun inputs g ⟨hg, _⟩ => hg
  rintro p rest inputs g ⟨hs, hrest⟩
  unfold thetaInput
  refine .of_bind ((freshLike_sketches hs (hs.keeps.operand hx)).mono ?_)
  rintro y g₁ ⟨hs₁, hy⟩
  have hd : ∀ d, definitionAt p = some d → g₁.exprAt d ≠ none := fun d hd =>
    hs₁.keeps.ne_none (hpoints p (hrest (by simp)) d hd)
  refine .of_bind ((markRead_orderly hs₁.orderly hy hd).mono fun _ h ⟨hh, hsimilar, hkeeps⟩ => .of_pure ?_)
  exact ⟨hs₁.similar hh hsimilar hkeeps, fun q hq => hrest (List.mem_cons_of_mem _ hq)⟩

theorem insertTheta_orderly {position v : Nat} {points : List Point} (hf : f.Orderly) (hx : f.Operand kind l x)
    (hpoints : ∀ p ∈ points, ∀ d, definitionAt p = some d → f.exprAt d ≠ none) (ha : f.block? a ≠ none)
    (hposition : position ≤ (f.statementsAt a).length) :
    Gives (insertTheta a position x points v) f fun d g => g.Orderly ∧ f.Keeps kind g ∧
      g.exprAt d ≠ none ∧ (g.statementsAt a).length = (f.statementsAt a).length + 1 := by
  obtain ⟨b, hb⟩ := Option.ne_none_iff_exists'.1 ha
  have hstatements := statementsAt_eq hb
  rw [hstatements] at hposition
  unfold insertTheta
  refine .of_bind ((thetaInputs_sketches hf hx hpoints).mono fun inputs g₁ hs₁ => ?_)
  refine .of_bind ((Sketches.alloc_gives [] inputs hs₁ (e := .theta inputs) (.refl _) rfl).mono ?_)
  rintro theta g₂ ⟨hs₂, -⟩
  refine .of_bind ((freshLike_sketches hs₂ (hs₂.keeps.operand hx)).mono ?_)
  rintro target g₃ ⟨hs₃, htarget⟩
  refine .of_bind ((markDefinition_orderly hs₃.orderly htarget).mono ?_)
  rintro - g₄ ⟨hg₄, hsimilar, hkeeps⟩
  have hs₄ := hs₃.similar hg₄ hsimilar hkeeps
  refine .of_bind ((Sketches.alloc_gives [] [theta, target] hs₄ (e := .assign target theta)
    (List.Perm.swap theta target []) rfl).mono ?_)
  rintro root g₅ ⟨hs₅, -, hkept⟩
  have hb₅ : g₅.block? a = some b := by rw [block?, hs₅.blocks_eq, ← hb, block?]
  refine .of_bind ((Edit.insertStatement_orderly hs₅.orderly (hs₅.draft root (by simp)) hb₅ hposition).mono ?_)
  rintro s h ⟨hh, hexpr, hgraph, hinsert⟩
  refine .of_pure ⟨hh, hs₅.keeps.trans (.of_exprAt (fun _ _ => by rw [hexpr]) hgraph), ?_, ?_⟩
  · have hne : g₄.exprAt target ≠ none := (hs₄.draft target (by simp)).exprAt_ne_none
    rwa [hexpr, hkept target hne]
  · rw [hinsert, statementsAt_eq hb₅, hstatements, List.length_insertIdx_of_le_length hposition]

/-- What tagging has to rely on within a block: what reaches the current statement and the merges at
    the head of the block are nodes of the flow, and there are statements enough in the block. -/
structure Underway (f : Flow) (kind : LocationKind) (ds : List Definition) (a : Address) (p : Progress) (g : Flow) :
    Prop where
  orderly : g.Orderly
  keeps : f.Keeps kind g
  known : Known ds p.reach
  merges : ∀ l d, p.merges.find? l = some d → g.exprAt d ≠ none
  room : p.merges.entries.length ≤ (g.statementsAt a).length

namespace Underway

theorem similar {h : Flow} (hp : Underway f kind ds a p g) (hh : h.Orderly) (hgh : g.Similar h)
    (hkeeps : g.Keeps kind h) : Underway f kind ds a p h := by
  refine ⟨hh, hp.keeps.trans hkeeps, hp.known, fun l d hd => hkeeps.ne_none (hp.merges l d hd), ?_⟩
  rw [statementsAt, block?, hgh.blocks_eq]
  exact hp.room

variable (hds : ∀ d ∈ ds, f.Operand kind d.location d.site)
include hds

theorem exprAt_ne_none {d : NodeId} (hp : Underway f kind ds a p g) (hd : .definition d ∈ p.reach.points l) :
    g.exprAt d ≠ none := by
  have hbrings := (p.reach.brings_of_points_ne_nil (l := l) fun hnil => by simp [hnil] at hd).2 hd
  obtain ⟨d', hd', -, rfl⟩ := hp.known l d hbrings
  exact hp.keeps.ne_none (hds d' hd').exprAt_ne_none

variable {r : Read} (ha : f.block? a ≠ none) (hr : f.Operand kind r.location r.operand)
include ha hr

theorem merge_gives (hp : Underway f kind ds a p g) :
    Gives (merge a (p.reach.points r.location) p r) g fun q h => Underway f kind ds a q.2 h ∧ h.exprAt q.1 ≠ none := by
  unfold merge
  cases hfind : p.merges.find? r.location with
  | some d => exact .of_pure ⟨hp, hp.merges r.location d hfind⟩
  | none =>
    refine .of_bind ((insertTheta_orderly hp.orderly (hp.keeps.operand hr) ?_ (hp.keeps.graph.ne_none ha)
      hp.room).mono ?_)
    · intro q hq d hd
      cases q with
      | entry => cases hd
      | definition d' =>
        obtain rfl := Option.some.inj hd
        exact hp.exprAt_ne_none hds hq
    rintro d h ⟨hh, hkeeps, hd, hlength⟩
    refine .of_pure ⟨⟨hh, hp.keeps.trans hkeeps, hp.known, fun l d' hd' => ?_, ?_⟩, hd⟩
    · by_cases hl : l = r.location
      · rw [hl, SortedMap.find?_insert_self] at hd'
        exact Option.some.inj hd' ▸ hd
      · rw [SortedMap.find?_insert_of_ne hl] at hd'
        exact hkeeps.ne_none (hp.merges l d' hd')
    · rw [SortedMap.length_entries_insert hfind, hlength]
      exact Nat.succ_le_succ hp.room

theorem tagRead_gives (hp : Underway f kind ds a p g) :
    Gives (tagRead a p r) g fun q h => Underway f kind ds a q h := by
  have hmark : ∀ {q : Progress} {g : Flow} (D : Option NodeId), Underway f kind ds a q g →
      (∀ d, D = some d → g.exprAt d ≠ none) →
      Gives (do
        markRead r.operand D
        return q) g fun q h => Underway f kind ds a q h := by
    intro q g D hq hD
    refine .of_bind ((markRead_orderly hq.orderly (hq.keeps.operand hr) hD).mono ?_)
    exact fun _ h ⟨hh, hsimilar, hkeeps⟩ => .of_pure (hq.similar hh hsimilar hkeeps)
  unfold tagRead
  split
  next => exact hmark none hp nofun
  next => exact hmark none hp nofun
  next d hdefinition =>
    refine hmark (some d) hp ?_
    rintro _ ⟨⟩
    exact hp.exprAt_ne_none hds (l := r.location) (by simp [hdefinition])
  next =>
    refine .of_bind ((hp.merge_gives hds ha hr).mono ?_)
    rintro ⟨d, q⟩ h ⟨hq, hd⟩
    refine hmark (some d) hq ?_
    rintro _ ⟨⟩
    exact hd

omit hr

theorem tagVisit_gives {v : Visit} (hreads : ∀ r ∈ v.reads, f.Operand kind r.location r.operand)
    (hdefinition : ∀ d, v.definition = some d → d ∈ ds) (hp : Underway f kind ds a p g) :
    Gives (tagVisit a p v) g fun q h => Underway f kind ds a q h := by
  unfold tagVisit
  refine .of_bind ((Gives.of_foldlM (I := fun rest q h => Underway f kind ds a q h ∧ rest ⊆ v.reads) ?_ v.reads
    ⟨hp, fun _ h => h⟩).mono ?_)
  · rintro r rest q h ⟨hq, hrest⟩
    refine (hq.tagRead_gives hds ha (hreads r (hrest (by simp)))).mono fun _ _ hq' => ⟨hq', fun r' hr' => ?_⟩
    exact hrest (List.mem_cons_of_mem _ hr')
  · rintro q h ⟨hq, -⟩
    cases hd : v.definition with
    | none => exact .of_pure hq
    | some d =>
      refine .of_pure ⟨hq.orderly, hq.keeps, ?_, hq.merges, hq.room⟩
      have hmem : ∀ d' ∈ [d], d' ∈ ds := by simpa using hdefinition d hd
      exact hq.known.foldl_after hmem

end Underway

/-- The definitions of an orderly flow are operands. -/
theorem operand_of_definitionOf (hf : f.Forest) {d : Definition}
    (hd : d ∈ f.liveStatements.filterMap (Summary.definitionOf f kind.locate)) :
    f.Operand kind d.location d.site := by
  obtain ⟨s, hs, hd⟩ := List.mem_filterMap.1 hd
  obtain ⟨t, ht⟩ := hf.holds_of_mem hs
  obtain ⟨i, u, v, rfl, hlocate, hsite, -⟩ := (Summary.mem_definitionOf ht).1 hd
  obtain ⟨-, -, -, hstands⟩ := ht
  have hu := (hstands.spells.of_within (.of_mem_children (c := u) (by simp [Expr.children]))).exprAt_id
  exact ⟨_, none, hsite ▸ hu, LocationKind.exists_fits_of_locate hlocate⟩

theorem operand_of_readsAt {s : StatementId} {t : Term} (ht : f.Holds s t) {r : Read}
    (hr : r ∈ BlockPlan.readsAt f kind s) : f.Operand kind r.location r.operand := by
  obtain ⟨i, e, u, hwithin, hu, -, hlocate, hid⟩ := (BlockPlan.mem_readsAt ht).1 hr
  have hexpr := (ht.stands.spells.of_within ((Term.Within.of_mem_children hu).trans hwithin)).exprAt_id
  exact ⟨_, none, hid ▸ hexpr, LocationKind.exists_fits_of_locate hlocate⟩

section Flow

variable (hf : f.Orderly)
include hf

theorem tagBlock_orderly (versions : Versions) (ha : f.block? a ≠ none) (hg : g.Orderly) (hfg : f.Keeps kind g) :
    Gives (tagBlock versions (BlockPlan.planAt f kind a)) g fun _ h => h.Orderly ∧ f.Keeps kind h := by
  let ds := f.liveStatements.filterMap (Summary.definitionOf f kind.locate)
  have hds : ∀ d ∈ ds, f.Operand kind d.location d.site := fun d => operand_of_definitionOf hf.forest
  have hstart : Underway f kind ds a ⟨versions, (BlockPlan.planAt f kind a).reach, .empty⟩ g :=
    ⟨hg, hfg, known_planAt hf.forest hf.connected ha, by simp, Nat.zero_le _⟩
  unfold tagBlock
  refine .of_bind ((Gives.of_foldlM (I := fun rest q h => Underway f kind ds a q h ∧
    rest ⊆ (BlockPlan.planAt f kind a).visits) ?_ _ ⟨hstart, fun _ h => h⟩).mono ?_)
  · rintro v rest q h ⟨hq, hrest⟩
    obtain ⟨s, hs, rfl⟩ := List.mem_map.1 (hrest (List.mem_cons_self ..))
    obtain ⟨t, ht⟩ := hf.forest.exists_holds hs
    refine (hq.tagVisit_gives hds ha (fun r hr => operand_of_readsAt ht hr) fun d hd => ?_).mono
      fun _ _ hq' => ⟨hq', fun v hv => hrest (List.mem_cons_of_mem _ hv)⟩
    exact List.mem_filterMap.2 ⟨s, hf.forest.mem_liveStatements.2 (hf.forest.live hs), hd⟩
  · exact fun q h ⟨hq, _⟩ => .of_pure ⟨hq.orderly, hq.keeps⟩

/-- Tagging keeps a flow orderly, whatever was tagged before. -/
theorem tag_orderly : Gives (tag kind) f fun _ g => g.Orderly := by
  have hkeys : ∀ a ∈ f.blocks.keys, f.block? a ≠ none := by
    intro a ha
    obtain ⟨b, hb⟩ := SortedMap.mem_keys.1 ha
    simp [block?, hb]
  unfold tag
  refine .of_bind (.of_view (BlockPlan.ofFlow_eq hf.forest) (.of_bind ?_))
  unfold tagDefinitions
  refine (Gives.of_foldlM (I := fun rest _ g => g.Orderly ∧ f.Keeps kind g ∧
    rest ⊆ (f.blocks.keys.map (BlockPlan.planAt f kind)).flatMap BlockPlan.definitions) ?_ _
    ⟨hf, .refl f, fun _ h => h⟩).mono ?_
  · rintro d rest vs g ⟨hg, hfg, hrest⟩
    obtain ⟨plan, hplan, hd⟩ := List.mem_flatMap.1 (hrest (List.mem_cons_self ..))
    obtain ⟨a, ha, rfl⟩ := List.mem_map.1 hplan
    rw [BlockPlan.definitions_planAt] at hd
    obtain ⟨s, hs, hd⟩ := List.mem_filterMap.1 hd
    have hsite : f.Operand kind d.location d.site := operand_of_definitionOf hf.forest
      (List.mem_filterMap.2 ⟨s, hf.forest.mem_liveStatements.2 (hf.forest.live hs), hd⟩)
    refine .of_bind ((markDefinition_orderly hg (hfg.operand hsite)).mono ?_)
    rintro - h ⟨hh, -, hkeeps⟩
    exact .of_pure ⟨hh, hfg.trans hkeeps, fun d' hd' => hrest (List.mem_cons_of_mem _ hd')⟩
  rintro versions g ⟨hg, hfg, -⟩
  refine .of_bind ((Gives.of_foldlM (I := fun rest _ g => g.Orderly ∧ f.Keeps kind g ∧
    rest ⊆ f.blocks.keys.map (BlockPlan.planAt f kind)) ?_ _ ⟨hg, hfg, fun _ h => h⟩).mono
    fun _ h hh => .of_pure hh.1)
  rintro plan rest ⟨vs, count⟩ g ⟨hg, hfg, hrest⟩
  obtain ⟨a, ha, rfl⟩ := List.mem_map.1 (hrest (List.mem_cons_self ..))
  refine .of_bind ((tagBlock_orderly hf vs (hkeys a ha) hg hfg).mono ?_)
  rintro ⟨vs', merges⟩ h ⟨hh, hfh⟩
  exact .of_pure ⟨hh, hfh, fun p hp => hrest (List.mem_cons_of_mem _ hp)⟩

end Flow

theorem clear_orderly (hf : f.Orderly) (hx : f.exprAt x ≠ none) :
    Gives (clear x) f fun _ g => g.Orderly ∧ f.Similar g := by
  unfold clear
  refine .of_bind ((Edit.setLink_orderly hf hx (by simp [Link.mentions])).mono ?_)
  rintro - g ⟨hg, hfg⟩
  obtain ⟨e, he⟩ := Option.ne_none_iff_exists'.1 hx
  rw [← hfg.exprAt_eq] at he
  obtain ⟨p, hshape⟩ := exists_shapeAt_of_exprAt he
  refine .of_bind (.of_view (expr_eq hshape) ?_)
  cases hkind : e.isAssignable with
  | false => exact .of_pure ⟨hg, .of_relinks hfg⟩
  | true =>
    obtain ⟨e', he', -⟩ := Expr.exists_withVersion hkind none
    refine (Edit.setVersion_orderly hg he he').mono ?_
    rintro - h ⟨hh, hsimilar, -⟩
    exact ⟨hh, (Similar.of_relinks hfg).trans hsimilar⟩

theorem untagStatement_orderly {s : StatementId} (hf : f.Orderly) (hs : f.Live s) :
    Gives (untagStatement s) f fun _ g => g.Orderly ∧ ∀ s', s' ≠ s → f.Live s' → g.Live s' := by
  obtain ⟨st, t, hst, ht, hroot⟩ := hf.exists_root hs.statementAt_ne_none
  have hnodes : ∀ y ∈ t.preorder, f.exprAt y ≠ none := fun y hy => ht.stands.spells.exprAt_ne_none hy
  obtain ⟨b, hb⟩ := isThetaAssignment_eq ht
  unfold untagStatement
  refine .of_bind (.of_view (statement_eq hst) (.of_bind (.of_view hb ?_)))
  rw [hroot]
  cases b with
  | true =>
    refine .of_bind ((Edit.unlinkSubtree_orderly hf (hnodes _ t.id_mem_preorder)).mono ?_)
    rintro - g ⟨hg, hfg⟩
    have hlive : ∀ {s'}, f.Live s' → g.Live s' := (Similar.of_relinks hfg).live
    refine (Edit.removeStatement_orderly hg (hlive hs)).mono fun _ h ⟨hh, hkept⟩ => ⟨hh, ?_⟩
    exact fun s' hne hs' => hkept s' hne (hlive hs')
  | false =>
    refine .of_bind (.of_view ht.operands_eq ?_)
    have hclears := Gives.of_forM (k := clear) (I := fun rest g => g.Orderly ∧ f.Similar g ∧ rest ⊆ t.preorder)
      (fun y rest g ⟨hg, hfg, hrest⟩ =>
        (clear_orderly hg (hfg.exprAt_ne_none (hnodes y (hrest (by simp))))).mono fun _ h ⟨hh, hgh⟩ =>
          ⟨hh, hfg.trans hgh, fun z hz => hrest (List.mem_cons_of_mem _ hz)⟩)
      t.preorder.tail ⟨hf, .refl f, List.tail_subset _⟩
    refine .of_bind (hclears.mono fun _ g ⟨hg, hfg, _⟩ => ?_)
    refine (clear_orderly hg (hfg.exprAt_ne_none (hnodes _ t.id_mem_preorder))).mono fun _ h ⟨hh, hgh⟩ => ?_
    exact ⟨hh, fun s' _ hs' => (hfg.trans hgh).live hs'⟩

/-- Removing tags keeps a flow orderly, whatever was tagged. -/
theorem untag_orderly (hf : f.Orderly) : Gives untag f fun _ g => g.Orderly := by
  unfold untag
  refine .of_bind (.of_get ?_)
  refine (Gives.of_forM (I := fun rest g => g.Awaits rest) (fun s rest g hg => ?_) _ hf.awaits).mono
    fun _ g hg => hg.orderly
  exact (untagStatement_orderly hg.orderly (hg.live s (by simp))).mono fun _ h ⟨hh, hkept⟩ => hg.next hh hkept

end Tagging

end FrameRecovery
