import FrameRecovery.Proofs.Flow.Primitives
import FrameRecovery.Proofs.Flow.Term

namespace FrameRecovery

namespace Link

/-- What is left of a link when the links of some nodes are removed: they are struck from the
    uses of a definition, and what read one of them reads the value on entry. -/
def drop (xs : List NodeId) : Link → Link
  | definition uses => definition (uses.filter (· ∉ xs))
  | use (some d) => use (if d ∈ xs then none else some d)
  | l => l

@[simp] theorem uses_definition (us : List NodeId) : (definition us).uses = us := rfl

@[simp] theorem uses_use (d : Option NodeId) : (use d).uses = [] := rfl

@[simp] theorem uses_unlinked : unlinked.uses = [] := rfl

theorem eq_definition_of_mem_uses {l : Link} {x : NodeId} (h : x ∈ l.uses) :
    l = .definition l.uses := by
  cases l <;> simp_all

@[simp] theorem uses_drop (xs : List NodeId) (l : Link) :
    (l.drop xs).uses = l.uses.filter (· ∉ xs) := by
  rcases l with _ | us | _ | d <;> simp [drop]

@[simp] theorem drop_eq_unlinked {xs : List NodeId} {l : Link} :
    l.drop xs = .unlinked ↔ l = .unlinked := by
  rcases l with _ | us | _ | d <;> simp [drop]

theorem drop_eq_use {xs : List NodeId} {l : Link} {d : NodeId} :
    l.drop xs = .use (some d) ↔ l = .use (some d) ∧ d ∉ xs := by
  rcases l with _ | us | _ | d' <;> simp [drop]
  grind

/-- A read stays as it is unless it loses its definition. -/
theorem drop_eq_self {l : Link} {d : NodeId} {D : Option NodeId} (h : l ≠ .use (some d)) :
    l.drop [d] = .use D ↔ l = .use D := by
  rcases l with _ | us | _ | d' <;> simp [drop]
  have hd' : d' ≠ d := by
    rintro rfl
    exact h rfl
  simp [hd']

theorem drop_drop (xs ys : List NodeId) (l : Link) : (l.drop xs).drop ys = l.drop (xs ++ ys) := by
  rcases l with _ | us | _ | d
  · rfl
  · simp [drop, List.filter_filter, Bool.and_comm]
  · rfl
  · by_cases hx : d ∈ xs <;> simp [drop, hx]

@[simp] theorem drop_nil (l : Link) : l.drop [] = l := by
  rcases l with _ | us | _ | d <;> simp [drop]

end Link

/-- A link that no definition has a part in: there is none, or it is a read of the value on
    entry. -/
def Link.Free (l : Link) : Prop :=
  l = .unlinked ∨ l = .use none

theorem Link.Free.drop {l : Link} (h : l.Free) (xs : List NodeId) : (l.drop xs).Free := by
  obtain rfl | rfl := h
  · exact .inl rfl
  · exact .inr rfl

@[simp] theorem Link.Free.uses_eq_nil {l : Link} (h : l.Free) : l.uses = [] := by
  obtain rfl | rfl := h <;> rfl

theorem Link.Free.ne_use {l : Link} (h : l.Free) (d : NodeId) : l ≠ .use (some d) := by
  obtain rfl | rfl := h <;> simp

/-- The nodes that a link is about. -/
def Link.mentions : Link → List NodeId
  | unlinked => []
  | definition us => us
  | use d => d.toList

namespace Flow

variable {f g : Flow}

/-- Links are about nodes that are there. -/
def LinkClosed (f : Flow) : Prop :=
  ∀ x, ∀ y ∈ (f.linkOf x).mentions, f.exprAt y ≠ none

/-- A flow `g` is a flow `f` with other links. -/
def Relinks (f g : Flow) : Prop :=
  f.Becomes g f.shapeAt g.linkOf

namespace Relinks

variable {h : Flow}

theorem refl (f : Flow) : f.Relinks f :=
  Becomes.refl f

theorem trans (hfg : f.Relinks g) (hgh : g.Relinks h) : f.Relinks h := by
  have hfh := Becomes.trans hfg hgh
  rwa [hfg.shape_eq] at hfh

theorem of_becomes {link : NodeId → Link} (hfg : f.Becomes g f.shapeAt link) : f.Relinks g :=
  ⟨hfg.shape_eq, rfl, hfg.entry_eq, hfg.statements_eq, hfg.blocks_eq⟩

theorem exprAt_eq (hfg : f.Relinks g) : g.exprAt = f.exprAt := by
  funext x
  rw [exprAt, hfg.shape_eq, exprAt]

end Relinks

/-- A node reads a definition exactly if that has recorded it, and no read is recorded twice. -/
structure Mirrored (f : Flow) : Prop where
  recorded : ∀ x d, f.linkOf x = .use (some d) ↔ x ∈ (f.linkOf d).uses
  nodup : ∀ d, (f.linkOf d).uses.Nodup

theorem Mirrored.ne_of_mem_uses (hf : f.Mirrored) {x d : NodeId} (h : x ∈ (f.linkOf d).uses) :
    x ≠ d := by
  rintro rfl
  have hlink := (hf.recorded x x).2 h
  rw [hlink] at h
  cases h

theorem Mirrored.of_linkOf_eq (hf : f.Mirrored) (h : g.linkOf = f.linkOf) : g.Mirrored :=
  ⟨h ▸ hf.recorded, h ▸ hf.nodup⟩

/-- The links of a flow without those of some nodes. -/
def linksWithout (f : Flow) (xs : List NodeId) : NodeId → Link :=
  fun y => if y ∈ xs then .unlinked else (f.linkOf y).drop xs

@[simp] theorem linksWithout_nil (f : Flow) : f.linksWithout [] = f.linkOf := by
  funext y
  simp [linksWithout]

theorem exists_definition_of_linksWithout {xs us : List NodeId} {x : NodeId} (h : f.linksWithout xs x = .definition us) :
    ∃ us', f.linkOf x = .definition us' := by
  unfold linksWithout at h
  split at h
  · cases h
  · rcases hl : f.linkOf x with _ | us' | _ | d <;> simp_all [Link.drop]

theorem linksWithout_append {xs ys : List NodeId} (hg : g.linkOf = f.linksWithout xs) :
    g.linksWithout ys = f.linksWithout (xs ++ ys) := by
  funext y
  simp only [linksWithout, hg, List.mem_append]
  by_cases hx : y ∈ xs
  · simp [hx, Link.drop]
  · simp [hx, Link.drop_drop]

theorem Mirrored.without (hf : f.Mirrored) {xs : List NodeId} (hg : g.linkOf = f.linksWithout xs) :
    g.Mirrored := by
  constructor
  · intro x d
    simp only [hg, linksWithout]
    by_cases hx : x ∈ xs
    · by_cases hd : d ∈ xs <;> simp [hx, hd]
    · by_cases hd : d ∈ xs
      · simp [hx, hd, Link.drop_eq_use]
      · simp [hx, hd, Link.drop_eq_use, hf.recorded]
  · intro d
    simp only [hg, linksWithout]
    split
    · simp
    · rw [Link.uses_drop]
      exact (hf.nodup d).filter _

end Flow

namespace Edit

open Flow

variable {f : Flow} {x d : NodeId} {e : Expr NodeId} {p : Place}

/-- The links after a node was made a read of a definition, which has recorded it. -/
def linked (link : NodeId → Link) (x : NodeId) (d : Option NodeId) : NodeId → Link :=
  fun y => if y = x then .use d
    else if d = some y then match link y with
      | .definition us => .definition (us ++ [x])
      | l => l
    else link y

theorem linkUse_gives (hx : f.shapeAt x ≠ none) {d : Option NodeId}
    (hd : ∀ d', d = some d' → f.shapeAt d' ≠ none ∧ d' ≠ x) :
    Gives (linkUse x d) f fun _ g => f.Becomes g f.shapeAt (linked f.linkOf x d) := by
  obtain ⟨⟨e, p⟩, hx⟩ := Option.ne_none_iff_exists'.1 hx
  unfold linkUse
  refine .of_bind ((setLink_gives hx _).mono fun _ g hg => ?_)
  cases d with
  | none =>
    refine .of_pure ?_
    convert hg using 1
    funext y
    simp [linked, Function.update_apply]
  | some d =>
    obtain ⟨hd, hne⟩ := hd d rfl
    obtain ⟨⟨ed, pd⟩, hd⟩ := Option.ne_none_iff_exists'.1 hd
    have hd' : g.shapeAt d = some (ed, pd) := hg.shape_eq ▸ hd
    have hlink : g.linkOf d = f.linkOf d := by
      rw [hg.link_eq, Function.update_of_ne hne]
    dsimp only
    unfold recordUse
    refine .of_bind (.of_view (Flow.link_eq hd') ?_)
    rw [hlink]
    cases hl : f.linkOf d with
    | definition us =>
      refine (setLink_gives hd' _).mono fun _ g' hg' => ?_
      convert hg.trans hg' using 1
      · exact hg.shape_eq.symm
      · funext y
        rw [hg.link_eq]
        by_cases hy : y = d
        · subst hy
          simp [linked, hne, hl]
        · simp [linked, Function.update_apply, hy, Ne.symm hy]
    | _ =>
      refine .of_pure ?_
      convert hg using 1
      funext y
      by_cases hy : y = d
      · subst hy
        simp [linked, hne, hl]
      · simp [linked, Function.update_apply, Ne.symm hy]

/-- A link can be set to one that is about nodes of the flow. -/
theorem setLink_linkClosed {l : Link} (hf : f.LinkClosed) (hx : f.exprAt x ≠ none)
    (hl : ∀ y ∈ l.mentions, f.exprAt y ≠ none) :
    Gives (setLink x l) f fun _ g => f.Relinks g ∧ g.LinkClosed := by
  obtain ⟨⟨e, p⟩, hx⟩ := Option.ne_none_iff_exists'.1 (exprAt_ne_none.1 hx)
  refine (setLink_gives hx l).mono fun _ g hg => ⟨.of_becomes hg, fun z y hy => ?_⟩
  rw [Relinks.exprAt_eq (.of_becomes hg)]
  rw [hg.link_eq] at hy
  by_cases hz : z = x
  · rw [hz, Function.update_self] at hy
    exact hl y hy
  · rw [Function.update_of_ne hz] at hy
    exact hf z y hy

/-- The link of a node can be changed to one that is about no other nodes but some of the flow. -/
private theorem relink_linkClosed {change : Link → Edit Unit} (hf : f.LinkClosed) (hd : f.exprAt d ≠ none)
    (hchange : ∀ {l : Link}, f.linkOf d = l → (∃ l', change l = setLink d l' ∧ ∀ y ∈ l'.mentions, f.exprAt y ≠ none) ∨
      change l = pure ()) :
    Gives (view (·.link d) >>= change) f fun _ g => f.Relinks g ∧ g.LinkClosed := by
  obtain ⟨⟨e, p⟩, hshape⟩ := Option.ne_none_iff_exists'.1 (exprAt_ne_none.1 hd)
  refine .of_bind (.of_view (link_eq hshape) ?_)
  obtain ⟨l', heq, hl'⟩ | heq := hchange rfl
  · exact heq ▸ setLink_linkClosed hf hd hl'
  · exact heq ▸ .of_pure ⟨.refl f, hf⟩

theorem linkUse_linkClosed {D : Option NodeId} (hf : f.LinkClosed) (hx : f.exprAt x ≠ none)
    (hD : ∀ d, D = some d → f.exprAt d ≠ none) :
    Gives (linkUse x D) f fun _ g => f.Relinks g ∧ g.LinkClosed := by
  unfold linkUse
  refine .of_bind ((setLink_linkClosed hf hx fun y hy => hD y ?_).mono ?_)
  · simpa [Link.mentions] using hy
  rintro - g ⟨hfg, hg⟩
  cases D with
  | none => exact .of_pure ⟨hfg, hg⟩
  | some d =>
    have hd : g.exprAt d ≠ none := hfg.exprAt_eq ▸ hD d rfl
    refine (relink_linkClosed hg hd fun {l} hl => ?_).mono fun _ h ⟨hgh, hh⟩ => ⟨hfg.trans hgh, hh⟩
    cases l with
    | definition us =>
      refine .inl ⟨_, rfl, fun y hy => ?_⟩
      obtain hy | hy := List.mem_append.1 hy
      · exact hg d y (hl ▸ hy)
      · rw [List.mem_singleton.1 hy, hfg.exprAt_eq]
        exact hx
    | _ => exact .inr rfl

theorem unlink_linkClosed (hf : f.LinkClosed) (hx : f.exprAt x ≠ none) :
    Gives (unlink x) f fun _ g => f.Relinks g ∧ g.LinkClosed := by
  obtain ⟨⟨e, p⟩, hshape⟩ := Option.ne_none_iff_exists'.1 (exprAt_ne_none.1 hx)
  unfold unlink
  refine .of_bind (.of_view (link_eq hshape) ?_)
  refine .of_bind ((setLink_linkClosed hf hx (by simp [Link.mentions])).mono ?_)
  rintro - g ⟨hfg, hg⟩
  cases hl : f.linkOf x with
  | unlinked => exact .of_pure ⟨hfg, hg⟩
  | definition us =>
    refine (Gives.of_forM (I := fun rest g => f.Relinks g ∧ g.LinkClosed ∧ rest ⊆ us) ?_ us
      ⟨hfg, hg, fun _ h => h⟩).mono fun _ h ⟨hfh, hh, _⟩ => ⟨hfh, hh⟩
    rintro u rest g ⟨hfg, hg, hrest⟩
    have hu : g.exprAt u ≠ none := hfg.exprAt_eq ▸ hf x u (hl ▸ hrest (by simp))
    refine (setLink_linkClosed hg hu (by simp [Link.mentions])).mono fun _ h ⟨hgh, hh⟩ => ?_
    exact ⟨hfg.trans hgh, hh, fun v hv => hrest (List.mem_cons_of_mem _ hv)⟩
  | use D =>
    cases D with
    | none => exact .of_pure ⟨hfg, hg⟩
    | some d =>
      have hd : g.exprAt d ≠ none := hfg.exprAt_eq ▸ hf x d (by simp [hl, Link.mentions])
      refine (relink_linkClosed hg hd fun {l} hl => ?_).mono fun _ h ⟨hgh, hh⟩ => ⟨hfg.trans hgh, hh⟩
      cases l with
      | definition us =>
        exact .inl ⟨_, rfl, fun y hy => hg d y (hl ▸ List.mem_of_mem_filter hy)⟩
      | _ => exact .inr rfl

theorem setLinks_gives (us : List NodeId) (l : Link) (h : ∀ u ∈ us, f.shapeAt u ≠ none) :
    Gives (us.forM fun u => setLink u l) f fun _ g =>
      f.Becomes g f.shapeAt fun y => if y ∈ us then l else f.linkOf y := by
  induction us generalizing f with
  | nil => exact .of_pure (by simpa using Flow.Becomes.refl f)
  | cons u rest ih =>
    obtain ⟨⟨e, p⟩, hu⟩ := Option.ne_none_iff_exists'.1 (h u (by simp))
    refine .of_bind ((setLink_gives hu l).mono fun _ g hg => ?_)
    have hrest : ∀ v ∈ rest, g.shapeAt v ≠ none := fun v hv => hg.shape_eq ▸ h v (by simp [hv])
    refine (ih hrest).mono fun _ g' hg' => ?_
    convert hg.trans hg' using 1
    · exact hg.shape_eq.symm
    · funext y
      rw [hg.link_eq]
      by_cases hy : y = u
      · subst hy
        simp
      · simp [hy]

/-- The links after the link of a node was removed. -/
def unlinked (link : NodeId → Link) (x : NodeId) : NodeId → Link :=
  fun y => match link x with
    | .definition us => if y ∈ us then .use none else if y = x then .unlinked else link y
    | .use (some d) => if y = x then .unlinked else if y = d then match link y with
      | .definition us => .definition (us.filter (· != x))
      | l => l
      else link y
    | _ => if y = x then .unlinked else link y

/-- Removing the link of a node. -/
theorem unlink_becomes (hx : f.shapeAt x ≠ none)
    (hread : ∀ d, f.linkOf x = .use (some d) → f.shapeAt d ≠ none)
    (huses : ∀ u ∈ (f.linkOf x).uses, f.shapeAt u ≠ none) :
    Gives (unlink x) f fun _ g => f.Becomes g f.shapeAt (unlinked f.linkOf x) := by
  obtain ⟨⟨e, p⟩, hx⟩ := Option.ne_none_iff_exists'.1 hx
  unfold unlink
  refine .of_bind (.of_view (Flow.link_eq hx) ?_)
  refine .of_bind ((setLink_gives hx _).mono fun _ g hg => ?_)
  cases hl : f.linkOf x with
  | unlinked =>
    refine .of_pure ?_
    convert hg using 1
    funext y
    simp [unlinked, hl, Function.update_apply]
  | definition us =>
    have hus : ∀ u ∈ us, g.shapeAt u ≠ none := fun u hu => hg.shape_eq ▸ huses u (by simpa [hl] using hu)
    refine (setLinks_gives us _ hus).mono fun _ g' hg' => ?_
    convert hg.trans hg' using 1
    · exact hg.shape_eq.symm
    · funext y
      simp [unlinked, hl, hg.link_eq, Function.update_apply]
  | use d =>
    cases d with
    | none =>
      refine .of_pure ?_
      convert hg using 1
      funext y
      simp [unlinked, hl, Function.update_apply]
    | some d =>
      obtain ⟨⟨ed, pd⟩, hd⟩ := Option.ne_none_iff_exists'.1 (hread d hl)
      have hd' : g.shapeAt d = some (ed, pd) := hg.shape_eq ▸ hd
      unfold strikeUse
      refine .of_bind (.of_view (Flow.link_eq hd') ?_)
      have hgd : d ≠ x → g.linkOf d = f.linkOf d := fun hdx => by
        rw [hg.link_eq, Function.update_of_ne hdx]
      have hgx : g.linkOf x = .unlinked := by rw [hg.link_eq, Function.update_self]
      split
      next us hus =>
        have hdx : d ≠ x := by
          rintro rfl
          rw [hgx] at hus
          cases hus
        refine (setLink_gives hd' _).mono fun _ g' hg' => ?_
        convert hg.trans hg' using 1
        · exact hg.shape_eq.symm
        · funext y
          by_cases hyd : y = d
          · subst hyd
            simp [unlinked, hl, hdx, ← hgd hdx, hus]
          · simp [unlinked, hl, hyd, hg.link_eq, Function.update_apply]
      next hus =>
        refine .of_pure ?_
        convert hg using 1
        funext y
        by_cases hyx : y = x
        · simp [unlinked, hl, hyx]
        · by_cases hyd : y = d
          · subst hyd
            rw [hgd hyx] at hus
            simp only [unlinked, hl, hyx, if_false, if_true, Function.update_of_ne hyx]
          · simp [unlinked, hl, hyx, hyd]

/-- Removing the link of a node leaves no link to it. -/
theorem unlink_gives (hf : f.Mirrored) (hlinked : ∀ y, f.linkOf y ≠ .unlinked → f.shapeAt y ≠ none)
    (hx : f.shapeAt x ≠ none) :
    Gives (unlink x) f fun _ g => f.Becomes g f.shapeAt (f.linksWithout [x]) := by
  have hread : ∀ y, f.linkOf y = .use (some x) ↔ y ∈ (f.linkOf x).uses := fun y => hf.recorded y x
  have hrecord : ∀ y, x ∈ (f.linkOf y).uses ↔ f.linkOf x = .use (some y) :=
    fun y => (hf.recorded x y).symm
  have hunlinked : unlinked f.linkOf x = f.linksWithout [x] := by
    funext y
    -- what no other link is about stays
    have hother : y ≠ x → f.linkOf y ≠ .use (some x) → x ∉ (f.linkOf y).uses →
        f.linksWithout [x] y = f.linkOf y := by
      intro hy huse huses
      rcases hl : f.linkOf y with _ | us | _ | d
      · simp [Flow.linksWithout, hy, hl, Link.drop]
      · rw [hl] at huses
        simp only [Flow.linksWithout, List.mem_singleton, hy, hl, Link.drop, if_false]
        rw [List.filter_eq_self.2]
        intro u hu
        simpa using fun h : u = x => huses (h ▸ hu)
      · simp [Flow.linksWithout, hy, hl, Link.drop]
      · have hd : d ≠ x := fun h => huse (h ▸ hl)
        simp [Flow.linksWithout, hy, hl, Link.drop, hd]
    by_cases hy : y = x
    · subst hy
      have hself : y ∉ (f.linkOf y).uses := fun h => by
        have huse := (hread y).2 h
        rw [huse] at h
        cases h
      rcases hl : f.linkOf y with _ | us | _ | d
      · simp [unlinked, Flow.linksWithout, hl]
      · rw [hl] at hself
        simp [unlinked, Flow.linksWithout, hl, show y ∉ us from hself]
      · simp [unlinked, Flow.linksWithout, hl]
      · simp [unlinked, Flow.linksWithout, hl]
    · rcases hl : f.linkOf x with _ | us | _ | d
      · rw [hother hy (by simp [hread, hl]) (by simp [hrecord, hl])]
        simp [unlinked, hl, hy]
      · by_cases hyus : y ∈ us
        · have hyx : f.linkOf y = .use (some x) := by rw [hread, hl]; exact hyus
          simp [unlinked, hl, hyus, Flow.linksWithout, hy, hyx, Link.drop]
        · rw [hother hy (by rw [Ne, hread, hl]; exact hyus) (by simp [hrecord, hl])]
          simp [unlinked, hl, hyus, hy]
      · rw [hother hy (by simp [hread, hl]) (by simp [hrecord, hl])]
        simp [unlinked, hl, hy]
      · by_cases hyd : y = d
        · subst hyd
          have hlink := Link.eq_definition_of_mem_uses ((hrecord y).2 hl)
          have hbne : ∀ u : NodeId, (u != x) = !decide (u = x) := fun u => by rw [bne, beq_eq_decide]
          rw [Flow.linksWithout, if_neg (by simpa using hy)]
          simp only [unlinked, hl, hy, if_false, if_true]
          rw [hlink]
          simp [Link.drop, hbne]
        · have hyx : x ∉ (f.linkOf y).uses := fun h => by
            rw [hrecord, hl] at h
            cases h
            exact hyd rfl
          rw [hother hy (by simp [hread, hl]) hyx]
          simp [unlinked, hl, hy, hyd]
  rw [← hunlinked]
  refine unlink_becomes hx (fun d hd => hlinked d ?_) fun u hu => hlinked u ?_
  · rw [Link.eq_definition_of_mem_uses ((hrecord d).2 hd)]
    exact nofun
  · rw [(hread u).2 hu]
    exact nofun

theorem unlinks_gives (xs : List NodeId) (hf : f.Mirrored)
    (hlinked : ∀ y, f.linkOf y ≠ .unlinked → f.shapeAt y ≠ none)
    (hxs : ∀ x ∈ xs, f.shapeAt x ≠ none) :
    Gives (xs.forM unlink) f fun _ g => f.Becomes g f.shapeAt (f.linksWithout xs) := by
  induction xs generalizing f with
  | nil => exact .of_pure (by simpa using Flow.Becomes.refl f)
  | cons x rest ih =>
    refine .of_bind ((unlink_gives hf hlinked (hxs x (by simp))).mono fun _ g hg => ?_)
    have hlinked' : ∀ y, g.linkOf y ≠ .unlinked → g.shapeAt y ≠ none := by
      intro y hy
      rw [hg.shape_eq]
      refine hlinked y fun h => hy ?_
      simp [hg.link_eq, Flow.linksWithout, h]
    have hrest : ∀ y ∈ rest, g.shapeAt y ≠ none := fun y hy => hg.shape_eq ▸ hxs y (by simp [hy])
    refine (ih (hf.without hg.link_eq) hlinked' hrest).mono fun _ g' hg' => ?_
    have h := hg.trans hg'
    rw [Flow.linksWithout_append hg.link_eq, hg.shape_eq] at h
    exact h

end Edit

end FrameRecovery
