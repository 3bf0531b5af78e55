import FrameRecovery.Proofs.Tagging.Tag

namespace FrameRecovery

namespace Flow

variable {f : Flow} {kind : LocationKind} {a : Address} {as : List Address} {s : StatementId}
  {pre post : List StatementId} {l : Location} {p : Point}

/-- The node that the statements in `pre` assign last to a location after control has passed the
    blocks at `as`, if any does. -/
def lastSite? (f : Flow) (kind : LocationKind) (l : Location) (as : List Address)
    (pre : List StatementId) : Option NodeId :=
  Definition.lastSite? l ((as.flatMap f.statementsAt ++ pre).filterMap
    (Summary.definitionOf f kind.locate))

theorem lastSite?_eq (pre : List StatementId) : f.lastSite? kind l as pre =
    (Definition.lastSite? l (pre.filterMap (Summary.definitionOf f kind.locate))).or
      (f.lastSite? kind l as []) := by
  unfold lastSite?
  rw [List.filterMap_append, Definition.lastSite?_append, List.append_nil]

/-- The assignment that is the last one of a location belongs to a live statement. -/
theorem exists_of_lastSite? {d : NodeId} (hf : f.Forest) (h : f.lastSite? kind l as pre = some d)
    (hpre : ∀ s ∈ pre, f.Live s) : ∃ s D, f.Live s ∧ Summary.definitionOf f kind.locate s = some D ∧
      D.location = l ∧ D.site = d := by
  obtain ⟨D, hD, hl, hd⟩ := Definition.exists_of_lastSite? h
  obtain ⟨s, hs, hD⟩ := List.mem_filterMap.1 hD
  refine ⟨s, D, ?_, hD, hl, hd⟩
  rcases List.mem_append.1 hs with hs | hs
  · obtain ⟨c, -, hs⟩ := List.mem_flatMap.1 hs
    exact hf.live hs
  · exact hpre s hs

/-- An untagged operand is assigned to or read, unless it is a dereference of which the address is taken. -/
theorem Rooted.definition_or_read {t u : Term} (hf : f.Rooted) (ht : f.Holds s t) (hu : Term.Within u t)
    (hne : u ≠ t) (hlocate : kind.locate u = some l)
    (hnot : ∀ y, kind = .derefs → f.parentExpr? u.id ≠ .ok (some (.addressOf y))) :
    Summary.definitionOf f kind.locate s = some ⟨s, u.id, l⟩ ∨ ⟨u.id, l⟩ ∈ BlockPlan.readsAt f kind s := by
  obtain ⟨i, e, hwithin, hc, hstands⟩ := (ht.stands.inside hu).resolve_left hne
  obtain ⟨q, hq⟩ := ht.stands.exists_of_within hwithin
  by_cases hunread : kind.isUnread u.id (e.map Term.id) = true
  · left
    cases e with
    | assign X Y =>
      have hX : X.id = u.id := by simpa [Expr.map, LocationKind.isUnread] using hunread
      -- an assignment is the topmost node of its statement
      have hroot : Term.node i (.assign X Y) = t := by
        by_contra hne
        have hi : i ∈ t.preorder := hwithin.preorder_subset (Term.id_mem_preorder _)
        refine hf.ne_assign ht hi (fun hid => hne ?_) _ _ (exprAt_eq_some hq.shape_id)
        exact hwithin.eq_of_id_mem ht.nodup (hid ▸ Term.id_mem_preorder _)
      subst hroot
      obtain ⟨-, -, below⟩ := hq
      obtain rfl := (below X (by simp [Expr.children])).unique hstands hX
      exact (Summary.mem_definitionOf ht).2 ⟨i, X, Y, rfl, hlocate, rfl, rfl⟩
    | addressOf y =>
      exact absurd (parentExpr?_eq_some hstands.shape_id hq.shape_id)
        (hnot y.id (by simpa [Expr.map, LocationKind.isUnread] using hunread))
    | _ => cases hunread
  · right
    exact (BlockPlan.mem_readsAt ht).2 ⟨i, e, u, hwithin, hc, Bool.eq_false_iff.2 hunread, hlocate, rfl⟩

end Flow

namespace Tagging

open Flow

variable {f g : Flow} {V : Locations} {kind : LocationKind} {a : Address} {s m : StatementId}
  {pre post heads : List StatementId} {l : Location} {p : Point} {r : Read} {D : Option NodeId}
  {d : NodeId} {points : List Point}

theorem definitionAt_injective {q : Point} (h : definitionAt p = definitionAt q) : p = q := by
  cases p <;> cases q <;> simp_all [definitionAt]

/-- Every way to an assignment, or to none, comes from a point. -/
theorem exists_definitionAt (D : Option NodeId) : ∃ p, definitionAt p = D := by
  cases D with
  | none => exact ⟨.entry, rfl⟩
  | some d => exact ⟨.definition d, rfl⟩

/-- What reaches a statement of a block is what was assigned last on some way to it. -/
theorem brings_before (hf : f.Forest) (hconnected : f.Connected) (ha : f.block? a ≠ none) :
    ((pre.filterMap (Summary.definitionOf f kind.locate)).foldl Reach.after
      (BlockPlan.planAt f kind a).reach).Brings l p ↔
        ∃ as, f.Path as a ∧ definitionAt p = f.lastSite? kind l as pre := by
  have hstart : (BlockPlan.planAt f kind a).reach.Brings l p ↔
      ∃ as, f.Path as a ∧ definitionAt p = f.lastSite? kind l as [] := by
    unfold lastSite?
    simp only [List.append_nil]
    exact Summary.brings_iff hf hconnected ha
  rw [Reach.brings_foldl_after]
  cases hlast : Definition.lastSite? l (pre.filterMap (Summary.definitionOf f kind.locate)) with
  | none =>
    rw [hstart]
    simp only [lastSite?_eq pre, hlast, Option.none_or]
  | some x =>
    simp only [lastSite?_eq pre, hlast, Option.some_or]
    constructor
    · rintro rfl
      obtain ⟨as, has⟩ := hconnected.path a ha
      exact ⟨as, has, rfl⟩
    · rintro ⟨as, -, hp⟩
      exact definitionAt_injective (hp.trans rfl)

/-- A merge at the head of the block at `a`, which reads once each of what was assigned last to
    its location on the ways to the block; there are several. -/
structure Joins (f g : Flow) (kind : LocationKind) (a : Address) (l : Location) (m : StatementId)
    (d : NodeId) (points : List Point) : Prop where
  merges : g.Merges kind l m d points
  several : 2 ≤ points.length
  nodup : points.Nodup
  mem_iff : ∀ p, p ∈ points ↔ ∃ as, f.Path as a ∧ definitionAt p = f.lastSite? kind l as []

/-- A merge at the head of a block. -/
structure Head (f g : Flow) (kind : LocationKind) (a : Address) (m : StatementId) : Prop where
  fresh : f.statementAt m = none
  joins : ∃ l d points, Joins f g kind a l m d points

/-- What a definition that reads are linked to stands for: it was assigned last on every way to
    the read, or it is the merge at the head of the block and nothing was assigned since. -/
inductive Reaches (f g : Flow) (kind : LocationKind) (a : Address) (heads pre : List StatementId)
    (l : Location) : Option NodeId → Prop
  | always {D : Option NodeId} (h : ∀ as, f.Path as a → f.lastSite? kind l as pre = D) :
    Reaches f g kind a heads pre l D
  | merged {m : StatementId} {d : NodeId} {points : List Point} (hm : m ∈ heads)
    (h : Joins f g kind a l m d points)
    (hpre : Definition.lastSite? l (pre.filterMap (Summary.definitionOf f kind.locate)) = none) :
    Reaches f g kind a heads pre l (some d)

/-- A block with its merges in front, in which every read is linked to what reaches it. -/
structure Exact (f g : Flow) (kind : LocationKind) (a : Address) (heads : List StatementId) : Prop where
  statements_eq : g.statementsAt a = heads ++ f.statementsAt a
  head : ∀ m ∈ heads, Head f g kind a m
  unique : ∀ l m m' d d' points points', m ∈ heads → m' ∈ heads → g.Merges kind l m d points →
    g.Merges kind l m' d' points' → kind = .registers → d = d'
  read : ∀ pre s post, f.statementsAt a = pre ++ s :: post → ∀ r ∈ BlockPlan.readsAt f kind s,
    ∃ D, g.Reads kind r.location r.operand D ∧ Reaches f g kind a heads pre r.location D

private theorem location_eq {l' : Location} {v v' : Nat} (h : g.Defines .registers l d v)
    (h' : g.Defines .registers l' d v') : l' = l := by
  obtain ⟨-, ⟨e, he, hfits⟩, -⟩ := h
  obtain ⟨-, ⟨e', he', hfits'⟩, -⟩ := h'
  rw [he] at he'
  cases he'
  cases hfits
  cases hfits'
  rfl

/-- After tagging, the reads of every block are linked to what was assigned last on the ways to
    them. -/
theorem Tagged.exact (ht : Tagged V f kind g) (hf : f.Forest) (hconnected : f.Connected)
    (ha : f.block? a ≠ none) : ∃ heads, Exact f g kind a heads := by
  obtain ⟨merges, heads, hheaded, hall⟩ := ht.blocks a ha
  have hbrings := fun {pre l p} => @brings_before f kind a pre l p hf hconnected ha
  have hjoins : ∀ l d m, 2 ≤ ((BlockPlan.planAt f kind a).reach.points l).length →
      g.Merges kind l m d ((BlockPlan.planAt f kind a).reach.points l) →
        Joins f g kind a l m d ((BlockPlan.planAt f kind a).reach.points l) := by
    intro l d m hseveral hmerges
    refine ⟨hmerges, hseveral, Reach.nodup_points .., fun p => ?_⟩
    have hne : (BlockPlan.planAt f kind a).reach.points l ≠ [] := by
      intro hnil
      simp [hnil] at hseveral
    rw [← Reach.brings_of_points_ne_nil hne]
    exact @hbrings [] l p
  have hhead : ∀ m ∈ heads, f.statementAt m = none ∧ ∃ l d, merges.find? l = some d ∧
      Joins f g kind a l m d ((BlockPlan.planAt f kind a).reach.points l) := by
    intro m hm
    obtain ⟨hfresh, l, d, hd, hmerges⟩ := hheaded.head m hm
    exact ⟨hfresh, l, d, hd, hjoins l d m (hheaded.merge l d hd).1 hmerges⟩
  refine ⟨heads, hheaded.statements_eq, fun m hm => ?_, ?_, ?_⟩
  · obtain ⟨hfresh, l, d, -, hjoins⟩ := hhead m hm
    exact ⟨hfresh, l, d, _, hjoins⟩
  · intro l m m' d d' points points' hm hm' hmerges hmerges' hkind
    subst hkind
    -- a head is the only merge of its location
    have hfind : ∀ m d points, m ∈ heads → g.Merges .registers l m d points → merges.find? l = some d := by
      intro m d points hm hmerges
      obtain ⟨-, l', d', hd', hjoins⟩ := hhead m hm
      obtain ⟨st, y, inputs, v, hst, hroot, -, hdefines, -⟩ := hmerges
      obtain ⟨st', y', inputs', v', hst', hroot', -, hdefines', -⟩ := hjoins.merges
      obtain rfl := Option.some.inj (hst.symm.trans hst')
      rw [hroot] at hroot'
      cases hroot'
      exact location_eq hdefines hdefines' ▸ hd'
    exact Option.some.inj ((hfind m d points hm hmerges).symm.trans (hfind m' d' points' hm' hmerges'))
  · intro pre s post hsplit r hr
    have hvisits : (BlockPlan.planAt f kind a).visits = pre.map (BlockPlan.visitAt f kind) ++
        BlockPlan.visitAt f kind s :: post.map (BlockPlan.visitAt f kind) := by
      rw [BlockPlan.planAt, hsplit, List.map_append, List.map_cons]
    obtain ⟨D, hreads, hresolves⟩ := hall _ _ _ hvisits r hr
    refine ⟨D, hreads, ?_⟩
    have hbefore : (pre.map (BlockPlan.visitAt f kind)).filterMap Visit.definition =
        pre.filterMap (Summary.definitionOf f kind.locate) := by
      rw [List.filterMap_map]
      rfl
    rw [hbefore] at hresolves
    have halways : ∀ p, (∀ q, ((pre.filterMap (Summary.definitionOf f kind.locate)).foldl Reach.after
        (BlockPlan.planAt f kind a).reach).Brings r.location q ↔ q = p) → ∀ as, f.Path as a →
          f.lastSite? kind r.location as pre = definitionAt p := by
      intro p hp as has
      obtain ⟨q, hq⟩ := exists_definitionAt (f.lastSite? kind r.location as pre)
      rw [← hq, (hp q).1 (hbrings.2 ⟨as, has, hq⟩)]
    cases hresolves with
    | entry h => exact .always (halways .entry h)
    | definition h => exact .always (halways _ h)
    | merge h several =>
      obtain ⟨hseveral, m, hm, hmerges⟩ := hheaded.merge _ _ h
      refine .merged hm (hjoins _ _ m hseveral hmerges) ?_
      rw [Reach.points_foldl_after] at several
      split at several
      · simp at several
      next hnone => exact hnone

end Tagging

end FrameRecovery
