import FrameRecovery.Proofs.Tagging.Merges
import FrameRecovery.Proofs.Tagging.Plan
import Mathlib.Data.List.ReduceOption

namespace FrameRecovery

namespace Tagging

open Flow

variable {f g h : Flow} {V : Locations} {kind : LocationKind} {ds before : List Definition}
  {rs : List Read} {r : Read} {R : Reach} {a : Address} {p : Progress} {l : Location}
  {versions : Versions} {key : NodeId → Option Location}

/-- The last version given to a location. -/
def Versions.last (vs : Versions) (l : Location) : Nat :=
  (vs.find? l).getD 0

theorem Versions.last_insert (vs : Versions) (l l' : Location) (v : Nat) :
    Versions.last (vs.insert l v) l' = if l' = l then v else vs.last l' := by
  unfold last
  split
  next h => rw [h, SortedMap.find?_insert_self, Option.getD_some]
  next h => rw [SortedMap.find?_insert_of_ne h]

/-- A location that an operand in a statement has. -/
def Located (f : Flow) (kind : LocationKind) (l : Location) : Prop :=
  ∃ s t u, f.Holds s t ∧ Term.Within u t ∧ kind.locate u = some l

/-- The definitions of a flow that were none in a flow `f` have versions of the locations that
    `key` tells, each one once, and none beyond the last that was given. -/
structure Numbered (f : Flow) (kind : LocationKind) (versions : Versions) (key : NodeId → Option Location)
    (g : Flow) : Prop where
  keyed : ∀ y us, g.linkOf y = .definition us →
    (∃ us', f.linkOf y = .definition us') ∨ ∃ l, key y = some l
  defines : ∀ y l, key y = some l → ∃ v, g.Defines kind l y v ∧ v ≤ versions.last l ∧ g.Names kind l y
  unique : ∀ y y' l v, key y = some l → key y' = some l → g.Defines kind l y v →
    g.Defines kind l y' v → y = y'
  located : ∀ y l, key y = some l → Located f kind l

namespace Numbered

theorem start (f : Flow) : Numbered f kind .empty (fun _ => none) f :=
  ⟨fun _ us h => .inl ⟨us, h⟩, nofun, nofun, nofun⟩

/-- A definition keeps its version. -/
theorem defines_iff (hg : Numbered f kind versions key g) (hgh : g.Later kind h) {y : NodeId} {v : Nat}
    (hy : key y = some l) : h.Defines kind l y v ↔ g.Defines kind l y v := by
  refine ⟨fun hv => ?_, fun hv => hv.marks hgh.marks⟩
  obtain ⟨v', hv', -⟩ := hg.defines y l hy
  exact hv.unique (hv'.marks hgh.marks) ▸ hv'

theorem later (hg : Numbered f kind versions key g) (hgh : g.Later kind h)
    (hold : ∀ y us, h.linkOf y = .definition us → ∃ us', g.linkOf y = .definition us') :
    Numbered f kind versions key h := by
  refine ⟨fun y us hy => ?_, fun y l hy => ?_, fun y y' l v hy hy' hv hv' => ?_, hg.located⟩
  · obtain ⟨us', hy⟩ := hold y us hy
    exact hg.keyed y us' hy
  · obtain ⟨v, hv, hle, hnames⟩ := hg.defines y l hy
    exact ⟨v, hv.marks hgh.marks, hle, hnames.later hgh⟩
  · exact hg.unique y y' l v hy hy' ((hg.defines_iff hgh hy).1 hv) ((hg.defines_iff hgh hy').1 hv')

/-- One more definition gets the next version of its location. -/
theorem next (hg : Numbered f kind versions key g) (hgh : g.Later kind h) {d : NodeId}
    (hold : ∀ y us, h.linkOf y = .definition us → y = d ∨ ∃ us', g.linkOf y = .definition us')
    (hd : h.Defines kind l d (versions.last l + 1)) (hnames : h.Names kind l d) (hl : Located f kind l) :
    Numbered f kind (versions.insert l (versions.last l + 1)) (Function.update key d (some l)) h := by
  -- an older definition has a smaller version
  have hless : ∀ y v, y ≠ d → Function.update key d (some l) y = some l → h.Defines kind l y v →
      v ≠ versions.last l + 1 := by
    intro y v hyd hy hv
    rw [Function.update_of_ne hyd] at hy
    obtain ⟨v', hv', hle, -⟩ := hg.defines y l hy
    have heq := hv.unique (hv'.marks hgh.marks)
    omega
  refine ⟨fun y us hy => ?_, fun y l' hy => ?_, fun y y' l' v hy hy' hv hv' => ?_, fun y l' hy => ?_⟩
  · rcases hold y us hy with rfl | ⟨us', hy⟩
    · exact .inr ⟨l, Function.update_self ..⟩
    · by_cases hyd : y = d
      · exact .inr ⟨l, by rw [hyd, Function.update_self]⟩
      · rw [Function.update_of_ne hyd]
        exact hg.keyed y us' hy
  · by_cases hyd : y = d
    · subst hyd
      rw [Function.update_self] at hy
      cases hy
      exact ⟨_, hd, by simp [Versions.last_insert], hnames⟩
    · rw [Function.update_of_ne hyd] at hy
      obtain ⟨v, hv, hle, hnames⟩ := hg.defines y l' hy
      refine ⟨v, hv.marks hgh.marks, ?_, hnames.later hgh⟩
      rw [Versions.last_insert]
      split
      next h =>
        subst h
        omega
      next => exact hle
  · by_cases hyd : y = d <;> by_cases hyd' : y' = d
    · rw [hyd, hyd']
    · subst hyd
      rw [Function.update_self] at hy
      cases hy
      exact absurd (hv.unique hd) (hless y' v hyd' hy' hv')
    · subst hyd'
      rw [Function.update_self] at hy'
      cases hy'
      exact absurd (hv'.unique hd) (hless y v hyd hy hv)
    · rw [Function.update_of_ne hyd] at hy
      rw [Function.update_of_ne hyd'] at hy'
      exact hg.unique y y' l' v hy hy' ((hg.defines_iff hgh hy).1 hv) ((hg.defines_iff hgh hy').1 hv')
  · by_cases hyd : y = d
    · rw [hyd, Function.update_self, Option.some.injEq] at hy
      exact hy ▸ hl
    · rw [Function.update_of_ne hyd] at hy
      exact hg.located y l' hy

end Numbered

/-- A read that is still to be tagged. -/
structure Waits (g : Flow) (kind : LocationKind) (r : Read) : Prop where
  fits : ∃ e, g.exprAt r.operand = some e ∧ kind.Fits r.location none e
  names : g.Names kind r.location r.operand
  held : g.Held r.operand
  not_assigned : ∀ i y, g.exprAt i ≠ some (.assign r.operand y)

/-- A read that is found in the block at an address. -/
def ReadIn (f : Flow) (kind : LocationKind) (a : Address) (r : Read) : Prop :=
  ∃ s t, s ∈ f.statementsAt a ∧ f.Holds s t ∧ r ∈ BlockPlan.readsAt f kind s

theorem ReadIn.located (hr : ReadIn f kind a r) : Located f kind r.location := by
  obtain ⟨s, t, -, ht, hr⟩ := hr
  obtain ⟨i, e, u, hwithin, hu, -, hlocate, -⟩ := (BlockPlan.mem_readsAt ht).1 hr
  exact ⟨s, t, u, ht, (Term.Within.of_mem_children hu).trans hwithin, hlocate⟩

/-- Why a node reads a definition in a flow `g`: it did so in `f`, it was found as a read there, it
    is an operand of a merge; or it is in a merge at the head of a block, and reads the same as a node
    of a statement in that block in which a read was found. -/
inductive Source (f : Flow) (kind : LocationKind) (g : Flow) (x d : NodeId) : Prop
  | kept (h : f.linkOf x = .use (some d)) : Source f kind g x d
  | found {a : Address} {r : Read} (h : ReadIn f kind a r) (hx : r.operand = x) : Source f kind g x d
  | input (h : g.IsInput x) : Source f kind g x d
  | copied {a : Address} {m s : StatementId} {T t : Term} {d' y : NodeId} {r : Read}
    (hfresh : f.statementAt m = none) (hm : m ∈ g.statementsAt a) (hT : g.Holds m T) (hx : x ∈ T.preorder)
    (hassigns : g.Assigns m T.id d') (hd : d' ≠ d) (hs : s ∈ f.statementsAt a) (ht : f.Holds s t)
    (hr : r ∈ BlockPlan.readsAt f kind s) (hy : y ∈ t.preorder) (hlink : g.linkOf y = .use (some d)) :
    Source f kind g x d

theorem Source.later {x d : NodeId} (hg : Source f kind g x d) (hgh : g.Later kind h)
    (hstatements : ∀ a, g.statementsAt a ⊆ h.statementsAt a) : Source f kind h x d := by
  cases hg with
  | kept hx => exact .kept hx
  | found hr hx => exact .found hr hx
  | input hx => exact .input (hx.later hgh)
  | copied hfresh hm hT hx hassigns hd hs ht hr hy hlink =>
    obtain ⟨T', hT', hid, hpreorder⟩ := hgh.exists_holds hT
    exact .copied hfresh (hstatements _ hm) hT' (hpreorder ▸ hx) (hid ▸ hassigns.later hgh) hd hs ht hr hy
      (hgh.use hlink)

/-- The state of a flow, `f` before, in which the definitions `ds` are tagged and the reads `rs`
    are still to be tagged. -/
structure Ready (V : Locations) (f : Flow) (kind : LocationKind) (ds : List Definition) (rs : List Read)
    (versions : Versions) (g : Flow) : Prop where
  permits : kind.Permits V
  sound : g.Sound V
  rooted : g.Rooted
  later : f.Later kind g
  waits : ∀ r ∈ rs, Waits g kind r
  nodup : (rs.map Read.operand).Nodup
  defined : ∀ d ∈ ds, ∃ v, g.Defines kind d.location d.site v
  sources : ∀ x d, g.linkOf x = .use (some d) → Source f kind g x d
  numbered : ∃ key, Numbered f kind versions key g

/-- The statements `heads` are the merges at the head of a block, one for each location in
    `merges`. -/
structure Headed (f g : Flow) (kind : LocationKind) (R : Reach) (a : Address)
    (merges : SortedMap Location NodeId) (heads : List StatementId) : Prop where
  statements_eq : g.statementsAt a = heads ++ f.statementsAt a
  length_eq : heads.length = merges.entries.length
  merge : ∀ l d, merges.find? l = some d →
    2 ≤ (R.points l).length ∧ ∃ s ∈ heads, g.Merges kind l s d (R.points l)
  head : ∀ s ∈ heads, f.statementAt s = none ∧
    ∃ l d, merges.find? l = some d ∧ g.Merges kind l s d (R.points l)

/-- The definition that stands for what reaches a location. -/
inductive Resolves (R : Reach) (merges : SortedMap Location NodeId) (l : Location) :
    Option NodeId → Prop
  | entry (h : ∀ p, R.Brings l p ↔ p = .entry) : Resolves R merges l none
  | definition {d : NodeId} (h : ∀ p, R.Brings l p ↔ p = .definition d) : Resolves R merges l (some d)
  | merge {d : NodeId} (h : merges.find? l = some d) (several : 2 ≤ (R.points l).length) :
    Resolves R merges l (some d)

/-- A read is linked to the definition that stands for what reaches it. -/
def Linked (g : Flow) (kind : LocationKind) (R : Reach) (merges : SortedMap Location NodeId)
    (r : Read) : Prop :=
  ∃ D, g.Reads kind r.location r.operand D ∧ Resolves R merges r.location D

theorem Waits.later (hr : Waits g kind r) (hgh : g.Later kind h)
    (hsame : h.exprAt r.operand = g.exprAt r.operand) : Waits h kind r := by
  obtain ⟨e, he, hfits⟩ := hr.fits
  refine ⟨⟨e, hsame.trans he, hfits⟩, hr.names.later hgh, hgh.held hr.held, fun i y hi => ?_⟩
  cases hgi : g.exprAt i with
  | none => simp [hgh.assign i _ y hgi hi] at he
  | some e' =>
    obtain ⟨e'', he'', -, hassignable⟩ := hgh.marks.exists_exprAt hgi
    rw [hi] at he''
    cases he''
    have hkept := hgh.marks.exprAt_eq hgi (.inr hassignable.symm)
    rw [hi] at hkept
    cases hkept
    exact hr.not_assigned i y hgi

theorem Headed.later {merges : SortedMap Location NodeId} {heads : List StatementId}
    (hg : Headed f g kind R a merges heads) (hgh : g.Later kind h)
    (hstatements : h.statementsAt a = g.statementsAt a) : Headed f h kind R a merges heads := by
  refine ⟨hstatements.trans hg.statements_eq, hg.length_eq, fun l d hd => ?_, fun s hs => ?_⟩
  · obtain ⟨hseveral, s, hs, hmerges⟩ := hg.merge l d hd
    exact ⟨hseveral, s, hs, hmerges.later hgh⟩
  · obtain ⟨hfresh, l, d, hd, hmerges⟩ := hg.head s hs
    exact ⟨hfresh, l, d, hd, hmerges.later hgh⟩

theorem Linked.mono {merges merges' : SortedMap Location NodeId} (hr : Linked g kind R merges r)
    (hgh : g.Marks kind h) (hmerges : ∀ l d, merges.find? l = some d → merges'.find? l = some d) :
    Linked h kind R merges' r := by
  obtain ⟨D, hD, hresolves⟩ := hr
  refine ⟨D, hD.marks hgh, ?_⟩
  cases hresolves with
  | entry h => exact .entry h
  | definition h => exact .definition h
  | merge h several => exact .merge (hmerges _ _ h) several

/-- The outcome of tagging some reads of a block, after which the reads `rs` are left. -/
structure Advances (V : Locations) (f : Flow) (kind : LocationKind) (ds : List Definition) (a : Address)
    (R : Reach) (rs : List Read) (p : Progress) (g : Flow) (p' : Progress) (h : Flow) : Prop where
  ready : Ready V f kind ds rs p'.versions h
  later : g.Later kind h
  headed : ∃ heads, Headed f h kind R a p'.merges heads
  merges : ∀ l d, p.merges.find? l = some d → p'.merges.find? l = some d
  others : ∀ a', a' ≠ a → h.statementsAt a' = g.statementsAt a'

theorem Advances.trans {p' p'' : Progress} {rs' : List Read} {k : Flow}
    (hgh : Advances V f kind ds a R rs p g p' h) (hhk : Advances V f kind ds a R rs' p' h p'' k) :
    Advances V f kind ds a R rs' p g p'' k :=
  ⟨hhk.ready, hgh.later.trans hhk.later, hhk.headed, fun l d hd => hhk.merges l d (hgh.merges l d hd),
    fun a' ha' => (hhk.others a' ha').trans (hgh.others a' ha')⟩

private theorem statementsAt_eq_of_blocks (hblocks : h.blocks = g.blocks) :
    h.statementsAt = g.statementsAt := by
  funext a
  simp [statementsAt, block?, hblocks]

theorem markRead_ready (hr : ReadIn f kind a r) (hg : Ready V f kind ds (r :: rs) versions g) {D : Option NodeId}
    (hD : ∀ d, D = some d → ∃ v, g.Defines kind r.location d v) :
    Gives (markRead r.operand D) g fun _ h => Ready V f kind ds rs versions h ∧ g.Later kind h ∧
      h.statementsAt = g.statementsAt ∧ h.Reads kind r.location r.operand D := by
  obtain ⟨⟨e, he, hfits⟩, -, hheld, hnot⟩ := hg.waits r (by simp)
  obtain ⟨key, hnumbered⟩ := hg.numbered
  refine (markRead_gives hg.permits hg.sound.wired he hfits hD hnot).mono ?_
  rintro - h ⟨hwired, htags, hreads⟩
  have hlater := htags.later (by simp [he])
  have hnodup := List.nodup_cons.1 hg.nodup
  have hstatements := statementsAt_eq_of_blocks htags.blocks_eq
  refine ⟨⟨hg.permits, htags.sound hg.sound hwired hlater hheld,
    hg.rooted.later hlater (htags.noNewAssign he hfits.isAssignable), hg.later.trans hlater,
    fun r' hr' => ?_, hnodup.2, fun d hd => ?_, fun x d hx => ?_, key,
    hnumbered.later hlater fun y us hy => ?_⟩, hlater, hstatements, hreads⟩
  · refine (hg.waits r' (by simp [hr'])).later hlater (htags.exprAt_ne _ fun heq => hnodup.1 ?_)
    exact heq ▸ List.mem_map_of_mem hr'
  · obtain ⟨v, hv⟩ := hg.defined d hd
    exact ⟨v, hv.marks hlater.marks⟩
  · by_cases hxr : x = r.operand
    · exact .found hr hxr.symm
    · refine (hg.sources x d ?_).later hlater fun a => by rw [hstatements]; exact fun _ h => h
      exact (htags.extends_ne x hxr).use_iff.1 hx
  · refine htags.definition_of_ne (fun hyx => ?_) hy
    obtain ⟨-, -, hlink, -⟩ := hreads
    rw [hyx, hlink] at hy
    cases hy

private theorem insertIdx_length_append {α : Type} (xs ys : List α) (x : α) :
    (xs ++ ys).insertIdx xs.length x = (xs ++ [x]) ++ ys := by
  induction xs with
  | nil => simp
  | cons y rest ih => simpa using ih

/-- A read that is still to be tagged is in the tree of a statement, which has the nodes it had. -/
theorem ReadIn.exists_within (hr : ReadIn f kind a r) (hlater : f.Later kind g) (hwaits : Waits g kind r) :
    ∃ s t S E, s ∈ f.statementsAt a ∧ f.Holds s t ∧ r ∈ BlockPlan.readsAt f kind s ∧ g.Holds s S ∧
      S.preorder = t.preorder ∧ Term.Within (.node r.operand E) S ∧ kind.Fits r.location none (E.map Term.id) := by
  obtain ⟨⟨e, he, hfits⟩, -⟩ := hwaits
  obtain ⟨s, t, hs, ht, hread⟩ := hr
  obtain ⟨S, hS, -, hpreorder⟩ := hlater.exists_holds ht
  have hx : r.operand ∈ S.preorder := hpreorder ▸ List.mem_of_mem_tail (BlockPlan.operand_mem ht hread)
  obtain ⟨⟨i, E⟩, hwithin, hid⟩ := Term.exists_within_of_mem_preorder hx
  obtain rfl : i = r.operand := hid
  obtain ⟨q, hstands⟩ := hS.stands.exists_of_within hwithin
  have hexpr := exprAt_eq_some hstands.shape_id
  rw [Term.id_node, he] at hexpr
  exact ⟨s, t, S, E, hs, ht, hread, hS, hpreorder, hwithin, Option.some.inj hexpr ▸ hfits⟩

/-- A merge that is put behind those at the head of a block is one of them. -/
theorem Headed.insert {merges : SortedMap Location NodeId} {heads : List StatementId} {S : Term} {version : Nat}
    {d : NodeId} (hheads : Headed f g kind R a merges heads) (hlater : f.Later kind g)
    (hmerged : Merged V g h kind l S a merges.entries.length (R.points l) version d)
    (hfind : merges.find? l = none) (hseveral : 2 ≤ (R.points l).length) :
    ∃ heads', Headed f h kind R a (merges.insert l d) heads' := by
  obtain ⟨s, hfresh, hmerges, hstatements⟩ := hmerged.placed
  refine ⟨heads ++ [s], ?_, ?_, fun l' d' hd' => ?_, fun s₀ hs₀ => ?_⟩
  · rw [hstatements, if_pos rfl, hheads.statements_eq, ← hheads.length_eq, insertIdx_length_append]
  · rw [SortedMap.length_entries_insert hfind, List.length_append, hheads.length_eq]
    rfl
  · by_cases hl : l' = l
    · subst hl
      rw [SortedMap.find?_insert_self] at hd'
      cases hd'
      exact ⟨hseveral, s, by simp, hmerges⟩
    · rw [SortedMap.find?_insert_of_ne hl] at hd'
      obtain ⟨htwo, s₀, hs₀, hmerges₀⟩ := hheads.merge l' d' hd'
      exact ⟨htwo, s₀, by simp [hs₀], hmerges₀.later hmerged.later⟩
  · rcases List.mem_append.1 hs₀ with hs₀ | hs₀
    · obtain ⟨hnone, l', d', hd', hmerges₀⟩ := hheads.head s₀ hs₀
      refine ⟨hnone, l', d', ?_, hmerges₀.later hmerged.later⟩
      rw [SortedMap.find?_insert_of_ne, hd']
      rintro rfl
      simp [hfind] at hd'
    · obtain rfl := List.mem_singleton.1 hs₀
      exact ⟨hlater.statementAt_eq_none hfresh, l, d, SortedMap.find?_insert_self .., hmerges⟩

/-- A merge for the location of a read leaves the flow ready for that read and those after it. -/
theorem Ready.merged {s : StatementId} {t S : Term} {position : Nat} {points : List Point} {d : NodeId}
    (hg : Ready V f kind ds (r :: rs) versions g) (hs : s ∈ f.statementsAt a) (ht : f.Holds s t)
    (hread : r ∈ BlockPlan.readsAt f kind s) (hpreorder : S.preorder = t.preorder)
    (hposition : position ≤ (g.statementsAt a).length)
    (hmerged : Merged V g h kind r.location S a position points (versions.last r.location + 1) d) :
    Ready V f kind ds (r :: rs) (versions.insert r.location (versions.last r.location + 1)) h := by
  obtain ⟨key, hnumbered⟩ := hg.numbered
  refine ⟨hg.permits, hmerged.sound, hmerged.rooted, hg.later.trans hmerged.later, fun r' hr' => ?_,
    hg.nodup, fun d' hd' => ?_, fun x d' hx' => ?_, _, hnumbered.next hmerged.later hmerged.definition
      hmerged.defines hmerged.names (ReadIn.located ⟨s, t, hs, ht, hread⟩)⟩
  · obtain ⟨e', he', -⟩ := (hg.waits r' hr').fits
    refine (hg.waits r' hr').later hmerged.later ?_
    rw [he', (hmerged.kept _ _ he').1]
  · obtain ⟨v, hv⟩ := hg.defined d' hd'
    exact ⟨v, hv.marks hmerged.later.marks⟩
  · rcases hmerged.reads x d' hx' with hold | hinput | ⟨s₀, T, hs₀, hblock, hT, hxT, hassigns, y, hy, hlink⟩
    · obtain ⟨s', -, -, hstatements⟩ := hmerged.placed
      refine (hg.sources x d' hold).later hmerged.later fun a' s₀ hs₀ => ?_
      rw [hstatements]
      split
      next heq =>
        subst heq
        exact (List.mem_insertIdx hposition).2 (.inr hs₀)
      next => exact hs₀
    · exact .input hinput
    · have hne : d ≠ d' := by
        rintro rfl
        exact hg.sound.typed.linked hg.sound.mirrored hlink hmerged.fresh
      exact .copied (hg.later.statementAt_eq_none hs₀) hblock hT hxT hassigns hne hs ht hread (hpreorder ▸ hy)
        (hmerged.later.use hlink)

/-- A merge is made once for each location, and stands for what reaches the start of the block. -/
theorem merge_gives (hr : ReadIn f kind a r) (hg : Ready V f kind ds (r :: rs) p.versions g)
    (ha : f.block? a ≠ none)
    (hknown : ∀ x, .definition x ∈ R.points r.location →
      ∃ d ∈ ds, d.location = r.location ∧ d.site = x)
    (hheaded : ∃ heads, Headed f g kind R a p.merges heads) (hseveral : 2 ≤ (R.points r.location).length) :
    Gives (merge a (R.points r.location) p r) g fun q h =>
      Advances V f kind ds a R (r :: rs) p g q.2 h ∧ q.2.reach = p.reach ∧
      q.2.merges.find? r.location = some q.1 ∧ ∃ v, h.Defines kind r.location q.1 v := by
  obtain ⟨heads, hheads⟩ := hheaded
  unfold merge
  cases hfind : p.merges.find? r.location with
  | some d =>
    obtain ⟨-, s, -, -, -, -, v, -, -, -, hd, -⟩ := hheads.merge _ d hfind
    exact .of_pure ⟨⟨hg, .refl g, ⟨heads, hheads⟩, fun _ _ h => h, fun _ _ => rfl⟩, rfl, hfind, v, hd⟩
  | none =>
    have hwaits := hg.waits r (by simp)
    obtain ⟨s, t, S, E, hs, ht, hread, hS, hpreorder, hwithin, hfits⟩ := hr.exists_within hg.later hwaits
    obtain ⟨b, hb⟩ := Option.ne_none_iff_exists'.1 (hg.later.graph.ne_none ha)
    have hposition : p.merges.entries.length ≤ (g.statementsAt a).length := by
      rw [hheads.statements_eq, List.length_append, hheads.length_eq]
      omega
    have hpoints : ∀ d, .definition d ∈ R.points r.location → ∃ v, g.Defines kind r.location d v := by
      intro x hx
      obtain ⟨d, hd, hl, rfl⟩ := hknown x hx
      exact hl ▸ hg.defined d hd
    refine .of_bind ((insertTheta_gives hg.permits hg.sound hg.rooted hS hwithin hfits hwaits.names hpoints hb
      (statementsAt_eq hb ▸ hposition) (Nat.le_add_left 1 _)).mono ?_)
    rintro d h hmerged
    obtain ⟨s', -, -, hstatements⟩ := hmerged.placed
    refine .of_pure ⟨⟨hg.merged hs ht hread hpreorder hposition hmerged, hmerged.later,
      hheads.insert hg.later hmerged hfind hseveral, fun l d' hd' => ?_, fun a' ha' => ?_⟩, rfl,
      SortedMap.find?_insert_self .., _, hmerged.defines⟩
    · rw [SortedMap.find?_insert_of_ne, hd']
      rintro rfl
      simp [hfind] at hd'
    · rw [hstatements, if_neg ha']

/-- What reaches a place is the entry or one of the tagged definitions of the location. -/
def Known (ds : List Definition) (R : Reach) : Prop :=
  ∀ l x, R.Brings l (.definition x) → ∃ d ∈ ds, d.location = l ∧ d.site = x

theorem Known.foldl_after (hR : Known ds R) (hbefore : ∀ d ∈ before, d ∈ ds) :
    Known ds (before.foldl Reach.after R) := by
  intro l x hx
  rw [Reach.brings_foldl_after] at hx
  split at hx
  next y hy =>
    cases hx
    obtain ⟨d, hd, hl, hsite⟩ := Definition.exists_of_lastSite? hy
    exact ⟨d, hbefore d hd, hl, hsite⟩
  next => exact hR l x hx

section Block

variable (ha : f.block? a ≠ none) (hR : Known ds R) (hbefore : ∀ d ∈ before, d ∈ ds)
  (hreach : p.reach = before.foldl Reach.after R)
include ha hR hbefore hreach

theorem tagRead_gives (hr : ReadIn f kind a r) (hg : Ready V f kind ds (r :: rs) p.versions g)
    (hheaded : ∃ heads, Headed f g kind R a p.merges heads) :
    Gives (tagRead a p r) g fun p' h => Advances V f kind ds a R rs p g p' h ∧ p'.reach = p.reach ∧
      Linked h kind p.reach p'.merges r := by
  have hknown := hR.foldl_after hbefore
  rw [← hreach] at hknown
  have hmark : ∀ D, (∀ d, D = some d → ∃ v, g.Defines kind r.location d v) →
      (Resolves p.reach p.merges r.location D) →
      Gives (do
        markRead r.operand D
        return p) g fun p' h => Advances V f kind ds a R rs p g p' h ∧ p'.reach = p.reach ∧
          Linked h kind p.reach p'.merges r := by
    intro D hD hresolves
    refine .of_bind ((markRead_ready hr hg hD).mono ?_)
    rintro - h ⟨hready, hlater, hstatements, hreads⟩
    obtain ⟨heads, hheads⟩ := hheaded
    exact .of_pure ⟨⟨hready, hlater, ⟨heads, hheads.later hlater (by rw [hstatements])⟩,
      fun _ _ h => h, fun a' _ => by rw [hstatements]⟩, rfl, D, hreads, hresolves⟩
  unfold tagRead
  have hbrings := fun {p'} => p.reach.brings_of_points_ne_nil (l := r.location) (p := p')
  split
  next hnil => exact hmark none nofun (.entry fun p' => Reach.brings_of_points_eq_nil hnil)
  next hentry =>
    refine hmark none nofun (.entry fun p' => ?_)
    rw [hbrings (by simp [hentry]), hentry, List.mem_singleton]
  next d hdefinition =>
    have hd : ∀ p', p.reach.Brings r.location p' ↔ p' = .definition d := fun p' => by
      rw [hbrings (by simp [hdefinition]), hdefinition, List.mem_singleton]
    refine hmark (some d) ?_ (.definition hd)
    rintro _ ⟨⟩
    obtain ⟨d', hd', hl, rfl⟩ := hknown _ _ ((hd _).2 rfl)
    exact hl ▸ hg.defined d' hd'
  next hnil hentry hdefinition =>
    have hseveral : 2 ≤ (p.reach.points r.location).length := by
      rcases hpoints : p.reach.points r.location with _ | ⟨p₀, _ | ⟨p₁, rest⟩⟩
      · exact absurd hpoints hnil
      · cases p₀ with
        | entry => exact absurd hpoints hentry
        | definition d => exact absurd hpoints (hdefinition d)
      · simp
    -- several points reach a place only from the start of the block
    have hsame : p.reach.points r.location = R.points r.location := by
      rw [hreach, Reach.points_foldl_after] at hseveral ⊢
      split at hseveral
      · simp at hseveral
      next => simp
    have hpoints : ∀ x, .definition x ∈ R.points r.location →
        ∃ d ∈ ds, d.location = r.location ∧ d.site = x := by
      intro x hx
      rw [← hsame] at hx
      exact hknown _ _ ((hbrings fun h => by simp [h] at hx).2 hx)
    rw [hsame]
    refine .of_bind ((merge_gives hr hg ha hpoints hheaded (hsame ▸ hseveral)).mono ?_)
    rintro ⟨d, q⟩ g₁ ⟨hadvances, hq, hfind, hdefines⟩
    refine .of_bind ((markRead_ready hr hadvances.ready ?_).mono ?_)
    · rintro _ ⟨⟩
      exact hdefines
    · rintro - h ⟨hready, hlater, hstatements, hreads⟩
      obtain ⟨heads, hheads⟩ := hadvances.headed
      refine .of_pure ⟨hadvances.trans ⟨hready, hlater, ⟨heads, hheads.later hlater ?_⟩,
        fun _ _ h => h, fun a' _ => ?_⟩, hq, some d, hreads, .merge hfind hseveral⟩
      · rw [hstatements]
      · rw [hstatements]

theorem tagReads_gives (reads : List Read) (hreads : ∀ r ∈ reads, ReadIn f kind a r)
    (hg : Ready V f kind ds (reads ++ rs) p.versions g)
    (hheaded : ∃ heads, Headed f g kind R a p.merges heads) :
    Gives (reads.foldlM (tagRead a) p) g fun p' h => Advances V f kind ds a R rs p g p' h ∧
      p'.reach = p.reach ∧ ∀ r ∈ reads, Linked h kind p.reach p'.merges r := by
  induction reads generalizing p g with
  | nil => exact .of_pure ⟨⟨hg, .refl g, hheaded, fun _ _ h => h, fun _ _ => rfl⟩, rfl, by simp⟩
  | cons r rest ih =>
    refine .of_bind ((tagRead_gives ha hR hbefore hreach (hreads r (by simp)) hg hheaded).mono ?_)
    rintro p₁ g₁ ⟨hadvances, hp₁, hlinked⟩
    refine (ih (hp₁.trans hreach) (fun r' hr' => hreads r' (by simp [hr'])) hadvances.ready
      hadvances.headed).mono ?_
    rintro p' h ⟨hadvances', hp', hrest⟩
    refine ⟨hadvances.trans hadvances', hp'.trans hp₁, fun r' hr' => ?_⟩
    rcases List.mem_cons.1 hr' with rfl | hr'
    · exact hlinked.mono hadvances'.later.marks hadvances'.merges
    · exact hp₁ ▸ hrest r' hr'

end Block

/-- The reads of some statements are linked to what reaches them, the first one of which is
    reached by `R`. -/
def AllLinked (h : Flow) (kind : LocationKind) (R : Reach) (merges : SortedMap Location NodeId)
    (visits : List Visit) : Prop :=
  ∀ pre v post, visits = pre ++ v :: post → ∀ r ∈ v.reads,
    Linked h kind ((pre.filterMap Visit.definition).foldl Reach.after R) merges r

theorem tagVisits_gives (visits : List Visit) (ha : f.block? a ≠ none) (hR : Known ds R)
    (hbefore : ∀ d ∈ before, d ∈ ds) (hvisits : ∀ v ∈ visits, ∀ d, v.definition = some d → d ∈ ds)
    (hreads : ∀ v ∈ visits, ∀ r ∈ v.reads, ReadIn f kind a r) (hreach : p.reach = before.foldl Reach.after R)
    (hg : Ready V f kind ds (visits.flatMap Visit.reads ++ rs) p.versions g)
    (hheaded : ∃ heads, Headed f g kind R a p.merges heads) :
    Gives (visits.foldlM (tagVisit a) p) g fun p' h => Advances V f kind ds a R rs p g p' h ∧
      AllLinked h kind p.reach p'.merges visits := by
  induction visits generalizing p g before with
  | nil => exact .of_pure ⟨⟨hg, .refl g, hheaded, fun _ _ h => h, fun _ _ => rfl⟩, by simp [AllLinked]⟩
  | cons v rest ih =>
    rw [List.flatMap_cons, List.append_assoc] at hg
    have hv := hvisits v (by simp)
    have hrest : ∀ w ∈ rest, ∀ d, w.definition = some d → d ∈ ds := fun w hw => hvisits w (by simp [hw])
    refine .of_bind (.of_bind ((tagReads_gives ha hR hbefore hreach v.reads (hreads v (by simp)) hg
      hheaded).mono ?_))
    rintro p₁ g₁ ⟨hadvances, hp₁, hlinked⟩
    -- the definition of the statement reaches the statements after it
    have hstep : ∀ p₂ : Progress, p₂.versions = p₁.versions → p₂.merges = p₁.merges →
        p₂.reach = (v.definition.toList).foldl Reach.after p.reach →
        Gives (rest.foldlM (tagVisit a) p₂) g₁ fun p' h => Advances V f kind ds a R rs p g p' h ∧
          AllLinked h kind p.reach p'.merges (v :: rest) := by
      intro p₂ hversions hmerges hp₂
      have hbefore' : ∀ d ∈ before ++ v.definition.toList, d ∈ ds := by
        intro d hd
        rcases List.mem_append.1 hd with hd | hd
        · exact hbefore d hd
        · exact hv d (by simpa using hd)
      have hreach' : p₂.reach = (before ++ v.definition.toList).foldl Reach.after R := by
        rw [hp₂, List.foldl_append, hreach]
      refine (ih hbefore' hrest (fun w hw => hreads w (by simp [hw])) hreach' (hversions ▸ hadvances.ready)
        (hmerges ▸ hadvances.headed)).mono ?_
      rintro p' h ⟨hadvances', hall⟩
      refine ⟨⟨hadvances'.ready, hadvances.later.trans hadvances'.later, hadvances'.headed,
        fun l d hd => hadvances'.merges l d (hmerges ▸ hadvances.merges l d hd),
        fun a' ha' => (hadvances'.others a' ha').trans (hadvances.others a' ha')⟩, ?_⟩
      rintro (_ | ⟨w, pre⟩) u post heq r hr
      · obtain ⟨rfl, rfl⟩ : v = u ∧ rest = post := by simpa using heq
        exact (hlinked r hr).mono hadvances'.later.marks fun l d hd =>
          hadvances'.merges l d (hmerges ▸ hd)
      · obtain ⟨rfl, rfl⟩ : v = w ∧ rest = pre ++ u :: post := by simpa using heq
        have h := hall pre u post rfl r hr
        rw [hp₂, ← List.foldl_append] at h
        convert h using 2
        cases hdefinition : v.definition <;> simp [hdefinition]
    cases hdefinition : v.definition with
    | none => exact .of_pure (hstep p₁ rfl rfl (by rw [hp₁, hdefinition]; rfl))
    | some d => exact .of_pure (hstep _ rfl rfl (by rw [hdefinition, ← hp₁]; rfl))

/-- A block whose reads are all linked, with the merges that they needed at its head. -/
def BlockTagged (f h : Flow) (kind : LocationKind) (a : Address) : Prop :=
  ∃ merges heads, Headed f h kind (BlockPlan.planAt f kind a).reach a merges heads ∧
    AllLinked h kind (BlockPlan.planAt f kind a).reach merges (BlockPlan.planAt f kind a).visits

theorem BlockTagged.later (hg : BlockTagged f g kind a) (hgh : g.Later kind h)
    (hstatements : h.statementsAt a = g.statementsAt a) : BlockTagged f h kind a := by
  obtain ⟨merges, heads, hheads, hall⟩ := hg
  refine ⟨merges, heads, hheads.later hgh hstatements, fun pre v post heq r hr => ?_⟩
  exact (hall pre v post heq r hr).mono hgh.marks fun _ _ h => h

section Flow

variable (hf : f.Forest) (hR : ∀ a, f.block? a ≠ none → Known ds (BlockPlan.planAt f kind a).reach)
  (hds : ∀ a, f.block? a ≠ none → ∀ d ∈ (BlockPlan.planAt f kind a).definitions, d ∈ ds)
include hf hR hds

theorem tagBlock_gives (versions : Versions) (ha : f.block? a ≠ none)
    (hg : Ready V f kind ds ((BlockPlan.planAt f kind a).visits.flatMap Visit.reads ++ rs) versions g)
    (hstatements : g.statementsAt a = f.statementsAt a) :
    Gives (tagBlock versions (BlockPlan.planAt f kind a)) g fun vs h =>
      Ready V f kind ds rs vs.1 h ∧ g.Later kind h ∧ BlockTagged f h kind a ∧
        ∀ a', a' ≠ a → h.statementsAt a' = g.statementsAt a' := by
  have hheaded : Headed f g kind (BlockPlan.planAt f kind a).reach a .empty [] :=
    ⟨hstatements, rfl, nofun, by simp⟩
  have hvisits : ∀ v ∈ (BlockPlan.planAt f kind a).visits, ∀ d, v.definition = some d → d ∈ ds := by
    intro v hv d hd
    refine hds a ha d ?_
    rw [BlockPlan.definitions, List.reduceOption_mem_iff]
    exact List.mem_map.2 ⟨v, hv, hd⟩
  have hreads : ∀ v ∈ (BlockPlan.planAt f kind a).visits, ∀ r ∈ v.reads, ReadIn f kind a r := by
    intro v hv r hr
    obtain ⟨s, hs, rfl⟩ := List.mem_map.1 hv
    obtain ⟨t, ht⟩ := hf.exists_holds hs
    exact ⟨s, t, hs, ht, hr⟩
  unfold tagBlock
  refine .of_bind ((@tagVisits_gives _ _ _ _ _ [] _ _ _ _ _ ha (hR a ha) (by simp) hvisits hreads rfl hg
    ⟨[], hheaded⟩).mono ?_)
  rintro p' h ⟨⟨hready, hlater, ⟨heads, hheads⟩, -, hothers⟩, hall⟩
  exact .of_pure ⟨hready, hlater, ⟨_, heads, hheads, hall⟩, hothers⟩

theorem tagBlocks_gives (as : List Address) (has : ∀ a ∈ as, f.block? a ≠ none) (hnodup : as.Nodup)
    (state : Versions × Nat)
    (hg : Ready V f kind ds (as.flatMap fun a => (BlockPlan.planAt f kind a).visits.flatMap Visit.reads)
      state.1 g)
    (hstatements : ∀ a ∈ as, g.statementsAt a = f.statementsAt a) :
    Gives ((as.map (BlockPlan.planAt f kind)).foldlM (fun (state : Versions × Nat) plan => do
      let (versions, merges) ← tagBlock state.1 plan
      return (versions, state.2 + merges)) state) g fun vs h => Ready V f kind ds [] vs.1 h ∧
        g.Later kind h ∧ (∀ a ∈ as, BlockTagged f h kind a) ∧
        ∀ a', a' ∉ as → h.statementsAt a' = g.statementsAt a' := by
  induction as generalizing g state with
  | nil => exact .of_pure ⟨hg, .refl g, by simp, fun _ _ => rfl⟩
  | cons a rest ih =>
    obtain ⟨hnot, hnodup⟩ := List.nodup_cons.1 hnodup
    refine .of_bind (.of_bind ((tagBlock_gives hf hR hds state.1 (has a (by simp)) hg
      (hstatements a (by simp))).mono ?_))
    rintro ⟨versions, merges⟩ g₁ ⟨hready, hlater, htagged, hothers⟩
    have hrest : ∀ a' ∈ rest, g₁.statementsAt a' = f.statementsAt a' := by
      intro a' ha'
      rw [hothers a' fun heq => hnot (heq ▸ ha'), hstatements a' (by simp [ha'])]
    refine .of_pure ((ih (fun a' ha' => has a' (by simp [ha'])) hnodup (versions, state.2 + merges) hready
      hrest).mono ?_)
    rintro vs h ⟨hready', hlater', htagged', hothers'⟩
    refine ⟨hready', hlater.trans hlater', fun a' ha' => ?_, fun a' ha' => ?_⟩
    · rcases List.mem_cons.1 ha' with rfl | ha'
      · exact htagged.later hlater' (hothers' _ hnot)
      · exact htagged' a' ha'
    · rw [List.mem_cons, not_or] at ha'
      rw [hothers' a' ha'.2, hothers a' ha'.1]

end Flow

/-- A definition that is still to be tagged. -/
structure Assigned (g : Flow) (kind : LocationKind) (d : Definition) : Prop where
  fits : ∃ e, g.exprAt d.site = some e ∧ kind.Fits d.location none e
  names : g.Names kind d.location d.site
  held : g.Held d.site
  assigned : ∃ i y, g.exprAt i = some (.assign d.site y)

theorem tagDefinitions_gives (ds : List Definition) (versions : Versions)
    (hg : Ready V f kind before rs versions g) (hds : ∀ d ∈ ds, Assigned g kind d)
    (hlocated : ∀ d ∈ ds, Located f kind d.location)
    (hnodup : (ds.map Definition.site).Nodup) :
    Gives (ds.foldlM (fun (vs : Versions) d => do
      let (v, vs) := vs.next d.location
      markDefinition d.site v
      return vs) versions) g fun vs h => Ready V f kind (before ++ ds) rs vs h ∧
        h.statementsAt = g.statementsAt := by
  induction ds generalizing g before versions with
  | nil => exact .of_pure ⟨by simpa using hg, rfl⟩
  | cons d rest ih =>
    rw [List.map_cons, List.nodup_cons] at hnodup
    obtain ⟨⟨e, he, hfits⟩, hnames, hheld, i, y, hi⟩ := hds d (by simp)
    obtain ⟨key, hnumbered⟩ := hg.numbered
    refine .of_bind (.of_bind ((markDefinition_gives hg.permits hg.sound.wired he hfits
      (Nat.le_add_left 1 _)).mono ?_))
    rintro - g₁ ⟨hwired, htags, hdefines⟩
    have hlater := htags.later (by simp [he])
    have hready : Ready V f kind (before ++ [d]) rs (versions.next d.location).2 g₁ := by
      refine ⟨hg.permits, htags.sound hg.sound hwired hlater hheld,
        hg.rooted.later hlater (htags.noNewAssign he hfits.isAssignable), hg.later.trans hlater,
        fun r hr => ?_, hg.nodup, fun d' hd' => ?_, fun x d' hx => ?_, _,
        hnumbered.next hlater (fun y us hy => ?_) hdefines (hnames.later hlater)
          (hlocated d (by simp))⟩
      · refine (hg.waits r hr).later hlater (htags.exprAt_ne _ fun heq => ?_)
        exact (hg.waits r hr).not_assigned i y (heq ▸ hi)
      · rcases List.mem_append.1 hd' with hd' | hd'
        · obtain ⟨v, hv⟩ := hg.defined d' hd'
          exact ⟨v, hv.marks hlater.marks⟩
        · obtain rfl := List.mem_singleton.1 hd'
          exact ⟨_, hdefines⟩
      · have hne : x ≠ d.site := by
          rintro rfl
          obtain ⟨-, -, us, hus⟩ := hdefines
          rw [hx] at hus
          cases hus
        refine (hg.sources x d' ((htags.extends_ne x hne).use_iff.1 hx)).later hlater fun a => ?_
        rw [statementsAt_eq_of_blocks htags.blocks_eq]
        exact fun _ h => h
      · by_cases hyd : y = d.site
        · exact .inl hyd
        · exact .inr (htags.definition_of_ne hyd hy)
    have hrest : ∀ d' ∈ rest, Assigned g₁ kind d' := by
      intro d' hd'
      obtain ⟨⟨e', he', hfits'⟩, hnames', hheld', i', y', hi'⟩ := hds d' (by simp [hd'])
      have hne : d'.site ≠ d.site := fun heq => hnodup.1 (heq ▸ List.mem_map_of_mem hd')
      exact ⟨⟨e', (htags.exprAt_ne _ hne).trans he', hfits'⟩, hnames'.later hlater, hlater.held hheld', i', y',
        hlater.marks.exprAt_eq hi' (.inr rfl)⟩
    refine .of_pure ((ih _ hready hrest (fun d' hd' => hlocated d' (by simp [hd'])) hnodup.2).mono ?_)
    rintro vs h ⟨hready', hstatements⟩
    rw [List.append_assoc] at hready'
    exact ⟨hready', hstatements.trans (statementsAt_eq_of_blocks htags.blocks_eq)⟩

section Start

variable (hf : f.Sound V) (hrooted : f.Rooted)
include hf

omit hf in
private theorem names_of_locate {s : StatementId} {t u : Term} (ht : f.Holds s t) (hu : Term.Within u t)
    (hlocate : kind.locate u = some l) : f.Names kind l u.id := by
  obtain ⟨q, hq⟩ := ht.stands.exists_of_within hu
  obtain ⟨i, e⟩ := u
  have hexpr := exprAt_eq_some hq.shape_id
  unfold LocationKind.locate at hlocate
  split at hlocate
  next h =>
    cases h
    cases hlocate
    exact ⟨none, hexpr⟩
  next x h =>
    cases h
    cases hlocate
    obtain ⟨-, -, below⟩ := hq
    exact ⟨x, none, x, hexpr, below x (by simp [Expr.children]), rfl, rfl⟩
  next => cases hlocate

private theorem assigned_of_mem {s : StatementId} {d : Definition} (hs : s ∈ f.liveStatements)
    (hd : Summary.definitionOf f kind.locate s = some d) : Assigned f kind d ∧
      ∃ t, f.Holds s t ∧ d.site ∈ t.preorder := by
  obtain ⟨t, ht⟩ := hf.forest.holds_of_mem hs
  obtain ⟨i, x, y, rfl, hlocate, hsite, -⟩ := (Summary.mem_definitionOf ht).1 hd
  have hx : Term.Within x (.node i (.assign x y)) := .of_mem_children (by simp [Expr.children])
  have hmem : d.site ∈ (Term.node i (.assign x y)).preorder :=
    hsite ▸ hx.preorder_subset x.id_mem_preorder
  obtain ⟨q, hq⟩ := ht.stands.exists_of_within hx
  refine ⟨⟨⟨_, hsite ▸ exprAt_eq_some hq.shape_id, LocationKind.exists_fits_of_locate hlocate⟩,
    hsite ▸ names_of_locate ht hx hlocate, ⟨s, _, hf.forest.mem_liveStatements.1 hs, ht, hmem⟩, i, y.id, ?_⟩, _, ht, hmem⟩
  rw [hsite]
  exact exprAt_eq_some ht.stands.shape_id

private theorem nodup_sites :
    ((f.liveStatements.filterMap (Summary.definitionOf f kind.locate)).map Definition.site).Nodup := by
  rw [List.Nodup, List.pairwise_map, List.pairwise_filterMap]
  refine hf.forest.nodup_liveStatements.imp_of_mem ?_
  intro s s' hs hs' hne d hd d' hd' heq
  obtain ⟨-, t, ht, hmem⟩ := assigned_of_mem hf hs hd
  obtain ⟨-, t', ht', hmem'⟩ := assigned_of_mem hf hs' hd'
  exact hne (ht.statement_unique ht' hmem (heq ▸ hmem'))

private theorem nodup_reads :
    ((f.liveStatements.flatMap (BlockPlan.readsAt f kind)).map Read.operand).Nodup := by
  have hmem : ∀ s ∈ f.liveStatements, ∃ t, f.Holds s t ∧
      ∀ x ∈ (BlockPlan.readsAt f kind s).map Read.operand, x ∈ t.preorder := by
    intro s hs
    obtain ⟨t, ht⟩ := hf.forest.holds_of_mem hs
    refine ⟨t, ht, fun x hx => ?_⟩
    obtain ⟨r, hr, rfl⟩ := List.mem_map.1 hx
    exact List.mem_of_mem_tail (BlockPlan.operand_mem ht hr)
  rw [List.map_flatMap, List.nodup_flatMap]
  refine ⟨fun s hs => ?_, hf.forest.nodup_liveStatements.imp_of_mem ?_⟩
  · obtain ⟨t, ht, -⟩ := hmem s hs
    exact BlockPlan.nodup_readsAt ht
  · intro s s' hs hs' hne x hx hx'
    obtain ⟨t, ht, hall⟩ := hmem s hs
    obtain ⟨t', ht', hall'⟩ := hmem s' hs'
    exact hne (ht.statement_unique ht' (hall x hx) (hall' x hx'))

include hrooted in
private theorem waits_of_mem {s : StatementId} (hs : s ∈ f.liveStatements)
    (hr : r ∈ BlockPlan.readsAt f kind s) : Waits f kind r := by
  obtain ⟨t, ht⟩ := hf.forest.holds_of_mem hs
  obtain ⟨i, e, u, hi, hu, hunread, hlocate, hid⟩ := (BlockPlan.mem_readsAt ht).1 hr
  have hwithin := (Term.Within.of_mem_children (i := i) hu).trans hi
  have hmem : r.operand ∈ t.preorder := hid ▸ hwithin.preorder_subset u.id_mem_preorder
  obtain ⟨q, hq⟩ := ht.stands.exists_of_within hwithin
  refine ⟨⟨_, hid ▸ exprAt_eq_some hq.shape_id, LocationKind.exists_fits_of_locate hlocate⟩,
    hid ▸ names_of_locate ht hwithin hlocate, ⟨s, t, hf.forest.mem_liveStatements.1 hs, ht, hmem⟩, fun j y hj => ?_⟩
  -- the parent of the operand would be an assignment to it
  obtain ⟨s', t', ht', rfl⟩ := hrooted j _ y hj
  obtain ⟨j, e'⟩ := t'
  have hexpr : e'.map Term.id = .assign r.operand y := by
    have h := exprAt_eq_some ht'.stands.shape_id
    rw [hj] at h
    exact (Option.some.inj h).symm
  have hchild : r.operand ∈ (e'.map Term.id).children := by simp [hexpr, Expr.children]
  rw [Expr.children_map] at hchild
  obtain ⟨c, hc, hcid⟩ := List.mem_map.1 hchild
  obtain ⟨-, -, below⟩ := id ht'.stands
  obtain ⟨q', hq'⟩ := ht.stands.exists_of_within hi
  obtain ⟨shape, -, below'⟩ := hq'
  have hplace := (below c hc).shape_id
  rw [hcid, ← hid, (below' u hu).shape_id] at hplace
  obtain rfl : i = j := by simpa using (Prod.mk.inj (Option.some.inj hplace)).2
  have hshape := ht'.stands.shape_id
  rw [Term.id_node, shape] at hshape
  have heq : e.map Term.id = .assign r.operand y :=
    ((Prod.mk.inj (Option.some.inj hshape)).1).trans hexpr
  rw [heq, hid] at hunread
  simp [LocationKind.isUnread] at hunread

omit hf in
private theorem definitions_eq : (f.blocks.keys.map (BlockPlan.planAt f kind)).flatMap
    BlockPlan.definitions = f.liveStatements.filterMap (Summary.definitionOf f kind.locate) := by
  rw [← flatMap_statementsAt, List.filterMap_flatMap, List.flatMap_map]
  exact List.flatMap_congr fun a _ => BlockPlan.definitions_planAt

omit hf in
private theorem reads_eq : (f.blocks.keys.flatMap fun a =>
    (BlockPlan.planAt f kind a).visits.flatMap Visit.reads) =
      f.liveStatements.flatMap (BlockPlan.readsAt f kind) := by
  rw [← flatMap_statementsAt, List.flatMap_assoc]
  refine List.flatMap_congr fun a _ => ?_
  rw [BlockPlan.planAt, List.flatMap_map]
  rfl

end Start

/-- What reaches a block is the entry or a definition of a statement. -/
theorem known_planAt (hf : f.Forest) (hconnected : f.Connected) (ha : f.block? a ≠ none) :
    Known (f.liveStatements.filterMap (Summary.definitionOf f kind.locate)) (BlockPlan.planAt f kind a).reach := by
  intro l x hx
  obtain ⟨as, has, hlast⟩ := (Summary.brings_iff hf hconnected ha).1 hx
  obtain ⟨d, hd, hl, hsite⟩ := Definition.exists_of_lastSite? hlast.symm
  obtain ⟨s, hs, hd⟩ := List.mem_filterMap.1 hd
  obtain ⟨c, -, hs⟩ := List.mem_flatMap.1 hs
  exact ⟨d, List.mem_filterMap.2 ⟨s, hf.mem_liveStatements.2 (hf.live hs), hd⟩, hl, hsite⟩

/-- The outcome of tagging the operands of a kind in a flow `f`. -/
structure Tagged (V : Locations) (f : Flow) (kind : LocationKind) (g : Flow) : Prop where
  sound : g.Sound V
  rooted : g.Rooted
  later : f.Later kind g
  blocks : ∀ a, f.block? a ≠ none → BlockTagged f g kind a
  defined : ∀ s ∈ f.liveStatements, ∀ d, Summary.definitionOf f kind.locate s = some d →
    ∃ v, g.Defines kind d.location d.site v
  sources : ∀ x d, g.linkOf x = .use (some d) → Source f kind g x d
  numbered : ∃ versions key, Numbered f kind versions key g

/-- Every read is linked to what stands for all that reaches it, and a flow stays sound. -/
theorem tag_gives (hV : kind.Permits V) (hf : f.Sound V) (hrooted : f.Rooted) (hconnected : f.Connected) :
    Gives (tag kind) f fun _ g => Tagged V f kind g := by
  have hkeys : ∀ a, a ∈ f.blocks.keys ↔ f.block? a ≠ none := by
    intro a
    rw [SortedMap.mem_keys, Option.ne_none_iff_exists']
    rfl
  have hknown : ∀ a, f.block? a ≠ none → Known _ (BlockPlan.planAt f kind a).reach := fun a ha =>
    known_planAt hf.forest hconnected ha
  have hds : ∀ a, f.block? a ≠ none → ∀ d ∈ (BlockPlan.planAt f kind a).definitions,
      d ∈ f.liveStatements.filterMap (Summary.definitionOf f kind.locate) := by
    intro a ha d hd
    rw [← definitions_eq]
    exact List.mem_flatMap.2 ⟨_, List.mem_map_of_mem ((hkeys a).2 ha), hd⟩
  have hstart : Ready V f kind [] (f.blocks.keys.flatMap fun a =>
      (BlockPlan.planAt f kind a).visits.flatMap Visit.reads) .empty f := by
    rw [reads_eq]
    refine ⟨hV, hf, hrooted, .refl f, fun r hr => ?_, nodup_reads hf, by simp, fun _ _ => .kept, _, .start f⟩
    obtain ⟨s, hs, hr⟩ := List.mem_flatMap.1 hr
    exact waits_of_mem hf hrooted hs hr
  have hassigned : ∀ d ∈ f.liveStatements.filterMap (Summary.definitionOf f kind.locate),
      Assigned f kind d := by
    intro d hd
    obtain ⟨s, hs, hd⟩ := List.mem_filterMap.1 hd
    exact (assigned_of_mem hf hs hd).1
  have hlocated : ∀ d ∈ f.liveStatements.filterMap (Summary.definitionOf f kind.locate), Located f kind d.location := by
    intro d hd
    obtain ⟨s, hs, hd⟩ := List.mem_filterMap.1 hd
    obtain ⟨t, ht⟩ := hf.forest.holds_of_mem hs
    obtain ⟨i, x, y, rfl, hlocate, -⟩ := (Summary.mem_definitionOf ht).1 hd
    exact ⟨s, _, x, ht, .of_mem_children (by simp [Expr.children]), hlocate⟩
  unfold tag
  refine .of_bind (.of_view (BlockPlan.ofFlow_eq hf.forest) ?_)
  dsimp only
  rw [definitions_eq]
  refine .of_bind ((tagDefinitions_gives _ .empty hstart hassigned hlocated (nodup_sites hf)).mono ?_)
  rintro versions g₁ ⟨hready, hstatements⟩
  refine .of_bind (Gives.mono (tagBlocks_gives hf.forest hknown hds f.blocks.keys (fun a ha => (hkeys a).1 ha)
    f.blocks.nodup_keys (versions, 0) hready fun a _ => by rw [hstatements]) ?_)
  rintro ⟨versions', thetas⟩ g ⟨hready', -, htagged, -⟩
  refine .of_pure ⟨hready'.sound, hready'.rooted, hready'.later, fun a ha => htagged a ((hkeys a).2 ha),
    fun s hs d hd => ?_, hready'.sources, _, hready'.numbered⟩
  exact hready'.defined d (List.mem_filterMap.2 ⟨s, hs, hd⟩)

end Tagging

end FrameRecovery
