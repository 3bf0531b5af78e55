import FrameRecovery.Proofs.Passes
import Mathlib.Order.Bounds.Basic

namespace FrameRecovery

open Flow

namespace Pruning

variable {V : Locations} {f g h : Flow} {s : StatementId} {rs rs' : List StatementId} {xs xs' : List NodeId}

/-- A set of statements has in it every live assignment of a value without calls to a tagged register whose recorded
    uses all lie in statements of the set. -/
def DeadClosed (f : Flow) (R : Set StatementId) : Prop :=
  ∀ s ∈ f.liveStatements, ∀ i d n k v us,
    f.statementTerm s = .ok (.node i (.assign (.node d (.register n (some k))) v)) → v.containsCall = false →
    f.uses d = .ok us → (∀ u ∈ us, ∃ s' ∈ R, f.statementOf? u = .ok (some s')) → s ∈ R

/-- No live statement is a dead definition. -/
def Exhausted (f : Flow) : Prop :=
  ∀ s ∈ f.liveStatements, isPrunable f s = .ok false

/-- A visit to a live statement, which is removed if it is a dead definition. -/
def Visit (f g : Flow) : Prop :=
  ∃ s ∈ f.liveStatements, ∃ n, (pruneStatement s).run f = .ok (n, g)

/-- A flow `g` is a flow `f` without the statements `rs`, and their nodes `xs` are linked to nothing. All these
    statements are in every set that is closed under dead definitions. -/
structure Lacks (V : Locations) (f g : Flow) (rs : List StatementId) (xs : List NodeId) : Prop where
  sound : g.Sound V
  shape_eq : g.shapeAt = f.shapeAt
  entry_eq : g.entry = f.entry
  statementAt_eq : ∀ s, g.statementAt s =
    if s ∈ rs then (f.statementAt s).map fun st => { st with removed := true } else f.statementAt s
  block?_eq : ∀ a, g.block? a = (f.block? a).map fun b => { b with statements := b.statements.filter (· ∉ rs) }
  link_eq : g.linkOf = f.linksWithout xs
  mem_iff : ∀ x, x ∈ xs ↔ ∃ s ∈ rs, ∃ t, f.Holds s t ∧ x ∈ t.preorder
  live : ∀ s ∈ rs, f.Live s
  nodup : rs.Nodup
  least : ∀ R, DeadClosed f R → ∀ s ∈ rs, s ∈ R

namespace Lacks

theorem refl (hf : f.Sound V) : Lacks V f f [] [] :=
  ⟨hf, rfl, rfl, by simp, fun a => by simp, by simp, by simp, by simp, List.nodup_nil, by simp⟩

variable (hfg : Lacks V f g rs xs)
include hfg

theorem holds_iff {t : Term} : g.Holds s t ↔ f.Holds s t := by
  have hstands : g.Stands (.root s) t ↔ f.Stands (.root s) t :=
    ⟨fun h => h.congr fun y _ => by rw [hfg.shape_eq], fun h => h.congr fun y _ => by rw [hfg.shape_eq]⟩
  unfold Holds
  rw [hfg.statementAt_eq, hstands]
  split
  · simp
  · rfl

theorem live_iff : g.Live s ↔ f.Live s ∧ s ∉ rs := by
  unfold Live
  rw [hfg.statementAt_eq]
  split
  next hs => simp [hs]
  next hs => simp [hs]

theorem mem_liveStatements_iff (hf : f.Forest) : s ∈ g.liveStatements ↔ s ∈ f.liveStatements ∧ s ∉ rs := by
  rw [hfg.sound.forest.mem_liveStatements, hf.mem_liveStatements, hfg.live_iff]

theorem uses_eq_filter {t : Term} {d : NodeId} (hs : s ∉ rs) (ht : f.Holds s t) (hd : d ∈ t.preorder) :
    (g.linkOf d).uses = (f.linkOf d).uses.filter (· ∉ xs) := by
  rw [hfg.link_eq, linksWithout, if_neg, Link.uses_drop]
  intro hmem
  obtain ⟨s', hs', t', ht', hd'⟩ := (hfg.mem_iff d).1 hmem
  exact hs (ht.statement_unique ht' hd hd' ▸ hs')

/-- A dead definition is in every closed set if all that was removed before is: what read it was removed. -/
theorem least_of_isPrunable {t : Term} {R : Set StatementId} (hR : DeadClosed f R) (hs : g.Live s)
    (ht : f.Holds s t) (hprunable : isPrunable g s = .ok true) (hf : f.Forest) : s ∈ R := by
  obtain ⟨hlive, hnot⟩ := hfg.live_iff.1 hs
  obtain ⟨i, d, n, k, v, rfl, hcall, huses⟩ := exists_of_isPrunable (hfg.holds_iff.2 ht) hprunable
  obtain ⟨q, hd⟩ := ht.stands.exists_of_within (.of_mem_children (c := .node d (.register n (some k))) List.mem_cons_self)
  refine hR s (hf.mem_liveStatements.2 hlive) i d n k v _ ht.statementTerm_eq hcall (uses_eq hd.shape_id) fun u hu => ?_
  have hnil : (g.linkOf d).uses = [] :=
    Except.ok.inj ((uses_eq (hfg.shape_eq ▸ hd.shape_id)).symm.trans huses)
  rw [hfg.uses_eq_filter hnot ht (by simp [Expr.children]), List.filter_eq_nil_iff] at hnil
  have hgone : u ∈ xs := by simpa using hnil u hu
  obtain ⟨s', hs', t', ht', hu'⟩ := (hfg.mem_iff u).1 hgone
  exact ⟨s', hfg.least R hR s' hs', ht'.statementOf?_eq hu'⟩

theorem removes {st : Statement} {t : Term} (hf : f.Sound V) (hst : g.statementAt s = some st) (hs : g.Live s)
    (ht : g.Holds s t) (hprunable : isPrunable g s = .ok true) (hremoves : g.Removes h s st)
    (hlink : h.linkOf = g.linksWithout t.postorder) : Lacks V f h (s :: rs) (xs ++ t.postorder) := by
  obtain ⟨hlive, hnot⟩ := hfg.live_iff.1 hs
  have ht' := hfg.holds_iff.1 ht
  have hst' : f.statementAt s = some st := by rw [← hst, hfg.statementAt_eq, if_neg hnot]
  refine ⟨hremoves.sound hfg.sound ht hst hlink, hremoves.shape_eq.trans hfg.shape_eq,
    hremoves.entry_eq.trans hfg.entry_eq, fun s' => ?_, fun a => ?_, hlink.trans (linksWithout_append hfg.link_eq),
    fun x => ?_, ?_, List.nodup_cons.2 ⟨hnot, hfg.nodup⟩, ?_⟩
  · rw [hremoves.statementAt_eq]
    by_cases hs' : s' = s
    · simp [hs', hst']
    · rw [Function.update_of_ne hs', hfg.statementAt_eq]
      simp [hs']
  · rw [hremoves.block?_eq, hfg.block?_eq, Option.map_map]
    cases hb : f.block? a with
    | none => rfl
    | some b =>
      have hlisted : a ≠ st.block → s ∉ b.statements := fun ha hmem => by
        obtain ⟨st₁, hst₁, -, rfl⟩ := (hf.forest.listed a b s hb).1 hmem
        exact ha (by rw [Option.some.inj (hst'.symm.trans hst₁)])
      simp only [Option.map_some, Function.comp_apply, Option.some.injEq]
      by_cases ha : a = st.block
      · rw [if_pos ha, List.filter_filter]
        congr 1
        exact List.filter_congr fun s' _ => by by_cases hs' : s' = s <;> simp [hs']
      · rw [if_neg ha]
        congr 1
        refine List.filter_congr fun s' hs' => ?_
        have hne : s' ≠ s := fun heq => hlisted ha (heq ▸ hs')
        simp [hne]
  · simp only [List.mem_append, Term.mem_postorder, hfg.mem_iff, List.mem_cons, exists_eq_or_imp]
    constructor
    · rintro (hx | hx)
      · exact .inr hx
      · exact .inl ⟨t, ht', hx⟩
    · rintro (⟨t', ht'', hx⟩ | hx)
      · exact .inr (ht'.unique ht'' ▸ hx)
      · exact .inl hx
  · simpa [hlive] using hfg.live
  · intro R hR s' hs'
    rcases List.mem_cons.1 hs' with rfl | hs'
    · exact hfg.least_of_isPrunable hR hs ht' hprunable hf.forest
    · exact hfg.least R hR s' hs'

/-- What is removed determines the flow that is left. -/
theorem unique (hfh : Lacks V f h rs' xs') (hrs : ∀ s, s ∈ rs ↔ s ∈ rs') : g = h := by
  have hxs : ∀ x, x ∈ xs ↔ x ∈ xs' := fun x => by simp only [hfg.mem_iff, hfh.mem_iff, hrs]
  have hlink : g.linkOf = h.linkOf := by
    rw [hfg.link_eq, hfh.link_eq]
    funext y
    have hdrop : (f.linkOf y).drop xs = (f.linkOf y).drop xs' := by
      rcases f.linkOf y with _ | us | _ | d <;> simp [Link.drop, hxs]
    simp [linksWithout, hxs, hdrop]
  refine eq_of_shapeAt (hfg.shape_eq.trans hfh.shape_eq.symm) hlink (hfg.entry_eq.trans hfh.entry_eq.symm) ?_ ?_
  · funext s
    simp only [hfg.statementAt_eq, hfh.statementAt_eq, hrs]
  · refine SortedMap.ext_find? fun a => ?_
    have hblock : g.block? a = h.block? a := by simp only [hfg.block?_eq, hfh.block?_eq, hrs]
    exact hblock

/-- Where no dead definition is left, the statements that were removed are a closed set. -/
theorem deadClosed (hf : f.Sound V) (hg : Exhausted g) : DeadClosed f {s | s ∈ rs} := by
  intro s hs i d n k v us hterm hcall hus huses
  by_contra hnot
  obtain ⟨t, ht⟩ := hf.forest.holds_of_mem hs
  obtain rfl := Except.ok.inj (ht.statementTerm_eq.symm.trans hterm)
  obtain ⟨q, hd⟩ := ht.stands.exists_of_within (.of_mem_children (c := .node d (.register n (some k))) List.mem_cons_self)
  obtain rfl := Except.ok.inj ((uses_eq hd.shape_id).symm.trans hus)
  have hnil : (g.linkOf d).uses = [] := by
    rw [hfg.uses_eq_filter hnot ht (by simp [Expr.children]), List.filter_eq_nil_iff]
    intro u hu
    -- what reads the definition is in a statement that was removed
    obtain ⟨s', hs', hstatement⟩ := huses u hu
    obtain ⟨s'', t', -, ht', hu'⟩ := hf.held u (by rw [(hf.mirrored.recorded u d).2 hu]; simp)
    obtain rfl := Option.some.inj (Except.ok.inj ((ht'.statementOf?_eq hu').symm.trans hstatement))
    simpa using (hfg.mem_iff u).2 ⟨s'', hs', t', ht', hu'⟩
  have hprunable := isPrunable_of_holds (hfg.holds_iff.2 ht) hcall
  rw [hg s ((hfg.mem_liveStatements_iff hf.forest).2 ⟨hs, hnot⟩), hnil] at hprunable
  cases hprunable

/-- Where no dead definition is left, the statements that were removed are the least closed set. -/
theorem isLeast (hf : f.Sound V) (hg : Exhausted g) : IsLeast {R | DeadClosed f R} {s | s ∈ rs} :=
  ⟨hfg.deadClosed hf hg, fun R hR s hs => hfg.least R hR s hs⟩

theorem length_add (hf : f.Forest) : g.liveStatements.length + rs.length = f.liveStatements.length := by
  have hperm : (g.liveStatements ++ rs).Perm f.liveStatements := by
    refine (List.perm_ext_iff_of_nodup ?_ hf.nodup_liveStatements).2 fun s => ?_
    · refine List.nodup_append.2 ⟨hfg.sound.forest.nodup_liveStatements, hfg.nodup, ?_⟩
      rintro s hs _ hs' rfl
      exact ((hfg.mem_liveStatements_iff hf).1 hs).2 hs'
    · rw [List.mem_append, hfg.mem_liveStatements_iff hf]
      by_cases hs : s ∈ rs
      · simp [hs, hf.mem_liveStatements.2 (hfg.live s hs)]
      · simp [hs]
  rw [← List.length_append, hperm.length_eq]

/-- One visit removes at most the statement that is visited. -/
theorem visit (hf : f.Sound V) (hs : g.Live s) : Gives (pruneStatement s) g fun n h => ∃ rs' xs',
    Lacks V f h rs' xs' ∧ rs'.length = rs.length + n ∧ (∀ s', s' ≠ s → g.Live s' → h.Live s') ∧
      (n = 0 → h = g ∧ isPrunable g s = .ok false) := by
  refine (pruneStatement_cases hfg.sound hs).mono ?_
  rintro _ h (⟨rfl, rfl, hprunable⟩ | ⟨rfl, st, t, hst, ht, hprunable, hremoves, hlink⟩)
  · exact ⟨rs, xs, hfg, rfl, fun _ _ h => h, fun _ => ⟨rfl, hprunable⟩⟩
  · exact ⟨_, _, hfg.removes hf hst hs ht hprunable hremoves hlink, rfl, fun s' hne h => hremoves.live hne h, nofun⟩

/-- A round removes what it says, and if that is nothing, there was nothing to remove. -/
theorem prune (hf : f.Sound V) : Gives Pruning.prune g fun n h => ∃ rs' xs', Lacks V f h rs' xs' ∧
    rs'.length = rs.length + n ∧ (n = 0 → h = g ∧ Exhausted g) := by
  unfold Pruning.prune
  refine .of_bind (.of_get (.of_bind ?_))
  refine (Gives.of_mapM (I := fun rest ns h => rest.Nodup ∧ (∀ s ∈ rest, h.Live s) ∧ ∃ rs' xs', Lacks V f h rs' xs' ∧
    rs'.length = rs.length + ns.foldl (· + ·) 0 ∧ (ns.foldl (· + ·) 0 = 0 → h = g ∧
      ∀ s ∈ g.liveStatements, s ∉ rest → isPrunable g s = .ok false)) ?_ _ (b := [])
    ⟨hfg.sound.forest.nodup_liveStatements, fun s => hfg.sound.forest.mem_liveStatements.1, rs, xs, hfg, rfl,
      fun _ => ⟨rfl, fun s hs hnot => absurd hs hnot⟩⟩).mono ?_
  · rintro s rest ns h ⟨hnodup, hlive, rs', xs', hfh, hlength, hnone⟩
    obtain ⟨hs, hnodup⟩ := List.nodup_cons.1 hnodup
    refine (hfh.visit hf (hlive s List.mem_cons_self)).mono ?_
    rintro n k ⟨rs'', xs'', hfk, hlength', hkept, hzero⟩
    refine ⟨hnodup, fun s' hs' => hkept s' (fun heq => hs (heq ▸ hs')) (hlive s' (List.mem_cons_of_mem _ hs')), rs'', xs'',
      hfk, by simp [hlength, hlength', Nat.add_assoc], fun hsum => ?_⟩
    obtain ⟨hns, rfl⟩ : ns.foldl (· + ·) 0 = 0 ∧ n = 0 := by simpa using hsum
    obtain ⟨rfl, hvisited⟩ := hnone hns
    obtain ⟨rfl, hprunable⟩ := hzero rfl
    refine ⟨rfl, fun s' hs' hnot => ?_⟩
    by_cases heq : s' = s
    · exact heq ▸ hprunable
    · exact hvisited s' hs' (by simp [heq, hnot])
  · rintro ns h ⟨-, -, rs', xs', hfh, hlength, hnone⟩
    exact .of_pure ⟨rs', xs', hfh, hlength, fun hzero => ⟨(hnone hzero).1, fun s hs => (hnone hzero).2 s hs (by simp)⟩⟩

/-- As many rounds as there are statements leave nothing to remove. -/
theorem rounds {n : Nat} (hf : f.Sound V) (hn : g.liveStatements.length ≤ n) : Gives (Pruning.rounds n) g fun _ h =>
    Exhausted h ∧ ∃ rs' xs', Lacks V f h rs' xs' := by
  induction n generalizing g rs xs with
  | zero =>
    obtain hnil := List.length_eq_zero_iff.1 (Nat.le_zero.1 hn)
    exact .of_pure ⟨by simp [Exhausted, hnil], rs, xs, hfg⟩
  | succ n ih =>
    unfold Pruning.rounds
    refine .of_bind ((hfg.prune hf).mono ?_)
    rintro removed h ⟨rs', xs', hfh, hlength, hzero⟩
    split
    next hremoved =>
      obtain ⟨rfl, hexhausted⟩ := hzero hremoved
      exact .of_pure ⟨hexhausted, rs, xs, hfg⟩
    next hremoved =>
      have hg := hfg.length_add hf.forest
      have hh := hfh.length_add hf.forest
      exact .of_bind ((ih hfh (by omega)).mono fun _ k hk => .of_pure hk)

end Lacks

/-- Where no dead definition is left, a round changes nothing. -/
theorem prune_of_exhausted (hf : f.Sound V) (hexhausted : Exhausted f) : prune.run f = .ok (0, f) := by
  obtain ⟨n, g, hrun, rs, xs, hfg, hlength, hzero⟩ := (Lacks.refl hf).prune hf
  obtain rfl : rs = [] := List.eq_nil_iff_forall_not_mem.2 fun s hs => by
    simpa using hfg.least _ ((Lacks.refl hf).deadClosed hf hexhausted) s hs
  obtain rfl : n = 0 := by simpa using hlength.symm
  obtain ⟨rfl, -⟩ := hzero rfl
  exact hrun

theorem exists_lacks_of_visits (hf : f.Sound V) (hvisits : Relation.ReflTransGen Visit f g) :
    ∃ rs xs, Lacks V f g rs xs := by
  induction hvisits with
  | refl => exact ⟨[], [], .refl hf⟩
  | tail _ hvisit ih =>
    obtain ⟨rs, xs, hfg⟩ := ih
    obtain ⟨s, hs, n, hrun⟩ := hvisit
    obtain ⟨_, _, hrun', rs', xs', hfh, -⟩ := hfg.visit hf (hfg.sound.forest.mem_liveStatements.1 hs)
    cases hrun.symm.trans hrun'
    exact ⟨rs', xs', hfh⟩

/-- What is left of a flow `f` when the least closed set of dead definitions is removed. Visits in any order lead
    there, those of one round go part of the way, and from wherever they have led pruning to the fixed point goes
    the rest. -/
structure Residue (f g : Flow) : Prop where
  least : IsLeast {R | DeadClosed f R} {s | s ∈ f.liveStatements ∧ s ∉ g.liveStatements}
  exhausted : Exhausted g
  fixed : prune.run g = .ok (0, g)
  unique : ∀ h, Relation.ReflTransGen Visit f h → Exhausted h → h = g
  visits : ∀ h, Relation.ReflTransGen Visit f h → g.liveStatements ⊆ h.liveStatements ∧
    ∃ n, pruneToFixedPoint.run h = .ok (n, g)
  round : ∃ n h, prune.run f = .ok (n, h) ∧ g.liveStatements ⊆ h.liveStatements

/-- Pruning to the fixed point ends on every sound flow. -/
theorem pruneToFixedPoint_residue (hf : f.Sound V) : ∃ n g, pruneToFixedPoint.run f = .ok (n, g) ∧ Residue f g := by
  have hrun : ∀ {h rs xs}, Lacks V f h rs xs → Gives pruneToFixedPoint h fun _ g =>
      Exhausted g ∧ ∃ rs' xs', Lacks V f g rs' xs' := fun hfh => .of_bind (.of_get (hfh.rounds hf (Nat.le_refl _)))
  obtain ⟨n, g, hg, hexhausted, rs, xs, hfg⟩ := hrun (.refl hf)
  have hleast := hfg.isLeast hf hexhausted
  have hsubset : ∀ {h rs' xs'}, Lacks V f h rs' xs' → g.liveStatements ⊆ h.liveStatements := by
    intro h rs' xs' hfh s hs
    rw [hfg.mem_liveStatements_iff hf.forest] at hs
    exact (hfh.mem_liveStatements_iff hf.forest).2 ⟨hs.1, fun hs' => hs.2 (hfh.least _ hleast.1 s hs')⟩
  have hunique : ∀ {h rs' xs'}, Lacks V f h rs' xs' → Exhausted h → h = g := fun hfh hh =>
    hfh.unique hfg fun s => Set.ext_iff.1 ((hfh.isLeast hf hh).unique hleast) s
  refine ⟨n, g, hg, ⟨?_, hexhausted, prune_of_exhausted hfg.sound hexhausted, fun h hvisits hh => ?_, fun h hvisits => ?_, ?_⟩⟩
  · convert hleast using 1
    ext s
    have hlive : s ∈ rs → s ∈ f.liveStatements := fun hs => hf.forest.mem_liveStatements.2 (hfg.live s hs)
    simp only [Set.mem_ofPred_eq, hfg.mem_liveStatements_iff hf.forest]
    tauto
  · obtain ⟨rs', xs', hfh⟩ := exists_lacks_of_visits hf hvisits
    exact hunique hfh hh
  · obtain ⟨rs', xs', hfh⟩ := exists_lacks_of_visits hf hvisits
    obtain ⟨m, k, hk, hexhausted', _, _, hfk⟩ := hrun hfh
    exact ⟨hsubset hfh, m, hunique hfk hexhausted' ▸ hk⟩
  · obtain ⟨m, h, hh, _, _, hfh, -⟩ := (Lacks.refl hf).prune hf
    exact ⟨m, h, hh, hsubset hfh⟩

end Pruning

namespace FlowPass

/-- Whatever passes were run before, pruning to the fixed point ends, and removes the least set of statements that is
    closed under dead definitions. The flow that is left does not depend on the order in which it looks at them. -/
theorem pruneToFixedPoint_after_passes {f : Flow} (hf : f.IsLowered) (name stackPointer : String)
    (passes : List FlowPass) : ∃ g n h, (passes.forM (run { name, stackPointer })).run f = .ok (.ok (), g) ∧
      Pruning.pruneToFixedPoint.run g = .ok (n, h) ∧ Pruning.Residue g h := by
  obtain ⟨_, g, hrun, a, rfl, hg⟩ := runs_succeed (m := { name, stackPointer }) rfl hf passes
  obtain ⟨n, h, hprune, hresidue⟩ := Pruning.pruneToFixedPoint_residue hg.sound
  exact ⟨g, n, h, hrun, hprune, hresidue⟩

/-- Before a loop two registers that nothing else is computed from, and in it one that only itself is computed from. -/
def cyclicText : String :=
  "0: ecx = 1\n1: ebx = ecx\n2: edx = ebx\n3: esi = esi + 1\n4: if ecx goto 3\n5: return ecx"

/-- Both registers before the loop are dead, one only when the other is gone. The one in the loop has a use, which
    lies in no statement of the least set. -/
theorem pruneToFixedPoint_after_passes_cyclic : ∃ f g h, Flow.ofText? cyclicText 0 = some f ∧
    ([tag .registers, propagateStackPointer, tag .derefs].forM (run { name := "x86", stackPointer := "esp" })).run f =
      .ok (.ok (), g) ∧
    g.liveStatements = [⟨0⟩, ⟨1⟩, ⟨2⟩, ⟨6⟩, ⟨3⟩, ⟨4⟩, ⟨5⟩] ∧ Pruning.pruneToFixedPoint.run g = .ok (2, h) ∧
    h.liveStatements = [⟨0⟩, ⟨6⟩, ⟨3⟩, ⟨4⟩, ⟨5⟩] ∧ Pruning.Residue g h := by
  have hvalues : ((Flow.ofText? cyclicText 0).any fun f =>
      (([tag .registers, propagateStackPointer, tag .derefs].forM
          (run { name := "x86", stackPointer := "esp" })).run f).toOption.any fun r =>
        r.2.liveStatements = [⟨0⟩, ⟨1⟩, ⟨2⟩, ⟨6⟩, ⟨3⟩, ⟨4⟩, ⟨5⟩] &&
          (Pruning.pruneToFixedPoint.run r.2).toOption.any fun q =>
            q.1 = 2 && q.2.liveStatements = [⟨0⟩, ⟨6⟩, ⟨3⟩, ⟨4⟩, ⟨5⟩]) = true := by
    decide +kernel
  obtain ⟨f, hf, hvalues⟩ := Option.any_eq_true _ _ |>.1 hvalues
  obtain ⟨g, n, h, hrun, hprune, hresidue⟩ := pruneToFixedPoint_after_passes ⟨cyclicText, 0, hf⟩ "x86" "esp"
    [tag .registers, propagateStackPointer, tag .derefs]
  rw [hrun] at hvalues
  simp only [Except.toOption, Option.any_some, hprune, Bool.and_eq_true, decide_eq_true_eq] at hvalues
  obtain ⟨hbefore, rfl, hafter⟩ := hvalues
  exact ⟨f, g, h, hf, hrun, hbefore, hprune, hafter, hresidue⟩

end FlowPass

end FrameRecovery
