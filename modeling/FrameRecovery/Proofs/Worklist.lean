import FrameRecovery.Proofs.Reaching
import Mathlib.Algebra.BigOperators.Ring.List
import Mathlib.Algebra.Order.BigOperators.Group.List
import Mathlib.Algebra.Order.Ring.Nat
import Mathlib.Data.List.Nodup
import Mathlib.Tactic.Push

namespace FrameRecovery

namespace Summary

variable {s : Summary} {outs outs' : Outs} {l : Location} {p : Point} {a : Address} {b c : BlockSummary}
  {bs : List BlockSummary} {A : Analysis}

/-- Blocks are known by their addresses, edges can be followed from either end, and the locations of
    all definitions are listed. -/
structure Lawful (s : Summary) : Prop where
  nodup : (s.blocks.map BlockSummary.address).Nodup
  linked : ∀ b ∈ s.blocks, ∀ a, a ∈ b.predecessors ↔
    ∃ c ∈ s.blocks, c.address = a ∧ b.address ∈ c.successors
  located : ∀ b ∈ s.blocks, ∀ d ∈ b.definitions, d.location ∈ s.locations

/-- A point reaches the end of a block: it is the last definition there, or the block is passed
    without one by control that comes from outside or from a block whose end the point reaches. -/
inductive Leaves (s : Summary) (l : Location) : Point → BlockSummary → Prop
  | assigned {b : BlockSummary} {x : NodeId} (hb : b ∈ s.blocks)
    (hlast : Definition.lastSite? l b.definitions = some x) : Leaves s l (.definition x) b
  | entered {b : BlockSummary} (hb : b ∈ s.blocks) (hstart : s.isStart b = true) (hl : l ∈ s.locations)
    (hnone : Definition.lastSite? l b.definitions = none) : Leaves s l .entry b
  | passed {p : Point} {b c : BlockSummary} (h : Leaves s l p c) (hb : b ∈ s.blocks)
    (hpred : c.address ∈ b.predecessors) (hnone : Definition.lastSite? l b.definitions = none) :
    Leaves s l p b

/-- A point reaches the start of a block. -/
def Arrives (s : Summary) (l : Location) (p : Point) (b : BlockSummary) : Prop :=
  (s.isStart b = true ∧ l ∈ s.locations ∧ p = .entry) ∨
    ∃ c, s.Leaves l p c ∧ c.address ∈ b.predecessors

theorem leaves_iff (hb : b ∈ s.blocks) : s.Leaves l p b ↔
    match Definition.lastSite? l b.definitions with
    | some x => p = .definition x
    | none => s.Arrives l p b := by
  constructor
  · intro h
    cases h with
    | assigned _ hlast => simp [hlast]
    | entered _ hstart hl hnone =>
      rw [hnone]
      exact .inl ⟨hstart, hl, rfl⟩
    | passed h _ hpred hnone =>
      rw [hnone]
      exact .inr ⟨_, h, hpred⟩
  · intro h
    split at h
    next x hlast =>
      subst h
      exact .assigned hb hlast
    next hnone =>
      rcases h with ⟨hstart, hl, rfl⟩ | ⟨c, hc, hpred⟩
      · exact .entered hb hstart hl hnone
      · exact .passed hc hb hpred hnone

namespace Lawful

variable (hs : s.Lawful)
include hs

theorem eq_of_address_eq (hb : b ∈ s.blocks) (hc : c ∈ s.blocks) (h : b.address = c.address) : b = c :=
  List.inj_on_of_nodup_map hs.nodup hb hc h

theorem block?_eq_some (hb : b ∈ s.blocks) : s.block? b.address = some b := by
  unfold block?
  cases h : s.blocks.find? fun c => c.address == b.address with
  | none => simpa using List.find?_eq_none.1 h b hb
  | some c =>
    have hc := List.find?_some h
    rw [hs.eq_of_address_eq (List.mem_of_find?_eq_some h) hb (by simpa using hc)]

omit hs in
theorem mem_of_block? (h : s.block? a = some b) : b ∈ s.blocks :=
  List.mem_of_find?_eq_some h

theorem mem_of_leaves (h : s.Leaves l p b) : l ∈ s.locations := by
  induction h with
  | assigned hb hlast =>
    obtain ⟨d, hd, rfl, -⟩ := Definition.exists_of_lastSite? hlast
    exact hs.located _ hb d hd
  | entered _ _ hl => exact hl
  | passed _ _ _ _ ih => exact ih

theorem mem_of_arrives (h : s.Arrives l p b) : l ∈ s.locations := by
  rcases h with ⟨-, hl, -⟩ | ⟨c, hc, -⟩
  · exact hl
  · exact hs.mem_of_leaves hc

end Lawful

theorem has_reachIn : (s.reachIn outs b).Has l p ↔
    (s.isStart b = true ∧ l ∈ s.locations ∧ p = .entry) ∨
      ∃ a ∈ b.predecessors, ∃ r, outs.find? a = some r ∧ r.Has l p := by
  have hfold : ∀ (as : List Address) (r : Reach),
      Reach.Has (as.foldl (fun r a => r.join ((outs.find? a).getD .empty)) r) l p ↔
        r.Has l p ∨ ∃ a ∈ as, ∃ r', outs.find? a = some r' ∧ r'.Has l p := by
    intro as
    induction as with
    | nil => simp
    | cons a rest ih =>
      intro r
      rw [List.foldl_cons, ih, Reach.has_join]
      cases h : outs.find? a <;> simp [h, or_assoc]
  unfold reachIn
  rw [hfold]
  split <;> simp_all [Reach.has_start]

theorem proper_reachIn (h : ∀ a r, outs.find? a = some r → r.Proper) : (s.reachIn outs b).Proper := by
  have hfold : ∀ (as : List Address) (r : Reach), r.Proper →
      Reach.Proper (as.foldl (fun r a => r.join ((outs.find? a).getD .empty)) r) := by
    intro as
    induction as with
    | nil => exact fun r hr => hr
    | cons a rest ih =>
      intro r hr
      refine ih _ (hr.join ?_)
      cases ha : outs.find? a with
      | none => exact Reach.proper_empty
      | some r' => exact h a r' ha
  refine hfold _ _ ?_
  split
  · exact Reach.proper_start _
  · exact Reach.proper_empty

theorem reachIn_congr (h : ∀ a ∈ b.predecessors, outs'.find? a = outs.find? a) :
    s.reachIn outs' b = s.reachIn outs b := by
  unfold reachIn
  apply List.foldl_ext
  intro r a ha
  rw [h a ha]

/-- What an analysis has to be for the next looks to end with what reaches the blocks: what it has
    found reaches them, a look can only add to it, and where no look is due none would change
    anything. -/
structure Fair (s : Summary) (A : Analysis) : Prop where
  found : ∀ b ∈ s.blocks, ∃ r, A.outs.find? b.address = some r
  proper : ∀ a r, A.outs.find? a = some r → r.Proper
  sound : ∀ b ∈ s.blocks, ∀ r, A.outs.find? b.address = some r → ∀ l p, r.Has l p → s.Leaves l p b
  rising : ∀ b ∈ s.blocks, ∀ r, A.outs.find? b.address = some r →
    r.Below ((s.reachIn A.outs b).through b)
  work : ∀ b ∈ A.work, b ∈ s.blocks
  settled : ∀ b ∈ s.blocks, b ∉ A.work → A.ins.find? b.address = some (s.reachIn A.outs b) ∧
    A.outs.find? b.address = some ((s.reachIn A.outs b).through b)

namespace Fair

variable {rest : List BlockSummary}

theorem outs_look (A : Analysis) (b : BlockSummary) (rest : List BlockSummary) (a : Address) :
    (s.look A b rest).outs.find? a =
      if a = b.address then some ((s.reachIn A.outs b).through b) else A.outs.find? a := by
  change (A.outs.insert _ _).find? a = _
  split
  next h => rw [h, SortedMap.find?_insert_self]
  next h => rw [SortedMap.find?_insert_of_ne h]

theorem ins_look_of_ne (h : a ≠ b.address) : (s.look A b rest).ins.find? a = A.ins.find? a :=
  SortedMap.find?_insert_of_ne h _ _

section Look

variable (hs : s.Lawful) (hA : s.Fair A) (hwork : A.work = b :: rest)
include hA hwork

/-- What has been found is still there after a look. -/
theorem find?_look (hc : ∃ r, A.outs.find? a = some r ∧ r.Has l p) :
    ∃ r, (s.look A b rest).outs.find? a = some r ∧ r.Has l p := by
  obtain ⟨r, hr, hp⟩ := hc
  rw [outs_look]
  split
  next h =>
    subst h
    exact ⟨_, rfl, hA.rising b (hA.work b (by simp [hwork])) r hr l p hp⟩
  next => exact ⟨r, hr, hp⟩

theorem reachIn_below_look (c : BlockSummary) :
    (s.reachIn A.outs c).Below (s.reachIn (s.look A b rest).outs c) := by
  intro l p hp
  rw [has_reachIn] at hp ⊢
  refine hp.imp_right ?_
  rintro ⟨a, ha, hr⟩
  exact ⟨a, ha, hA.find?_look hwork hr⟩

omit hA hwork in
theorem mem_work_look : c ∈ (s.look A b rest).work ↔ c ∈ rest ∨
    (A.outs.find? b.address ≠ some ((s.reachIn A.outs b).through b) ∧
      ∃ a ∈ b.successors, s.block? a = some c) := by
  unfold look
  dsimp only
  split
  next h => simp [h]
  next h => simp [h]

include hs

/-- A look leaves what reaches the start of a block alone, unless a look at that block is due. -/
theorem reachIn_look (hc : c ∈ s.blocks) (hnot : c ∉ (s.look A b rest).work) :
    s.reachIn (s.look A b rest).outs c = s.reachIn A.outs c := by
  have hb := hA.work b (by simp [hwork])
  apply reachIn_congr
  intro a ha
  rw [outs_look]
  split
  next h =>
    subst h
    by_contra hne
    refine hnot (mem_work_look.2 (.inr ⟨fun heq => hne heq.symm, c.address, ?_, hs.block?_eq_some hc⟩))
    obtain ⟨b', hb', haddress, hsucc⟩ := (hs.linked c hc _).1 ha
    exact hs.eq_of_address_eq hb' hb haddress ▸ hsucc
  next => rfl

omit hwork in
theorem arrives (hc : c ∈ s.blocks) (h : (s.reachIn A.outs c).Has l p) : s.Arrives l p c := by
  refine (has_reachIn.1 h).imp_right ?_
  rintro ⟨a, ha, r, hr, hp⟩
  obtain ⟨b', hb', rfl, -⟩ := (hs.linked c hc a).1 ha
  exact ⟨b', hA.sound b' hb' r hr l p hp, ha⟩

/-- A look at the first block that is due keeps the analysis fair. -/
theorem look : s.Fair (s.look A b rest) := by
  have hb := hA.work b (by simp [hwork])
  refine ⟨fun c hc => ?_, fun a r hr => ?_, fun c hc r hr => ?_, fun c hc r hr => ?_, fun c hc => ?_,
    fun c hc hnot => ?_⟩
  case refine_1 =>
    rw [outs_look]
    split
    · exact ⟨_, rfl⟩
    · exact hA.found c hc
  case refine_2 =>
    rw [outs_look] at hr
    split at hr
    · cases hr
      exact (proper_reachIn hA.proper).foldl_after
    · exact hA.proper a r hr
  case refine_3 =>
    rw [outs_look] at hr
    split at hr
    next h =>
      obtain rfl := hs.eq_of_address_eq hc hb h
      cases hr
      intro l p hp
      have hp := Reach.has_foldl_after.1 hp
      rw [leaves_iff hc]
      cases hlast : Definition.lastSite? l c.definitions with
      | some x =>
        rw [hlast] at hp
        exact hp
      | none =>
        rw [hlast] at hp
        exact hA.arrives hs hc hp
    next => exact hA.sound c hc r hr
  case refine_4 =>
    have hbelow : ((s.reachIn A.outs c).through c).Below ((s.reachIn (s.look A b rest).outs c).through c) :=
      (hA.reachIn_below_look hwork c).foldl_after
    rw [outs_look] at hr
    split at hr
    next h =>
      obtain rfl := hs.eq_of_address_eq hc hb h
      cases hr
      exact hbelow
    next => exact fun l p hp => hbelow l p (hA.rising c hc r hr l p hp)
  case refine_5 =>
    rcases mem_work_look.1 hc with hc | ⟨-, a, -, ha⟩
    · exact hA.work c (by simp [hwork, hc])
    · exact Lawful.mem_of_block? ha
  case refine_6 =>
    rw [hA.reachIn_look hs hwork hc hnot, outs_look]
    split
    next h =>
      obtain rfl := hs.eq_of_address_eq hc hb h
      exact ⟨SortedMap.find?_insert_self _ _ _, rfl⟩
    next h =>
      rw [ins_look_of_ne h]
      refine hA.settled c hc fun hmem => ?_
      rw [hwork] at hmem
      rcases List.mem_cons.1 hmem with rfl | hmem
      · exact h rfl
      · exact hnot (mem_work_look.2 (.inl hmem))

end Look

end Fair

/-- Whatever reaches the end of a block is one of the things that can be found. -/
theorem Leaves.mem_facts (h : s.Leaves l p b) : (l, p) ∈ s.facts := by
  unfold facts
  induction h with
  | assigned hb hlast =>
    obtain ⟨d, hd, rfl, rfl⟩ := Definition.exists_of_lastSite? hlast
    exact List.mem_append_right _ (List.mem_flatMap.2 ⟨_, hb, List.mem_map.2 ⟨d, hd, rfl⟩⟩)
  | entered _ _ hl => exact List.mem_append_left _ (List.mem_map.2 ⟨l, hl, rfl⟩)
  | passed _ _ _ _ ih => exact ih

private theorem sum_add_le {α : Type} {f g : α → Nat} {x : α} {k : Nat} {xs : List α} (hx : x ∈ xs)
    (h : ∀ y ∈ xs, f y ≤ g y) (hk : f x + k ≤ g x) : (xs.map f).sum + k ≤ (xs.map g).sum := by
  induction xs with
  | nil => cases hx
  | cons y rest ih =>
    have hy := h y (by simp)
    rw [List.map_cons, List.map_cons, List.sum_cons, List.sum_cons]
    rcases List.mem_cons.1 hx with rfl | hx
    · have hrest : (rest.map f).sum ≤ (rest.map g).sum :=
        List.sum_le_sum fun y hy => h y (by simp [hy])
      omega
    · have hrest := ih hx fun y hy => h y (by simp [hy])
      omega

private theorem countP_lt {α : Type} {f g : α → Bool} {x : α} {xs : List α} (hx : x ∈ xs)
    (h : ∀ y ∈ xs, f y = true → g y = true) (hf : f x = false) (hg : g x = true) :
    xs.countP f + 1 ≤ xs.countP g := by
  induction xs with
  | nil => cases hx
  | cons y rest ih =>
    have hy := h y (by simp)
    rw [List.countP_cons, List.countP_cons]
    rcases List.mem_cons.1 hx with rfl | hx
    · have hrest : rest.countP f ≤ rest.countP g :=
        List.countP_mono_left fun y hy => h y (by simp [hy])
      rw [hf, hg]
      simpa using hrest
    · have hrest := ih hx fun y hy => h y (by simp [hy])
      grind

open Classical in
/-- How much of what can be found has not been found at the end of a block. -/
noncomputable def missing (s : Summary) (A : Analysis) (b : BlockSummary) : Nat :=
  s.facts.countP fun e => ¬ ∃ r, A.outs.find? b.address = some r ∧ r.Has e.1 e.2

/-- A number of looks after which none is due. -/
noncomputable def looksLeft (s : Summary) (A : Analysis) : Nat :=
  A.work.length + (s.blocks.map fun b => s.missing A b * b.successors.length).sum

theorem looksLeft_le (s : Summary) (A : Analysis) : s.looksLeft A ≤
    A.work.length + s.facts.length * (s.blocks.flatMap BlockSummary.successors).length := by
  have hle : (s.blocks.map fun b => s.missing A b * b.successors.length).sum ≤
      (s.blocks.map fun b => s.facts.length * b.successors.length).sum :=
    List.sum_le_sum fun b _ => Nat.mul_le_mul_right _ List.countP_le_length
  rw [List.sum_map_mul_left, ← List.length_flatMap] at hle
  exact Nat.add_le_add_left hle _

namespace Fair

variable {rest : List BlockSummary} (hs : s.Lawful) (hA : s.Fair A) (hwork : A.work = b :: rest)
include hs hA hwork

omit hs in
theorem missing_look_le (c : BlockSummary) : s.missing (s.look A b rest) c ≤ s.missing A c := by
  apply List.countP_mono_left
  intro e _ h
  simp only [decide_eq_true_eq] at h ⊢
  exact fun hfound => h (hA.find?_look hwork hfound)

/-- A look that changes what reaches the end of its block has found something new there. -/
theorem missing_look_lt (hne : A.outs.find? b.address ≠ some ((s.reachIn A.outs b).through b)) :
    s.missing (s.look A b rest) b + 1 ≤ s.missing A b := by
  have hb := hA.work b (by simp [hwork])
  obtain ⟨r, hr⟩ := hA.found b hb
  obtain ⟨l, p, hp, hnot⟩ : ∃ l p, ((s.reachIn A.outs b).through b).Has l p ∧ ¬ r.Has l p := by
    by_contra hall
    push Not at hall
    refine hne (hr.trans (congrArg some ?_))
    exact (hA.proper _ r hr).ext (proper_reachIn hA.proper).foldl_after fun l p =>
      ⟨hA.rising b hb r hr l p, hall l p⟩
  have hfound : ∃ r, (s.look A b rest).outs.find? b.address = some r ∧ r.Has l p := by
    rw [outs_look, if_pos rfl]
    exact ⟨_, rfl, hp⟩
  obtain ⟨r', hr', hp'⟩ := hfound
  have hmem := ((hA.look hs hwork).sound b hb r' hr' l p hp').mem_facts
  refine countP_lt hmem (fun e _ h => ?_) ?_ ?_
  · simp only [decide_eq_true_eq] at h ⊢
    exact fun hfound => h (hA.find?_look hwork hfound)
  · simpa using ⟨r', hr', hp'⟩
  · simpa [hr] using hnot

/-- Every look brings the end of the analysis nearer. -/
theorem looksLeft_look : s.looksLeft (s.look A b rest) + 1 ≤ s.looksLeft A := by
  have hb := hA.work b (by simp [hwork])
  have hle : ∀ c ∈ s.blocks, s.missing (s.look A b rest) c * c.successors.length ≤
      s.missing A c * c.successors.length :=
    fun c _ => Nat.mul_le_mul_right _ (hA.missing_look_le hwork c)
  unfold looksLeft
  rw [hwork, List.length_cons]
  by_cases heq : A.outs.find? b.address = some ((s.reachIn A.outs b).through b)
  · have hlength : (s.look A b rest).work.length = rest.length := by simp [Summary.look, heq]
    have hsum := List.sum_le_sum hle
    omega
  · have hlength : (s.look A b rest).work.length ≤ rest.length + b.successors.length := by
      have hfilter := List.length_filterMap_le s.block? b.successors
      simp only [Summary.look, if_neg heq, List.length_append]
      omega
    have hless := Nat.mul_le_mul_right b.successors.length (hA.missing_look_lt hs hwork heq)
    rw [Nat.add_mul, Nat.one_mul] at hless
    have hsum := sum_add_le hb hle hless
    omega

omit hwork in
/-- Looking at blocks comes to an end with a fair analysis. -/
theorem looks {n : Nat} (hn : s.looksLeft A ≤ n) :
    s.Fair (s.looks n A) ∧ (s.looks n A).work = [] := by
  induction n generalizing A with
  | zero =>
    refine ⟨hA, ?_⟩
    unfold looksLeft at hn
    exact List.length_eq_zero_iff.1 (by change A.work.length = 0; omega)
  | succ n ih =>
    unfold Summary.looks
    split
    next hwork => exact ⟨hA, hwork⟩
    next b rest hwork =>
      have hless := hA.looksLeft_look hs hwork
      exact ih (hA.look hs hwork) (by omega)

omit hs hwork in
/-- When no look is due, everything that reaches the end of a block has been found there. -/
theorem complete (hwork : A.work = []) (h : s.Leaves l p b) :
    ∃ r, A.outs.find? b.address = some r ∧ r.Has l p := by
  have hsettled : ∀ b ∈ s.blocks, A.outs.find? b.address = some ((s.reachIn A.outs b).through b) :=
    fun b hb => (hA.settled b hb (by simp [hwork])).2
  induction h with
  | assigned hb hlast =>
    refine ⟨_, hsettled _ hb, Reach.has_foldl_after.2 ?_⟩
    rw [hlast]
  | entered hb hstart hl hnone =>
    refine ⟨_, hsettled _ hb, Reach.has_foldl_after.2 ?_⟩
    rw [hnone]
    exact has_reachIn.2 (.inl ⟨hstart, hl, rfl⟩)
  | passed h hb hpred hnone ih =>
    refine ⟨_, hsettled _ hb, Reach.has_foldl_after.2 ?_⟩
    rw [hnone]
    exact has_reachIn.2 (.inr ⟨_, hpred, ih⟩)

end Fair

namespace Lawful

variable (hs : s.Lawful)
include hs

/-- The state in which the analysis starts. -/
theorem fair_start : s.Fair
    ⟨.ofList (s.blocks.map fun b => (b.address, .empty)), .ofList (s.blocks.map fun b => (b.address, .empty)),
      s.blocks⟩ := by
  have hnodup : ((s.blocks.map fun b => (b.address, (.empty : Reach))).map Prod.fst).Nodup := by
    rw [List.map_map]
    exact hs.nodup
  have hempty : ∀ {a r}, (SortedMap.ofList (s.blocks.map fun b => (b.address, (.empty : Reach)))).find? a = some r →
      r = .empty := by
    intro a r hr
    obtain ⟨b, -, heq⟩ := List.mem_map.1 ((SortedMap.find?_ofList hnodup).1 hr)
    cases heq
    rfl
  refine ⟨fun b hb => ⟨.empty, ?_⟩, fun a r hr => ?_, fun b hb r hr => ?_, fun b hb r hr => ?_,
    fun b hb => hb, fun b hb hnot => absurd hb hnot⟩
  · exact (SortedMap.find?_ofList hnodup).2 (List.mem_map.2 ⟨b, hb, rfl⟩)
  · exact hempty hr ▸ Reach.proper_empty
  · intro l p hp
    exact absurd (hempty hr ▸ hp) (Reach.not_has_empty l p)
  · intro l p hp
    exact absurd (hempty hr ▸ hp) (Reach.not_has_empty l p)

/-- The analysis comes to an end. -/
theorem fair_analyze : s.Fair s.analyze ∧ s.analyze.work = [] := by
  apply hs.fair_start.looks hs
  exact s.looksLeft_le _

variable (hb : b ∈ s.blocks)
include hb

theorem ins_analyze : s.analyze.ins.find? b.address = some (s.reachIn s.reachOut b) :=
  (hs.fair_analyze.1.settled b hb (by simp [hs.fair_analyze.2])).1

theorem outs_analyze : s.reachOut.find? b.address = some ((s.reachIn s.reachOut b).through b) :=
  (hs.fair_analyze.1.settled b hb (by simp [hs.fair_analyze.2])).2

/-- What is found at the start of a block is what reaches it. -/
theorem has_reachIn_iff : (s.reachIn s.reachOut b).Has l p ↔ s.Arrives l p b := by
  obtain ⟨hfair, hwork⟩ := hs.fair_analyze
  constructor
  · exact hfair.arrives hs hb
  · intro h
    refine has_reachIn.2 (h.imp_right ?_)
    rintro ⟨c, hc, hpred⟩
    exact ⟨c.address, hpred, hfair.complete hwork hc⟩

/-- What is found at the end of a block is what reaches it. -/
theorem has_through_iff : ((s.reachIn s.reachOut b).through b).Has l p ↔ s.Leaves l p b := by
  rw [leaves_iff hb]
  refine Reach.has_foldl_after.trans ?_
  cases Definition.lastSite? l b.definitions with
  | some x => rfl
  | none => exact hs.has_reachIn_iff hb

end Lawful

end Summary

end FrameRecovery
