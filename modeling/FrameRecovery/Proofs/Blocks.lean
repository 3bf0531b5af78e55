import FrameRecovery.Proofs.ControlFlow
import Mathlib.Data.List.Chain

namespace FrameRecovery

/-- The instructions of the block at an address, none if there is no such block. -/
def Flow.instructionsAt (f : Flow) (a : Address) : List Address :=
  match f.block? a with
  | some b => b.instructions
  | none => []

theorem Flow.path_concat_iff {f : Flow} {as : List Address} {a c : Address} :
    f.Path (as ++ [a]) c ↔ f.Path as a ∧ ∃ b, f.block? a = some b ∧ c ∈ b.successors := by
  constructor
  · intro h
    generalize heq : as ++ [a] = bs at h
    cases h with
    | entry => simp at heq
    | step h hb hc =>
      obtain ⟨rfl, rfl⟩ : as = _ ∧ a = _ := by simpa using heq
      exact ⟨h, _, hb, hc⟩
  · rintro ⟨h, b, hb, hc⟩
    exact h.step hb hc

namespace ControlFlow

variable {l : Listing} {i : Instruction} {a b c x y entry : Address} {pending work : List Address}
  {leaders L : SortedSet Address} {f : Flow}

/-- Control may go from an instruction straight to an address. -/
def Goes (l : Listing) (a b : Address) : Prop :=
  ∃ i, l.instruction? a = some i ∧
    (b ∈ i.action.targets ∨ i.action.fallsThrough = true ∧ l.next? a = some b)

/-- Control comes from the entry to where it cannot be followed. -/
inductive GoesAstray (l : Listing) (entry : Address) : Prop
  | entryMissing (hnone : l.instruction? entry = none)
  | targetMissing {a b : Address} {i : Instruction} (h : Reached l entry a)
    (hi : l.instruction? a = some i) (hb : b ∈ i.action.targets) (hnone : l.instruction? b = none)
  | runsOff {a : Address} {i : Instruction} (h : Reached l entry a) (hi : l.instruction? a = some i)
    (hfalls : i.action.fallsThrough = true) (hnone : l.next? a = none)

/-- Blocks start at the entry, at what is branched to, and after what ends a block. -/
inductive Starts (l : Listing) (entry : Address) : Address → Prop
  | entry : Starts l entry entry
  | target {a b : Address} {i : Instruction} (h : Reached l entry a) (hi : l.instruction? a = some i)
    (hb : b ∈ i.action.targets) : Starts l entry b
  | after {a b : Address} {i : Instruction} (h : Reached l entry a) (hi : l.instruction? a = some i)
    (hends : i.action.endsBlock = true) (hfalls : i.action.fallsThrough = true)
    (hb : l.next? a = some b) : Starts l entry b

/-- A straight run goes on from an instruction to the one after it, unless the first ends a block or
    the second starts one. -/
def Continues (l : Listing) (entry a b : Address) : Prop :=
  ∃ i, l.instruction? a = some i ∧ i.action.endsBlock = false ∧ l.next? a = some b ∧ ¬ Starts l entry b

/-- A block is a straight run of instructions that cannot be made longer. Its successors are the
    addresses to which control may go from the last one. -/
structure IsBlock (l : Listing) (entry : Address) (b : Block) : Prop where
  starts : Starts l entry b.address
  head : b.instructions.head? = some b.address
  run : b.instructions.IsChain (Continues l entry)
  maximal : ∀ x ∈ b.instructions.getLast?, ∀ y, ¬ Continues l entry x y
  successors : ∀ x ∈ b.instructions.getLast?, ∀ c, c ∈ b.successors ↔ Goes l x c
  nodup : b.successors.Nodup

/-- The instructions that control can pass, in order, from the entry on. -/
def Passes (l : Listing) (entry : Address) (xs : List Address) : Prop :=
  xs.head? = some entry ∧ xs.IsChain (Goes l)

/-- A way through instructions passes some blocks whole, and the beginning of one more. -/
structure Splits (f : Flow) (xs as : List Address) (a : Address) (begun : List Address) : Prop where
  path : f.Path as a
  begins : begun <+: f.instructionsAt a
  ne_nil : begun ≠ []
  eq : xs = as.flatMap f.instructionsAt ++ begun

/-- The blocks of a flow are those of the function: every instruction that control comes to is in one
    of them, once, and the ways through the blocks are those through the instructions. -/
structure HasBlocks (l : Listing) (f : Flow) : Prop where
  address_eq : ∀ a b, f.block? a = some b → b.address = a
  starts : ∀ a, f.block? a ≠ none ↔ Starts l f.entry a
  isBlock : ∀ a b, f.block? a = some b → IsBlock l f.entry b
  successor : ∀ a b c, f.block? a = some b → c ∈ b.successors → f.block? c ≠ none
  nodup : (f.blocks.values.flatMap Block.instructions).Nodup
  reached : ∀ x, x ∈ f.blocks.values.flatMap Block.instructions ↔ Reached l f.entry x
  passes : ∀ xs, Passes l f.entry xs ↔ ∃ as a begun, Splits f xs as a begun
  unique : ∀ xs as a begun as' a' begun', Splits f xs as a begun → Splits f xs as' a' begun' →
    as = as' ∧ a = a' ∧ begun = begun'

theorem Reached.goes (h : Reached l entry a) (hab : Goes l a b) : Reached l entry b := by
  obtain ⟨i, hi, hb | ⟨hfalls, hb⟩⟩ := hab
  · exact .target h hi hb
  · exact .next h hi hfalls hb

theorem Reached.trans (ha : Reached l entry a) (h : Relation.ReflTransGen (Goes l) a b) :
    Reached l entry b := by
  induction h with
  | refl => exact ha
  | tail _ hgoes ih => exact ih.goes hgoes

theorem Starts.reached (h : Starts l entry a) : Reached l entry a := by
  cases h with
  | entry => exact .entry
  | target h hi hb => exact .target h hi hb
  | after h hi _ hfalls hb => exact .next h hi hfalls hb

theorem exists_of_checkTargets {e : Error} (h : checkTargets l i = .error e) :
    ∃ b ∈ i.action.targets, l.instruction? b = none := by
  unfold checkTargets at h
  generalize i.action.targets = targets at h
  induction targets with
  | nil => cases h
  | cons b rest ih =>
    change ((if _ then _ else _ : Except Error Unit) >>= fun _ => rest.forM _) = _ at h
    split at h
    next =>
      obtain ⟨c, hc, hnone⟩ := ih h
      exact ⟨c, by simp [hc], hnone⟩
    next hnone => exact ⟨b, by simp, by simpa using hnone⟩

/-- Where control was found to come from the entry, and has not been followed so far. -/
def Queued (l : Listing) (entry : Address) (work : List Address) : Prop :=
  ∀ a ∈ work, Reached l entry a ∧ (l.instruction? a).isSome = true

theorem Queued.step (h : Queued l entry (a :: work)) (hi : l.instruction? a = some i)
    (haddress : i.address = a) {next : Option Address} {u : Unit} (hnext : next? l i = .ok next)
    (htargets : checkTargets l i = .ok u) :
    Queued l entry (next.toList ++ i.action.targets.reverse ++ work) := by
  have hreached := (h a (by simp)).1
  obtain ⟨-, hfalls⟩ := next_of_next? haddress hnext
  intro b hb
  simp only [List.mem_append, Option.mem_toList, List.mem_reverse] at hb
  obtain (hb | hb) | hb := hb
  · obtain ⟨hfalls, hb⟩ := hfalls b hb
    exact ⟨.next hreached hi hfalls hb, isSome_of_next hb⟩
  · exact ⟨.target hreached hi hb, isSome_of_checkTargets htargets b hb⟩
  · exact h b (by simp [hb])

/-- The exploration finds block starts, and fails only where control cannot be followed. -/
theorem explore_finds (hl : l.WellFormed) (hwork : Queued l entry work)
    (hleaders : ∀ a ∈ leaders, Starts l entry a) :
    match explore l pending leaders work with
    | .ok L => ∀ a ∈ L, Starts l entry a
    | .error _ => GoesAstray l entry := by
  induction pending, leaders, work using explore.induct l with
  | case1 =>
    rw [explore]
    exact hleaders
  | case2 pending leaders a work ha hnone =>
    have hsome := (hwork a (by simp)).2
    simp [hnone] at hsome
  | case3 pending leaders a work ha i hi e htargets =>
    rw [explore, dif_pos ha, hi]
    simp only [htargets]
    obtain ⟨b, hb, hnone⟩ := exists_of_checkTargets htargets
    exact .targetMissing (hwork a (by simp)).1 hi hb hnone
  | case4 pending leaders a work ha i hi u e hnext htargets =>
    rw [explore, dif_pos ha, hi]
    simp only [htargets, hnext]
    unfold next? at hnext
    split at hnext
    next hfalls =>
      split at hnext
      next => cases hnext
      next hnone =>
        rw [hl.address_eq a i hi] at hnone
        exact .runsOff (hwork a (by simp)).1 hi hfalls hnone
    next => cases hnext
  | case5 pending leaders a work ha i hi u next hnext htargets _ _ _ _ ih =>
    rw [explore, dif_pos ha, hi]
    simp only [htargets, hnext]
    have haddress := hl.address_eq a i hi
    apply ih (hwork.step hi haddress hnext htargets)
    have hreached := (hwork a (by simp)).1
    intro b hb
    rw [mem_foldl_leaders, leadersOf, List.mem_append] at hb
    obtain hb | hb | hb := hb
    · exact hleaders b hb
    · exact .target hreached hi hb
    · split at hb
      next hends =>
        obtain ⟨hfalls, hb⟩ := (next_of_next? haddress hnext).2 b (by simpa using hb)
        exact .after hreached hi hends hfalls hb
      next => cases hb
  | case6 pending leaders a work ha ih =>
    rw [explore, dif_neg ha]
    exact ih (fun b hb => hwork b (by simp [hb])) hleaders

section Found

variable {reached : Address → Prop} (hl : l.WellFormed) (h : Leads l entry L reached)
include h

/-- Everything that control comes to was reached. -/
theorem Leads.reached_iff : reached a ↔ Reached l entry a := by
  refine ⟨fun ha => (h.followed a ha).1, fun ha => ?_⟩
  induction ha with
  | entry => exact h.leader _ h.entry_mem
  | @next a b i _ hi hfalls hb ih =>
    obtain ⟨-, j, hj, hfollowed⟩ := h.followed a ih
    obtain rfl := Option.some.inj (hi.symm.trans hj)
    obtain ⟨c, hc, hreached, -⟩ := hfollowed.falls hfalls
    obtain rfl := Option.some.inj (hb.symm.trans hc)
    exact hreached
  | @target a b i _ hi hb ih =>
    obtain ⟨-, j, hj, hfollowed⟩ := h.followed a ih
    obtain rfl := Option.some.inj (hi.symm.trans hj)
    exact (hfollowed.targets b hb).2.1

theorem Leads.exists_followed (ha : Reached l entry a) :
    ∃ i, l.instruction? a = some i ∧ Followed l L reached a i :=
  (h.followed a (h.reached_iff.2 ha)).2

theorem Leads.not_goesAstray : ¬ GoesAstray l entry := by
  rintro (hnone | ⟨ha, hi, hb, hnone⟩ | ⟨ha, hi, hfalls, hnone⟩)
  · obtain ⟨i, hi, -⟩ := h.exists_followed .entry
    cases hnone.symm.trans hi
  · obtain ⟨j, hj, hfollowed⟩ := h.exists_followed ha
    obtain rfl := Option.some.inj (hi.symm.trans hj)
    have hsome := (hfollowed.targets _ hb).2.2
    simp [hnone] at hsome
  · obtain ⟨j, hj, hfollowed⟩ := h.exists_followed ha
    obtain rfl := Option.some.inj (hi.symm.trans hj)
    obtain ⟨b, hb, -⟩ := hfollowed.falls hfalls
    cases hnone.symm.trans hb

/-- Every block start was found. -/
theorem Leads.mem_of_starts (ha : Starts l entry a) : a ∈ L := by
  cases ha with
  | entry => exact h.entry_mem
  | target ha hi hb =>
    obtain ⟨j, hj, hfollowed⟩ := h.exists_followed ha
    obtain rfl := Option.some.inj (hi.symm.trans hj)
    exact (hfollowed.targets _ hb).1
  | after ha hi hends hfalls hb =>
    obtain ⟨j, hj, hfollowed⟩ := h.exists_followed ha
    obtain rfl := Option.some.inj (hi.symm.trans hj)
    obtain ⟨c, hc, -, hleader⟩ := hfollowed.falls hfalls
    obtain rfl := Option.some.inj (hb.symm.trans hc)
    exact hleader hends

end Found

/-- Following control finds all blocks, or else control goes astray. -/
theorem extents_exact (hl : l.WellFormed) (entry : Address) :
    (∃ L reached, extents l entry = .ok (L.elements.map (extentAt l L)) ∧ Leads l entry L reached ∧
      ∀ a, a ∈ L ↔ Starts l entry a) ∨
    GoesAstray l entry ∧ ∃ a fault, extents l entry = .error (.controlFlow a fault) := by
  have hfinds : (l.instruction? entry).isSome = true →
      match explore l l.instructions.keys (.singleton entry) [entry] with
      | .ok L => ∀ a ∈ L, Starts l entry a
      | .error _ => GoesAstray l entry := by
    intro hsome
    apply explore_finds hl
    · intro a ha
      obtain rfl := List.mem_singleton.1 ha
      exact ⟨.entry, hsome⟩
    · intro a ha
      obtain rfl := SortedSet.mem_singleton.1 ha
      exact .entry
  obtain ⟨L, reached, hsome, hL, heq, h⟩ | ⟨a, fault, heq⟩ := extents_spec hl entry
  · have hstarts := hfinds hsome
    rw [hL] at hstarts
    exact .inl ⟨L, reached, heq, h, fun a => ⟨hstarts a, h.mem_of_starts⟩⟩
  · refine .inr ⟨?_, a, fault, heq⟩
    unfold extents at heq
    split at heq
    next hsome =>
      have hastray := hfinds hsome
      split at hastray
      next hL =>
        rw [hL] at heq
        cases heq
      next => exact hastray
    next hnone => exact .entryMissing (by simpa using hnone)

theorem Action.fallsThrough_of_not_endsBlock {a : Action} (h : a.endsBlock = false) :
    a.fallsThrough = true := by
  cases a <;> simp_all [Action.endsBlock, Action.fallsThrough]

theorem Action.targets_of_not_endsBlock {a : Action} (h : a.endsBlock = false) : a.targets = [] := by
  cases a <;> simp_all [Action.endsBlock, Action.targets]

theorem lt_of_next? (h : l.next? a = some b) : a < b := by
  simpa using List.find?_some h

/-- No instruction is between one and the next. -/
theorem le_of_next? (h : l.next? a = some b) (hc : (l.instruction? c).isSome = true) (hac : a < c) :
    b ≤ c := by
  have hmem : c ∈ l.instructions.keys := SortedMap.mem_keys.2 (Option.isSome_iff_exists.1 hc)
  have hsorted : l.instructions.keys.Pairwise (· < ·) :=
    List.pairwise_map.2 (l.instructions.increasing.imp fun h => Std.compare_eq_lt.1 h)
  obtain ⟨-, pre, post, heq, hpre⟩ := List.find?_eq_some_iff_append.1 h
  rw [heq] at hmem hsorted
  simp only [List.mem_append, List.mem_cons] at hmem
  obtain hmem | rfl | hmem := hmem
  · have := hpre c hmem
    simp [hac] at this
  · exact UInt64.le_refl c
  · exact UInt64.le_of_lt ((List.pairwise_cons.1 (List.pairwise_append.1 hsorted).2.1).1 c hmem)

/-- The instruction before another one is known from that one. -/
theorem eq_of_next? (ha : (l.instruction? a).isSome = true) (hb : (l.instruction? b).isSome = true)
    (hac : l.next? a = some c) (hbc : l.next? b = some c) : a = b := by
  have hle : ∀ {a b : Address}, (l.instruction? b).isSome = true → l.next? a = some c →
      l.next? b = some c → b ≤ a := by
    intro a b hb hac hbc
    by_contra hlt
    have hcb := le_of_next? hac hb (UInt64.not_le.1 hlt)
    exact UInt64.not_lt.2 hcb (lt_of_next? hbc)
  exact UInt64.le_antisymm (hle ha hbc hac) (hle hb hac hbc)

theorem GoesOn.lt (h : GoesOn l L a b) : a < b := by
  obtain ⟨i, -, -, -, hb, -⟩ := h
  exact lt_of_next? hb

theorem GoesOn.goes (h : GoesOn l L a b) : Goes l a b := by
  obtain ⟨i, hi, hfalls, -, hb, -⟩ := h
  exact ⟨i, hi, .inr ⟨hfalls, hb⟩⟩

/-- From an instruction that does not end its block, control goes to the next one alone. -/
theorem GoesOn.eq_of_goes (h : GoesOn l L a b) (hc : Goes l a c) : c = b := by
  obtain ⟨i, hi, -, hends, hb, -⟩ := h
  obtain ⟨j, hj, hc⟩ := hc
  obtain rfl := Option.some.inj (hi.symm.trans hj)
  obtain hc | ⟨-, hc⟩ := hc
  · simp [Action.targets_of_not_endsBlock hends] at hc
  · exact Option.some.inj (hc.symm.trans hb)

/-- A run comes to an instruction from one other at most, and to a block start from none. -/
theorem GoesOn.eq (hac : GoesOn l L a c) (hbc : GoesOn l L b c) : a = b := by
  obtain ⟨i, hi, -, -, hac, -⟩ := hac
  obtain ⟨j, hj, -, -, hbc, -⟩ := hbc
  exact eq_of_next? (by simp [hi]) (by simp [hj]) hac hbc

theorem eq_of_runs (ha : a ∈ L) (hb : b ∈ L) (hac : Relation.ReflTransGen (GoesOn l L) a c)
    (hbc : Relation.ReflTransGen (GoesOn l L) b c) : a = b := by
  have hstart : ∀ {a b}, b ∈ L → Relation.ReflTransGen (GoesOn l L) a b → a = b := by
    intro a b hb hab
    cases hab with
    | refl => rfl
    | tail _ hgoes =>
      obtain ⟨i, -, -, -, -, hnot⟩ := hgoes
      exact absurd hb hnot
  induction hac generalizing b with
  | refl => exact (hstart ha hbc).symm
  | tail hac hgoes ih =>
    cases hbc with
    | refl =>
      obtain ⟨i, -, -, -, -, hnot⟩ := hgoes
      exact absurd hb hnot
    | tail hbc hgoes' =>
      obtain rfl := hgoes.eq hgoes'
      exact ih hb hbc

/-- A list of instructions is a run from an address that cannot be made longer, with where control goes
    from the last of them. -/
structure IsRun (l : Listing) (L : SortedSet Address) (a : Address) (xs successors : List Address) :
    Prop where
  head : ∃ rest, xs = a :: rest
  run : xs.IsChain (GoesOn l L)
  last : ∀ x ∈ xs.getLast?, (∀ y, ¬ GoesOn l L x y) ∧
    ∃ i, l.instruction? x = some i ∧ successors = successorsOf l i x

namespace IsRun

variable {xs successors : List Address} (h : IsRun l L a xs successors)
include h

/-- The instructions of a run are those that it goes on to. -/
theorem mem_iff : x ∈ xs ↔ Relation.ReflTransGen (GoesOn l L) a x := by
  obtain ⟨⟨rest, rfl⟩, hrun, hlast⟩ := h
  constructor
  · intro hx
    clear hlast
    induction rest generalizing a with
    | nil =>
      obtain rfl := List.mem_singleton.1 hx
      exact .refl
    | cons b rest ih =>
      obtain ⟨hab, hrun⟩ := List.isChain_cons_cons.1 hrun
      obtain rfl | hx := List.mem_cons.1 hx
      · exact .refl
      · exact .head hab (ih hrun hx)
  · intro hx
    induction hx with
    | refl => exact List.mem_cons_self
    | @tail y z _ hgoes ih =>
      obtain ⟨pre, post, heq⟩ := List.append_of_mem ih
      rw [heq] at hrun hlast ⊢
      cases post with
      | nil => exact absurd hgoes ((hlast y (by simp)).1 z)
      | cons z' post =>
        obtain ⟨-, hgoes', -⟩ := List.isChain_append_cons_cons.1 hrun
        obtain rfl := hgoes'.eq_of_goes hgoes.goes
        simp

theorem nodup : xs.Nodup :=
  (h.run.imp fun _ _ hgoes => hgoes.lt).pairwise.imp fun hlt => UInt64.ne_of_lt hlt

end IsRun

theorem nodup_withTargets {next : Option Address} {targets : List Address} :
    (withTargets next targets).Nodup := by
  have hfold : ∀ ss : List Address, ss.Nodup → (targets.foldl (fun ss t =>
      if ss.contains t then ss else ss ++ [t]) ss).Nodup := by
    induction targets with
    | nil => exact fun _ h => h
    | cons t rest ih =>
      intro ss hss
      apply ih
      dsimp only
      split
      next => exact hss
      next hnot =>
        have hnot : t ∉ ss := by simpa using hnot
        exact hss.append (List.nodup_singleton t) (by simpa using hnot)
  apply hfold
  cases next <;> simp

theorem mem_successorsOf (hi : l.instruction? a = some i) : b ∈ successorsOf l i a ↔ Goes l a b := by
  unfold successorsOf Goes
  rw [mem_withTargets]
  by_cases hfalls : i.action.fallsThrough = true <;> simp [hi, hfalls, or_comm]

section Blocks

variable {reached : Address → Prop} (hl : l.WellFormed) (h : Leads l entry L reached)
include hl h

theorem isRun_straightRun (ha : Reached l entry a) :
    IsRun l L a (straightRun L (tailAt l a)).1 (straightRun L (tailAt l a)).2 := by
  obtain ⟨n, hn⟩ : ∃ n, (tailAt l a).length = n := ⟨_, rfl⟩
  induction n using Nat.strongRecOn generalizing a with
  | ind n ih =>
    obtain ⟨i, hi, -⟩ := h.exists_followed ha
    obtain ⟨heq, -, hnot⟩ | ⟨b, hgoes, -, htail, heq⟩ := straightRun_eq hl h (h.reached_iff.2 ha) hi
    · rw [heq]
      refine ⟨⟨[], rfl⟩, .singleton a, ?_⟩
      rintro x hx
      obtain rfl : a = x := by simpa using hx
      exact ⟨hnot, i, hi, rfl⟩
    · have hlt : (tailAt l b).length < n := by
        rw [← hn, htail, List.length_cons]
        exact Nat.lt_succ_self _
      obtain ⟨⟨rest, hhead⟩, hrun, hlast⟩ := ih _ hlt (ha.goes hgoes.goes) rfl
      rw [heq, hhead]
      rw [hhead] at hrun hlast
      exact ⟨⟨_, rfl⟩, List.isChain_cons_cons.2 ⟨hgoes, hrun⟩, by simpa using hlast⟩

end Blocks

section Recovered

variable {reached : Address → Prop} (hl : l.WellFormed) (h : Leads l f.entry L reached)
  (hf : Recovers l L f) (hstarts : ∀ a, a ∈ L ↔ Starts l f.entry a)

include hstarts in
theorem goesOn_iff : GoesOn l L a b ↔ Continues l f.entry a b := by
  unfold GoesOn Continues
  rw [hstarts]
  constructor
  · rintro ⟨i, hi, -, hends, hb, hnot⟩
    exact ⟨i, hi, hends, hb, hnot⟩
  · rintro ⟨i, hi, hends, hb, hnot⟩
    exact ⟨i, hi, Action.fallsThrough_of_not_endsBlock hends, hends, hb, hnot⟩

include hf in
theorem instructionsAt_eq (ha : a ∈ L) : f.instructionsAt a = (straightRun L (tailAt l a)).1 := by
  unfold Flow.instructionsAt
  rw [hf.block_eq a ha]
  rfl

include hf in
theorem mem_of_path {as : List Address} (hpath : f.Path as a) (hl : l.WellFormed)
    (h : Leads l f.entry L reached) : a ∈ L :=
  hf.leader a ((hf.connected hl h).ne_none_of_path hpath)

include hl h hf

/-- The block at a block start is the run from there. -/
theorem isRun_instructionsAt (ha : a ∈ L) :
    IsRun l L a (f.instructionsAt a) (straightRun L (tailAt l a)).2 := by
  rw [instructionsAt_eq hf ha]
  exact isRun_straightRun hl h (h.reached_iff.1 (h.leader a ha))

theorem mem_instructions_iff : x ∈ f.blocks.values.flatMap Block.instructions ↔ Reached l f.entry x := by
  have hmem : x ∈ f.blocks.values.flatMap Block.instructions ↔ ∃ a ∈ L, x ∈ f.instructionsAt a := by
    simp only [List.mem_flatMap, SortedMap.mem_values]
    constructor
    · rintro ⟨b, ⟨a, hb⟩, hx⟩
      have ha : a ∈ L := (hf.exists_of_block hb).1
      refine ⟨a, ha, ?_⟩
      unfold Flow.instructionsAt
      rw [Flow.block?, hb]
      exact hx
    · rintro ⟨a, ha, hx⟩
      rw [instructionsAt_eq hf ha] at hx
      exact ⟨_, ⟨a, hf.block_eq a ha⟩, hx⟩
  rw [hmem]
  constructor
  · rintro ⟨a, ha, hx⟩
    have hruns := (isRun_instructionsAt hl h hf ha).mem_iff.1 hx
    exact (h.reached_iff.1 (h.leader a ha)).trans (hruns.lift id fun _ _ hgoes => hgoes.goes)
  · intro hx
    obtain ⟨-, ⟨a, -, -, -, ha, hruns⟩, -⟩ := exists_path hl h hf hx
    exact ⟨a, ha, (isRun_instructionsAt hl h hf ha).mem_iff.2 hruns⟩

theorem nodup_instructions : (f.blocks.values.flatMap Block.instructions).Nodup := by
  have hrun : ∀ {a b}, f.blocks.find? a = some b → a ∈ L ∧ f.instructionsAt a = b.instructions := by
    intro a b hb
    refine ⟨(hf.exists_of_block hb).1, ?_⟩
    unfold Flow.instructionsAt
    rw [Flow.block?, hb]
  rw [List.nodup_flatMap]
  constructor
  · intro b hb
    obtain ⟨a, hb⟩ := SortedMap.mem_values.1 hb
    obtain ⟨ha, heq⟩ := hrun hb
    exact heq ▸ (isRun_instructionsAt hl h hf ha).nodup
  · refine List.pairwise_map.2 (f.blocks.increasing.imp_of_mem ?_)
    rintro ⟨a, b⟩ ⟨a', b'⟩ hab hab' hlt x hx hx'
    obtain ⟨ha, heq⟩ := hrun (SortedMap.find?_eq_some_of_mem_entries hab)
    obtain ⟨ha', heq'⟩ := hrun (SortedMap.find?_eq_some_of_mem_entries hab')
    have hruns := (isRun_instructionsAt hl h hf ha).mem_iff.1 (heq ▸ hx)
    have hruns' := (isRun_instructionsAt hl h hf ha').mem_iff.1 (heq' ▸ hx')
    obtain rfl := eq_of_runs ha ha' hruns hruns'
    simp at hlt

include hstarts in
theorem isBlock_of_block {b : Block} (hb : f.block? a = some b) : IsBlock l f.entry b := by
  obtain ⟨ha, rfl⟩ := hf.exists_of_block hb
  have hrun := isRun_instructionsAt hl h hf ha
  rw [instructionsAt_eq hf ha] at hrun
  refine ⟨(hstarts a).1 ha, ?_, ?_, ?_, ?_, ?_⟩
  · obtain ⟨rest, heq⟩ := hrun.head
    change (straightRun L (tailAt l a)).1.head? = some a
    rw [heq]
    rfl
  · exact hrun.run.imp fun _ _ hgoes => (goesOn_iff hstarts).1 hgoes
  · intro x hx y hcontinues
    exact (hrun.last x hx).1 y ((goesOn_iff hstarts).2 hcontinues)
  · intro x hx c
    obtain ⟨-, i, hi, heq⟩ := hrun.last x hx
    change c ∈ (straightRun L (tailAt l a)).2 ↔ _
    rw [heq, mem_successorsOf hi]
  · obtain ⟨rest, heq⟩ := hrun.head
    obtain ⟨x, hx⟩ : ∃ x, (straightRun L (tailAt l a)).1.getLast? = some x := by
      rw [heq]
      exact ⟨_, List.getLast?_cons⟩
    obtain ⟨-, i, -, heq⟩ := hrun.last x hx
    change (straightRun L (tailAt l a)).2.Nodup
    rw [heq]
    exact nodup_withTargets

/-- One more instruction is passed within a block, or at the start of the next one. -/
theorem splits_concat_iff {xs as begun : List Address} (hxs : xs ≠ []) :
    Splits f (xs ++ [y]) as a begun ↔
      (∃ begun', begun = begun' ++ [y] ∧ Splits f xs as a begun' ∧ ∃ x ∈ xs.getLast?, GoesOn l L x y) ∨
      ∃ as' a', as = as' ++ [a'] ∧ a = y ∧ begun = [y] ∧ Splits f xs as' a' (f.instructionsAt a') ∧
        ∃ x ∈ xs.getLast?, (∀ z, ¬ GoesOn l L x z) ∧ Goes l x y := by
  have hgetLast : ∀ {as begun : List Address}, begun ≠ [] →
      (as.flatMap f.instructionsAt ++ begun).getLast? = begun.getLast? := by
    intro as begun hne
    rw [List.getLast?_append_of_ne_nil _ hne]
  constructor
  · rintro ⟨hpath, hbegins, hne, heq⟩
    have ha := mem_of_path hf hpath hl h
    have hrun := isRun_instructionsAt hl h hf ha
    obtain ⟨begun, y', rfl⟩ := (List.eq_nil_or_concat' begun).resolve_left hne
    rw [← List.append_assoc] at heq
    obtain ⟨rfl, hy⟩ := List.append_inj' heq rfl
    obtain rfl : y = y' := by simpa using hy
    obtain ⟨post, hpost⟩ := hbegins
    by_cases hbegun : begun = []
    · subst hbegun
      obtain ⟨rest, hhead⟩ := hrun.head
      rw [hhead] at hpost
      obtain rfl : y = a := by simpa using (List.cons.inj hpost).1
      rw [List.append_nil] at hxs ⊢
      obtain ⟨as, a', rfl⟩ := (List.eq_nil_or_concat' as).resolve_left (by rintro rfl; simp at hxs)
      obtain ⟨hpath', b, hb, hy⟩ := Flow.path_concat_iff.1 hpath
      obtain ⟨ha', rfl⟩ := hf.exists_of_block hb
      have hrun' := isRun_instructionsAt hl h hf ha'
      obtain ⟨rest', hhead'⟩ := hrun'.head
      obtain ⟨x, hx⟩ : ∃ x, (f.instructionsAt a').getLast? = some x := by
        rw [hhead']
        exact ⟨_, List.getLast?_cons⟩
      obtain ⟨hnot, i, hi, hsuccessors⟩ := hrun'.last x hx
      have hy : y ∈ (straightRun L (tailAt l a')).2 := hy
      rw [hsuccessors, mem_successorsOf hi] at hy
      have hne' : f.instructionsAt a' ≠ [] := by simp [hhead']
      refine .inr ⟨as, a', rfl, rfl, rfl, ⟨hpath', List.prefix_rfl, hne', by simp⟩, x, ?_, hnot, hy⟩
      rw [List.flatMap_append, List.flatMap_singleton, hgetLast hne']
      exact hx
    · obtain ⟨begun, x, rfl⟩ := (List.eq_nil_or_concat' begun).resolve_left hbegun
      refine .inl ⟨_, rfl, ⟨hpath, ⟨[y] ++ post, by simpa using hpost⟩, by simp, rfl⟩, x, ?_, ?_⟩
      · rw [hgetLast (by simp)]
        simp
      · have hchain := hrun.run
        rw [← hpost] at hchain
        simp only [List.append_assoc, List.singleton_append] at hchain
        exact (List.isChain_append_cons_cons.1 hchain).2.1
  · rintro (⟨begun, rfl, ⟨hpath, ⟨post, hpost⟩, hne, rfl⟩, x, hx, hgoes⟩ |
      ⟨as, a', rfl, rfl, rfl, ⟨hpath, -, hne, rfl⟩, x, hx, -, hgoes⟩)
    · rw [hgetLast hne] at hx
      have hrun := isRun_instructionsAt hl h hf (mem_of_path hf hpath hl h)
      refine ⟨hpath, ?_, by simp, by simp⟩
      cases post with
      | nil =>
        rw [List.append_nil] at hpost
        exact absurd hgoes ((hrun.last x (hpost ▸ hx)).1 y)
      | cons z post =>
        obtain ⟨begun, rfl⟩ := List.getLast?_eq_some_iff.1 hx
        have hchain := hrun.run
        rw [← hpost] at hchain
        simp only [List.append_assoc, List.singleton_append] at hchain
        obtain rfl := ((List.isChain_append_cons_cons.1 hchain).2.1).eq_of_goes hgoes.goes
        exact ⟨post, by rw [← hpost]; simp⟩
    · rw [hgetLast hne] at hx
      have ha' := mem_of_path hf hpath hl h
      obtain ⟨-, i, hi, hsuccessors⟩ := (isRun_instructionsAt hl h hf ha').last x hx
      have hmem : a ∈ (straightRun L (tailAt l a')).2 := by
        rw [hsuccessors, mem_successorsOf hi]
        exact hgoes
      have hpath := hpath.step (hf.block_eq a' ha') hmem
      obtain ⟨rest, hhead⟩ := (isRun_instructionsAt hl h hf (mem_of_path hf hpath hl h)).head
      exact ⟨hpath, ⟨rest, by simp [hhead]⟩, by simp, by simp⟩

theorem splits_singleton_iff {as begun : List Address} :
    Splits f [y] as a begun ↔ as = [] ∧ a = f.entry ∧ begun = [f.entry] ∧ y = f.entry := by
  constructor
  · rintro ⟨hpath, ⟨post, hpost⟩, hne, heq⟩
    obtain rfl : as = [] := by
      rcases List.eq_nil_or_concat' as with rfl | ⟨as, a', rfl⟩
      · rfl
      · obtain ⟨hpath', -⟩ := Flow.path_concat_iff.1 hpath
        obtain ⟨rest, hhead⟩ := (isRun_instructionsAt hl h hf (mem_of_path hf hpath' hl h)).head
        have hlength := congrArg List.length heq
        have := List.length_pos_of_ne_nil hne
        simp [hhead] at hlength
        omega
    obtain rfl : a = f.entry := by
      generalize hnil : ([] : List Address) = as at hpath
      cases hpath with
      | entry => rfl
      | step => simp at hnil
    obtain ⟨rest, hhead⟩ := (isRun_instructionsAt hl h hf h.entry_mem).head
    obtain rfl : [y] = begun := by simpa using heq
    rw [hhead] at hpost
    obtain rfl : y = f.entry := (List.cons.inj hpost).1
    exact ⟨rfl, rfl, rfl, rfl⟩
  · rintro ⟨rfl, rfl, rfl, rfl⟩
    obtain ⟨rest, hhead⟩ := (isRun_instructionsAt hl h hf h.entry_mem).head
    exact ⟨.entry, ⟨rest, by simp [hhead]⟩, by simp, by simp⟩

theorem passes_iff (xs : List Address) :
    Passes l f.entry xs ↔ ∃ as a begun, Splits f xs as a begun := by
  induction xs using List.reverseRecOn with
  | nil =>
    refine iff_of_false (fun hpasses => by simp [Passes] at hpasses) ?_
    rintro ⟨as, a, begun, -, -, hne, heq⟩
    exact hne (List.append_eq_nil_iff.1 heq.symm).2
  | append_singleton xs y ih =>
    rcases eq_or_ne xs [] with rfl | hxs
    · simp [Passes, splits_singleton_iff hl h hf]
    have hhead : (xs ++ [y]).head? = xs.head? := List.head?_append_of_ne_nil _ hxs
    have hpasses : Passes l f.entry (xs ++ [y]) ↔
        Passes l f.entry xs ∧ ∃ x ∈ xs.getLast?, Goes l x y := by
      unfold Passes
      rw [hhead, List.isChain_append]
      obtain ⟨x, hx⟩ := Option.isSome_iff_exists.1 (List.getLast?_isSome.2 hxs)
      simp [hx, and_assoc]
    rw [hpasses, ih]
    constructor
    · rintro ⟨⟨as, a, begun, hsplits⟩, x, hx, hgoes⟩
      by_cases hon : ∃ z, GoesOn l L x z
      · obtain ⟨z, hon⟩ := hon
        obtain rfl := hon.eq_of_goes hgoes
        exact ⟨as, a, _, (splits_concat_iff hl h hf hxs).2 (.inl ⟨begun, rfl, hsplits, x, hx, hon⟩)⟩
      · have hnot := not_exists.1 hon
        have hwhole : begun = f.instructionsAt a := by
          obtain ⟨hpath, ⟨post, hpost⟩, hne, rfl⟩ := hsplits
          rw [List.getLast?_append_of_ne_nil _ hne] at hx
          obtain ⟨begun, rfl⟩ := List.getLast?_eq_some_iff.1 hx
          have hchain := (isRun_instructionsAt hl h hf (mem_of_path hf hpath hl h)).run
          cases post with
          | nil => simpa using hpost
          | cons z post =>
            rw [← hpost] at hchain
            simp only [List.append_assoc, List.singleton_append] at hchain
            exact absurd (List.isChain_append_cons_cons.1 hchain).2.1 (hnot z)
        exact ⟨_, y, [y], (splits_concat_iff hl h hf hxs).2
          (.inr ⟨as, a, rfl, rfl, rfl, hwhole ▸ hsplits, x, hx, hnot, hgoes⟩)⟩
    · rintro ⟨as, a, begun, hsplits⟩
      obtain ⟨begun, -, hsplits, x, hx, hgoes⟩ | ⟨as, a', -, -, -, hsplits, x, hx, -, hgoes⟩ :=
        (splits_concat_iff hl h hf hxs).1 hsplits
      · exact ⟨⟨_, _, _, hsplits⟩, x, hx, hgoes.goes⟩
      · exact ⟨⟨_, _, _, hsplits⟩, x, hx, hgoes⟩

theorem splits_unique {xs as as' begun begun' : List Address} {a' : Address}
    (hsplits : Splits f xs as a begun) (hsplits' : Splits f xs as' a' begun') :
    as = as' ∧ a = a' ∧ begun = begun' := by
  induction xs using List.reverseRecOn generalizing as a begun as' a' begun' with
  | nil => exact absurd (List.append_eq_nil_iff.1 hsplits.eq.symm).2 hsplits.ne_nil
  | append_singleton xs y ih =>
    rcases eq_or_ne xs [] with rfl | hxs
    · obtain ⟨rfl, rfl, rfl, -⟩ := (splits_singleton_iff hl h hf).1 hsplits
      obtain ⟨rfl, rfl, rfl, -⟩ := (splits_singleton_iff hl h hf).1 hsplits'
      exact ⟨rfl, rfl, rfl⟩
    obtain ⟨b, rfl, hb, x, hx, hgoes⟩ | ⟨bs, b, rfl, rfl, rfl, hb, x, hx, hnot, -⟩ :=
      (splits_concat_iff hl h hf hxs).1 hsplits <;>
    obtain ⟨b', rfl, hb', x', hx', hgoes'⟩ | ⟨bs', b', rfl, rfl, rfl, hb', x', hx', hnot', -⟩ :=
      (splits_concat_iff hl h hf hxs).1 hsplits'
    · obtain ⟨rfl, rfl, rfl⟩ := ih hb hb'
      exact ⟨rfl, rfl, rfl⟩
    · obtain rfl := Option.some.inj (hx.symm.trans hx')
      exact absurd hgoes (hnot' _)
    · obtain rfl := Option.some.inj (hx.symm.trans hx')
      exact absurd hgoes' (hnot _)
    · obtain ⟨rfl, rfl, -⟩ := ih hb hb'
      exact ⟨rfl, rfl, rfl⟩

include hstarts in
theorem hasBlocks : HasBlocks l f := by
  refine ⟨fun a b hb => ?_, fun a => ?_, fun a b hb => isBlock_of_block hl h hf hstarts hb,
    fun a b c hb hc => (hf.connected hl h).successor a b c hb hc, nodup_instructions hl h hf,
    fun x => mem_instructions_iff hl h hf, passes_iff hl h hf,
    fun _ _ _ _ _ _ _ hsplits hsplits' => splits_unique hl h hf hsplits hsplits'⟩
  · obtain ⟨-, rfl⟩ := hf.exists_of_block hb
    rfl
  · rw [← hstarts]
    exact ⟨hf.leader a, fun ha => by simp [hf.block_eq a ha]⟩

end Recovered

/-- Recovering the blocks of the function at an address fails exactly if control goes astray from there, and
    leaves no block then. Otherwise the flow has the blocks of the function. -/
theorem recover_exact {text : String} (hl : Listing.parse text = .ok l) (entry : Address) :
    (GoesAstray l entry ∧ ∃ a fault,
      (recover l).run (.empty entry) = .ok (.error (.controlFlow a fault), .empty entry)) ∨
    (¬ GoesAstray l entry ∧ ∃ f, (recover l).run (.empty entry) = .ok (.ok (), f) ∧ f.entry = entry ∧
      HasBlocks l f) := by
  have hl := Listing.wellFormed_of_parse hl
  obtain ⟨L, reached, heq, h, hstarts⟩ | ⟨hastray, a, fault, heq⟩ := extents_exact hl entry
  · obtain ⟨_, f, hrun, _, rfl, rfl, hf⟩ := recover_succeeds heq
    exact .inr ⟨h.not_goesAstray, f, hrun, rfl, hasBlocks hl h hf hstarts⟩
  · exact .inl ⟨hastray, a, fault, run_recover_of_error heq⟩

/-- A run that is branched into, by a loop, and a branch to the instruction that follows it anyway. -/
def branchesText : String :=
  "0: if eax goto 1\n1: ebx = 1\n2: ebx = ebx - 1\n3: if ebx goto 2\n4: return ebx\n5: ebx = 7"

/-- The loop is a block of its own, and what nothing leads to is in none. -/
theorem recover_exact_branches : ∃ l f, Listing.parse branchesText = .ok l ∧
    (recover l).run (.empty 0) = .ok (.ok (), f) ∧ f.entry = 0 ∧ HasBlocks l f ∧
      f.blocks.values.map Block.instructions = [[0], [1], [2, 3], [4]] ∧
      f.blocks.values.map Block.successors = [[1], [2], [4, 2], []] := by
  have hparse : (Listing.parse branchesText).toOption.isSome = true := by decide +kernel
  have hcheck : ∀ l ∈ (Listing.parse branchesText).toOption, ∃ r ∈ ((recover l).run (.empty 0)).toOption,
      r.1.isOk = true ∧ r.2.blocks.values.map Block.instructions = [[0], [1], [2, 3], [4]] ∧
      r.2.blocks.values.map Block.successors = [[1], [2], [4, 2], []] := by
    decide +kernel
  cases hl : Listing.parse branchesText with
  | error e =>
    rw [hl] at hparse
    cases hparse
  | ok l =>
    obtain ⟨r, hr, hok, hinstructions, hsuccessors⟩ := hcheck l (hl ▸ rfl)
    obtain ⟨-, a, fault, hrun⟩ | ⟨-, f, hrun, hentry, hf⟩ := recover_exact hl 0
    · rw [hrun] at hr
      cases hr
      cases hok
    · rw [hrun] at hr
      obtain rfl := Option.some.inj hr
      exact ⟨l, f, rfl, hrun, hentry, hf, hinstructions, hsuccessors⟩

end ControlFlow

end FrameRecovery
