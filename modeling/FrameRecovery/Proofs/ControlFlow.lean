import FrameRecovery.ControlFlow
import FrameRecovery.Proofs.Flow.Inserting
import FrameRecovery.Proofs.Listing

namespace FrameRecovery

theorem Action.endsBlock_of_mem_targets {a : Action} {b : Address} (h : b ∈ a.targets) :
    a.endsBlock = true := by
  cases a <;> simp_all [Action.targets, Action.endsBlock]

namespace ControlFlow

variable {l : Listing} {i : Instruction} {a entry : Address} {pending work : List Address}
  {leaders L : SortedSet Address}

/-- Control can come to an address from the entry, instruction by instruction. -/
inductive Reached (l : Listing) (entry : Address) : Address → Prop
  | entry : Reached l entry entry
  | next {a b : Address} {i : Instruction} (h : Reached l entry a) (hi : l.instruction? a = some i)
    (hfalls : i.action.fallsThrough = true) (hb : l.next? a = some b) : Reached l entry b
  | target {a b : Address} {i : Instruction} (h : Reached l entry a) (hi : l.instruction? a = some i)
    (hb : b ∈ i.action.targets) : Reached l entry b

/-- What is recorded about an instruction that was reached: where control goes from it is
    recorded, and blocks start there if it ends its block. -/
structure Followed (l : Listing) (leaders : SortedSet Address) (reached : Address → Prop)
    (a : Address) (i : Instruction) : Prop where
  targets : ∀ b ∈ i.action.targets, b ∈ leaders ∧ reached b ∧ (l.instruction? b).isSome = true
  falls : i.action.fallsThrough = true → ∃ b, l.next? a = some b ∧ reached b ∧
    (i.action.endsBlock = true → b ∈ leaders)

/-- The state of following control from the entry. -/
structure Following (l : Listing) (entry : Address) (pending : List Address)
    (leaders : SortedSet Address) (work : List Address) : Prop where
  nodup : pending.Nodup
  reached : ∀ a, a ∈ work ∨ a ∈ leaders → Reached l entry a
  leader : ∀ a ∈ leaders, a ∈ work ∨ ∃ i, l.instruction? a = some i ∧ a ∉ pending
  queued : ∀ a ∈ work, (l.instruction? a).isSome = true
  followed : ∀ a i, l.instruction? a = some i → a ∉ pending → Reached l entry a ∧
    Followed l leaders (fun b => b ∈ work ∨ (l.instruction? b).isSome = true ∧ b ∉ pending) a i

/-- The outcome of following control: the block starts, and everything that was reached. -/
structure Leads (l : Listing) (entry : Address) (leaders : SortedSet Address)
    (reached : Address → Prop) : Prop where
  entry_mem : entry ∈ leaders
  leader : ∀ a ∈ leaders, reached a
  followed : ∀ a, reached a → Reached l entry a ∧ ∃ i, l.instruction? a = some i ∧
    Followed l leaders reached a i

theorem mem_foldl_leaders {xs : List Address} : a ∈ xs.foldl SortedSet.insert leaders ↔
    a ∈ leaders ∨ a ∈ xs :=
  SortedSet.mem_foldl_insert xs leaders

theorem isSome_of_next (h : l.next? a = some b) : (l.instruction? b).isSome = true := by
  have hb := List.mem_of_find?_eq_some h
  obtain ⟨i, hi⟩ := SortedMap.mem_keys.1 hb
  simp [Listing.instruction?, hi]

theorem isSome_of_checkTargets {u : Unit} (h : checkTargets l i = .ok u) :
    ∀ b ∈ i.action.targets, (l.instruction? b).isSome = true := by
  unfold checkTargets at h
  generalize i.action.targets = targets at h
  induction targets with
  | nil => simp
  | cons b rest ih =>
    obtain ⟨v, hb, h⟩ := exists_of_except_bind h
    intro c hc
    rcases List.mem_cons.1 hc with rfl | hc
    · by_contra hne
      dsimp only at hb
      rw [if_neg hne] at hb
      cases hb
    · exact ih h c hc

private theorem fault_of_checkTargets {e : Error} (h : checkTargets l i = .error e) :
    ∃ a fault, e = .controlFlow a fault := by
  unfold checkTargets at h
  generalize i.action.targets = targets at h
  induction targets with
  | nil => cases h
  | cons b rest ih =>
    change ((if _ then _ else _ : Except Error Unit) >>= fun _ => rest.forM _) = _ at h
    split at h
    · exact ih h
    · cases h
      exact ⟨_, _, rfl⟩

private theorem fault_of_next? {e : Error} (h : next? l i = .error e) :
    ∃ a fault, e = .controlFlow a fault := by
  unfold next? at h
  split at h
  · split at h
    · cases h
    · cases h
      exact ⟨_, _, rfl⟩
  · cases h

theorem next_of_next? {next : Option Address} (haddress : i.address = a)
    (h : next? l i = .ok next) : (i.action.fallsThrough = true → ∃ b, next = some b) ∧
      ∀ b, next = some b → i.action.fallsThrough = true ∧ l.next? a = some b := by
  unfold next? at h
  split at h
  next hfalls =>
    split at h
    next b hb =>
      cases h
      refine ⟨fun _ => ⟨b, rfl⟩, ?_⟩
      rintro _ ⟨⟩
      exact ⟨hfalls, haddress ▸ hb⟩
    next => cases h
  next hfalls =>
    cases h
    exact ⟨fun h => absurd h hfalls, nofun⟩

theorem Followed.mono {reached reached' : Address → Prop} (h : Followed l leaders reached a i)
    (hleaders : ∀ b ∈ leaders, b ∈ L) (hreached : ∀ b, reached b → reached' b) :
    Followed l L reached' a i := by
  refine ⟨fun b hb => ?_, fun hfalls => ?_⟩
  · obtain ⟨hleader, hb', hsome⟩ := h.targets b hb
    exact ⟨hleaders b hleader, hreached b hb', hsome⟩
  · obtain ⟨b, hb, hb', hends⟩ := h.falls hfalls
    exact ⟨b, hb, hreached b hb', fun h => hleaders b (hends h)⟩

/-- Following control from an instruction. -/
private theorem Following.step (h : Following l entry pending leaders (a :: work)) (ha : a ∈ pending)
    (hi : l.instruction? a = some i) (haddress : i.address = a) {next : Option Address} {u : Unit}
    (hnext : next? l i = .ok next) (htargets : checkTargets l i = .ok u) :
    Following l entry (pending.erase a) ((leadersOf i next).foldl SortedSet.insert leaders)
      (next.toList ++ i.action.targets.reverse ++ work) := by
  obtain ⟨hfalls, hnext⟩ := next_of_next? haddress hnext
  have htargets := isSome_of_checkTargets htargets
  have hreached : Reached l entry a := h.reached a (.inl (by simp))
  have herase : ∀ {b}, b ∉ pending.erase a ↔ b ∉ pending ∨ b = a := by
    intro b
    rw [h.nodup.mem_erase_iff, not_and_or, not_not, or_comm]
  have hwork : ∀ {b}, b ∈ next.toList ++ i.action.targets.reverse ++ work ↔
      next = some b ∨ b ∈ i.action.targets ∨ b ∈ work := by
    intro b
    simp
  have hleaders : ∀ {b}, b ∈ (leadersOf i next).foldl SortedSet.insert leaders ↔
      b ∈ leaders ∨ b ∈ i.action.targets ∨ (i.action.endsBlock = true ∧ next = some b) := by
    intro b
    rw [mem_foldl_leaders, leadersOf, List.mem_append]
    split <;> simp_all
  have hold : ∀ {b}, b ∈ a :: work → b ∈ next.toList ++ i.action.targets.reverse ++ work ∨
      b = a := by
    intro b hb
    rcases List.mem_cons.1 hb with rfl | hb
    · exact .inr rfl
    · exact .inl (hwork.2 (.inr (.inr hb)))
  have hreachednext : ∀ b, next = some b → Reached l entry b := fun b hb =>
    .next hreached hi (hnext b hb).1 (hnext b hb).2
  refine ⟨h.nodup.erase a, fun b hb => ?_, fun b hb => ?_, fun b hb => ?_, fun b j hj hb => ?_⟩
  · rcases hb with hb | hb
    · rcases hwork.1 hb with hb | hb | hb
      · exact hreachednext b hb
      · exact .target hreached hi hb
      · exact h.reached b (.inl (by simp [hb]))
    · rcases hleaders.1 hb with hb | hb | ⟨-, hb⟩
      · exact h.reached b (.inr hb)
      · exact .target hreached hi hb
      · exact hreachednext b hb
  · rcases hleaders.1 hb with hb | hb | ⟨-, hb⟩
    · rcases h.leader b hb with hb | ⟨j, hj, hb⟩
      · rcases hold hb with hb | rfl
        · exact .inl hb
        · exact .inr ⟨i, hi, herase.2 (.inr rfl)⟩
      · exact .inr ⟨j, hj, herase.2 (.inl hb)⟩
    · exact .inl (hwork.2 (.inr (.inl hb)))
    · exact .inl (hwork.2 (.inl hb))
  · rcases hwork.1 hb with hb | hb | hb
    · exact isSome_of_next (hnext b hb).2
    · exact htargets b hb
    · exact h.queued b (by simp [hb])
  · rcases herase.1 hb with hb | rfl
    · obtain ⟨hreachedb, hfollowed⟩ := h.followed b j hj hb
      refine ⟨hreachedb, hfollowed.mono (fun c hc => hleaders.2 (.inl hc)) fun c hc => ?_⟩
      rcases hc with hc | ⟨hsome, hc⟩
      · rcases hold hc with hc | rfl
        · exact .inl hc
        · exact .inr ⟨by simp [hi], herase.2 (.inr rfl)⟩
      · exact .inr ⟨hsome, herase.2 (.inl hc)⟩
    · rw [hi] at hj
      cases hj
      refine ⟨hreached, fun c hc => ?_, fun hf => ?_⟩
      · exact ⟨hleaders.2 (.inr (.inl hc)), .inl (hwork.2 (.inr (.inl hc))), htargets c hc⟩
      · obtain ⟨c, hc⟩ := hfalls hf
        exact ⟨c, (hnext c hc).2, .inl (hwork.2 (.inl hc)), fun hends =>
          hleaders.2 (.inr (.inr ⟨hends, hc⟩))⟩

/-- Control is either followed to everything it comes to, or somewhere it cannot be followed. -/
theorem explore_spec (hl : l.WellFormed) (h : Following l entry pending leaders work)
    (hentry : entry ∈ leaders) :
    (∃ L, explore l pending leaders work = .ok L ∧ ∃ reached, Leads l entry L reached) ∨
      ∃ a fault, explore l pending leaders work = .error (.controlFlow a fault) := by
  induction pending, leaders, work using explore.induct l with
  | case1 pending leaders =>
    refine .inl ⟨leaders, by rw [explore], fun a => (l.instruction? a).isSome = true ∧ a ∉ pending,
      hentry, fun a ha => ?_, ?_⟩
    · obtain ⟨i, hi, ha⟩ := (h.leader a ha).resolve_left (List.not_mem_nil)
      exact ⟨by simp [hi], ha⟩
    · rintro a ⟨hsome, ha⟩
      obtain ⟨i, hi⟩ := Option.isSome_iff_exists.1 hsome
      obtain ⟨hreached, hfollowed⟩ := h.followed a i hi ha
      exact ⟨hreached, i, hi, hfollowed.mono (fun _ h => h) fun b hb => hb.resolve_left List.not_mem_nil⟩
  | case2 pending leaders a work ha hnone =>
    have hsome := h.queued a (by simp)
    simp [hnone] at hsome
  | case3 pending leaders a work ha i hi e htargets =>
    rw [explore, dif_pos ha, hi]
    simp only [htargets]
    obtain ⟨b, fault, rfl⟩ := fault_of_checkTargets htargets
    exact .inr ⟨b, fault, rfl⟩
  | case4 pending leaders a work ha i hi u e hnext htargets =>
    rw [explore, dif_pos ha, hi]
    simp only [htargets, hnext]
    obtain ⟨b, fault, rfl⟩ := fault_of_next? hnext
    exact .inr ⟨b, fault, rfl⟩
  | case5 pending leaders a work ha i hi u next hnext htargets _ _ _ _ ih =>
    rw [explore, dif_pos ha, hi]
    simp only [htargets, hnext]
    refine ih (h.step ha hi (hl.address_eq a i hi) hnext htargets) ?_
    exact mem_foldl_leaders.2 (.inl hentry)
  | case6 pending leaders a work ha ih =>
    rw [explore, dif_neg ha]
    have hsome := h.queued a (by simp)
    obtain ⟨i, hi⟩ := Option.isSome_iff_exists.1 hsome
    refine ih ⟨h.nodup, fun b hb => h.reached b (hb.imp_left (List.mem_cons_of_mem _)),
      fun b hb => ?_, fun b hb => h.queued b (by simp [hb]), fun b j hj hb => ?_⟩ hentry
    · rcases h.leader b hb with hb | hb
      · rcases List.mem_cons.1 hb with rfl | hb
        · exact .inr ⟨i, hi, ha⟩
        · exact .inl hb
      · exact .inr hb
    · obtain ⟨hreached, hfollowed⟩ := h.followed b j hj hb
      refine ⟨hreached, hfollowed.mono (fun _ h => h) fun c hc => ?_⟩
      rcases hc with hc | hc
      · rcases List.mem_cons.1 hc with rfl | hc
        · exact .inr ⟨hsome, ha⟩
        · exact .inl hc
      · exact .inr hc

/-- The instructions from an address on. -/
def tailAt (l : Listing) (a : Address) : List Instruction :=
  l.instructions.values.dropWhile fun i => decide (i.address < a)

/-- The instructions from an address on are the one there and those from the next one on. -/
theorem tailAt_eq (hl : l.WellFormed) (hi : l.instruction? a = some i) :
    ∃ rest, tailAt l a = i :: rest ∧ rest.head?.map Instruction.address = l.next? a ∧
      ∀ b, l.next? a = some b → rest = tailAt l b := by
  have haddress := hl.address_eq a i hi
  have hkeys : l.instructions.keys = l.instructions.values.map Instruction.address := by
    unfold SortedMap.keys SortedMap.values
    rw [List.map_map]
    refine List.map_congr_left fun e he => ?_
    exact (hl.address_eq e.1 e.2 (SortedMap.find?_eq_some_of_mem_entries he)).symm
  have hsorted : l.instructions.values.Pairwise fun i j => i.address < j.address := by
    have hpairwise : l.instructions.keys.Pairwise (· < ·) :=
      List.pairwise_map.2 (l.instructions.increasing.imp fun h => Std.compare_eq_lt.1 h)
    rw [hkeys] at hpairwise
    exact List.pairwise_map.1 hpairwise
  obtain ⟨pre, rest, hvalues⟩ := List.append_of_mem (SortedMap.mem_values.2 ⟨a, hi⟩)
  rw [hvalues, List.pairwise_append, List.pairwise_cons] at hsorted
  obtain ⟨-, ⟨hrest, -⟩, hpre⟩ := hsorted
  have hdrop : ∀ {b : Address}, (∀ j ∈ pre, j.address < b) →
      tailAt l b = (i :: rest).dropWhile fun j => decide (j.address < b) := by
    intro b hb
    rw [tailAt, hvalues, List.dropWhile_append_of_pos fun j hj => decide_eq_true (hb j hj)]
  have hbefore : ∀ j ∈ pre, j.address < a := fun j hj => haddress ▸ hpre j hj i (by simp)
  have hnext : rest.head?.map Instruction.address = l.next? a := by
    have hnot : ∀ b ∈ pre.map Instruction.address, ¬ decide (a < b) = true := by
      intro b hb
      obtain ⟨j, hj, rfl⟩ := List.mem_map.1 hb
      simpa using UInt64.le_of_lt (hbefore j hj)
    have hnone : (pre.map Instruction.address).find? (fun b => decide (a < b)) = none :=
      List.find?_eq_none.2 hnot
    rw [Listing.next?, hkeys, hvalues, List.map_append, List.find?_append, hnone, List.map_cons,
      haddress, List.find?_cons_of_neg (by simp)]
    cases rest with
    | nil => rfl
    | cons j rest =>
      have hj : a < j.address := haddress ▸ hrest j (by simp)
      simp [hj]
  refine ⟨rest, ?_, hnext, fun b hb => ?_⟩
  · rw [hdrop hbefore, List.dropWhile_cons_of_neg (by simp [haddress])]
  · rw [← hnext] at hb
    obtain ⟨j, hj, rfl⟩ := Option.map_eq_some_iff.1 hb
    obtain ⟨rest', rfl⟩ : ∃ rest', rest = j :: rest' := by
      cases rest with
      | nil => cases hj
      | cons j' rest' =>
        cases hj
        exact ⟨rest', rfl⟩
    have hij := hrest j (by simp)
    rw [hdrop fun j' hj' => hpre j' hj' j (by simp), List.dropWhile_cons_of_pos (by simpa using hij),
      List.dropWhile_cons_of_neg (by simp)]

theorem extentAt_eq : extentAt l L a =
    ⟨a, (straightRun L (tailAt l a)).1, (straightRun L (tailAt l a)).2⟩ := rfl

/-- A block goes on from an instruction to the next one. -/
def GoesOn (l : Listing) (L : SortedSet Address) (a b : Address) : Prop :=
  ∃ i, l.instruction? a = some i ∧ i.action.fallsThrough = true ∧ i.action.endsBlock = false ∧
    l.next? a = some b ∧ b ∉ L

/-- Where control goes from an instruction that is the last one of its block. -/
def successorsOf (l : Listing) (i : Instruction) (a : Address) : List Address :=
  withTargets (if i.action.fallsThrough then l.next? a else none) i.action.targets

theorem mem_withTargets {next : Option Address} {targets : List Address} {b : Address} :
    b ∈ withTargets next targets ↔ next = some b ∨ b ∈ targets := by
  have hfold : ∀ ss : List Address, b ∈ targets.foldl (fun ss t =>
      if ss.contains t then ss else ss ++ [t]) ss ↔ b ∈ ss ∨ b ∈ targets := by
    induction targets with
    | nil => simp
    | cons t rest ih =>
      intro ss
      rw [List.foldl_cons, ih]
      split <;> simp_all [or_assoc]
      grind
  unfold withTargets
  rw [hfold]
  simp

section Blocks

variable {reached : Address → Prop} (hl : l.WellFormed) (h : Leads l entry L reached)
include hl h

/-- A block ends at an instruction, or it goes on with the next one. -/
theorem straightRun_eq (ha : reached a) (hi : l.instruction? a = some i) :
    (straightRun L (tailAt l a) = ([a], successorsOf l i a) ∧
      (∀ b, i.action.fallsThrough = true → l.next? a = some b → b ∈ L) ∧ ∀ b, ¬ GoesOn l L a b) ∨
    ∃ b, GoesOn l L a b ∧ reached b ∧ tailAt l a = i :: tailAt l b ∧ straightRun L (tailAt l a) =
      (a :: (straightRun L (tailAt l b)).1, (straightRun L (tailAt l b)).2) := by
  obtain ⟨rest, htail, hhead, hrest⟩ := tailAt_eq hl hi
  obtain ⟨-, i', hi', hfollowed⟩ := h.followed a ha
  obtain rfl : i = i' := Option.some.inj (hi.symm.trans hi')
  obtain ⟨next, hnext⟩ : ∃ next, next = if i.action.fallsThrough then l.next? a else none :=
    ⟨_, rfl⟩
  rw [htail, straightRun]
  simp only [hhead, hl.address_eq a i hi, ← hnext]
  by_cases hends : (i.action.endsBlock || next.all L.contains) = true
  · rw [if_pos hends, hnext]
    refine .inl ⟨rfl, fun b hfalls hb => ?_, ?_⟩
    · obtain ⟨b', hb', -, hleader⟩ := hfollowed.falls hfalls
      obtain rfl : b = b' := Option.some.inj (hb.symm.trans hb')
      rw [hnext, if_pos hfalls, hb] at hends
      rcases Bool.or_eq_true_iff.1 hends with hends | hends
      · exact hleader hends
      · exact SortedSet.contains_eq_true.1 hends
    · rintro b ⟨i', hi', hfalls, hnot, hb, hleader⟩
      obtain rfl : i = i' := Option.some.inj (hi.symm.trans hi')
      rw [hnext, if_pos hfalls, hb, hnot] at hends
      exact hleader (SortedSet.contains_eq_true.1 hends)
  · rw [if_neg hends]
    obtain ⟨hnot, hall⟩ := not_or.1 (fun h => hends (Bool.or_eq_true_iff.2 h))
    have hfalls : i.action.fallsThrough = true := by
      by_contra hfalls
      exact hall (by rw [hnext, if_neg hfalls]; rfl)
    obtain ⟨b, hb, hreached, -⟩ := hfollowed.falls hfalls
    rw [hnext, if_pos hfalls, hb] at hall
    have hleader : b ∉ L := fun hmem => hall (SortedSet.contains_eq_true.2 hmem)
    rw [hrest b hb]
    exact .inr ⟨b, ⟨i, hi, hfalls, by simpa using hnot, hb, hleader⟩, hreached, rfl, rfl⟩

/-- A block is a way of going on from instruction to instruction, and what the last one of them
    is followed by are block starts. -/
theorem straightRun_spec (ha : reached a) :
    (∀ x ∈ (straightRun L (tailAt l a)).1, (l.instruction? x).isSome = true) ∧
      ∀ c ∈ (straightRun L (tailAt l a)).2, c ∈ L := by
  obtain ⟨n, hn⟩ : ∃ n, (tailAt l a).length = n := ⟨_, rfl⟩
  induction n generalizing a with
  | zero =>
    obtain ⟨-, i, hi, -⟩ := h.followed a ha
    obtain ⟨rest, htail, -⟩ := tailAt_eq hl hi
    simp [htail] at hn
  | succ n ih =>
    obtain ⟨-, i, hi, hfollowed⟩ := h.followed a ha
    rcases straightRun_eq hl h ha hi with ⟨heq, hleader, -⟩ | ⟨b, -, hb, htail, heq⟩
    · rw [heq]
      refine ⟨fun x hx => ?_, fun c hc => ?_⟩
      · rw [List.mem_singleton.1 hx, hi]
        rfl
      · rcases mem_withTargets.1 hc with hc | hc
        · by_cases hfalls : i.action.fallsThrough = true
          · rw [if_pos hfalls] at hc
            exact hleader c hfalls hc
          · rw [if_neg hfalls] at hc
            cases hc
        · exact (hfollowed.targets c hc).1
    · rw [heq]
      rw [htail, List.length_cons, Nat.succ_inj] at hn
      obtain ⟨hinstructions, hsuccessors⟩ := ih hb hn
      refine ⟨fun x hx => ?_, hsuccessors⟩
      rcases List.mem_cons.1 hx with rfl | hx
      · rw [hi]
        rfl
      · exact hinstructions x hx

theorem successors_eq_of_runs (ha : reached a) (hruns : Relation.ReflTransGen (GoesOn l L) a b) :
    reached b ∧ (straightRun L (tailAt l a)).2 = (straightRun L (tailAt l b)).2 := by
  induction hruns with
  | refl => exact ⟨ha, rfl⟩
  | tail _ hgoes ih =>
    obtain ⟨hb, heq⟩ := ih
    obtain ⟨i, hi, -, -, hnext, -⟩ := id hgoes
    rcases straightRun_eq hl h hb hi with ⟨-, -, hnot⟩ | ⟨c, ⟨-, -, -, -, hc, -⟩, hreached, -, hrun⟩
    · exact absurd hgoes (hnot _)
    · obtain rfl := Option.some.inj (hnext.symm.trans hc)
      exact ⟨hreached, heq.trans (by rw [hrun])⟩

/-- Where control goes from an instruction that is the last one of its block. -/
theorem mem_successors (ha : reached a) (hi : l.instruction? a = some i) (hb : b ∈ L)
    (hgoes : b ∈ i.action.targets ∨ i.action.fallsThrough = true ∧ l.next? a = some b) :
    b ∈ (straightRun L (tailAt l a)).2 := by
  rcases straightRun_eq hl h ha hi with ⟨heq, -⟩ | ⟨c, ⟨j, hj, -, hends, hc, hleader⟩, -⟩
  · rw [heq]
    refine mem_withTargets.2 ?_
    rcases hgoes with hgoes | ⟨hfalls, hnext⟩
    · exact .inr hgoes
    · rw [if_pos hfalls]
      exact .inl hnext
  · obtain rfl := Option.some.inj (hi.symm.trans hj)
    rcases hgoes with hgoes | ⟨-, hnext⟩
    · rw [Action.endsBlock_of_mem_targets hgoes] at hends
      cases hends
    · obtain rfl := Option.some.inj (hnext.symm.trans hc)
      exact absurd hb hleader

end Blocks

/-- The block that starts at an address, before it has statements. -/
def blockAt (l : Listing) (L : SortedSet Address) (a : Address) : Block :=
  ⟨a, (straightRun L (tailAt l a)).1, [], (straightRun L (tailAt l a)).2⟩

/-- The flow of the blocks of a function has the block starts for its blocks, and no statements. -/
structure Recovers (l : Listing) (L : SortedSet Address) (f : Flow) : Prop where
  nodes_eq : f.nodes = #[]
  statements_eq : f.statements = #[]
  block_eq : ∀ a ∈ L, f.block? a = some (blockAt l L a)
  leader : ∀ a, f.block? a ≠ none → a ∈ L

theorem Recovers.exists_of_block {f : Flow} {b : Block} (h : Recovers l L f)
    (hb : f.block? a = some b) : a ∈ L ∧ b = blockAt l L a := by
  have ha : a ∈ L := h.leader a (by simp [hb])
  exact ⟨ha, Option.some.inj (hb.symm.trans (h.block_eq a ha))⟩

private theorem addBlocks_gives {f : Flow} (hnodes : f.nodes = #[]) (hstatements : f.statements = #[])
    (hblocks : ∀ a, f.block? a = none) :
    Succeeds ((L.elements.map (extentAt l L)).forM fun e =>
      (Edit.addBlock e.start e.instructions e.successors : Pass Unit)) f
      fun _ g => g.entry = f.entry ∧ Recovers l L g := by
  refine (Succeeds.of_forM (I := fun es g => g.entry = f.entry ∧ g.nodes = #[] ∧ g.statements = #[] ∧
    ∃ as : List Address, es = as.map (extentAt l L) ∧ as.Nodup ∧ (∀ a ∈ as, a ∈ L) ∧
      (∀ a ∈ L, a ∉ as → g.block? a = some (blockAt l L a)) ∧
      ∀ a, g.block? a ≠ none → a ∈ L ∧ a ∉ as) ?_ _ ?_).mono ?_
  · rintro e rest g ⟨hentry, hnodes, hstatements, as, has, hnodup, hmem, hsome, hleader⟩
    obtain ⟨a, as, rfl, rfl, rfl⟩ := List.map_eq_cons_iff.1 has.symm
    rw [List.nodup_cons] at hnodup
    have hnone : g.block? a = none := by
      by_contra hne
      exact (hleader a hne).2 (by simp)
    refine .of_lift ((Edit.addBlock_gives hnone).mono ?_)
    rintro _ _ rfl
    refine ⟨hentry, hnodes, hstatements, as, rfl, hnodup.2, fun c hc => hmem c (by simp [hc]),
      fun c hc hnot => ?_, fun c hne => ?_⟩
    · by_cases hca : c = a
      · subst hca
        simp [Flow.block?, extentAt_eq, blockAt]
      · rw [Flow.block?, SortedMap.find?_insert_of_ne hca]
        exact hsome c hc (by simp [hca, hnot])
    · by_cases hca : c = a
      · subst hca
        exact ⟨hmem c (by simp), hnodup.1⟩
      · rw [Flow.block?, SortedMap.find?_insert_of_ne hca] at hne
        obtain ⟨hc, hnot⟩ := hleader c hne
        exact ⟨hc, fun h => hnot (by simp [h])⟩
  · refine ⟨rfl, hnodes, hstatements, L.elements, rfl, L.nodup_elements, fun _ h => h,
      fun a ha hnot => absurd ha hnot, fun a hne => absurd (hblocks a) hne⟩
  · rintro _ g ⟨hentry, hnodes, hstatements, as, has, -, -, hsome, hleader⟩
    obtain rfl := List.map_eq_nil_iff.1 has.symm
    exact ⟨hentry, hnodes, hstatements, fun a ha => hsome a ha (by simp), fun a hne => (hleader a hne).1⟩

section Graph

variable {f : Flow} {reached : Address → Prop} (hl : l.WellFormed) (h : Leads l f.entry L reached)
  (hf : Recovers l L f)
include hl h hf

/-- Control comes to an instruction by way of the blocks. -/
theorem exists_path (ha : Reached l f.entry a) :
    reached a ∧ (∃ s as, f.Path as s ∧ reached s ∧ s ∈ L ∧ Relation.ReflTransGen (GoesOn l L) s a) ∧
      (a ∈ L → ∃ as, f.Path as a) := by
  have hstep : ∀ {a b i}, l.instruction? a = some i → reached a →
      (∃ s as, f.Path as s ∧ reached s ∧ s ∈ L ∧ Relation.ReflTransGen (GoesOn l L) s a) → b ∈ L →
      (b ∈ i.action.targets ∨ i.action.fallsThrough = true ∧ l.next? a = some b) →
      ∃ as, f.Path as b := by
    rintro a b i hi ha ⟨s, as, hpath, hs, hleader, hruns⟩ hb hgoes
    refine ⟨as ++ [s], hpath.step (hf.block_eq s hleader) ?_⟩
    change b ∈ (straightRun L (tailAt l s)).2
    rw [(successors_eq_of_runs hl h hs hruns).2]
    exact mem_successors hl h ha hi hb hgoes
  induction ha with
  | entry =>
    have hentry := h.leader _ h.entry_mem
    exact ⟨hentry, ⟨_, [], .entry, hentry, h.entry_mem, .refl⟩, fun _ => ⟨[], .entry⟩⟩
  | @next a b i _ hi hfalls hnext ih =>
    obtain ⟨ha, hruns, -⟩ := ih
    obtain ⟨-, j, hj, hfollowed⟩ := h.followed a ha
    obtain rfl := Option.some.inj (hi.symm.trans hj)
    obtain ⟨c, hc, hb, hends⟩ := hfollowed.falls hfalls
    obtain rfl := Option.some.inj (hnext.symm.trans hc)
    have hpath : b ∈ L → ∃ as, f.Path as b := fun hleader =>
      hstep hi ha hruns hleader (.inr ⟨hfalls, hnext⟩)
    refine ⟨hb, ?_, hpath⟩
    by_cases hleader : b ∈ L
    · obtain ⟨as, has⟩ := hpath hleader
      exact ⟨b, as, has, hb, hleader, .refl⟩
    · obtain ⟨s, as, has, hs, hmem, hruns⟩ := hruns
      refine ⟨s, as, has, hs, hmem, hruns.tail ⟨i, hi, hfalls, ?_, hnext, hleader⟩⟩
      exact Bool.eq_false_iff.2 fun h => hleader (hends h)
  | @target a b i _ hi hb ih =>
    obtain ⟨ha, hruns, -⟩ := ih
    obtain ⟨-, j, hj, hfollowed⟩ := h.followed a ha
    obtain rfl := Option.some.inj (hi.symm.trans hj)
    obtain ⟨hleader, hreached, -⟩ := hfollowed.targets b hb
    obtain ⟨as, has⟩ := hstep hi ha hruns hleader (.inl hb)
    exact ⟨hreached, ⟨b, as, has, hreached, hleader, .refl⟩, fun _ => ⟨as, has⟩⟩

theorem Recovers.connected : f.Connected := by
  have hblock : ∀ {a}, a ∈ L → f.block? a ≠ none := fun ha => by simp [hf.block_eq _ ha]
  refine ⟨hblock h.entry_mem, fun a b c hb hc => ?_, fun a ha => ?_⟩
  · obtain ⟨ha, rfl⟩ := hf.exists_of_block hb
    exact hblock ((straightRun_spec hl h (h.leader a ha)).2 c hc)
  · have ha := hf.leader a ha
    exact (exists_path hl h hf (h.followed a (h.leader a ha)).1).2.2 ha

end Graph

/-- A flow with the blocks of a function, and no statements. -/
structure Recovered (l : Listing) (f : Flow) : Prop where
  nodes_eq : f.nodes = #[]
  statements_eq : f.statements = #[]
  connected : f.Connected
  address_eq : ∀ a b, f.block? a = some b → b.address = a
  block_statements : ∀ a b, f.block? a = some b → b.statements = []
  instruction : ∀ a b, f.block? a = some b → ∀ x ∈ b.instructions, (l.instruction? x).isSome = true

/-- Control is followed to all blocks, or somewhere it cannot be followed. -/
theorem extents_spec (hl : l.WellFormed) (entry : Address) :
    (∃ L reached, (l.instruction? entry).isSome = true ∧
      explore l l.instructions.keys (.singleton entry) [entry] = .ok L ∧
      extents l entry = .ok (L.elements.map (extentAt l L)) ∧ Leads l entry L reached) ∨
    ∃ a fault, extents l entry = .error (.controlFlow a fault) := by
  unfold extents
  split
  next hsome =>
    have hfollowing : Following l entry l.instructions.keys (.singleton entry) [entry] := by
      refine ⟨SortedMap.nodup_keys _, ?_, ?_, ?_, fun a i hi ha => ?_⟩
      · intro a ha
        obtain rfl : a = entry := by simpa using ha
        exact .entry
      · intro a ha
        exact .inl (by simpa using ha)
      · intro a ha
        rw [List.mem_singleton.1 ha]
        exact hsome
      · exact absurd (SortedMap.mem_keys.2 ⟨i, hi⟩) ha
    rcases explore_spec hl hfollowing (by simp) with ⟨L, hL, reached, h⟩ | ⟨a, fault, h⟩
    · exact .inl ⟨L, reached, hsome, hL, by rw [hL]; rfl, h⟩
    · exact .inr ⟨a, fault, by rw [h]; rfl⟩
  next => exact .inr ⟨_, _, rfl⟩

/-- The blocks that were found are added to the flow. -/
theorem recover_succeeds (h : extents l entry = .ok (L.elements.map (extentAt l L))) :
    Succeeds (recover l) (.empty entry) fun _ f => f.entry = entry ∧ Recovers l L f := by
  refine .of_bind (.of_get ?_)
  simp only [Flow.empty, h]
  exact addBlocks_gives rfl rfl fun _ => rfl

/-- If the blocks cannot be found, none is added. -/
theorem run_recover_of_error {e : Error} (h : extents l entry = .error e) :
    (recover l).run (.empty entry) = .ok (.error e, .empty entry) := by
  have hget : ∀ k : Flow → Pass Unit,
      ExceptT.run (get >>= k) (.empty entry) = ExceptT.run (k (.empty entry)) (.empty entry) := fun _ => rfl
  rw [recover, hget]
  simp only [Flow.empty, h]
  rfl

/-- The blocks of a function are recovered, unless its control cannot be followed. -/
theorem recover_gives (hl : l.WellFormed) (entry : Address) :
    Gives (recover l).run (.empty entry) fun r f =>
      (r = .ok () ∧ f.entry = entry ∧ Recovered l f) ∨
        ∃ a fault, r = .error (.controlFlow a fault) := by
  rcases extents_spec hl entry with ⟨L, reached, -, -, heq, h⟩ | ⟨a, fault, heq⟩
  · refine Gives.mono (recover_succeeds heq) ?_
    rintro _ f ⟨u, rfl, rfl, hf⟩
    refine .inl ⟨rfl, rfl, hf.nodes_eq, hf.statements_eq, hf.connected hl h, fun a b hb => ?_,
      fun a b hb => ?_, fun a b hb => ?_⟩
    all_goals obtain ⟨ha, rfl⟩ := hf.exists_of_block hb
    · rfl
    · rfl
    · exact (straightRun_spec hl h (h.leader a ha)).1
  · exact ⟨.error (.controlFlow a fault), .empty entry, run_recover_of_error heq, .inr ⟨a, fault, rfl⟩⟩

end ControlFlow

end FrameRecovery
