import FrameRecovery.Proofs.Worklist

namespace FrameRecovery

namespace Summary

variable {s : Summary} {l : Location} {p : Point} {b : BlockSummary} {bs : List BlockSummary}

/-- The blocks that control can pass, in order, before it comes to a block. -/
inductive Path (s : Summary) : List BlockSummary → BlockSummary → Prop
  | start {b : BlockSummary} (hb : b ∈ s.blocks) (hstart : s.isStart b = true) : s.Path [] b
  | step {bs : List BlockSummary} {b c : BlockSummary} (h : s.Path bs b) (hc : c ∈ s.blocks)
    (hpred : b.address ∈ c.predecessors) : s.Path (bs ++ [b]) c

/-- Control can come to every block. -/
structure Connected (s : Summary) : Prop extends s.Lawful where
  path : ∀ b ∈ s.blocks, ∃ bs, s.Path bs b

theorem Path.mem (h : s.Path bs b) : b ∈ s.blocks ∧ ∀ c ∈ bs, c ∈ s.blocks := by
  induction h with
  | start hb => exact ⟨hb, by simp⟩
  | step h hc hpred ih =>
    refine ⟨hc, fun c hc => ?_⟩
    rcases List.mem_append.1 hc with hc | hc
    · exact ih.2 c hc
    · exact List.mem_singleton.1 hc ▸ ih.1

theorem Leaves.exists_path (hs : s.Connected) (h : s.Leaves l p b) : ∃ bs, s.Path bs b ∧
    Tagging.definitionAt p = Definition.lastSite? l ((bs ++ [b]).flatMap BlockSummary.definitions) := by
  simp only [List.flatMap_append, List.flatMap_singleton, Definition.lastSite?_append]
  induction h with
  | assigned hb hlast =>
    obtain ⟨bs, hbs⟩ := hs.path _ hb
    exact ⟨bs, hbs, by simp [Tagging.definitionAt, hlast]⟩
  | entered hb hstart _ hnone => exact ⟨[], .start hb hstart, by simp [Tagging.definitionAt, hnone]⟩
  | passed _ hb hpred hnone ih =>
    obtain ⟨bs, hbs, hlast⟩ := ih
    refine ⟨_, .step hbs hb hpred, ?_⟩
    rw [hnone, Option.none_or, hlast, List.flatMap_append, Definition.lastSite?_append,
      List.flatMap_singleton]

theorem Arrives.exists_path (hs : s.Connected) (hb : b ∈ s.blocks) (h : s.Arrives l p b) :
    ∃ bs, s.Path bs b ∧
      Tagging.definitionAt p = Definition.lastSite? l (bs.flatMap BlockSummary.definitions) := by
  rcases h with ⟨hstart, -, rfl⟩ | ⟨c, hc, hpred⟩
  · exact ⟨[], .start hb hstart, rfl⟩
  · obtain ⟨bs, hbs, hlast⟩ := hc.exists_path hs
    exact ⟨_, .step hbs hb hpred, hlast⟩

theorem Path.arrives (hl : l ∈ s.locations) (h : s.Path bs b)
    (hp : Tagging.definitionAt p = Definition.lastSite? l (bs.flatMap BlockSummary.definitions)) :
    s.Arrives l p b := by
  induction h generalizing p with
  | start hb hstart =>
    refine .inl ⟨hstart, hl, ?_⟩
    cases p <;> simp_all [Tagging.definitionAt]
  | @step bs b c h hc hpred ih =>
    refine .inr ⟨b, (leaves_iff h.mem.1).2 ?_, hpred⟩
    simp only [List.flatMap_append, List.flatMap_singleton, Definition.lastSite?_append] at hp
    cases hlast : Definition.lastSite? l b.definitions with
    | some x =>
      rw [hlast, Option.some_or] at hp
      cases p <;> simp_all [Tagging.definitionAt]
    | none =>
      rw [hlast, Option.none_or] at hp
      exact ih hp

/-- The analysis finds exactly the definitions that are the last ones on some path. -/
theorem brings_reachIn (hs : s.Connected) (hb : b ∈ s.blocks) :
    (s.reachIn s.reachOut b).Brings l p ↔ ∃ bs, s.Path bs b ∧
      Tagging.definitionAt p = Definition.lastSite? l (bs.flatMap BlockSummary.definitions) := by
  unfold Reach.Brings
  simp only [hs.has_reachIn_iff hb]
  by_cases hl : l ∈ s.locations
  · constructor
    · rintro (h | ⟨hnot, -⟩)
      · exact h.exists_path hs hb
      · obtain ⟨bs, hbs⟩ := hs.path b hb
        cases hlast : Definition.lastSite? l (bs.flatMap BlockSummary.definitions) with
        | none => exact absurd (hbs.arrives (p := .entry) hl hlast.symm) (hnot _)
        | some x => exact absurd (hbs.arrives (p := .definition x) hl hlast.symm) (hnot _)
    · rintro ⟨bs, hbs, hp⟩
      exact .inl (hbs.arrives hl hp)
  · have hnone : ∀ {bs}, s.Path bs b →
        Definition.lastSite? l (bs.flatMap BlockSummary.definitions) = none := by
      intro bs hbs
      refine Option.eq_none_iff_forall_ne_some.2 fun x hx => hl ?_
      obtain ⟨d, hd, rfl, -⟩ := Definition.exists_of_lastSite? hx
      obtain ⟨c, hc, hd⟩ := List.mem_flatMap.1 hd
      exact hs.located c (hbs.mem.2 c hc) d hd
    constructor
    · rintro (h | ⟨-, rfl⟩)
      · exact absurd (hs.mem_of_arrives h) hl
      · obtain ⟨bs, hbs⟩ := hs.path b hb
        exact ⟨bs, hbs, (hnone hbs).symm⟩
    · rintro ⟨bs, hbs, hp⟩
      rw [hnone hbs] at hp
      refine .inr ⟨fun q hq => hl (hs.mem_of_arrives hq), ?_⟩
      cases p <;> simp_all [Tagging.definitionAt]

end Summary

end FrameRecovery
