import FrameRecovery.Proofs.Flow.Coherent

namespace FrameRecovery

namespace Flow

variable {f g : Flow} {a : Address} {as : List Address}

/-- The blocks that control can pass, in order, on its way from the entry of the function to the
    start of a block. -/
inductive Path (f : Flow) : List Address → Address → Prop
  | entry : f.Path [] f.entry
  | step {as : List Address} {a c : Address} {b : Block} (h : f.Path as a)
    (hb : f.block? a = some b) (hc : c ∈ b.successors) : f.Path (as ++ [a]) c

/-- The edges of the block graph lead to blocks, and to every block there is a way from the
    entry. -/
structure Connected (f : Flow) : Prop where
  entry : f.block? f.entry ≠ none
  successor : ∀ a b c, f.block? a = some b → c ∈ b.successors → f.block? c ≠ none
  path : ∀ a, f.block? a ≠ none → ∃ as, f.Path as a

/-- The same blocks with the same edges, whatever the statements in them. -/
structure SameGraph (f g : Flow) : Prop where
  entry_eq : g.entry = f.entry
  successors_eq : ∀ a, (g.block? a).map Block.successors = (f.block? a).map Block.successors

namespace SameGraph

theorem refl (f : Flow) : f.SameGraph f := ⟨rfl, fun _ => rfl⟩

theorem symm (h : f.SameGraph g) : g.SameGraph f :=
  ⟨h.entry_eq.symm, fun a => (h.successors_eq a).symm⟩

theorem trans {h : Flow} (hfg : f.SameGraph g) (hgh : g.SameGraph h) : f.SameGraph h :=
  ⟨hgh.entry_eq.trans hfg.entry_eq, fun a => (hgh.successors_eq a).trans (hfg.successors_eq a)⟩

theorem of_blocks_eq (hentry : g.entry = f.entry) (hblocks : g.blocks = f.blocks) :
    f.SameGraph g :=
  ⟨hentry, fun a => by simp [block?, hblocks]⟩

theorem exists_block (h : f.SameGraph g) {b : Block} (hb : f.block? a = some b) :
    ∃ b', g.block? a = some b' ∧ b'.successors = b.successors := by
  have hsucc := h.successors_eq a
  rw [hb] at hsucc
  exact Option.map_eq_some_iff.1 hsucc

theorem ne_none (h : f.SameGraph g) (ha : f.block? a ≠ none) : g.block? a ≠ none := by
  obtain ⟨b, hb⟩ := Option.ne_none_iff_exists'.1 ha
  obtain ⟨b', hb', -⟩ := h.exists_block hb
  simp [hb']

theorem path (h : f.SameGraph g) (hpath : f.Path as a) : g.Path as a := by
  induction hpath with
  | entry => exact h.entry_eq ▸ .entry
  | step _ hb hc ih =>
    obtain ⟨b', hb', hsucc⟩ := h.exists_block hb
    exact .step ih hb' (hsucc ▸ hc)

theorem connected (h : f.SameGraph g) (hf : f.Connected) : g.Connected := by
  refine ⟨h.entry_eq ▸ h.ne_none hf.entry, fun a b c hb hc => ?_, fun a ha => ?_⟩
  · obtain ⟨b', hb', hsucc⟩ := h.symm.exists_block hb
    exact h.ne_none (hf.successor a b' c hb' (hsucc ▸ hc))
  · obtain ⟨as, has⟩ := hf.path a (h.symm.ne_none ha)
    exact ⟨as, h.path has⟩

end SameGraph

theorem Connected.ne_none_of_path (hf : f.Connected) (h : f.Path as a) : f.block? a ≠ none := by
  cases h with
  | entry => exact hf.entry
  | step _ hb hc => exact hf.successor _ _ _ hb hc

/-- Blocks stand at their own addresses. -/
def Keyed (f : Flow) : Prop :=
  ∀ a b, f.block? a = some b → b.address = a

theorem Keyed.mem_predecessors (hf : f.Keyed) {c : Address} :
    c ∈ f.predecessors a ↔ ∃ b, f.block? c = some b ∧ a ∈ b.successors := by
  unfold predecessors
  simp only [List.mem_map, List.mem_filter, SortedMap.mem_values, List.contains_iff_mem]
  constructor
  · rintro ⟨b, ⟨⟨c, hb⟩, ha⟩, rfl⟩
    rw [hf c b hb]
    exact ⟨b, hb, ha⟩
  · rintro ⟨b, hb, ha⟩
    exact ⟨b, ⟨⟨c, hb⟩, ha⟩, hf c b hb⟩

theorem Keyed.map_address_values (hf : f.Keyed) : f.blocks.values.map Block.address = f.blocks.keys := by
  unfold SortedMap.values SortedMap.keys
  rw [List.map_map]
  refine List.map_congr_left fun e he => ?_
  exact hf e.1 e.2 (SortedMap.find?_eq_some_of_mem_entries he)

theorem Forest.keyed (hf : f.Forest) : f.Keyed := hf.address_eq

theorem statementsAt_eq {b : Block} (hb : f.block? a = some b) : f.statementsAt a = b.statements := by
  simp [statementsAt, hb]

/-- The statements that are not removed are those of the blocks, in the order of their addresses. -/
theorem flatMap_statementsAt (f : Flow) : f.blocks.keys.flatMap f.statementsAt = f.liveStatements := by
  unfold liveStatements SortedMap.keys SortedMap.values
  rw [List.flatMap_map, List.flatMap_map]
  refine List.flatMap_congr fun e he => ?_
  exact statementsAt_eq (SortedMap.find?_eq_some_of_mem_entries he)

theorem SameGraph.keys_eq (h : f.SameGraph g) : g.blocks.keys = f.blocks.keys := by
  refine SortedMap.keys_congr fun a => ?_
  simp only [← Option.ne_none_iff_exists']
  exact ⟨h.symm.ne_none, h.ne_none⟩

theorem Forest.mem_statementsAt (hf : f.Forest) {s : StatementId} :
    s ∈ f.statementsAt a ↔ ∃ st, f.statementAt s = some st ∧ st.removed = false ∧ st.block = a := by
  cases hb : f.block? a with
  | some b => rw [statementsAt_eq hb, hf.listed a b s hb]
  | none =>
    have hnil : f.statementsAt a = [] := by simp [statementsAt, hb]
    rw [hnil]
    refine iff_of_false (List.not_mem_nil) ?_
    rintro ⟨st, hst, -, rfl⟩
    obtain ⟨b, hb'⟩ := hf.homed s st hst
    simp [hb] at hb'

theorem Forest.exists_holds (hf : f.Forest) {s : StatementId} (hs : s ∈ f.statementsAt a) :
    ∃ t, f.Holds s t := by
  obtain ⟨st, hst, -⟩ := hf.mem_statementsAt.1 hs
  exact hf.holds s st hst

theorem Forest.live (hf : f.Forest) {s : StatementId} (hs : s ∈ f.statementsAt a) : f.Live s := by
  obtain ⟨st, hst, hremoved, -⟩ := hf.mem_statementsAt.1 hs
  exact ⟨st, hst, hremoved⟩

theorem Forest.nodup_statementsAt (hf : f.Forest) (a : Address) : (f.statementsAt a).Nodup := by
  cases hb : f.block? a with
  | some b => exact statementsAt_eq hb ▸ hf.nodup a b hb
  | none => simp [statementsAt, hb]

end Flow

end FrameRecovery
