import FrameRecovery.Proofs.Relabel.Listing
import FrameRecovery.Proofs.Relabel.Permutation
import FrameRecovery.Proofs.Relabel.Renaming
import FrameRecovery.Proofs.Relabel.Restored
import FrameRecovery.Proofs.Relabel.Tagging
import FrameRecovery.Proofs.Relabel.Versions
import FrameRecovery.Proofs.Session
import Mathlib.Data.Set.Finite.Basic

namespace FrameRecovery

open Flow (RelabelsBeside)
open Runs (Run)

variable {ρ : String → String} {α β : Type} {R : α → β → Prop} {s s' u : Session} {phase : Phase}

/-- The task with other names for the registers, that of the stack pointer among them. -/
def Task.relabel (ρ : String → String) (t : Task) : Task :=
  ⟨t.listing.relabel ρ, t.machine.relabel ρ, t.options⟩

/-- Two sessions are the same but for the names of the registers. The same registers are restored, though the new
    names may be in another order. -/
structure Session.Relabels (ρ : String → String) (s s' : Session) : Prop where
  flow : s'.flow = s.flow.relabel ρ
  phases : s'.phases = s.phases
  frame : s'.frame = s.frame
  restored : s'.restored.Perm (s.restored.map ρ)
  stats : s'.stats = s.stats
  failed : s'.failed = s.failed

/-- A session knows a register: it is in the flow, or among those that are restored. -/
def Session.Mentions (s : Session) (n : String) : Prop :=
  n ∈ s.restored ∨ ∃ x v, s.flow.exprAt x = some (.register n v)

/-- There is nothing to rename in a session without nodes. -/
theorem Session.Relabels.of_nodes_eq (hflow : s.flow.nodes = #[]) (hrestored : s.restored = []) : s.Relabels ρ s :=
  ⟨(Flow.relabel_of_nodes_eq hflow).symm, rfl, rfl, by simp [hrestored], rfl, rfl⟩

theorem Session.Relabels.congr {σ : String → String} (h : s.Relabels ρ s') (hσ : ∀ n, s.Mentions n → ρ n = σ n) :
    s.Relabels σ s' := by
  have hflow : s.flow.relabel ρ = s.flow.relabel σ := Flow.relabel_congr fun x n v hx => hσ n (.inr ⟨x, v, hx⟩)
  have hrestored : s.restored.map ρ = s.restored.map σ := List.map_congr_left fun n hn => hσ n (.inl hn)
  exact { h with flow := h.flow.trans hflow, restored := hrestored ▸ h.restored }

/-- There are no nodes before the instructions are lowered. -/
theorem ControlFlow.nodes_eq_of_run_recover {l : Listing} (hl : l.WellFormed) {entry : Address} {r : Except Error Unit}
    {f : Flow} (h : (recover l).run (.empty entry) = .ok (r, f)) : f.nodes = #[] := by
  obtain ⟨L, reached, -, -, heq, -⟩ | ⟨a, fault, heq⟩ := extents_spec hl entry
  · obtain ⟨_, g, hrun, _, rfl, -, hg⟩ := recover_succeeds heq
    cases h.symm.trans hrun
    exact hg.nodes_eq
  · cases h.symm.trans (run_recover_of_error heq)
    rfl

namespace Recovery

variable {t : Task}

theorem run_onFlow {pass : Pass α} {a : α} : Run (onFlow pass) s a u ↔
    ∃ f, Run pass s.flow a f ∧ u = { s with flow := f } := by
  change (pass.run s.flow >>= fun r => Except.ok (r.1, { s with flow := r.2 })) = .ok (.ok a, u) ↔
    ∃ f, pass.run s.flow = .ok (.ok a, f) ∧ _
  constructor
  · intro hrun
    obtain ⟨⟨r, f⟩, hpass, hrun⟩ := exists_of_except_bind hrun
    cases hrun
    exact ⟨f, hpass, rfl⟩
  · rintro ⟨f, hpass, rfl⟩
    rw [hpass]
    rfl

theorem run_onEdit {edit : Edit α} {a : α} : Run (onEdit edit) s a u ↔
    ∃ f, edit s.flow = .ok (a, f) ∧ u = { s with flow := f } := by
  refine run_onFlow.trans (exists_congr fun f => and_congr_left fun _ => ?_)
  change (edit s.flow >>= fun r => Except.ok (Except.ok r.1, r.2)) = .ok (.ok a, f) ↔ _
  cases edit s.flow with
  | error e => exact ⟨nofun, nofun⟩
  | ok r =>
    obtain ⟨b, g⟩ := r
    rw [bind_ok]
    simp

theorem run_onFrame {change : Renaming Frame α} {a : α} : Run (onFrame change) s a u ↔
    ∃ f frame, Run change (s.frame, s.flow) a (frame, f) ∧ u = { s with flow := f, frame } := by
  change (change.run.run s.frame s.flow >>= fun r =>
    Except.ok (r.1.1, { s with flow := r.2, frame := r.1.2 })) = .ok (.ok a, u) ↔
      ∃ f frame, change.run.run s.frame s.flow = .ok ((.ok a, frame), f) ∧ _
  constructor
  · intro hrun
    obtain ⟨⟨⟨r, frame⟩, f⟩, hchange, hrun⟩ := exists_of_except_bind hrun
    cases hrun
    exact ⟨f, frame, hchange, rfl⟩
  · rintro ⟨f, frame, hchange, rfl⟩
    rw [hchange]
    rfl

theorem run_modify {k : Session → Session} {a : Unit} : Run (modify k : Recovery Unit) s a u ↔ u = k s := by
  change Except.ok (Except.ok (), k s) = .ok (.ok a, u) ↔ _
  simp [eq_comm]

theorem onFlow_relabels {pass : Pass α} {pass' : Pass β} (h : Parallel (Flow.Relabels ρ) R pass pass') :
    Parallel (Session.Relabels ρ) R (onFlow pass) (onFlow pass') := by
  intro s s' a u hs hrun
  obtain ⟨f, hpass, rfl⟩ := run_onFlow.1 hrun
  obtain ⟨b, f', hpass', hR, hf⟩ := h s.flow s'.flow a f hs.flow hpass
  exact ⟨b, _, run_onFlow.2 ⟨f', hpass', rfl⟩, hR, { hs with flow := hf }⟩

theorem onEdit_relabels {edit : Edit α} {edit' : Edit β} (h : Parallel (Flow.Relabels ρ) R edit edit') :
    Parallel (Session.Relabels ρ) R (onEdit edit) (onEdit edit') :=
  onFlow_relabels (.of_lift h)

theorem onFrame_relabels {change : Renaming Frame α} {change' : Renaming Frame β}
    (h : Parallel (RelabelsBeside ρ) R change change') :
    Parallel (Session.Relabels ρ) R (onFrame change) (onFrame change') := by
  intro s s' a u hs hrun
  obtain ⟨f, frame, hchange, rfl⟩ := run_onFrame.1 hrun
  obtain ⟨b, ⟨frame', f'⟩, hchange', hR, hframe, hf⟩ := h (s.frame, s.flow) (s'.frame, s'.flow) a (frame, f)
    ⟨hs.frame, hs.flow⟩ hchange
  exact ⟨b, _, run_onFrame.2 ⟨f', frame', hchange', rfl⟩, hR, { hs with flow := hf, frame := hframe }⟩

theorem record_relabels (change : SessionStats → SessionStats) :
    Parallel (Session.Relabels ρ) (fun _ _ => True) (record change) (record change) := by
  intro s s' a u hs hrun
  obtain rfl := run_modify.1 hrun
  exact ⟨(), _, run_modify.2 rfl, trivial, { hs with stats := congrArg change hs.stats }⟩

section Perform

variable (t)

theorem perform_lower_relabels : Parallel (Session.Relabels ρ) (fun _ _ => True) (perform t .irForm)
    (perform (t.relabel ρ) .irForm) :=
  onFlow_relabels (Lowering.lower_relabels t.listing)

theorem perform_propagation_relabels (hρ : ρ.Injective) : Parallel (Session.Relabels ρ) (fun _ _ => True)
    (perform t .stackPropagated) (perform (t.relabel ρ) .stackPropagated) := by
  refine .bind (onFlow_relabels (propagate_relabels (PropagationPolicy.stackPointer_relabel hρ t.machine))) ?_
  rintro stats _ rfl
  exact record_relabels _

theorem perform_prune_relabels : Parallel (Session.Relabels ρ) (fun _ _ => True) (perform t .pruned)
    (perform (t.relabel ρ) .pruned) := by
  have hprune : Parallel (Flow.Relabels ρ) Eq
      (if t.options.pruneToFixedPoint then Pruning.pruneToFixedPoint else Pruning.prune)
      (if t.options.pruneToFixedPoint then Pruning.pruneToFixedPoint else Pruning.prune) :=
    .ite (fun _ => Pruning.pruneToFixedPoint_relabels) fun _ => Pruning.prune_relabels
  have hrest : Parallel (Session.Relabels ρ) (fun _ _ => True)
      (do
        let pruned ← onEdit (if t.options.pruneToFixedPoint then Pruning.pruneToFixedPoint else Pruning.prune)
        record fun stats => { stats with pruned })
      (do
        let pruned ← onEdit (if t.options.pruneToFixedPoint then Pruning.pruneToFixedPoint else Pruning.prune)
        record fun stats => { stats with pruned }) := by
    refine .bind (onEdit_relabels hprune) ?_
    rintro n _ rfl
    exact record_relabels _
  change Parallel _ _ (prune t) (prune (t.relabel ρ))
  exact .ite (fun _ => .bind (onFlow_relabels verifyUseChains_relabels) fun _ _ _ => hrest) fun _ => hrest

theorem perform_rename_relabels (hρ : ρ.Injective) (hm : t.machine.Regular) : Parallel (Session.Relabels ρ)
    (fun _ _ => True) (perform t .stackRenamed) (perform (t.relabel ρ) .stackRenamed) := by
  refine .bind (onFrame_relabels (StackRenaming.rename_relabels hρ hm t.options.negateSubtractedOffsets)) ?_
  rintro n _ rfl
  exact record_relabels _

end Perform

section Tag

variable {V : Locations} (hs : s.Relabels ρ s')
include hs

theorem perform_registers_relabels (hρ : ρ.Injective) (hf : s.flow.Forest) (hf' : s'.flow.Forest)
    (hconnected : s.flow.Connected) (hrun : Run (perform t .ssaRegisters) s () u) :
    ∃ u', Run (perform (t.relabel ρ) .ssaRegisters) s' () u' ∧ u.Relabels ρ u' := by
  obtain ⟨tags, s₁, hedit, hrecord⟩ := Runs.run_bind.1 hrun
  obtain ⟨f, htag, rfl⟩ := run_onEdit.1 hedit
  obtain rfl := run_modify.1 hrecord
  have htag' := Tagging.tag_relabels hρ hf (hs.flow ▸ hf') hconnected (Flow.carries_registers _) htag
  rw [← hs.flow] at htag'
  refine ⟨_, Runs.run_bind.2 ⟨tags, _, run_onEdit.2 ⟨_, htag', rfl⟩, run_modify.2 rfl⟩, ?_⟩
  exact { hs with flow := rfl, stats := by rw [hs.stats] }

theorem perform_derefs_relabels {κ : Location → Location} (hρ : ρ.Injective) (hκ : κ.Injective)
    (hcarries : s.flow.Carries ρ κ LocationKind.derefs.locate) (hV : LocationKind.derefs.Permits V)
    (hf : s.flow.Sound V) (hrooted : s.flow.Rooted) (hconnected : s.flow.Connected) (hf' : s'.flow.Sound V)
    (hrooted' : s'.flow.Rooted) (hconnected' : s'.flow.Connected) (hrun : Run (perform t .ssaDerefs) s () u) :
    ∃ u', Run (perform (t.relabel ρ) .ssaDerefs) s' () u' ∧ u.Relabels ρ u' := by
  obtain ⟨tags, s₁, hedit, hrun⟩ := Runs.run_bind.1 hrun
  obtain ⟨g, htag, rfl⟩ := run_onEdit.1 hedit
  obtain ⟨_, s₂, hrecord, hrun⟩ := Runs.run_bind.1 hrun
  obtain rfl := run_modify.1 hrecord
  obtain ⟨rs, s₃, hedit', hmodify⟩ := Runs.run_bind.1 hrun
  obtain ⟨f, hview, rfl⟩ := run_onEdit.1 hedit'
  obtain rfl := run_modify.1 hmodify
  have htag' := Tagging.tag_relabels hκ hf.forest (hs.flow ▸ hf'.forest) hconnected hcarries htag
  rw [← hs.flow] at htag'
  -- both flows are tagged, so the restored registers are found in both
  obtain ⟨_, _, hgives, htagged⟩ := Tagging.tag_gives hV hf hrooted hconnected
  cases hgives.symm.trans htag
  obtain ⟨_, _, hgives', htagged'⟩ := Tagging.tag_gives hV hf' hrooted' hconnected'
  cases hgives'.symm.trans htag'
  obtain ⟨rs, hrestored, hview⟩ := exists_of_except_bind hview
  cases hview
  obtain ⟨rs', hrestored', hperm⟩ := Flow.restoredRegisters_relabel hρ htagged.sound.forest htagged'.sound.forest
    (htagged.later.graph.connected hconnected) hrestored
  have hview' : (Edit.view (·.restoredRegisters (ρ t.machine.stackPointer)) : Edit (List String)) (g.relabel ρ) =
      .ok (rs', g.relabel ρ) := by
    change ((g.relabel ρ).restoredRegisters _ >>= _) = _
    rw [hrestored']
    rfl
  refine ⟨_, Runs.run_bind.2 ⟨tags, _, run_onEdit.2 ⟨_, htag', rfl⟩, Runs.run_bind.2 ⟨(), _, run_modify.2 rfl,
    Runs.run_bind.2 ⟨rs', _, run_onEdit.2 ⟨_, hview', rfl⟩, run_modify.2 rfl⟩⟩⟩, ?_⟩
  exact { hs with flow := rfl, restored := hperm, stats := by rw [hs.stats] }

end Tag

/-- A phase that was reached was done. -/
theorem exists_run_of_reach (h : (Recovery.reach t phase).run s = .ok (.ok (), u)) :
    ∃ v, Run (perform t phase) s () v ∧ u = { v with phases := v.phases ++ [phase] } := by
  cases hperform : (perform t phase).run s with
  | error e =>
    change (((perform t phase).run s >>= _) >>= _) = _ at h
    rw [hperform] at h
    cases h
  | ok r =>
    obtain ⟨_ | _, v⟩ := r
    · rw [run_reach_of_error hperform] at h
      cases h
    · rw [run_reach hperform] at h
      cases h
      exact ⟨v, hperform, rfl⟩

variable {entry : Address} {S S' : Phase → Session} {p q : Phase}

/-- Finding the blocks does the same in a listing with other names, whether it succeeds or not. -/
theorem reach_basicBlocks_relabels (hl : t.listing.WellFormed) {r : Except Error Unit}
    (h : (Recovery.reach t .basicBlocks).run (.start entry) = .ok (r, s)) :
    (Recovery.reach (t.relabel ρ) .basicBlocks).run (.start entry) = .ok (r, s) ∧ s.Relabels ρ s := by
  have hsame : perform (t.relabel ρ) .basicBlocks = perform t .basicBlocks :=
    congrArg onFlow (ControlFlow.recover_relabel t.listing)
  refine ⟨?_, ?_⟩
  · rw [← h]
    unfold Recovery.reach reachBy
    rw [hsame]
  · obtain ⟨r', f, hrun, -⟩ := ControlFlow.recover_gives hl entry
    have hperform : (perform t .basicBlocks).run (.start entry) = .ok (r', { Session.start entry with flow := f }) := by
      change ((ControlFlow.recover t.listing).run (.empty entry) >>= fun r =>
        Except.ok (r.1, { Session.start entry with flow := r.2 })) = _
      rw [hrun]
      rfl
    have hnodes := ControlFlow.nodes_eq_of_run_recover hl hrun
    cases r' with
    | error e =>
      rw [run_reach_of_error hperform] at h
      cases h
      exact .of_nodes_eq hnodes rfl
    | ok a =>
      rw [run_reach hperform] at h
      cases h
      exact .of_nodes_eq hnodes rfl

theorem exists_run_of_parallel {x y : Recovery Unit} (h : Parallel (Session.Relabels ρ) (fun _ _ => True) x y)
    (hs : s.Relabels ρ s') (u : Session) (hrun : Run x s () u) : ∃ u', Run y s' () u' ∧ u.Relabels ρ u' := by
  obtain ⟨_, u', hrun', -, hu⟩ := h s s' () u hs hrun
  exact ⟨u', hrun', hu⟩

namespace Course

theorem next_relabels (h : Course t entry S) (h' : Course (t.relabel ρ) entry S') (hq : p.next? = some q)
    (hperform : ∀ u, Run (perform t q) (S p) () u → ∃ u', Run (perform (t.relabel ρ) q) (S' p) () u' ∧ u.Relabels ρ u') :
    (S q).Relabels ρ (S' q) := by
  obtain ⟨u, hrun, heq⟩ := exists_run_of_reach (h.reach p q hq)
  obtain ⟨u', hrun', hu⟩ := hperform u hrun
  obtain ⟨v, hv, heq'⟩ := exists_run_of_reach (h'.reach p q hq)
  cases (show (perform (t.relabel ρ) q).run (S' p) = _ from hv).symm.trans hrun'
  rw [heq, heq']
  exact { hu with phases := congrArg (· ++ [q]) hu.phases }

/-- A recovery of a listing with other names goes through the same states with other names. -/
theorem relabels {π : Equiv.Perm String} (h : Course t entry S) (h' : Course (t.relabel π) entry S')
    (hl : t.listing.WellFormed) (hm : t.machine.Regular) (p : Phase) : (S p).Relabels π (S' p) := by
  have hπ : Function.Injective π := π.injective
  have hstart : (S .nothingDone).Relabels π (S' .nothingDone) := by
    rw [h.start, h'.start]
    exact .of_nodes_eq rfl rfl
  have hblocks : (S .basicBlocks).Relabels π (S' .basicBlocks) := by
    have hreach := h.reach .nothingDone .basicBlocks rfl
    have hreach' := h'.reach .nothingDone .basicBlocks rfl
    rw [h.start] at hreach
    obtain ⟨hsame, hrelabels⟩ := reach_basicBlocks_relabels hl hreach
    rw [h'.start, hsame] at hreach'
    rw [← (Prod.mk.inj (Except.ok.inj hreach')).2]
    exact hrelabels
  have hlowered := h.next_relabels h' (p := .basicBlocks) (q := .irForm) rfl
    (exists_run_of_parallel (perform_lower_relabels t) hblocks)
  have hregisters := h.next_relabels h' (p := .irForm) (q := .ssaRegisters) rfl fun u =>
    perform_registers_relabels hlowered hπ h.plain.forest h'.plain.forest h.connected
  have hpropagated := h.next_relabels h' (p := .ssaRegisters) (q := .stackPropagated) rfl
    (exists_run_of_parallel (perform_propagation_relabels t hπ) hregisters)
  obtain ⟨κ, hκ⟩ := Flow.exists_carries_derefs (hpropagated.flow ▸ h'.propagated.sound.forest)
    (fun _ _ hs hT => h.versioned hs hT) (hpropagated.flow ▸ fun _ _ hs hT => h'.versioned hs hT)
  have hsound : ∀ {t : Task} {S : Phase → Session}, Course t entry S → (S .stackPropagated).flow.Sound .named := fun h =>
    h.propagated.sound.mono fun _ => Locations.named_of_listed
  have hderefs := h.next_relabels h' (p := .stackPropagated) (q := .ssaDerefs) rfl fun u =>
    perform_derefs_relabels hpropagated hπ κ.injective hκ (fun _ _ => trivial)
      (hsound h) (h.propagated.rooted h.registers.rooted) h.connected_stackPropagated
      (hsound h') (h'.propagated.rooted h'.registers.rooted) h'.connected_stackPropagated
  have hpruned := h.next_relabels h' (p := .ssaDerefs) (q := .pruned) rfl
    (exists_run_of_parallel (perform_prune_relabels t) hderefs)
  have hrenamed := h.next_relabels h' (p := .pruned) (q := .stackRenamed) rfl
    (exists_run_of_parallel (perform_rename_relabels t hπ hm) hpruned)
  cases p <;> assumption

/-- The registers of a recovery are those of its listing and the stack pointer. -/
theorem mem_registers {π : Equiv.Perm String} (h : Course t entry S) (h' : Course (t.relabel π) entry S')
    (hl : t.listing.WellFormed) (hm : t.machine.Regular) {n : String} (hn : (S p).Mentions n) :
    n ∈ t.listing.registers ∨ n = t.machine.stackPointer := by
  by_contra hnot
  rw [not_or] at hnot
  -- a name that is nowhere to be found could take the place of this one, and nobody would notice
  obtain ⟨m, hm'⟩ := Infinite.exists_notMem_finset
    (t.machine.stackPointer :: n :: (t.listing.registers ++ (S p).restored)).toFinset
  simp only [List.mem_toFinset, List.mem_cons, List.mem_append, not_or] at hm'
  obtain ⟨hsp, hne, hlisting, hrestored⟩ := hm'
  let τ := (Equiv.swap n m).trans π
  have hτ : ∀ k, k ≠ n → k ≠ m → π k = τ k := fun k hk hk' =>
    congrArg π (Equiv.swap_apply_of_ne_of_ne hk hk').symm
  have hsame : t.relabel π = t.relabel τ := by
    have hlisting : t.listing.relabel π = t.listing.relabel τ := Listing.relabel_congr fun k hk =>
      hτ k (ne_of_mem_of_not_mem hk hnot.1) (ne_of_mem_of_not_mem hk hlisting)
    unfold Task.relabel Machine.relabel
    rw [hlisting, hτ _ (Ne.symm hnot.2) (Ne.symm hsp)]
  have hπs := h.relabels h' hl hm p
  have hτs := h.relabels (hsame ▸ h') hl hm p
  have hswapped : π m ≠ π n := π.injective.ne hne
  have hn' : τ n = π m := congrArg π (Equiv.swap_apply_left n m)
  obtain hn | ⟨x, v, hx⟩ := hn
  · have hmem := (hπs.restored.symm.trans hτs.restored).mem_iff.1 (List.mem_map_of_mem hn)
    obtain ⟨k, hk, heq⟩ := List.mem_map.1 hmem
    have hk' : k ≠ m := ne_of_mem_of_not_mem hk hrestored
    by_cases hkn : k = n
    · subst hkn
      exact hswapped (hn'.symm.trans heq)
    · exact hkn (π.injective ((hτ k hkn hk').trans heq))
  · have hflow := congrArg (·.exprAt x) (hπs.flow.symm.trans hτs.flow)
    simp only [Flow.exprAt_relabel, hx, Option.map_some, Option.some.injEq, Expr.relabel, Expr.register.injEq] at hflow
    exact hswapped (hn'.symm.trans hflow.1.symm)

end Course

variable {l : Listing}

/-- The recovery of a listing does not depend on what the registers are called: with other names that are as different
    from one another, it ends in the same way and in the same state, up to the names. -/
theorem advanceTo_relabels {text : String} (hl : Listing.parse text = .ok l) (name stackPointer : String)
    (options : Options) (entry : Address) (phase : Phase)
    (hρ : Set.InjOn ρ {n | n ∈ l.registers ∨ n = stackPointer}) (hnames : ∀ n ∈ l.registers, IsRegisterName (ρ n)) :
    ∃ r s s', (advanceTo ⟨l, { name, stackPointer }, options⟩ phase).run (.start entry) = .ok (r, s) ∧
      (advanceTo ⟨l.relabel ρ, { name, stackPointer := ρ stackPointer }, options⟩ phase).run (.start entry) = .ok (r, s') ∧
        s.Relabels ρ s' := by
  have hl := Listing.wellFormed_of_parse hl
  have hfinite : {n | n ∈ l.registers ∨ n = stackPointer}.Finite :=
    (List.finite_toSet l.registers).union (Set.finite_singleton stackPointer)
  obtain ⟨π, hπ⟩ := exists_perm_of_injOn hfinite hρ
  let t : Task := ⟨l, { name, stackPointer }, options⟩
  have ht : (⟨l.relabel ρ, { name, stackPointer := ρ stackPointer }, options⟩ : Task) = t.relabel π := by
    have hlisting : l.relabel ρ = l.relabel π := Listing.relabel_congr fun n hn => (hπ n (.inl hn)).symm
    rw [hlisting, ← hπ stackPointer (.inr rfl)]
    rfl
  rw [ht]
  have hl' : (l.relabel π).WellFormed := hl.relabel fun n hn => by
    rw [hπ n (.inl hn)]
    exact hnames n hn
  obtain ⟨a, fault, s, hrun⟩ | ⟨S, h⟩ := exists_course (t := t) hl rfl entry
  · obtain ⟨hrun', -⟩ := reach_basicBlocks_relabels (ρ := π) hl hrun
    by_cases hphase : phase = .nothingDone
    · subst hphase
      exact ⟨_, _, _, rfl, rfl, Session.Relabels.of_nodes_eq rfl rfl⟩
    · have hs := (reach_basicBlocks_relabels (ρ := ρ) hl hrun).2
      exact ⟨_, s, s, run_advanceTo_of_error hphase hrun, run_advanceTo_of_error hphase hrun', hs⟩
  · obtain ⟨a, fault, s, hrun⟩ | ⟨S', h'⟩ := exists_course (t := t.relabel π) hl' rfl entry
    · have hreach := h.reach .nothingDone .basicBlocks rfl
      rw [h.start] at hreach
      cases hrun.symm.trans (reach_basicBlocks_relabels hl hreach).1
    · obtain ⟨_, _, hrun, _, rfl, rfl⟩ := h.advanceTo_succeeds phase
      obtain ⟨_, _, hrun', _, rfl, rfl⟩ := h'.advanceTo_succeeds phase
      refine ⟨_, _, _, hrun, hrun', (h.relabels h' hl rfl phase).congr fun n hn => hπ n ?_⟩
      exact h.mem_registers h' hl rfl hn

/-- A function that saves two registers on the stack and restores them. -/
def savedText : String :=
  "0: [esp - 4] = ebx\n1: [esp - 8] = esi\n2: ebx = 1\n3: esi = 2\n4: ebx = [esp - 4]\n5: esi = [esp - 8]\n6: return"

/-- If the two registers exchange their names, both are found again, though their names come in the same order as
    before. -/
theorem advanceTo_relabels_saved : ∃ l r s s', Listing.parse savedText = .ok l ∧
    (advanceTo ⟨l, { name := "x86", stackPointer := "esp" }, {}⟩ .ssaDerefs).run (.start 0) = .ok (r, s) ∧
      (advanceTo ⟨l.relabel (Equiv.swap "ebx" "esi"), { name := "x86", stackPointer := "esp" }, {}⟩ .ssaDerefs).run
        (.start 0) = .ok (r, s') ∧
          s.Relabels (Equiv.swap "ebx" "esi") s' ∧ s.restored = ["ebx", "esi"] ∧ s'.restored = ["ebx", "esi"] := by
  have hcheck : ((Listing.parse savedText).toOption.any fun l =>
      (Task.sessionAt? ⟨l, { name := "x86", stackPointer := "esp" }, {}⟩ 0 .ssaDerefs).map Session.restored ==
          some ["ebx", "esi"] &&
        (Task.sessionAt? ⟨l.relabel (Equiv.swap "ebx" "esi"), { name := "x86", stackPointer := "esp" }, {}⟩ 0
          .ssaDerefs).map Session.restored == some ["ebx", "esi"]) = true := by
    decide +kernel
  obtain ⟨l, hl, hcheck⟩ := Option.any_eq_true _ _ |>.1 hcheck
  have hl : Listing.parse savedText = .ok l := ok_of_mem_toOption hl
  have hnames : ∀ n ∈ l.registers, IsRegisterName (Equiv.swap "ebx" "esi" n) := by
    intro n hn
    rw [Equiv.swap_apply_def]
    split
    · exact ⟨⟨'e', ['s', 'i'], rfl, rfl, List.all_eq_true.1 (by decide)⟩, by decide⟩
    · split
      · exact ⟨⟨'e', ['b', 'x'], rfl, rfl, List.all_eq_true.1 (by decide)⟩, by decide⟩
      · exact (Listing.wellFormed_of_parse hl).isRegisterName hn
  obtain ⟨r, s, s', hrun, hrun', hs⟩ := advanceTo_relabels hl "x86" "esp" {} 0 .ssaDerefs
    (Equiv.injective _).injOn hnames
  have hsp : Equiv.swap "ebx" "esi" "esp" = "esp" := by decide
  rw [hsp] at hrun'
  rw [Bool.and_eq_true, beq_iff_eq, beq_iff_eq] at hcheck
  unfold Task.sessionAt? at hcheck
  rw [hrun, hrun'] at hcheck
  cases r with
  | error e => cases hcheck.1
  | ok a => exact ⟨l, .ok a, s, s', hl, hrun, hrun', hs, Option.some.inj hcheck.1, Option.some.inj hcheck.2⟩

end Recovery

end FrameRecovery
