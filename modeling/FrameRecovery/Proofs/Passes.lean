import FrameRecovery.Proofs.RegisterLinks
import FrameRecovery.Proofs.Outermost
import FrameRecovery.Proofs.Tagging.Untag
import FrameRecovery.Proofs.UseChains

namespace FrameRecovery

open Flow

namespace Edit

variable {f : Flow} {V : Locations} {s : StatementId}

/-- Every statement of a sound flow can be simplified. The flow stays sound, and its assignments
    stay where they are. -/
theorem simplifyStatement_sound (hf : f.Sound V) (hs : f.statementAt s ≠ none) :
    Gives (simplifyStatement s) f fun _ g =>
      g.Sound V ∧ (f.Rooted → g.Rooted) ∧ f.SameGraph g := by
  obtain ⟨st, hst⟩ := Option.ne_none_iff_exists'.1 hs
  obtain ⟨t, ht⟩ := hf.forest.holds s st hst
  obtain ⟨st', hst', hroot, -⟩ := id ht
  obtain rfl := Option.some.inj (hst.symm.trans hst')
  refine (simplifyStatement_gives hst hroot ht.sits hf.typed hf.mirrored).mono ?_
  rintro - g ⟨t', hsimplifies, -, hid⟩
  have hg := hf.simplifies ht hsimplifies
  refine ⟨hg, fun hrooted => ?_, .of_blocks_eq hsimplifies.replaces.entry_eq hsimplifies.replaces.blocks_eq⟩
  exact hrooted.of_assigns hg.forest hsimplifies.assign fun s' r d hassigns =>
    hassigns.simplifies ht hsimplifies hid

end Edit

/-- A pass over a flow, with what it is run with. Renaming can go on with any frame. -/
inductive FlowPass where
  | tag (kind : LocationKind)
  | untag
  | propagateStackPointer
  | propagateNothing
  | simplify (statement : StatementId)
  | prune
  | pruneToFixedPoint
  | rename (negate : Bool) (frame : Frame)

namespace FlowPass

/-- Runs a pass for a machine. There is nothing to simplify at a statement that there is not. -/
def run (m : Machine) : FlowPass → Pass Unit
  | tag kind => do
    let _ ← Tagging.tag kind
  | untag => Tagging.untag
  | propagateStackPointer => do
    let _ ← propagate (.stackPointer m)
  | propagateNothing => do
    let _ ← propagate .never
  | simplify s => do
    if ((← get).statementAt s).isSome then
      let _ ← Edit.simplifyStatement s
  | prune => do
    let _ ← Pruning.prune
  | pruneToFixedPoint => do
    let _ ← Pruning.pruneToFixedPoint
  | rename negate frame => do
    let _ ← ExceptT.mk do
      return (← (Renaming.rename (StackRenaming.policy m negate)).run.run frame).1

/-- What every pass needs and keeps: a sound flow with its assignments at the top of statements,
    on a graph in which there is a way to every block. -/
structure Ready (f : Flow) : Prop where
  sound : f.Sound .any
  rooted : f.Rooted
  connected : f.Connected

variable {m : Machine} {f : Flow}

theorem ready_of_isLowered (hf : f.IsLowered) : Ready f :=
  ⟨hf.plain.sound.any, hf.plain.rooted, hf.connected⟩

theorem run_rename {negate : Bool} {frame frame' : Frame} {n : Nat} {g : Flow}
    (h : (Renaming.rename (StackRenaming.policy m negate)).run.run frame f = .ok ((.ok n, frame'), g)) :
    ((rename negate frame).run m).run f = .ok (.ok (), g) := by
  change (((Renaming.rename (StackRenaming.policy m negate)).run.run frame f >>= fun r =>
    Except.ok (r.1.1, r.2)) >>= _) = _
  rw [h]
  rfl

/-- No pass fails, whatever passes were run before. -/
theorem run_succeeds (hm : m.Regular) (hf : Ready f) (p : FlowPass) :
    Succeeds (p.run m) f fun _ g => Ready g := by
  obtain ⟨hsound, hrooted, hconnected⟩ := hf
  have hpropagate : ∀ {policy : PropagationPolicy}, policy.Careful →
      Succeeds (propagate policy >>= fun _ => pure ()) f fun _ g => Ready g := by
    intro policy hpolicy
    refine .of_bind ((propagate_succeeds hpolicy hsound).mono fun _ g hg => .of_pure ?_)
    exact ⟨hg.sound, hg.rooted hrooted,
      (SameGraph.of_blocks_eq hg.entry_eq hg.blocks_eq).connected hconnected⟩
  have hpruned : ∀ {g}, Pruning.Pruned .any f g → Ready g := fun hg =>
    ⟨hg.sound, hg.rooted hrooted, hg.graph.connected hconnected⟩
  cases p with
  | tag kind =>
    refine .of_bind (.of_lift ((Tagging.tag_gives kind.permits_any hsound hrooted hconnected).mono fun _ g hg => .of_pure ?_))
    exact ⟨hg.sound, hg.rooted, hg.later.graph.connected hconnected⟩
  | untag =>
    refine .of_lift ((Tagging.untag_gives hsound hrooted).mono ?_)
    rintro - g ⟨hg, hgrooted, hgraph⟩
    exact ⟨hg, hgrooted, hgraph.connected hconnected⟩
  | propagateStackPointer => exact hpropagate (PropagationPolicy.careful_stackPointer m)
  | propagateNothing => exact hpropagate PropagationPolicy.careful_never
  | simplify s =>
    refine .of_bind (.of_get ?_)
    split
    next hs =>
      refine .of_bind (.of_lift ((Edit.simplifyStatement_sound hsound ?_).mono ?_))
      · exact Option.isSome_iff_ne_none.1 hs
      · rintro - g ⟨hg, hgrooted, hgraph⟩
        exact .of_pure ⟨hg, hgrooted hrooted, hgraph.connected hconnected⟩
    next => exact .of_pure ⟨hsound, hrooted, hconnected⟩
  | prune =>
    exact .of_bind (.of_lift ((Pruning.prune_gives (.refl hsound)).mono fun _ g hg => .of_pure (hpruned hg)))
  | pruneToFixedPoint =>
    exact .of_bind (.of_lift ((Pruning.pruneToFixedPoint_gives (.refl hsound)).mono fun _ g hg =>
      .of_pure (hpruned hg)))
  | rename negate frame =>
    obtain ⟨⟨r, frame'⟩, g, hrun, a, hr, hg⟩ :=
      @StackRenaming.rename_succeeds m negate f frame hm hsound hrooted
    cases hr
    exact ⟨.ok (), g, run_rename hrun, (), rfl, hg.sound, hg.rooted,
      (SameGraph.of_blocks_eq hg.entry_eq hg.blocks_eq).connected hconnected⟩

/-- Passes in any order, and as often as one likes, do not fail. -/
theorem runs_succeed (hm : m.Regular) (hf : f.IsLowered) (passes : List FlowPass) :
    Succeeds (passes.forM (run m)) f fun _ g => Ready g :=
  Succeeds.of_forM (I := fun _ g => Ready g) (fun p _ _ hg => run_succeeds hm hg p) passes (ready_of_isLowered hf)

/-- Passes in any order, and as often as one likes, do not fail and leave the use chains in
    order, in which no definition records a read twice. -/
theorem useChains_after_passes (hf : f.IsLowered) (name stackPointer : String)
    (passes : List FlowPass) :
    ∃ g, (passes.forM (run { name, stackPointer })).run f = .ok (.ok (), g) ∧
      verifyUseChains.run g = .ok (.ok (), g) ∧
      ∀ d us, g.linkOf d = .definition us → us.Nodup := by
  obtain ⟨_, g, hrun, a, rfl, hg⟩ := runs_succeed (m := { name, stackPointer }) rfl hf passes
  obtain ⟨_, g', hverify, b, rfl, rfl⟩ := verifyUseChains_succeeds hg.sound
  refine ⟨g', hrun, hverify, fun d us hd => ?_⟩
  have hnodup := hg.sound.mirrored.nodup d
  rwa [hd] at hnodup

/-- The loop is tagged, renamed, tagged again and pruned. -/
theorem useChains_after_passes_loop :
    let passes := [tag .registers, propagateStackPointer, tag .derefs, rename false .empty, untag,
      tag .registers, simplify ⟨0⟩, pruneToFixedPoint]
    ∃ g, (passes.forM (run { name := "x86", stackPointer := "esp" })).run loopFlow = .ok (.ok (), g) ∧
      verifyUseChains.run g = .ok (.ok (), g) ∧
      ∀ d us, g.linkOf d = .definition us → us.Nodup :=
  useChains_after_passes loopFlow_isLowered "x86" "esp" _

/-- Whatever passes were run before, a policy that replaces registers alone leaves the use chains in order. -/
theorem useChains_after_propagation (hf : f.IsLowered) (name stackPointer : String) (passes : List FlowPass)
    {policy : PropagationPolicy} (hpolicy : policy.Careful) :
    ∃ g stats h, (passes.forM (run { name, stackPointer })).run f = .ok (.ok (), g) ∧
      (propagate policy).run g = .ok (.ok stats, h) ∧ verifyUseChains.run h = .ok (.ok (), h) := by
  obtain ⟨_, g, hrun, a, rfl, hg⟩ := runs_succeed (m := { name, stackPointer }) rfl hf passes
  obtain ⟨_, h, hpropagate, stats, rfl, hh⟩ := propagate_succeeds hpolicy hg.sound
  obtain ⟨_, h', hverify, b, rfl, rfl⟩ := verifyUseChains_succeeds hh.sound
  exact ⟨g, stats, _, hrun, hpropagate, hverify⟩

/-- A function in which memory is read at an address that a call has returned. -/
def storedText : String :=
  "0: ebx = call 9()\n1: [ebx] = 5\n2: eax = [ebx]\n3: return"

/-- The flow of the function. -/
def storedFlow : Flow :=
  (Flow.ofText? storedText 0).get (by decide +kernel)

/-- When a policy replaces a dereference, the read of the register in its address stays recorded, although it is in
    no statement any more. The check of the use chains then reports it. -/
theorem useChains_broken : ∃ f h d u us e h', f.IsLowered ∧
    (do [tag .registers, tag .derefs].forM (run { name := "x86", stackPointer := "esp" })
        let _ ← propagate .replaceable : Pass Unit).run f = .ok (.ok (), h) ∧
      h.linkOf d = .definition us ∧ u ∈ us ∧ h.isLive u = .ok false ∧
      verifyUseChains.run h = .ok (.error e, h') := by
  generalize hx : (do [tag .registers, tag .derefs].forM (run { name := "x86", stackPointer := "esp" })
                      let _ ← propagate .replaceable : Pass Unit) = x
  obtain ⟨⟨r, h⟩, hr, hok, hlink, hlive, ⟨r', h'⟩, hr', hreported⟩ : ∃ r ∈ (x.run storedFlow).toOption,
      r.1.isOk = true ∧ r.2.linkOf ⟨0⟩ = .definition [⟨4⟩, ⟨9⟩] ∧ r.2.isLive ⟨9⟩ = .ok false ∧
        ∃ r' ∈ (verifyUseChains.run r.2).toOption, r'.1.isOk = false := by
    subst hx
    decide +kernel
  have hrun := ok_of_mem_toOption hr
  have hverify := ok_of_mem_toOption hr'
  cases r with
  | error e => cases hok
  | ok u =>
    cases r' with
    | error e =>
      exact ⟨storedFlow, h, ⟨0⟩, ⟨9⟩, _, e, h', ⟨storedText, 0, (Option.some_get _).symm⟩, hrun, hlink, by simp,
        hlive, hverify⟩
    | ok u' => cases hreported

end FlowPass

end FrameRecovery
