import FrameRecovery.Proofs.RegisterValues
import FrameRecovery.Proofs.Variables

namespace FrameRecovery

open Flow

/-- Tagging memory changes nothing that is computed from registers. -/
theorem Tagging.Tagged.refines {f g : Flow} {V V' : Locations} (ht : Tagging.Tagged V f .derefs g)
    (hf : f.Sound V') : f.Refines g := by
  refine .of_exprs hf.typed.closed (fun z e hz => ?_) (fun z n v d hz hlink => ?_) ht.later.assign
  · obtain hsame | ⟨l, v, ⟨x, rfl⟩, hg⟩ := ht.later.marks.expr z e hz
    · exact .inl hsame
    · exact .inr ⟨x, none, some v, rfl, hg⟩
  · obtain hextends | ⟨-, l, x, hfits⟩ := ht.later.marks.link z _ hz
    · have hold := hextends.use_iff.1 hlink
      exact ⟨hold, hf.typed.linked hf.mirrored hold⟩
    · cases hfits

/-- An address in the frame has a value that is the same everywhere, if it starts from the stack
    pointer on entry. -/
theorem Machine.Locates.valueAt {m : Machine} {t : Term} {w : Word} (h : m.Locates true t (some 0) w)
    {f : Flow} {p : Place} (ht : f.Stands p t) (ρ : String → Word) :
    f.ValueAt ρ t.id (ρ m.stackPointer + w) := by
  have hexpr := exprAt_eq_some ht.shape_id
  obtain ⟨-, -, below⟩ := id ht
  cases h with
  | pointer =>
    rw [Int64.add_zero]
    exact .entry hexpr
  | sum =>
    exact .binary hexpr (.entry (exprAt_eq_some (below _ (by simp [Expr.children])).shape_id))
      (.constant (exprAt_eq_some (below _ (by simp [Expr.children])).shape_id))
  | difference =>
    rw [if_pos rfl, ← Int64.sub_eq_add_neg]
    exact .binary hexpr (.entry (exprAt_eq_some (below _ (by simp [Expr.children])).shape_id))
      (.constant (exprAt_eq_some (below _ (by simp [Expr.children])).shape_id))

namespace Recovery

/-- Where a variable stands for memory at a distance from the stack pointer on entry, there memory at
    this distance is read or written after the registers were tagged. -/
theorem Course.addressAt {t : Task} {entry : Address} {S : Phase → Session} (h : Course t entry S)
    (hnegate : t.options.negateSubtractedOffsets = true) {x o : NodeId} {n : String} {k : Option Nat}
    {w : Word} (hold : (S .ssaRegisters).flow.exprAt x ≠ none)
    (hx : (S .stackRenamed).flow.exprAt x = some (.var n k o))
    (hplace : StackRenaming.place? t.machine true (S .stackRenamed).flow o = some (some 0, w))
    (ρ : String → Word) :
    (S .ssaRegisters).flow.AddressAt ρ x (ρ t.machine.stackPointer + w) := by
  have hrefines : (S .ssaRegisters).flow.Refines (S .pruned).flow :=
    h.propagated.refines.trans ((h.derefs.refines h.propagated.sound).trans h.pruned.refines)
  obtain ⟨T, hT, hT'⟩ := h.exists_stands hx
  obtain ⟨v, w', slot, hw, hplace', hslot, hn⟩ := hT.exists_place
  rw [hnegate] at hw hplace'
  obtain ⟨rfl, rfl⟩ : v = some 0 ∧ w' = w := by simpa using hplace'.symm.trans hplace
  obtain ⟨rfl, a, k', hexpr⟩ | hnone := hT'
  · refine hrefines.address hold ?_
    obtain ⟨i, e⟩ := T
    obtain rfl := hexpr
    obtain ⟨p, hstands⟩ := hT.old
    obtain ⟨hshape, -, below⟩ := id hstands
    exact ⟨a.id, k', exprAt_eq_some hshape, hw.valueAt (below a (by simp [Expr.children])) ρ⟩
  · exact absurd hnone (hrefines.retains x hold)

end Recovery

/-- Where a variable stands for memory at a distance from the stack pointer on entry, the offset of
    the variable is right: whenever an execution of the instructions comes there, the address is as far from the
    value that the stack pointer had at the start. -/
theorem Session.address_eq_of_variable {text name stackPointer : String} {entry : Address}
    {s₀ s₁ : Session} (h₀ : Session.ofText? text name stackPointer entry .irForm = some s₀)
    (h₁ : Session.ofText? text name stackPointer entry .stackRenamed = some s₁)
    {x o : NodeId} {n : String} {k : Option Nat} {w : Word}
    (hx : s₁.flow.exprAt x = some (.var n k o))
    (hplace : StackRenaming.place? { name, stackPointer } true s₁.flow o = some (some 0, w)) :
    ∃ offset, (∀ w', (w', n) ∈ s₁.frame.toPairs ↔ w' = offset) ∧
      ∀ ss s t a v surroundings σ, s₀.flow.Walk ss s → s₀.flow.Holds s t →
        Term.Within (.node x (.deref a v)) t →
          ((Term.node x (.deref a v)).outcome
            (s₀.flow.context surroundings (s₀.flow.run surroundings σ ss))).address =
              some (σ.register stackPointer none + offset) := by
  obtain ⟨l, S, h, hS⟩ := Recovery.exists_course_of_ofText? (by decide) h₁
  obtain rfl : S .irForm = s₀ := Option.some.inj ((hS _).symm.trans h₀)
  obtain rfl : S .stackRenamed = s₁ := Option.some.inj ((hS _).symm.trans h₁)
  obtain ⟨T, hT, -⟩ := h.exists_stands hx
  obtain ⟨v, w', slot, -, hplace', hslot, rfl⟩ := hT.exists_place
  obtain ⟨rfl, rfl⟩ : v = some 0 ∧ w' = w := by simpa using hplace'.symm.trans hplace
  refine ⟨w', fun _ => Frame.mem_toPairs_iff hslot, ?_⟩
  intro ss s t a v surroundings σ hwalk hs hwithin
  obtain ⟨q, hstands⟩ := hs.stands.exists_of_within hwithin
  have hold : (S .ssaRegisters).flow.exprAt x ≠ none := by
    obtain ⟨e, he, -⟩ := h.registers.later.marks.exists_exprAt (exprAt_eq_some hstands.shape_id)
    simpa using Option.ne_none_iff_exists'.2 ⟨e, he⟩
  obtain ⟨a', v', hexpr, hvalue⟩ := h.addressAt rfl hold hx hplace fun n => σ.register n none
  have huntag := h.registers.untag_eq h.plain hs hwithin hexpr
  obtain rfl : a' = a.id := (Expr.deref.inj huntag).1
  have ha : Term.Within a t := (Term.Within.of_mem_children (by simp [Expr.children])).trans hwithin
  have houtcome := h.registers.outcome_eq (w := surroundings) h.plain h.connected hvalue hwalk hs ha rfl
  rw [Term.outcome_node]
  exact congrArg some houtcome

/-- The state in which a recovery has just turned the instructions of the function that splits into
    statements. -/
def splitStart : Session :=
  (Session.ofText? splitText "x86" "esp" 0 .irForm).get (by decide +kernel)

/-- The first write of the function is four below the stack pointer. -/
theorem Session.address_eq_of_variable_split : ∃ s₀ s₁ t a,
    Session.ofText? splitText "x86" "esp" 0 .irForm = some s₀ ∧
    Session.ofText? splitText "x86" "esp" 0 .stackRenamed = some s₁ ∧
    s₁.flow.exprAt ⟨6⟩ = some (.var "s0" (some 1) ⟨42⟩) ∧ (-4, "s0") ∈ s₁.frame.toPairs ∧
    s₀.flow.Walk [⟨0⟩] ⟨1⟩ ∧ s₀.flow.Holds ⟨1⟩ t ∧ Term.Within (.node ⟨6⟩ (.deref a none)) t ∧
    ∀ surroundings σ, ((Term.node ⟨6⟩ (.deref a none)).outcome (s₀.flow.context surroundings
      (s₀.flow.run surroundings σ [⟨0⟩]))).address = some (σ.register "esp" none + -4) := by
  have h₀ : Session.ofText? splitText "x86" "esp" 0 .irForm = some splitStart :=
    (Option.some_get _).symm
  have hinstructions : splitStart.flow.entry = 0 ∧
      splitStart.flow.statementsAt 0 = [⟨0⟩] ++ ⟨1⟩ :: [⟨2⟩] ∧
      splitStart.flow.statementAt ⟨1⟩ = some ⟨1, ⟨8⟩, 0, false⟩ ∧
      splitStart.flow.exprAt ⟨8⟩ = some (.assign ⟨6⟩ ⟨7⟩) ∧
      splitStart.flow.exprAt ⟨6⟩ = some (.deref ⟨5⟩ none) := by
    decide +kernel
  have hvariables : splitSession.flow.exprAt ⟨6⟩ = some (.var "s0" (some 1) ⟨42⟩) ∧
      StackRenaming.place? { name := "x86", stackPointer := "esp" } true splitSession.flow ⟨42⟩ =
        some (some 0, -4) ∧ (-4, "s0") ∈ splitSession.frame.toPairs := by
    decide +kernel
  obtain ⟨hentry, hblock, hstatement, hroot, hderef⟩ := hinstructions
  obtain ⟨hx, hplace, hpair⟩ := hvariables
  obtain ⟨l, S, h, hS⟩ := Recovery.exists_course_of_ofText? (by decide) h₀
  have hplain : splitStart.flow.Plain := Option.some.inj ((hS _).symm.trans h₀) ▸ h.plain
  have hpath : splitStart.flow.Path [] 0 := hentry ▸ .entry
  obtain ⟨t, ht⟩ := hplain.forest.holds ⟨1⟩ _ hstatement
  obtain ⟨st, hst, hid, hstands⟩ := id ht
  obtain rfl := Option.some.inj (hstatement.symm.trans hst)
  have hassign : splitStart.flow.exprAt t.id = some (.assign ⟨6⟩ ⟨7⟩) := by
    rw [← hid]
    exact hroot
  obtain ⟨⟨i, e⟩, Y, heq, hi, -⟩ := ht.exists_assign hassign
  obtain rfl : i = ⟨6⟩ := hi
  have hi : Term.Within (.node ⟨6⟩ e) t := heq ▸ Term.Within.of_mem_children (by simp [Expr.children])
  obtain ⟨q, hstands⟩ := ht.stands.exists_of_within hi
  have hexpr := Option.some.inj (hderef.symm.trans (exprAt_eq_some hstands.shape_id))
  obtain ⟨a, rfl⟩ : ∃ a, e = .deref a none :=
    Expr.eq_deref_of_head_eq ((Expr.head_map ..).symm.trans (congrArg Expr.head hexpr).symm)
  have hwalk := hpath.walk hblock
  obtain ⟨offset, hoffset, haddress⟩ := Session.address_eq_of_variable h₀ ofText?_splitText hx hplace
  obtain rfl := (hoffset (-4)).1 hpair
  exact ⟨splitStart, splitSession, t, a, h₀, ofText?_splitText, hx, hpair, hwalk, ht, hi,
    fun surroundings σ => haddress _ _ t a none surroundings σ hwalk ht hi⟩

end FrameRecovery
