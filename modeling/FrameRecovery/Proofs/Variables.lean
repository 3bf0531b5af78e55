import FrameRecovery.Proofs.Session
import FrameRecovery.Proofs.Word

namespace FrameRecovery

open Flow

namespace Numbering

variable {α : Type} [DecidableEq α] {n : Numbering α} {u v : α} {i : Nat}

/-- The number of a value is its position. -/
theorem index?_eq_some_iff : n.index? v = some i ↔ n.values[i]? = some v := by
  have hposition := @List.findIdx?_eq_some_iff_getElem α n.values (· == v) i
  constructor
  · intro h
    obtain ⟨hi, hv, -⟩ := hposition.1 h
    rw [List.getElem?_eq_getElem hi, beq_iff_eq.1 hv]
  · intro h
    obtain ⟨hi, rfl⟩ := List.getElem?_eq_some_iff.1 h
    refine hposition.2 ⟨hi, beq_self_eq_true _, fun j hj => ?_⟩
    have hne : n.values[j] ≠ n.values[i] := fun heq => hj.ne (n.nodup.getElem_inj_iff.1 heq)
    simpa using hne

theorem mem_toList : (i, v) ∈ n.toList ↔ n.index? v = some i := by
  simp [toList, index?_eq_some_iff, List.mem_zipIdx_iff_getElem?]

end Numbering

namespace Frame

variable {f : Frame} {w w' : Word} {slot slot' : Nat} {n : String}

theorem variableName_injective (h : variableName slot = variableName slot') : slot = slot' :=
  decimal_injective ((String.append_right_inj _).1 h)

theorem mem_toPairs : (w, n) ∈ f.toPairs ↔ ∃ slot, f.index? w = some slot ∧ n = variableName slot := by
  simp [toPairs, Numbering.mem_toList, eq_comm]

/-- Two variables of a frame have the same name exactly if they are at the same offset. -/
theorem variableName_eq_iff (h : f.index? w = some slot) (h' : f.index? w' = some slot') :
    variableName slot = variableName slot' ↔ w = w' := by
  constructor
  · intro heq
    obtain rfl := variableName_injective heq
    rw [Numbering.index?_eq_some_iff] at h h'
    exact Option.some.inj (h.symm.trans h')
  · rintro rfl
    exact congrArg variableName (Option.some.inj (h.symm.trans h'))

/-- A variable is at one offset. -/
theorem mem_toPairs_iff (h : f.index? w = some slot) :
    (w', variableName slot) ∈ f.toPairs ↔ w' = w := by
  rw [mem_toPairs]
  constructor
  · rintro ⟨slot', h', hname⟩
    exact (variableName_eq_iff h' h).1 hname.symm
  · rintro rfl
    exact ⟨slot, h, rfl⟩

end Frame

namespace StackRenaming

theorem form_addressOf (t : Term) : (addressOf t).form = addressOf t.form := by
  obtain ⟨i, e⟩ := t
  cases e <;> simp [addressOf, Expr.map]

/-- The version of the stack pointer that the operand at a node starts from, directly or through one
    dereference, and the offset from it. -/
def place? (m : Machine) (negate : Bool) (f : Flow) (x : NodeId) : Option (Option Nat × Word) :=
  match f.term x with
  | .ok t => m.base? (addressOf t) >>= fun v => (m.offset? negate (addressOf t)).map fun w => (v, w)
  | .error _ => none

theorem place?_eq_some {m : Machine} {negate : Bool} {f : Flow} {x : NodeId} {t : Term}
    {v : Option Nat} {w : Word} (ht : f.term x = .ok t) (hw : m.Locates negate (addressOf t) v w) :
    place? m negate f x = some (v, w) := by
  unfold place?
  rw [ht]
  simp [hw.base?_eq, hw.offset?_eq]

/-- The place of a variable is that of the operand it stands for. -/
theorem Stands.exists_place {m : Machine} {negate : Bool} {f g : Flow} {frame : Frame} {t : Term}
    {n : String} {o : NodeId} (h : Stands m negate f g frame t n o) :
    ∃ v w slot, m.Locates negate (addressOf t) v w ∧ place? m negate g o = some (v, w) ∧
      frame.index? w = some slot ∧ n = Frame.variableName slot := by
  obtain ⟨v, w, slot, hw, hslot, hn⟩ := h.place
  obtain ⟨t', ht', rfl, hform⟩ := h.record
  have hterm := ht'.term_eq
  have hw' : m.Locates negate (addressOf t') v w :=
    hw.of_form_eq (by rw [form_addressOf, hform, form_addressOf])
  exact ⟨v, w, slot, hw, place?_eq_some hterm hw', hslot, hn⟩

end StackRenaming

/-- Every variable that a recovery ends with was made by renaming. -/
theorem Recovery.Course.exists_stands {t : Task} {entry : Address} {S : Phase → Session}
    (h : Course t entry S) {x o : NodeId} {n : String} {k : Option Nat}
    (hx : (S .stackRenamed).flow.exprAt x = some (.var n k o)) :
    ∃ T, StackRenaming.Stands t.machine t.options.negateSubtractedOffsets (S .pruned).flow
        (S .stackRenamed).flow (S .stackRenamed).frame T n o ∧
      ((T.id = x ∧ ∃ a v, T.expr = .deref a v) ∨ (S .pruned).flow.exprAt x = none) := by
  obtain hold | h := h.renamed.vars x n k o hx
  · exact (h.pruned.sound.typed.location x _ hold).elim
  · exact h

/-- Renaming keeps the operands of merges, with their versions and the nodes below them. Those that are registers
    keep their texts. -/
theorem Session.mergeOperands_kept {text name stackPointer : String} {l : Listing} {options : Options}
    {entry : Address} {s s' : Session} (hl : Listing.parse text = .ok l)
    (hs : (Task.mk l { name, stackPointer } options).sessionAt? entry .pruned = some s)
    (hs' : (Task.mk l { name, stackPointer } options).sessionAt? entry .stackRenamed = some s') {x : NodeId}
    (hx : s.flow.IsInput x) : s'.flow.IsInput x ∧ s'.flow.exprAt x = s.flow.exprAt x ∧
      ∀ n v, s.flow.exprAt x = some (.register n v) → s'.flow.text x = s.flow.text x := by
  obtain ⟨S, h, rfl⟩ := Recovery.exists_course_of_sessionAt?
    (t := ⟨l, { name, stackPointer }, options⟩) (Listing.wellFormed_of_parse hl) rfl (by decide) hs
  obtain rfl : S .stackRenamed = s' := by
    rw [h.sessionAt?_eq .stackRenamed] at hs'
    exact Option.some.inj hs'
  obtain ⟨hinput, hexpr⟩ := h.renamed.inputs x hx
  exact ⟨hinput, hexpr, fun n v hn => by rw [text_of_register (hexpr.trans hn), text_of_register hn]⟩

/-- A function in which memory at the stack pointer is written on one of two ways to a read of it. -/
def mergedText : String :=
  "0: if eax goto 2\n1: [esp] = 1\n2: ebx = [esp]\n3: return"

/-- In the operands of the merge that are dereferences the addresses are renamed. -/
theorem Session.mergeOperand_renamed : ∃ s s' x, Session.ofText? mergedText "x86" "esp" 0 .pruned = some s ∧
    Session.ofText? mergedText "x86" "esp" 0 .stackRenamed = some s' ∧ s.flow.IsInput x ∧
      s'.flow.isLive x = .ok true ∧ s.flow.text x = .ok "[esp@0]@1" ∧ s'.flow.text x = .ok "[&s0]@1" := by
  obtain ⟨hcheck, hcheck'⟩ : ((Session.ofText? mergedText "x86" "esp" 0 .pruned).any fun s =>
      decide (s.flow.parentExpr? ⟨14⟩ = .ok (some (.theta [⟨12⟩, ⟨14⟩])) ∧ s.flow.text ⟨14⟩ = .ok "[esp@0]@1")) = true ∧
      ((Session.ofText? mergedText "x86" "esp" 0 .stackRenamed).any fun s =>
        decide (s.flow.isLive ⟨14⟩ = .ok true ∧ s.flow.text ⟨14⟩ = .ok "[&s0]@1")) = true := by
    decide +kernel
  obtain ⟨s, hs, hchecks⟩ := Option.any_eq_true _ _ |>.1 hcheck
  obtain ⟨s', hs', hchecks'⟩ := Option.any_eq_true _ _ |>.1 hcheck'
  obtain ⟨hinput, htext⟩ := of_decide_eq_true hchecks
  obtain ⟨hlive, htext'⟩ := of_decide_eq_true hchecks'
  exact ⟨s, s', ⟨14⟩, hs, hs', ⟨_, hinput⟩, hlive, htext, htext'⟩

/-- Two variables that a recovery ends with have the same name exactly if what they stand for is at
    the same offset from the stack pointer, whatever versions of it are meant. -/
theorem Session.variables_eq_iff_offset_eq {text name stackPointer : String} {entry : Address}
    {s : Session} (hs : Session.ofText? text name stackPointer entry .stackRenamed = some s)
    {x x' o o' : NodeId} {n n' : String} {k k' : Option Nat}
    (hx : s.flow.exprAt x = some (.var n k o)) (hx' : s.flow.exprAt x' = some (.var n' k' o')) :
    ∃ v v' w w', StackRenaming.place? { name, stackPointer } true s.flow o = some (v, w) ∧
      StackRenaming.place? { name, stackPointer } true s.flow o' = some (v', w') ∧
      (n = n' ↔ w = w') := by
  obtain ⟨l, S, h, hS⟩ := Recovery.exists_course_of_ofText? (by decide) hs
  obtain rfl : S .stackRenamed = s := Option.some.inj ((hS _).symm.trans hs)
  obtain ⟨T, hT, -⟩ := h.exists_stands hx
  obtain ⟨T', hT', -⟩ := h.exists_stands hx'
  obtain ⟨v, w, slot, -, hplace, hslot, rfl⟩ := hT.exists_place
  obtain ⟨v', w', slot', -, hplace', hslot', rfl⟩ := hT'.exists_place
  exact ⟨v, v', w, w', hplace, hplace', Frame.variableName_eq_iff hslot hslot'⟩

/-- A function in which memory is written twice, four below the stack pointer: below that on entry
    before control splits, and below that of either way after it. -/
def splitText : String :=
  "0: esp = esp - 4\n1: [esp] = 1\n2: if eax goto 4\n3: esp = esp - 4\n4: [esp - 4] = 2\n5: return"

/-- The state in which the recovery of the function ends. -/
def splitSession : Session :=
  (Session.ofText? splitText "x86" "esp" 0 .stackRenamed).get (by decide +kernel)

theorem ofText?_splitText :
    Session.ofText? splitText "x86" "esp" 0 .stackRenamed = some splitSession :=
  (Option.some_get _).symm

/-- The two writes are to one variable, although they start from different versions. -/
theorem Session.variable_of_two_versions :
    ∃ s x x' o o', Session.ofText? splitText "x86" "esp" 0 .stackRenamed = some s ∧
      s.flow.isLive x = .ok true ∧ s.flow.isLive x' = .ok true ∧
      s.flow.exprAt x = some (.var "s0" (some 1) o) ∧
      s.flow.exprAt x' = some (.var "s0" (some 1) o') ∧
      StackRenaming.place? .x86 true s.flow o = some (some 0, -4) ∧
      StackRenaming.place? .x86 true s.flow o' = some (some 3, -4) :=
  ⟨splitSession, ⟨6⟩, ⟨19⟩, ⟨42⟩, ⟨50⟩, ofText?_splitText, by decide +kernel⟩

/-- The variables of the two writes have one name, as their offsets are the same. -/
theorem Session.variables_eq_iff_offset_eq_split :
    ∃ s o o' v v' w w', Session.ofText? splitText "x86" "esp" 0 .stackRenamed = some s ∧
      s.flow.exprAt ⟨6⟩ = some (.var "s0" (some 1) o) ∧
      s.flow.exprAt ⟨19⟩ = some (.var "s0" (some 1) o') ∧
      StackRenaming.place? .x86 true s.flow o = some (v, w) ∧
      StackRenaming.place? .x86 true s.flow o' = some (v', w') ∧ w = w' := by
  have hx : splitSession.flow.exprAt ⟨6⟩ = some (.var "s0" (some 1) ⟨42⟩) ∧
      splitSession.flow.exprAt ⟨19⟩ = some (.var "s0" (some 1) ⟨50⟩) := by decide +kernel
  obtain ⟨v, v', w, w', hplace, hplace', hiff⟩ :=
    Session.variables_eq_iff_offset_eq ofText?_splitText hx.1 hx.2
  exact ⟨splitSession, _, _, v, v', w, w', ofText?_splitText, hx.1, hx.2, hplace, hplace', hiff.1 rfl⟩

end FrameRecovery
