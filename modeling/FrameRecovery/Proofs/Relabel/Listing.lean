import FrameRecovery.ControlFlow
import FrameRecovery.Lowering
import FrameRecovery.Proofs.Listing
import FrameRecovery.Proofs.Relabel.Edit

namespace FrameRecovery

variable {ρ σ : String → String}

namespace Operand

mutual

/-- The operand with other names for the registers. -/
def relabel (ρ : String → String) : Operand → Operand
  | register n => register (ρ n)
  | constant w => constant w
  | deref x => deref (x.relabel ρ)
  | addressOf x => addressOf (x.relabel ρ)
  | binary op x y => binary op (x.relabel ρ) (y.relabel ρ)
  | unary op x => unary op (x.relabel ρ)
  | call x ys => call (x.relabel ρ) (relabelAll ρ ys)

/-- Several operands with other names for the registers. -/
def relabelAll (ρ : String → String) : List Operand → List Operand
  | [] => []
  | x :: rest => x.relabel ρ :: relabelAll ρ rest

end

mutual

/-- The registers of an operand, left to right. -/
def registers : Operand → List String
  | register n => [n]
  | constant _ => []
  | deref x | addressOf x | unary _ x => x.registers
  | binary _ x y => x.registers ++ y.registers
  | call x ys => x.registers ++ registersOfAll ys

/-- The registers of several operands, left to right. -/
def registersOfAll : List Operand → List String
  | [] => []
  | x :: rest => x.registers ++ registersOfAll rest

end

mutual

theorem relabel_congr : ∀ {x : Operand}, (∀ n ∈ x.registers, ρ n = σ n) → x.relabel ρ = x.relabel σ
  | register n, h => congrArg register (h n (by simp [registers]))
  | constant _, _ => rfl
  | deref _, h => congrArg deref (relabel_congr h)
  | addressOf _, h => congrArg addressOf (relabel_congr h)
  | unary op _, h => congrArg (unary op) (relabel_congr h)
  | binary op _ _, h => congrArg₂ (binary op)
    (relabel_congr fun n hn => h n (List.mem_append_left _ hn))
    (relabel_congr fun n hn => h n (List.mem_append_right _ hn))
  | call _ _, h => congrArg₂ call
    (relabel_congr fun n hn => h n (List.mem_append_left _ hn))
    (relabelAll_congr fun n hn => h n (List.mem_append_right _ hn))

theorem relabelAll_congr : ∀ {xs : List Operand}, (∀ n ∈ registersOfAll xs, ρ n = σ n) →
    relabelAll ρ xs = relabelAll σ xs
  | [], _ => rfl
  | _ :: _, h => congrArg₂ List.cons
    (relabel_congr fun n hn => h n (List.mem_append_left _ hn))
    (relabelAll_congr fun n hn => h n (List.mem_append_right _ hn))

end

mutual

theorem named_iff : ∀ {x : Operand}, x.Named ↔ ∀ n ∈ x.registers, IsRegisterName n
  | register _ => by simp [Named, registers]
  | constant _ => by simp [Named, registers]
  | deref _ => by simpa [Named, registers] using named_iff
  | addressOf _ => by simpa [Named, registers] using named_iff
  | unary _ _ => by simpa [Named, registers] using named_iff
  | binary _ _ _ => by simp only [Named, registers, List.mem_append, or_imp, forall_and, named_iff]
  | call _ _ => by
    simp only [Named, registers, List.mem_append, or_imp, forall_and, named_iff, allNamed_iff]

theorem allNamed_iff : ∀ {xs : List Operand}, AllNamed xs ↔ ∀ n ∈ registersOfAll xs, IsRegisterName n
  | [] => by simp [AllNamed, registersOfAll]
  | _ :: _ => by simp only [AllNamed, registersOfAll, List.mem_append, or_imp, forall_and, named_iff, allNamed_iff]

end

mutual

theorem registers_relabel : ∀ x : Operand, (x.relabel ρ).registers = x.registers.map ρ
  | register _ => rfl
  | constant _ => rfl
  | deref x => registers_relabel x
  | addressOf x => registers_relabel x
  | unary _ x => registers_relabel x
  | binary _ x y => by simp [relabel, registers, registers_relabel x, registers_relabel y]
  | call x ys => by simp [relabel, registers, registers_relabel x, registersOfAll_relabel ys]

theorem registersOfAll_relabel : ∀ xs : List Operand, registersOfAll (relabelAll ρ xs) = (registersOfAll xs).map ρ
  | [] => rfl
  | x :: rest => by simp [relabelAll, registersOfAll, registers_relabel x, registersOfAll_relabel rest]

end

end Operand

namespace Action

/-- The action with other names for the registers. -/
def relabel (ρ : String → String) : Action → Action
  | assign x y => assign (x.relabel ρ) (y.relabel ρ)
  | call x => call (x.relabel ρ)
  | goto a => goto a
  | branch x a => branch (x.relabel ρ) a
  | ret x => ret (x.map (Operand.relabel ρ))

/-- The registers of an action, left to right. -/
def registers (a : Action) : List String :=
  a.operands.flatMap Operand.registers

@[simp] theorem targets_relabel (a : Action) : (a.relabel ρ).targets = a.targets := by
  cases a <;> rfl

@[simp] theorem fallsThrough_relabel (a : Action) : (a.relabel ρ).fallsThrough = a.fallsThrough := by
  cases a <;> rfl

@[simp] theorem endsBlock_relabel (a : Action) : (a.relabel ρ).endsBlock = a.endsBlock := by
  cases a <;> rfl

theorem operands_relabel (a : Action) : (a.relabel ρ).operands = a.operands.map (Operand.relabel ρ) := by
  cases a with
  | ret x => cases x <;> rfl
  | _ => rfl

theorem relabel_congr {a : Action} (h : ∀ n ∈ a.registers, ρ n = σ n) : a.relabel ρ = a.relabel σ := by
  have hoperand : ∀ x ∈ a.operands, x.relabel ρ = x.relabel σ := fun x hx =>
    Operand.relabel_congr fun n hn => h n (List.mem_flatMap.2 ⟨x, hx, hn⟩)
  cases a with
  | ret x => cases x <;> simp_all [relabel, operands]
  | _ => simp_all [relabel, operands]

end Action

/-- The instruction with other names for the registers. -/
def Instruction.relabel (ρ : String → String) (i : Instruction) : Instruction :=
  { i with action := i.action.relabel ρ }

namespace Listing

/-- The listing with other names for the registers. -/
def relabel (ρ : String → String) (l : Listing) : Listing :=
  { l with instructions := l.instructions.mapValues (Instruction.relabel ρ) }

/-- The registers of a listing. -/
def registers (l : Listing) : List String :=
  l.instructions.values.flatMap fun i => i.action.registers

variable {l : Listing}

theorem instruction?_relabel (l : Listing) (a : Address) :
    (l.relabel ρ).instruction? a = (l.instruction? a).map (Instruction.relabel ρ) :=
  SortedMap.find?_mapValues ..

theorem next?_relabel (l : Listing) (a : Address) : (l.relabel ρ).next? a = l.next? a := by
  unfold next?
  rw [relabel, SortedMap.keys_mapValues]

theorem relabel_congr (h : ∀ n ∈ l.registers, ρ n = σ n) : l.relabel ρ = l.relabel σ := by
  unfold relabel
  rw [SortedMap.mapValues_congr fun i hi => ?_]
  unfold Instruction.relabel
  rw [Action.relabel_congr fun n hn => h n (List.mem_flatMap.2 ⟨i, hi, hn⟩)]

theorem mem_registers {n : String} : n ∈ l.registers ↔ ∃ a i, l.instruction? a = some i ∧ n ∈ i.action.registers := by
  unfold registers
  rw [List.mem_flatMap]
  constructor
  · rintro ⟨i, hi, hn⟩
    obtain ⟨a, ha⟩ := SortedMap.mem_values.1 hi
    exact ⟨a, i, ha, hn⟩
  · rintro ⟨a, i, hi, hn⟩
    exact ⟨i, SortedMap.mem_values.2 ⟨a, hi⟩, hn⟩

/-- All registers of a well-formed listing have names. -/
theorem WellFormed.isRegisterName (hl : l.WellFormed) {n : String} (hn : n ∈ l.registers) : IsRegisterName n := by
  obtain ⟨a, i, hi, hn⟩ := mem_registers.1 hn
  obtain ⟨x, hx, hn⟩ := List.mem_flatMap.1 hn
  exact Operand.named_iff.1 ((hl.acts a i hi).named x hx) n hn

theorem WellFormed.relabel (hl : l.WellFormed) (hρ : ∀ n ∈ l.registers, IsRegisterName (ρ n)) :
    (l.relabel ρ).WellFormed := by
  refine ⟨fun a i hi => ?_, fun a i hi => ?_⟩
  all_goals
    rw [instruction?_relabel, Option.map_eq_some_iff] at hi
    obtain ⟨i, hi, rfl⟩ := hi
  · exact hl.address_eq a i hi
  · have hacts := hl.acts a i hi
    refine ⟨fun x y hxy => ?_, fun x hx => ?_, fun x hx => ?_⟩
    · obtain ⟨address, line, action⟩ := i
      cases action <;> cases hxy
      next x y =>
        have hx := hacts.assign x y rfl
        cases x <;> simp_all [Operand.isAssignable, Operand.relabel]
    · obtain ⟨address, line, action⟩ := i
      cases action <;> cases hx
      next x =>
        have hx := hacts.call x rfl
        cases x <;> simp_all [Operand.isCall, Operand.relabel]
    · rw [Instruction.relabel, Action.operands_relabel] at hx
      obtain ⟨y, hy, rfl⟩ := List.mem_map.1 hx
      rw [Operand.named_iff, Operand.registers_relabel]
      intro m hm
      obtain ⟨n, hn, rfl⟩ := List.mem_map.1 hm
      exact hρ n (mem_registers.2 ⟨a, i, hi, List.mem_flatMap.2 ⟨y, hy, hn⟩⟩)

end Listing

namespace ControlFlow

variable {l : Listing}

theorem checkTargets_relabel (l : Listing) (i : Instruction) :
    checkTargets (l.relabel ρ) (i.relabel ρ) = checkTargets l i := by
  unfold checkTargets
  rw [Instruction.relabel, Action.targets_relabel]
  simp only [Listing.instruction?_relabel, Option.isSome_map]

theorem next?_relabel (l : Listing) (i : Instruction) : next? (l.relabel ρ) (i.relabel ρ) = next? l i := by
  unfold next?
  rw [Instruction.relabel, Action.fallsThrough_relabel, Listing.next?_relabel]

theorem leadersOf_relabel (i : Instruction) (next : Option Address) :
    leadersOf (i.relabel ρ) next = leadersOf i next := by
  unfold leadersOf
  rw [Instruction.relabel, Action.targets_relabel, Action.endsBlock_relabel]

theorem explore_relabel (l : Listing) (pending : List Address) (leaders : SortedSet Address)
    (work : List Address) : explore (l.relabel ρ) pending leaders work = explore l pending leaders work := by
  fun_induction explore l pending leaders work with
  | case1 => rw [explore]
  | case2 pending leaders a work ha hi =>
    rw [explore, dif_pos ha, Listing.instruction?_relabel, hi]
    rfl
  | case3 pending leaders a work ha i hi e htargets =>
    rw [explore, dif_pos ha, Listing.instruction?_relabel, hi]
    simp only [Option.map_some, checkTargets_relabel, htargets]
  | case4 pending leaders a work ha i hi _ e hnext htargets =>
    rw [explore, dif_pos ha, Listing.instruction?_relabel, hi]
    simp only [Option.map_some, checkTargets_relabel, next?_relabel, htargets, hnext]
  | case5 pending leaders a work ha i hi _ next hnext htargets _ _ _ _ ih =>
    rw [explore, dif_pos ha, Listing.instruction?_relabel, hi]
    simp only [Option.map_some, checkTargets_relabel, next?_relabel, htargets, hnext, leadersOf_relabel]
    simpa only [Instruction.relabel, Action.targets_relabel] using ih
  | case6 pending leaders a work ha ih => rw [explore, dif_neg ha, ih]

theorem straightRun_relabel (leaders : SortedSet Address) (is : List Instruction) :
    straightRun leaders (is.map (Instruction.relabel ρ)) = straightRun leaders is := by
  induction is with
  | nil => rfl
  | cons i rest ih =>
    have hnext : (rest.map (Instruction.relabel ρ)).head?.map Instruction.address =
        rest.head?.map Instruction.address := by
      rw [List.head?_map, Option.map_map]
      rfl
    rw [List.map_cons, straightRun, straightRun, ih, hnext]
    simp only [Instruction.relabel, Action.fallsThrough_relabel, Action.endsBlock_relabel, Action.targets_relabel]

theorem extentAt_relabel (l : Listing) (leaders : SortedSet Address) (start : Address) :
    extentAt (l.relabel ρ) leaders start = extentAt l leaders start := by
  unfold extentAt
  rw [Listing.relabel, SortedMap.values_mapValues, List.dropWhile_map]
  exact congrArg (fun r : List Address × List Address => Extent.mk start r.1 r.2) (straightRun_relabel leaders _)

theorem extents_relabel (l : Listing) (entry : Address) : extents (l.relabel ρ) entry = extents l entry := by
  unfold extents
  rw [Listing.instruction?_relabel, Option.isSome_map, explore_relabel, Listing.relabel, SortedMap.keys_mapValues,
    ← Listing.relabel]
  simp only [funext (extentAt_relabel l _)]

/-- Control is followed without regard to names. -/
theorem recover_relabel (l : Listing) : recover (l.relabel ρ) = recover l := by
  unfold recover
  simp only [extents_relabel]

end ControlFlow

namespace Lowering

open Flow (Relabels)

mutual

theorem operand_relabels : ∀ x : Operand, Parallel (Relabels ρ) Eq (operand x) (operand (x.relabel ρ))
  | .register n => Edit.alloc_relabels (.register n none)
  | .constant w => Edit.alloc_relabels (.constant w)
  | .deref x => .bind (operand_relabels x) fun _ _ h => h ▸ Edit.alloc_relabels (.deref _ none)
  | .addressOf x => .bind (operand_relabels x) fun _ _ h => h ▸ Edit.alloc_relabels (.addressOf _)
  | .unary op x => .bind (operand_relabels x) fun _ _ h => h ▸ Edit.alloc_relabels (.unary op _)
  | .binary op x y => .bind (operand_relabels x) fun _ _ h => .bind (operand_relabels y) fun _ _ h' =>
    h ▸ h' ▸ Edit.alloc_relabels (.binary op _ _)
  | .call x ys => .bind (operand_relabels x) fun _ _ h => .bind (operands_relabels ys) fun _ _ h' =>
    h ▸ h' ▸ Edit.alloc_relabels (.call _ _)

theorem operands_relabels :
    ∀ xs : List Operand, Parallel (Relabels ρ) Eq (operands xs) (operands (Operand.relabelAll ρ xs))
  | [] => .of_pure rfl
  | x :: rest => .bind (operand_relabels x) fun _ _ h => .bind (operands_relabels rest) fun _ _ h' =>
    .of_pure (congrArg₂ List.cons h h')

end

theorem action_relabels (a : Action) : Parallel (Relabels ρ) Eq (action a) (action (a.relabel ρ)) := by
  cases a with
  | assign x y =>
    refine .bind (operand_relabels x) ?_
    rintro x _ rfl
    refine .bind (operand_relabels y) ?_
    rintro y _ rfl
    exact Edit.alloc_relabels (.assign x y)
  | call x => exact operand_relabels x
  | goto a => exact Edit.alloc_relabels (.goto a)
  | branch x a =>
    refine .bind (operand_relabels x) ?_
    rintro x _ rfl
    exact Edit.alloc_relabels (.branch x a)
  | ret x =>
    cases x with
    | none => exact Edit.alloc_relabels (.ret none)
    | some x =>
      refine .bind (operand_relabels x) ?_
      rintro x _ rfl
      exact Edit.alloc_relabels (.ret (some x))

theorem instruction_relabels (l : Listing) (block address : Address) : Parallel (Relabels ρ) (fun _ _ => True)
    (instruction l block address) (instruction (l.relabel ρ) block address) := by
  unfold instruction
  rw [Listing.instruction?_relabel]
  cases l.instruction? address with
  | none => exact .of_throw _ _
  | some i =>
    refine .bind (.of_lift (action_relabels i.action)) ?_
    rintro root _ rfl
    exact .bind (.of_lift (Edit.pushStatement_relabels root)) fun _ _ _ => .of_pure trivial

theorem lower_relabels (l : Listing) :
    Parallel (Relabels ρ) (fun _ _ => True) (lower l) (lower (l.relabel ρ)) := by
  refine .bind (.of_lift .of_get) ?_
  rintro f _ rfl
  exact .forM_same fun b _ => .forM_same fun a _ => instruction_relabels l b.address a

end Lowering

end FrameRecovery
