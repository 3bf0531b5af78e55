import FrameRecovery.Proofs.Passes
import FrameRecovery.Proofs.Variables

namespace FrameRecovery

open Flow

namespace Numbering

variable {α : Type} [DecidableEq α] {n : Numbering α} {u v : α} {i : Nat}

theorem values_assign (n : Numbering α) (v : α) :
    (n.assign v).2.values = if v ∈ n.values then n.values else n.values ++ [v] := by
  cases h : n.index? v with
  | some i =>
    have hv : v ∈ n.values := List.mem_of_getElem? (index?_eq_some_iff.1 h)
    rw [assign_of_index? h, if_pos hv]
  | none =>
    rw [if_neg (index?_eq_none_iff.1 h)]
    unfold assign
    split
    next hi => cases h.symm.trans hi
    next => rfl

theorem eraseDups_eq_self {xs : List α} (h : xs.Nodup) : xs.eraseDups = xs := by
  induction xs with
  | nil => rfl
  | cons a xs ih =>
    obtain ⟨ha, hxs⟩ := List.nodup_cons.1 h
    have hfilter : xs.filter (fun b => !b == a) = xs :=
      List.filter_eq_self.2 fun b hb => by simpa using fun hba : b = a => ha (hba ▸ hb)
    rw [List.eraseDups_cons, hfilter, ih hxs]

/-- Values are numbered in the order in which their numbers were first asked for. -/
theorem values_assignAll (n : Numbering α) (vs : List α) : (n.assignAll vs).values = (n.values ++ vs).eraseDups := by
  induction vs generalizing n with
  | nil => rw [List.append_nil, eraseDups_eq_self n.nodup, assignAll, List.foldl_nil]
  | cons v vs ih =>
    change ((n.assign v).2.assignAll vs).values = _
    rw [ih, values_assign]
    split
    next hv =>
      rw [List.eraseDups_append, List.eraseDups_append]
      simp [List.removeAll, hv]
    next => rw [List.append_assoc, List.singleton_append]

/-- A number that was given is kept. -/
theorem index?_assignAll_of_some (vs : List α) (h : n.index? u = some i) : (n.assignAll vs).index? u = some i := by
  induction vs generalizing n with
  | nil => exact h
  | cons v vs ih => exact ih (index?_assign_of_some h v)

end Numbering

/-- A variable is named after the position of its offset. -/
theorem Frame.variableAt?_eq_some_iff {f : Frame} {w : Word} {n : String} :
    f.variableAt? w = some n ↔ ∃ slot, f.values[slot]? = some w ∧ n = variableName slot := by
  simp only [variableAt?, Option.map_eq_some_iff, Numbering.index?_eq_some_iff, eq_comm (a := n)]

/-- A flow that passes for any machines have made of what a text was turned into. -/
inductive FlowPass.Reached : Flow → Prop
  | lowered {f : Flow} (h : f.IsLowered) : Reached f
  | pass {f g : Flow} (h : Reached f) (name stackPointer : String) (p : FlowPass)
    (hrun : (p.run { name, stackPointer }).run f = .ok (.ok (), g)) : Reached g

theorem FlowPass.Reached.ready {f : Flow} (h : Reached f) : Ready f := by
  induction h with
  | lowered h => exact ready_of_isLowered h
  | pass _ name stackPointer p hrun ih =>
    obtain ⟨_, g, hrun', a, rfl, hg⟩ := run_succeeds (m := { name, stackPointer }) rfl ih p
    cases hrun.symm.trans hrun'
    exact hg

namespace StackRenaming

/-- What renaming a flow ends with: the number of replacements, the frame and the flow. -/
structure Outcome where
  count : Nat
  frame : Frame
  flow : Flow

/-- Renames flows one after another, all with one frame, up to the first failure. -/
def renameEach (m : Machine) (negate : Bool) : Frame → List Flow → Except Fault (Except Error (List Outcome))
  | _, [] => .ok (.ok [])
  | frame, f :: fs => do
    match ← (Renaming.rename (policy m negate)).run.run frame f with
    | ((.ok count, frame'), g) => return (← renameEach m negate frame' fs).map (⟨count, frame', g⟩ :: ·)
    | ((.error e, _), _) => return .error e

variable {m : Machine} {negate : Bool} {f g : Flow} {fs : List Flow} {frame frame₀ : Frame} {o : Outcome}

/-- The outcome `o` of renaming a flow `f`, where the offsets `met` were met since the frame was `frame₀`. -/
structure Outcome.Names (m : Machine) (negate : Bool) (frame₀ : Frame) (met : List Word) (f : Flow) (o : Outcome) :
    Prop where
  /-- The offsets are numbered in the order in which they were first met. -/
  numbered : ∀ w n, o.frame.variableAt? w = some n ↔
    ∃ slot, (frame₀.values ++ met).eraseDups[slot]? = some w ∧ n = Frame.variableName slot
  unique : ∀ w w' n, o.frame.variableAt? w = some n → o.frame.variableAt? w' = some n → w = w'
  count_eq : o.count = (offsetsMet m negate f).length
  /-- A variable that was not there before has the name of the offset of what it stands for. -/
  created : ∀ x n k r, o.flow.exprAt x = some (.var n k r) → f.exprAt x = some (.var n k r) ∨
    ∃ v w, place? m negate o.flow r = some (v, w) ∧ o.frame.variableAt? w = some n
  /-- The flow can be used in a session again. -/
  reached : FlowPass.Reached o.flow
  /-- Renaming it again, with whatever frame, replaces nothing. -/
  again : ∀ frame, (Renaming.rename (policy m negate)).run.run frame o.flow = .ok ((.ok 0, frame), o.flow)

theorem run_rename (hm : m.Regular) (hf : FlowPass.Ready f) (negate : Bool) (frame : Frame) : ∃ n frame' g,
    (Renaming.rename (policy m negate)).run.run frame f = .ok ((.ok n, frame'), g) ∧ Renamed m negate f g frame' ∧
      Collects (offsetsMet m negate f) f g frame frame' n ∧ offsetsMet m negate g = [] := by
  obtain ⟨⟨_, frame'⟩, g, hrun, n, rfl, hg⟩ := @rename_gives m negate f frame hm hf.sound hf.rooted
  exact ⟨n, frame', g, hrun, hg⟩

/-- Renaming a flow again changes neither it nor the frame. -/
theorem Renamed.run_rename_again (hm : m.Regular) (hg : Renamed m negate f g frame₀)
    (hnil : offsetsMet m negate g = []) (frame : Frame) :
    (Renaming.rename (policy m negate)).run.run frame g = .ok ((.ok 0, frame), g) := by
  obtain ⟨⟨_, frame'⟩, h, hrun, n, rfl, -, hcollects, -⟩ :=
    @rename_gives m negate g frame hm hg.sound hg.rooted
  rw [hnil] at hcollects
  obtain ⟨rfl, rfl, hsame⟩ := hcollects
  obtain rfl := hsame rfl
  exact hrun

/-- Flows can be renamed one after another, and the frame is asked for the offsets that are met in all of them. -/
theorem renameEach_gives (hm : m.Regular) (hfs : ∀ f ∈ fs, FlowPass.Ready f) (negate : Bool) (frame : Frame) :
    ∃ os, renameEach m negate frame fs = .ok (.ok os) ∧ os.length = fs.length ∧
      (∀ (i : Nat) (f : Flow) (o : Outcome), fs[i]? = some f → os[i]? = some o →
        (∃ frame₁, (Renaming.rename (policy m negate)).run.run frame₁ f = .ok ((.ok o.count, o.frame), o.flow)) ∧
        o.frame = frame.assignAll ((fs.take (i + 1)).flatMap (offsetsMet m negate)) ∧
        o.count = (offsetsMet m negate f).length ∧ Renamed m negate f o.flow o.frame ∧
        offsetsMet m negate o.flow = []) ∧
      (frame :: os.map Outcome.frame).Pairwise fun frame₁ frame₂ => ∃ ws, frame₂ = frame₁.assignAll ws := by
  induction fs generalizing frame with
  | nil => exact ⟨[], rfl, rfl, by simp, by simp⟩
  | cons f fs ih =>
    obtain ⟨n, frame', g, hrun, hrenamed, hcollects, hnil⟩ := run_rename hm (hfs f (by simp)) negate frame
    obtain ⟨os, hos, hlength, hrest, hlater⟩ := ih (fun f hf => hfs f (by simp [hf])) frame'
    refine ⟨⟨n, frame', g⟩ :: os, ?_, by simp [hlength], fun i f' o hf' ho => ?_, ?_⟩
    · unfold renameEach
      rw [hrun, bind_ok]
      change (renameEach m negate frame' fs >>= _) = _
      rw [hos]
      rfl
    · cases i with
      | zero =>
        cases hf'
        cases ho
        exact ⟨⟨frame, hrun⟩, by simpa using hcollects.frame_eq, hcollects.count_eq, hrenamed, hnil⟩
      | succ i =>
        obtain ⟨hrun, hframe, hrest⟩ := hrest i f' o hf' ho
        refine ⟨hrun, ?_, hrest⟩
        rw [hframe, hcollects.frame_eq, List.take_succ_cons, List.flatMap_cons, Numbering.assignAll_append]
    · refine List.pairwise_cons.2 ⟨fun later hmem => ?_, hlater⟩
      obtain rfl | hmem := List.mem_cons.1 hmem
      · exact ⟨_, hcollects.frame_eq⟩
      · obtain ⟨ws, rfl⟩ := (List.pairwise_cons.1 hlater).1 later hmem
        exact ⟨_, by rw [hcollects.frame_eq, ← Numbering.assignAll_append]⟩

/-- The variables of a session, in which flows are renamed that passes have made of any texts. No pass fails. There is
    one variable for each offset, its number tells when the offset was first met, and it keeps its name. -/
theorem renameEach_names {name stackPointer : String} (hfs : ∀ f ∈ fs, FlowPass.Reached f) (negate : Bool)
    (frame : Frame) : ∃ os, renameEach { name, stackPointer } negate frame fs = .ok (.ok os) ∧
      os.length = fs.length ∧
      (∀ (i : Nat) (f : Flow) (o : Outcome), fs[i]? = some f → os[i]? = some o →
        o.Names { name, stackPointer } negate frame
          ((fs.take (i + 1)).flatMap (offsetsMet { name, stackPointer } negate)) f) ∧
      (frame :: os.map Outcome.frame).Pairwise fun frame₁ frame₂ =>
        ∀ w n, frame₁.variableAt? w = some n → frame₂.variableAt? w = some n := by
  have hm : Machine.Regular { name, stackPointer } := rfl
  obtain ⟨os, hos, hlength, hall, hlater⟩ := renameEach_gives hm (fun f hf => (hfs f hf).ready) negate frame
  refine ⟨os, hos, hlength, fun i f o hf ho => ?_, hlater.imp ?_⟩
  · obtain ⟨⟨frame₁, hrun⟩, hframe, hcount, hrenamed, hnil⟩ := hall i f o hf ho
    refine ⟨fun w n => ?_, fun w w' n hn hn' => ?_, hcount, fun x n k r hx => ?_,
      .pass (hfs f (List.mem_of_getElem? hf)) name stackPointer (.rename negate frame₁)
        (FlowPass.run_rename hrun), hrenamed.run_rename_again hm hnil⟩
    · rw [Frame.variableAt?_eq_some_iff, hframe, Numbering.values_assignAll]
    · obtain ⟨slot, hslot, rfl⟩ := Option.map_eq_some_iff.1 hn
      obtain ⟨slot', hslot', hname⟩ := Option.map_eq_some_iff.1 hn'
      exact (Frame.variableName_eq_iff hslot hslot').1 hname.symm
    · obtain hold | ⟨t, hstands, -⟩ := hrenamed.vars x n k r hx
      · exact .inl hold
      · obtain ⟨v, w, slot, -, hplace, hslot, rfl⟩ := hstands.exists_place
        exact .inr ⟨v, w, hplace, by rw [Frame.variableAt?, hslot, Option.map_some]⟩
  · rintro frame₁ _ ⟨ws, rfl⟩ w n hn
    obtain ⟨slot, hslot, rfl⟩ := Option.map_eq_some_iff.1 hn
    rw [Frame.variableAt?, Numbering.index?_assignAll_of_some ws hslot, Option.map_some]

/-- A function that writes the stack pointer to the frame and reads the frame elsewhere. -/
def savedText : String :=
  "0: [esp + 8] = esp\n1: ebx = [esp - 4]\n2: return"

/-- Two functions are renamed in one session, the second of them tagged. In the first the offsets -4, 0, -4 and -4 are
    met, in the second 8, 0 and -4. -/
theorem renameEach_names_saved : ∃ f g h os, Flow.ofText? splitText 0 = some f ∧ Flow.ofText? savedText 0 = some g ∧
    ((FlowPass.tag .registers).run { name := "x86", stackPointer := "esp" }).run g = .ok (.ok (), h) ∧
    renameEach { name := "x86", stackPointer := "esp" } true .empty [f, h] = .ok (.ok os) ∧
    os.map (fun o => (o.count, o.frame.toPairs)) =
      [(4, [(-4, "s0"), (0, "s1")]), (3, [(-4, "s0"), (0, "s1"), (8, "s2")])] ∧
    ∀ (i : Nat) (f' : Flow) (o : Outcome), [f, h][i]? = some f' → os[i]? = some o →
      o.Names { name := "x86", stackPointer := "esp" } true .empty
        (([f, h].take (i + 1)).flatMap (offsetsMet { name := "x86", stackPointer := "esp" } true)) f' := by
  have hvalues : ((Flow.ofText? splitText 0).any fun f => (Flow.ofText? savedText 0).any fun g =>
      (((FlowPass.tag .registers).run { name := "x86", stackPointer := "esp" }).run g).toOption.any fun r =>
        r.1.isOk && (renameEach { name := "x86", stackPointer := "esp" } true .empty [f, r.2]).toOption.any fun q =>
          q.toOption.any fun os => decide (os.map (fun o => (o.count, o.frame.toPairs)) =
            [(4, [(-4, "s0"), (0, "s1")]), (3, [(-4, "s0"), (0, "s1"), (8, "s2")])])) = true := by
    decide +kernel
  obtain ⟨f, hf, hvalues⟩ := Option.any_eq_true _ _ |>.1 hvalues
  obtain ⟨g, hg, hvalues⟩ := Option.any_eq_true _ _ |>.1 hvalues
  obtain ⟨⟨r, h⟩, hr, hvalues⟩ := Option.any_eq_true _ _ |>.1 hvalues
  obtain ⟨hok, hvalues⟩ := Bool.and_eq_true_iff.1 hvalues
  have hrun := ok_of_mem_toOption hr
  cases r with
  | error e => cases hok
  | ok _ =>
    have hreached : FlowPass.Reached g := .lowered ⟨savedText, 0, hg⟩
    have hfs : ∀ f' ∈ [f, h], FlowPass.Reached f' := by
      intro f' hf'
      obtain rfl | rfl : f' = f ∨ f' = h := by simpa using hf'
      · exact .lowered ⟨splitText, 0, hf⟩
      · exact hreached.pass "x86" "esp" _ hrun
    obtain ⟨os, hos, -, hnames, -⟩ := @renameEach_names [f, h] "x86" "esp" hfs true .empty
    rw [hos] at hvalues
    simp only [Except.toOption, Option.any_some, decide_eq_true_eq] at hvalues
    exact ⟨f, g, h, os, hf, hg, hrun, hos, hvalues, hnames⟩

end StackRenaming

end FrameRecovery
