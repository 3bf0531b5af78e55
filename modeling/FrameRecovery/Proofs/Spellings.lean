import FrameRecovery.Proofs.Exhausted
import FrameRecovery.Proofs.Towers

namespace FrameRecovery

open FrameRecovery.Flow FrameRecovery.Simplify

theorem Term.form_form (t : Term) : t.form.form = t.form := by
  induction t using Term.induction with
  | step i e ih =>
    rw [form_node, form_node, Expr.map_map]
    exact congrArg (node ⟨0⟩) (Expr.map_congr ih)

namespace Machine

variable {m : Machine} {negate : Bool} {t : Term} {i : NodeId} {n : String} {v : Option Nat} {a : Word}

/-- How far an address lies from the stack pointer, as the frame counts: below it the sign may be dropped. -/
def distance (negate : Bool) (a : Word) : Word :=
  if negate then a else (written a).2

theorem plain_register : Plain (.node i (.register n v)) :=
  ⟨rfl, rfl⟩

theorem locates_of_writtenAs (h : WrittenAs (.node i (.register m.stackPointer v)) a t) :
    m.Locates negate t v (distance negate a) := by
  rcases h with rfl | ⟨rfl, rfl⟩
  · by_cases hzero : a = 0
    · subst hzero
      rw [shifted, if_pos rfl]
      cases negate <;> exact .pointer
    · rw [shifted, if_neg hzero]
      by_cases hbelow : a < 0 ∧ a ≠ Int64.minValue
      · have hdistance : distance negate a = if negate then - -a else -a := by
          rw [distance, written, if_pos hbelow, Int64.neg_neg]
        rw [written, if_pos hbelow, hdistance]
        exact .difference
      · have hdistance : distance negate a = a := by
          rw [distance, written, if_neg hbelow, ite_self]
        rw [written, if_neg hbelow, hdistance]
        exact .sum
  · have hdistance : distance negate Int64.minValue = if negate then -Int64.minValue else Int64.minValue := by
      cases negate <;> rfl
    rw [hdistance]
    exact .difference

/-- In a simplified tree constants added to the stack pointer are found at what they add up to, however they were
    written. -/
theorem locates_of_tower (ht : Tower (.node i (.register m.stackPointer v)) a t) (hnormal : Normal t) :
    m.Locates negate t v (distance negate a) := by
  have hbase : WrittenAs (.node ⟨0⟩ (.register m.stackPointer v)) 0 (simplest (.node i (.register m.stackPointer v))) :=
    .inl (if_pos rfl).symm
  have hwritten := ht.writtenAs plain_register hbase
  rw [Int64.add_zero, hnormal.simplest_eq] at hwritten
  exact (locates_of_writtenAs hwritten).of_form_eq (Term.form_form t).symm

/-- A sum with the stack pointer on its right is found nowhere. -/
theorem not_locates_right {x y : Term} {w : Word} (hx : m.isStackPointer x = false) :
    ¬ m.Locates negate (.node i (.binary .add x y)) v w := by
  intro h
  cases h
  simp [isStackPointer, Term.register?] at hx

/-- `4 + esp` is found once it is simplified. -/
example :
    let t := Term.node ⟨2⟩ (.binary .add (.node ⟨1⟩ (.constant 4)) (.node ⟨0⟩ (.register "esp" none)))
    x86.offset? true t = none ∧ x86.offset? true (simplest t) = some 4 := by
  decide

end Machine

/-- Whatever function the text of a listing holds, where propagation of the stack pointer changes a statement it
    finds the places in the frame: there constants added to the stack pointer are at the distance they add up to,
    in whatever order, with whatever signs and in however many steps they are written. All other statements are
    what they were before. -/
theorem propagated_offset?_eq_distance {f : Flow} (hf : f.IsLowered) (m : Machine) :
    ∃ tags f' stats g, (Tagging.tag .registers).run f = .ok (tags, f') ∧
      (propagate (.stackPointer m)).run f' = .ok (.ok stats, g) ∧
      ∀ s ∈ f'.liveStatements, ∀ T, g.Holds s T → f'.Holds s T ∨
        ∀ t i v a, Term.Within t T → Tower (.node i (.register m.stackPointer v)) a t →
          ∀ negate, m.offset? negate t = some (Machine.distance negate a) := by
  have hplain := hf.plain
  obtain ⟨tags, f', hrun, ht⟩ := Tagging.tag_gives (LocationKind.permits_registers _) hplain.sound hplain.rooted
    hf.connected
  obtain ⟨_, g, hrun', stats, rfl, hg⟩ := propagate_succeeds (PropagationPolicy.careful_stackPointer m) ht.sound
  refine ⟨tags, f', stats, g, hrun, hrun', fun s hs T hT => ?_⟩
  have hlive := hg.sound.forest.mem_liveStatements.1 (hg.liveStatements_eq ▸ hs)
  refine (hg.holds_or_normal hlive hT).imp_right fun hnormal t i v a hwithin htower negate => ?_
  exact (Machine.locates_of_tower htower (hnormal.within hwithin)).offset?_eq

end FrameRecovery
