import FrameRecovery.Proofs.Flow.Embedding
import FrameRecovery.Proofs.Meaning
import FrameRecovery.Proofs.Tagging.Unversioned
import FrameRecovery.Proofs.Variables

namespace FrameRecovery

open Flow

theorem IsRegisterName.not_mem {n : String} (h : IsRegisterName n) : ']' ∉ n.toList := by
  obtain ⟨⟨c, cs, rfl, hstarts, hcs⟩, -⟩ := h
  rw [String.toList_ofList, List.mem_cons, not_or]
  refine ⟨?_, fun hmem => absurd (hcs _ hmem) (by decide)⟩
  rintro rfl
  exact absurd hstarts (by decide)

namespace Flow

variable {f g : Flow} {V : Locations} {x y : NodeId} {us : List NodeId} {n : String} {v : Option Nat} {A t : Term}

/-- Every definition is a version of a register. -/
def DefinesRegisters (f : Flow) : Prop :=
  ∀ x us, f.linkOf x = .definition us → ∃ n v, f.exprAt x = some (.register n (some v))

theorem DefinesRegisters.exprAt_eq (hf : f.DefinesRegisters) (hnew : f.NoNewDefinition g)
    (hx : g.linkOf x = .definition us) : (∃ us', f.linkOf x = .definition us') ∧
      ∃ n v, f.exprAt x = some (.register n (some v)) ∧ g.exprAt x = some (.register n (some v)) := by
  obtain ⟨⟨us', hx'⟩, e, e', he, he', hhead⟩ := hnew x us hx
  obtain ⟨n, v, hn⟩ := hf x us' hx'
  rw [hn] at he
  cases he
  exact ⟨⟨us', hx'⟩, n, v, hn, Expr.eq_register_of_head_eq hhead ▸ he'⟩

/-- There is no bracket in the names of a tree of a flow in which registers have names. -/
theorem Sound.count_isBracketed (hf : f.Sound .named) (ht : f.Spells t) : t.count Expr.isBracketed = 0 := by
  refine Term.count_eq_zero_iff.2 fun u hu => ?_
  have hadmits := hf.typed.location _ _ (ht.of_within hu).exprAt_id
  rw [Locations.admits_map] at hadmits
  obtain ⟨i, e⟩ := u
  cases e with
  | register n v => simpa [Expr.head, Expr.map, Expr.isBracketed] using IsRegisterName.not_mem hadmits
  | var => exact hadmits.elim
  | _ => rfl

end Flow

namespace Tagging

variable {f g : Flow} {V : Locations} {x y : NodeId} {us : List NodeId} {l : Location}

theorem Tagged.definesRegisters (ht : Tagged V f .registers g) (hf : f.Plain) : g.DefinesRegisters := by
  intro x us hx
  obtain ⟨n, v, -, ⟨_, he, rfl⟩, -⟩ := ht.exists_defines hf hx
  exact ⟨n, v, he⟩

section Derefs

variable (ht : Tagged .named f .derefs g) (hf : f.Sound .listed)
include ht hf

/-- The location of a definition is its address without versions. -/
theorem Tagged.location_eq {A : Term} {versions : Versions} {key : NodeId → Option Location}
    (hnumbered : Numbered f .derefs versions key g) (hl : key x = some l) {v : Option Nat}
    (hx : g.exprAt x = some (.deref A.id v)) (hA : g.Spells A) : l.toList = unversion .other A.text.toList := by
  obtain ⟨-, -, -, A', w, u, hx', hA', rfl, hform⟩ := hnumbered.defines x l hl
  obtain rfl : A = A' := hA.unique hA'.spells (Expr.deref.inj (Option.some.inj (hx.symm.trans hx'))).1
  have hAcount := ht.sound.count_isBracketed hA
  have hucount : u.count Expr.isBracketed = 0 := by
    rw [← LocationKind.count_isBracketed_strip, ← Term.count_form, ← hform, Term.count_form,
      LocationKind.count_isBracketed_strip, hAcount]
  have hstrip : (LocationKind.derefs.strip A).text = (LocationKind.derefs.strip u).text := by
    rw [← Term.text_form, hform, Term.text_form]
  -- the location was read off an address without versions
  obtain ⟨s, T, u₀, hT, hu₀, hlocate⟩ := hnumbered.located x u.text hl
  obtain ⟨i, B, rfl, htext⟩ : ∃ i B, u₀ = .node i (.deref B none) ∧ B.text = u.text := by
    unfold LocationKind.locate at hlocate
    split at hlocate <;> simp_all
  have hB : f.Spells B := hT.stands.spells.of_within ((Term.Within.of_mem_children (by simp [Expr.children])).trans hu₀)
  have hlisted := hf.mono fun _ => Locations.named_of_listed
  have hself : LocationKind.derefs.strip B = B := by
    refine Term.strip_eq_self fun w hw => ?_
    have hadmits := hf.typed.location _ _ (hB.of_within hw).exprAt_id
    rw [Locations.admits_map] at hadmits
    obtain ⟨j, e⟩ := w
    cases e with
    | deref z v =>
      obtain rfl : v = none := hadmits
      rfl
    | _ => rfl
  calc u.text.toList = (LocationKind.derefs.strip B).text.toList := by rw [hself, htext]
    _ = unversion .other u.text.toList := by rw [LocationKind.text_strip (hlisted.count_isBracketed hB), htext]
    _ = (LocationKind.derefs.strip A).text.toList := by rw [hstrip, LocationKind.text_strip hucount]
    _ = unversion .other A.text.toList := LocationKind.text_strip hAcount

end Derefs

end Tagging

namespace StackRenaming

variable {m : Machine} {negate : Bool} {f g : Flow} {frame : Frame} {x : NodeId} {us : List NodeId} {n : String}
  {v : Option Nat}

end StackRenaming

namespace Recovery.Course

variable {t : Task} {entry : Address} {S : Phase → Session} (h : Course t entry S)
include h

theorem definesRegisters_stackPropagated : (S .stackPropagated).flow.DefinesRegisters := fun _ _ hx => by
  obtain ⟨-, n, v, -, hexpr⟩ := (h.registers.definesRegisters h.plain).exprAt_eq
    (h.propagated.noNewDefinition h.registers.sound) hx
  exact ⟨n, v, hexpr⟩

end Recovery.Course

end FrameRecovery
