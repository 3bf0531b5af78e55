import FrameRecovery.Word

namespace FrameRecovery

theorem digitChar_injective {m n : Nat} (hm : m < 16) (hn : n < 16)
    (h : m.digitChar = n.digitChar) : m = n := by
  have hall : ∀ a b : Fin 16, a.val.digitChar = b.val.digitChar → a = b := by decide
  exact congrArg Fin.val (hall ⟨m, hm⟩ ⟨n, hn⟩ h)

/-- Different numbers have different digits. -/
theorem toDigits_injective {b m n : Nat} (hb : 1 < b) (hb' : b ≤ 16)
    (h : b.toDigits m = b.toDigits n) : m = n := by
  have hdigit {x y : Nat} (hx : x < b) (hy : y < b) (hxy : x.digitChar = y.digitChar) : x = y :=
    digitChar_injective (by omega) (by omega) hxy
  have hpos : 0 < b := by omega
  induction m using Nat.strongRecOn generalizing n with
  | ind m ih =>
    rw [Nat.toDigits_eq_if hb, Nat.toDigits_eq_if hb (n := n)] at h
    split at h
    next hm =>
      split at h
      next hn => exact hdigit hm hn (List.singleton_inj.1 h)
      next =>
        have hlength := congrArg List.length h
        simp at hlength
    next hm =>
      split at h
      next hn =>
        have hlength := congrArg List.length h
        simp at hlength
      next hn =>
        obtain ⟨hinit, hlast⟩ := List.append_inj' h rfl
        have hquot : m / b = n / b := ih (m / b) (Nat.div_lt_self (by omega) hb) hinit
        have hrem : m % b = n % b :=
          hdigit (Nat.mod_lt m hpos) (Nat.mod_lt n hpos) (List.singleton_inj.1 hlast)
        rw [← Nat.div_add_mod m b, ← Nat.div_add_mod n b, hquot, hrem]

theorem decimal_injective {m n : Nat} (h : decimal m = decimal n) : m = n :=
  toDigits_injective (by decide) (by decide) (String.ofList_injective h)

end FrameRecovery
