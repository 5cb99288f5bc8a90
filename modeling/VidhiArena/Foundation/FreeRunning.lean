import Mathlib.Data.Nat.ModEq

/-!
# Free-running counters

A 64-bit counter that is only ever incremented stands for the number of its increments,
of which it shows the low 64 bits. Two such counters that are close together can be
subtracted across the wrap; they can be compared only before it. Masked to a power of two
they index the slots of a ring, and counts less than a ring apart never share one.
-/

namespace VidhiArena.Foundation.FreeRunning

variable {a b : Nat}

theorem ofNat_succ (a : Nat) : UInt64.ofNat a + 1 = UInt64.ofNat (a + 1) := by
  rw [UInt64.ofNat_add]
  rfl

/-- Distance: the difference of the counters is that of the counts. -/
theorem toNat_sub (hle : b ≤ a) (hlt : a - b < 2 ^ 64) :
    (UInt64.ofNat a - UInt64.ofNat b).toNat = a - b := by
  rw [UInt64.toNat_sub, UInt64.toNat_ofNat', UInt64.toNat_ofNat']
  have ha := Nat.div_add_mod a (2 ^ 64)
  have hb := Nat.div_add_mod b (2 ^ 64)
  have hlt' := Nat.mod_lt b (Nat.two_pow_pos 64)
  omega

theorem lt_of_ofNat_lt (hle : b ≤ a) (hlt : UInt64.ofNat b < UInt64.ofNat a) : b < a := by
  rcases Nat.lt_or_eq_of_le hle with h | rfl
  · exact h
  · exact absurd hlt (UInt64.lt_irrefl _)

theorem ofNat_lt_iff (ha : a < 2 ^ 64) (hb : b < 2 ^ 64) :
    UInt64.ofNat b < UInt64.ofNat a ↔ b < a := by
  rw [UInt64.lt_iff_toNat_lt, UInt64.toNat_ofNat', UInt64.toNat_ofNat', Nat.mod_eq_of_lt ha,
    Nat.mod_eq_of_lt hb]

theorem toNat_mask {k : Nat} (hk : k ≤ 64) {mask : UInt64} (hmask : mask.toNat = 2 ^ k - 1) :
    (UInt64.ofNat a &&& mask).toNat = a % 2 ^ k := by
  rw [UInt64.toNat_and, hmask, Nat.and_two_pow_sub_one_eq_mod, UInt64.toNat_ofNat',
    Nat.mod_mod_of_dvd _ (Nat.pow_dvd_pow 2 hk)]

theorem mask_ne {k : Nat} (hk : k ≤ 64) {mask : UInt64} (hmask : mask.toNat = 2 ^ k - 1)
    (hba : b < a) (hlt : a < b + 2 ^ k) : UInt64.ofNat b &&& mask ≠ UInt64.ofNat a &&& mask := by
  intro heq
  have hmod : b % 2 ^ k = a % 2 ^ k := by
    rw [← toNat_mask hk hmask, ← toNat_mask hk hmask, heq]
  have hdvd : 2 ^ k ∣ a - b := (Nat.modEq_iff_dvd' hba.le).mp hmod
  have := Nat.le_of_dvd (by omega) hdvd
  omega

end VidhiArena.Foundation.FreeRunning
