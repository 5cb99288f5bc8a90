import Mathlib.Algebra.Group.Int.Defs
import Mathlib.Data.Int.ConditionallyCompleteOrder
import Mathlib.Data.Int.Order.Basic
import Mathlib.Order.Basic

/-!
# The branchless position limit

`enforce_position_limit_branchless` of `position_limits.hpp`, on 64-bit words in two's
complement: a comparison is a word of ones or of zeroes, and the result is selected with
bitwise operations. Without overflow it is the plain clamp.
-/

namespace VidhiArena.GameMaster

/-! ## Masks -/

/-- `-((p) ? 1 : 0)`: all ones, or all zeroes. -/
def mask (p : Prop) [Decidable p] : Int64 := -(if p then 1 else 0)

section

variable {p q : Prop} [Decidable p] [Decidable q] (x : Int64)

theorem mask_pos (h : p) : mask p = -1 := by
  rw [mask, if_pos h]

theorem mask_neg (h : ¬ p) : mask p = 0 := by
  rw [mask, if_neg h]
  rfl

theorem and_mask : x &&& mask p = if p then x else 0 := by
  split
  · rename_i h
    rw [mask_pos h, Int64.and_neg_one]
  · rename_i h
    rw [mask_neg h, Int64.and_zero]

theorem not_mask_or : ~~~(mask p ||| mask q) = mask (¬ p ∧ ¬ q) := by
  by_cases hp : p
  · rw [mask_pos hp, Int64.neg_one_or, mask_neg fun h => h.1 hp]
    rfl
  · rw [mask_neg hp, Int64.zero_or]
    by_cases hq : q
    · rw [mask_pos hq, mask_neg fun h => h.2 hq]
      rfl
    · rw [mask_neg hq, mask_pos ⟨hp, hq⟩]
      rfl

end

/-! ## The limit -/

def enforcePositionLimitBranchless (currentPos attemptedDelta limit : Int64) : Int64 :=
  let newPos := currentPos + attemptedDelta
  let overMask := mask (newPos > limit)
  let underMask := mask (newPos < -limit)
  let withinMask := ~~~(overMask ||| underMask)
  (limit &&& overMask) ||| (-limit &&& underMask) ||| (newPos &&& withinMask)

theorem enforcePositionLimitBranchless_cases (currentPos attemptedDelta limit : Int64) :
    enforcePositionLimitBranchless currentPos attemptedDelta limit =
      (if limit < currentPos + attemptedDelta then limit else 0) |||
        (if currentPos + attemptedDelta < -limit then -limit else 0) |||
        (if ¬ limit < currentPos + attemptedDelta ∧ ¬ currentPos + attemptedDelta < -limit then
          currentPos + attemptedDelta else 0) := by
  unfold enforcePositionLimitBranchless
  dsimp only
  rw [not_mask_or, and_mask, and_mask, and_mask]

/-- The selection is the clamp. -/
theorem enforcePositionLimitBranchless_eq (currentPos attemptedDelta limit : Int64)
    (hlimit : 0 ≤ limit) (hlow : -2 ^ 63 ≤ currentPos.toInt + attemptedDelta.toInt)
    (hhigh : currentPos.toInt + attemptedDelta.toInt < 2 ^ 63) :
    (enforcePositionLimitBranchless currentPos attemptedDelta limit).toInt =
      max (-limit.toInt) (min limit.toInt (currentPos.toInt + attemptedDelta.toInt)) := by
  have hsum : (currentPos + attemptedDelta).toInt = currentPos.toInt + attemptedDelta.toInt := by
    rw [Int64.toInt_add]
    exact Int.bmod_eq_of_le hlow hhigh
  have hpos : 0 ≤ limit.toInt := Int64.le_iff_toInt_le.mp hlimit
  have hneg : (-limit).toInt = -limit.toInt := by
    rw [Int64.toInt_neg]
    have hsmall := Int64.toInt_lt limit
    exact Int.bmod_eq_of_le (by omega) (by omega)
  rw [enforcePositionLimitBranchless_cases, ← hsum]
  generalize currentPos + attemptedDelta = newPos
  have hunder : newPos < -limit ↔ newPos.toInt < -limit.toInt := by
    rw [Int64.lt_iff_toInt_lt, hneg]
  rcases lt_or_ge limit.toInt newPos.toInt with hlt | hle
  · have hover : limit < newPos := Int64.lt_iff_toInt_lt.mpr hlt
    have habove : -limit.toInt ≤ limit.toInt := le_trans (Int.neg_nonpos_of_nonneg hpos) hpos
    have hnot : ¬ newPos < -limit := mt hunder.mp (habove.trans hlt.le).not_gt
    rw [if_pos hover, if_neg hnot, if_neg fun h => h.1 hover, Int64.or_zero, Int64.or_zero,
      min_eq_left hlt.le, max_eq_right habove]
  · have hover : ¬ limit < newPos := mt Int64.lt_iff_toInt_lt.mp hle.not_gt
    rw [if_neg hover, Int64.zero_or, min_eq_right hle]
    rcases lt_or_ge newPos.toInt (-limit.toInt) with hlt | hge
    · have hbelow := hunder.mpr hlt
      rw [if_pos hbelow, if_neg fun h => h.2 hbelow, Int64.or_zero, hneg, max_eq_left hlt.le]
    · have hwithin := mt hunder.mp hge.not_gt
      rw [if_neg hwithin, if_pos ⟨hover, hwithin⟩, Int64.zero_or, max_eq_right hge]

theorem enforcePositionLimitBranchless_eq_sold :
    (enforcePositionLimitBranchless (-990) (-25) 1000).toInt = max (-1000) (min 1000 (-1015)) :=
  enforcePositionLimitBranchless_eq (-990) (-25) 1000 (by decide) (by decide) (by decide)

end VidhiArena.GameMaster
