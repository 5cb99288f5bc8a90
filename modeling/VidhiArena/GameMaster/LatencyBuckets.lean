import Mathlib.Algebra.Order.Field.Rat
import Mathlib.Tactic.NormNum
import VidhiArena.Foundation.LogBuckets
import VidhiArena.GameMaster.LatencyReport

/-!
# The buckets of the histogram

`get_hdr_bucket` and `bucket_to_ns` are `LogBuckets.bucket` and `LogBuckets.floor` with five
bits, in 64-bit words. The buckets 32 to 159 belong to no latency; there `bucket_to_ns` would
shift by `msb - 5` with `msb < 5`.
-/

namespace VidhiArena.GameMaster

open VidhiArena.Foundation

namespace HDRHistogram

theorem toNat_log2 (x : UInt64) : x.log2.toNat = x.toNat.log2 := rfl

theorem log2_lt (x : UInt64) : x.toNat.log2 < 64 := by
  rcases Nat.eq_zero_or_pos x.toNat with h | h
  · rw [h]
    decide
  · exact (Nat.log2_lt (Nat.pos_iff_ne_zero.mp h)).mpr x.toNat_lt

theorem toNat_and_31 (x : UInt64) : (x &&& 31).toNat = x.toNat % 2 ^ 5 := by
  rw [UInt64.toNat_and, show (31 : UInt64).toNat = 2 ^ 5 - 1 from rfl,
    Nat.and_two_pow_sub_one_eq_mod]

theorem toNat_sub_five {m : UInt64} (h : 5 ≤ m.toNat) : (m - 5).toNat = m.toNat - 5 := by
  have hle : (5 : UInt64) ≤ m := UInt64.le_iff_toNat_le.mpr h
  rw [UInt64.toNat_sub_of_le _ _ hle]
  rfl

theorem toNat_getHdrBucket (x : UInt64) :
    (getHdrBucket x).toNat = LogBuckets.bucket 5 x.toNat := by
  by_cases h : x < 32
  · rw [getHdrBucket, if_pos h, LogBuckets.bucket_of_lt (UInt64.lt_iff_toNat_lt.mp h)]
  · have hnat : ¬ x.toNat < 2 ^ 5 := fun hlt => h (UInt64.lt_iff_toNat_lt.mpr hlt)
    have hlog := log2_lt x
    have hfive : 5 ≤ x.log2.toNat := LogBuckets.le_log2 (Nat.not_lt.mp hnat)
    have hmsb : (x.log2 <<< 5).toNat = x.toNat.log2 * 2 ^ 5 := by
      rw [UInt64.toNat_shiftLeft, toNat_log2, show (5 : UInt64).toNat % 64 = 5 from rfl,
        Nat.shiftLeft_eq, Nat.mod_eq_of_lt (by omega)]
    have hsub : ((x >>> (x.log2 - 5)) &&& 31).toNat =
        x.toNat / 2 ^ (x.toNat.log2 - 5) % 2 ^ 5 := by
      rw [toNat_and_31, UInt64.toNat_shiftRight, toNat_sub_five hfive, toNat_log2,
        Nat.mod_eq_of_lt (show x.toNat.log2 - 5 < 64 by omega), Nat.shiftRight_eq_div_pow]
    have hrest : x.toNat / 2 ^ (x.toNat.log2 - 5) % 2 ^ 5 < 2 ^ 5 := Nat.mod_lt _ (by decide)
    rw [getHdrBucket, if_neg h, LogBuckets.bucket, if_neg hnat, UInt64.toNat_add, hmsb, hsub,
      Nat.mod_eq_of_lt (by omega)]

theorem toNat_bucketToNs {b : UInt64} (hlt : b.toNat < 2048)
    (hgap : b.toNat < 32 ∨ 160 ≤ b.toNat) :
    (bucketToNs b).toNat = LogBuckets.floor 5 b.toNat := by
  by_cases h : b < 32
  · have hnat : b.toNat < 2 ^ 5 := UInt64.lt_iff_toNat_lt.mp h
    rw [bucketToNs, if_pos h, LogBuckets.floor, if_pos hnat]
  · have hnat : ¬ b.toNat < 2 ^ 5 := fun hlt => h (UInt64.lt_iff_toNat_lt.mpr hlt)
    have hmsb : (b >>> 5).toNat = b.toNat / 2 ^ 5 := by
      rw [UInt64.toNat_shiftRight, show (5 : UInt64).toNat % 64 = 5 from rfl,
        Nat.shiftRight_eq_div_pow]
    have hfive : 5 ≤ (b >>> 5).toNat := by
      rw [hmsb]
      omega
    have hrest : b.toNat % 2 ^ 5 < 2 ^ 5 := Nat.mod_lt _ (by decide)
    have hsplit := LogBuckets.two_pow_split (k := 5) (hmsb ▸ hfive)
    have htop : 2 ^ (b.toNat / 2 ^ 5) ≤ 2 ^ 63 := Nat.pow_le_pow_right (by decide) (by omega)
    have hsub : b.toNat % 2 ^ 5 * 2 ^ (b.toNat / 2 ^ 5 - 5) < 2 ^ (b.toNat / 2 ^ 5) := by
      rw [hsplit]
      exact Nat.mul_lt_mul_of_pos_right hrest (Nat.two_pow_pos _)
    rw [bucketToNs, if_neg h, LogBuckets.floor, if_neg hnat]
    rw [UInt64.toNat_add, UInt64.toNat_shiftLeft, UInt64.toNat_shiftLeft, toNat_and_31,
      toNat_sub_five hfive, hmsb, Nat.mod_eq_of_lt (show b.toNat / 2 ^ 5 < 64 by omega),
      Nat.mod_eq_of_lt (show b.toNat / 2 ^ 5 - 5 < 64 by omega), Nat.shiftLeft_eq,
      Nat.shiftLeft_eq, show (1 : UInt64).toNat = 1 from rfl, Nat.one_mul]
    rw [Nat.mod_eq_of_lt (a := 2 ^ (b.toNat / 2 ^ 5)) (by omega),
      Nat.mod_eq_of_lt (a := _ * _) (by omega), Nat.mod_eq_of_lt (by omega)]

theorem getHdrBucket_lt (x : UInt64) : (getHdrBucket x).toNat < 2048 := by
  rw [toNat_getHdrBucket]
  exact LogBuckets.bucket_lt (n := 64) (by decide) x.toNat_lt

theorem getHdrBucket_gap (x : UInt64) :
    (getHdrBucket x).toNat < 32 ∨ 160 ≤ (getHdrBucket x).toNat := by
  rw [toNat_getHdrBucket]
  exact LogBuckets.bucket_gap x.toNat

theorem toNat_floor (x : UInt64) : (bucketToNs (getHdrBucket x)).toNat =
    LogBuckets.floor 5 (LogBuckets.bucket 5 x.toNat) := by
  rw [toNat_bucketToNs (getHdrBucket_lt x) (getHdrBucket_gap x), toNat_getHdrBucket]

theorem getHdrBucket_mono {x y : UInt64} (h : x ≤ y) : getHdrBucket x ≤ getHdrBucket y := by
  rw [UInt64.le_iff_toNat_le, toNat_getHdrBucket, toNat_getHdrBucket]
  exact LogBuckets.bucket_mono (by decide) (UInt64.le_iff_toNat_le.mp h)

/-- The buckets: there are enough of them, they are in order, the least latency of a
bucket is in it, and no latency is as much as a part in 32 above that one. -/
theorem buckets_right :
    (∀ x, getHdrBucket x < 2048) ∧
    (∀ x y, x ≤ y → getHdrBucket x ≤ getHdrBucket y) ∧
    (∀ x, bucketToNs (getHdrBucket x) ≤ x) ∧
    (∀ x, x < 32 → bucketToNs (getHdrBucket x) = x) ∧
    (∀ x, 32 ≤ x → ((x - bucketToNs (getHdrBucket x)).toNat : ℚ) < x.toNat / 32) ∧
    ∀ b, (∃ x, getHdrBucket x = b) → getHdrBucket (bucketToNs b) = b := by
  have hle : ∀ x, bucketToNs (getHdrBucket x) ≤ x := by
    intro x
    rw [UInt64.le_iff_toNat_le, toNat_floor]
    exact LogBuckets.floor_bucket_le (by decide) x.toNat
  refine ⟨fun x => UInt64.lt_iff_toNat_lt.mpr (getHdrBucket_lt x), fun x y => getHdrBucket_mono,
    hle, fun x hx => ?_, fun x hx => ?_, ?_⟩
  · rw [← UInt64.toNat_inj, toNat_floor]
    exact LogBuckets.floor_bucket_of_lt (UInt64.lt_iff_toNat_lt.mp hx)
  · have hpart := LogBuckets.sub_floor_bucket_lt (k := 5) (by decide) (UInt64.le_iff_toNat_le.mp hx)
    rw [UInt64.toNat_sub_of_le _ _ (hle x), toNat_floor, lt_div_iff₀ (by norm_num), mul_comm]
    exact_mod_cast hpart
  · rintro _ ⟨x, rfl⟩
    rw [← UInt64.toNat_inj, toNat_getHdrBucket, toNat_floor, toNat_getHdrBucket]
    exact LogBuckets.bucket_floor_bucket (by decide) x.toNat

end HDRHistogram

end VidhiArena.GameMaster
