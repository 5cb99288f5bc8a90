import Mathlib.Algebra.Order.Group.Nat

/-!
# Logarithmic buckets

Numbers sorted into buckets by their top `k + 1` bits. A number below `2 ^ k` is a bucket of
its own; above, the bucket is made of the position of the top bit and of the `k` bits under
it, so it is off by less than one part in `2 ^ k`. The positions below `k` have no numbers:
from `2 ^ k` to `k * 2 ^ k` there is a gap in the buckets.

`floor` is the least number of a bucket. The results say that `bucket` and `floor` are a
monotone map and a section of it from below.
-/

namespace VidhiArena.Foundation.LogBuckets

variable {k : Nat}

def bucket (k x : Nat) : Nat :=
  if x < 2 ^ k then x else x.log2 * 2 ^ k + x / 2 ^ (x.log2 - k) % 2 ^ k

def floor (k b : Nat) : Nat :=
  if b < 2 ^ k then b else 2 ^ (b / 2 ^ k) + b % 2 ^ k * 2 ^ (b / 2 ^ k - k)

theorem le_log2 {x : Nat} (h : 2 ^ k ≤ x) : k ≤ x.log2 :=
  (Nat.le_log2 (Nat.pos_iff_ne_zero.mp ((Nat.two_pow_pos k).trans_le h))).mpr h

theorem two_pow_log2_le {x : Nat} (h : 2 ^ k ≤ x) : 2 ^ x.log2 ≤ x :=
  Nat.log2_self_le (Nat.pos_iff_ne_zero.mp ((Nat.two_pow_pos k).trans_le h))

theorem two_pow_split {m : Nat} (h : k ≤ m) : 2 ^ m = 2 ^ k * 2 ^ (m - k) := by
  rw [← Nat.pow_add, Nat.add_sub_cancel' h]

theorem top_bits {x : Nat} (h : 2 ^ k ≤ x) :
    2 ^ k ≤ x / 2 ^ (x.log2 - k) ∧ x / 2 ^ (x.log2 - k) < 2 * 2 ^ k := by
  have hsplit := two_pow_split (le_log2 h)
  constructor
  · rw [Nat.le_div_iff_mul_le (Nat.two_pow_pos _), ← hsplit]
    exact two_pow_log2_le h
  · rw [Nat.div_lt_iff_lt_mul (Nat.two_pow_pos _), Nat.mul_assoc, ← hsplit, Nat.mul_comm,
      ← Nat.pow_succ]
    exact Nat.lt_log2_self

theorem mod_top_bits {q : Nat} (hlo : 2 ^ k ≤ q) (hhi : q < 2 * 2 ^ k) : q % 2 ^ k = q - 2 ^ k := by
  rw [Nat.mod_eq_sub_mod hlo, Nat.mod_eq_of_lt (by omega)]

theorem bucket_of_lt {x : Nat} (h : x < 2 ^ k) : bucket k x = x := if_pos h

theorem bucket_of_le {x : Nat} (h : 2 ^ k ≤ x) :
    bucket k x = x.log2 * 2 ^ k + (x / 2 ^ (x.log2 - k) - 2 ^ k) := by
  obtain ⟨hlo, hhi⟩ := top_bits h
  rw [bucket, if_neg (Nat.not_lt.mpr h), mod_top_bits hlo hhi]

theorem bucket_bounds {x : Nat} (h : 2 ^ k ≤ x) :
    x.log2 * 2 ^ k ≤ bucket k x ∧ bucket k x < (x.log2 + 1) * 2 ^ k := by
  obtain ⟨hlo, hhi⟩ := top_bits h
  rw [bucket_of_le h, Nat.succ_mul]
  omega

theorem bucket_lt {n x : Nat} (hn : 0 < n) (h : x < 2 ^ n) : bucket k x < n * 2 ^ k := by
  rcases Nat.lt_or_ge x (2 ^ k) with hsmall | hlarge
  · rw [bucket_of_lt hsmall]
    exact hsmall.trans_le (Nat.le_mul_of_pos_left _ hn)
  · have hlog : x.log2 + 1 ≤ n :=
      (Nat.log2_lt (Nat.pos_iff_ne_zero.mp ((Nat.two_pow_pos k).trans_le hlarge))).mpr h
    exact (bucket_bounds hlarge).2.trans_le (Nat.mul_le_mul_right _ hlog)

theorem bucket_gap (x : Nat) : bucket k x < 2 ^ k ∨ k * 2 ^ k ≤ bucket k x := by
  rcases Nat.lt_or_ge x (2 ^ k) with hsmall | hlarge
  · rw [bucket_of_lt hsmall]
    exact Or.inl hsmall
  · exact Or.inr ((Nat.mul_le_mul_right _ (le_log2 hlarge)).trans (bucket_bounds hlarge).1)

theorem bucket_mono (hk : 0 < k) {x y : Nat} (h : x ≤ y) : bucket k x ≤ bucket k y := by
  rcases Nat.lt_or_ge y (2 ^ k) with hy | hy
  · rwa [bucket_of_lt hy, bucket_of_lt (h.trans_lt hy)]
  · have hlogy := (Nat.mul_le_mul_right (2 ^ k) (le_log2 hy)).trans (bucket_bounds hy).1
    rcases Nat.lt_or_ge x (2 ^ k) with hx | hx
    · rw [bucket_of_lt hx]
      exact (hx.le.trans (Nat.le_mul_of_pos_left _ hk)).trans hlogy
    · have hlog : x.log2 ≤ y.log2 :=
        (Nat.le_log2 (Nat.pos_iff_ne_zero.mp ((Nat.two_pow_pos k).trans_le hy))).mpr
          ((two_pow_log2_le hx).trans h)
      rcases Nat.lt_or_eq_of_le hlog with hlt | heq
      · calc bucket k x ≤ (x.log2 + 1) * 2 ^ k := (bucket_bounds hx).2.le
          _ ≤ y.log2 * 2 ^ k := Nat.mul_le_mul_right _ hlt
          _ ≤ bucket k y := (bucket_bounds hy).1
      · have hdiv : x / 2 ^ (y.log2 - k) ≤ y / 2 ^ (y.log2 - k) := Nat.div_le_div_right h
        rw [bucket_of_le hx, bucket_of_le hy, heq]
        omega

/-! ## The least number of a bucket -/

theorem floor_bucket_of_le (hk : 0 < k) {x : Nat} (h : 2 ^ k ≤ x) :
    floor k (bucket k x) = x / 2 ^ (x.log2 - k) * 2 ^ (x.log2 - k) := by
  obtain ⟨hlo, hhi⟩ := top_bits h
  have hrest : x / 2 ^ (x.log2 - k) - 2 ^ k < 2 ^ k := by omega
  have hlog : k ≤ x.log2 := le_log2 h
  have hdiv : bucket k x / 2 ^ k = x.log2 := by
    rw [bucket_of_le h, Nat.mul_comm, Nat.mul_add_div (Nat.two_pow_pos k),
      Nat.div_eq_of_lt hrest, Nat.add_zero]
  have hmod : bucket k x % 2 ^ k = x / 2 ^ (x.log2 - k) - 2 ^ k := by
    rw [bucket_of_le h, Nat.mul_comm, Nat.mul_add_mod, Nat.mod_eq_of_lt hrest]
  have hlarge : ¬ bucket k x < 2 ^ k := by
    have hone := Nat.mul_le_mul_right (2 ^ k) (hk.trans_le hlog)
    have hbounds := (bucket_bounds h).1
    omega
  rw [floor, if_neg hlarge, hdiv, hmod, two_pow_split hlog, ← Nat.add_mul,
    Nat.add_sub_cancel' hlo]

theorem floor_bucket_of_lt {x : Nat} (h : x < 2 ^ k) : floor k (bucket k x) = x := by
  rw [bucket_of_lt h, floor, if_pos h]

theorem floor_bucket_le (hk : 0 < k) (x : Nat) : floor k (bucket k x) ≤ x := by
  rcases Nat.lt_or_ge x (2 ^ k) with hsmall | hlarge
  · exact (floor_bucket_of_lt hsmall).le
  · rw [floor_bucket_of_le hk hlarge]
    exact Nat.div_mul_le_self _ _

theorem sub_floor_bucket_lt (hk : 0 < k) {x : Nat} (h : 2 ^ k ≤ x) :
    2 ^ k * (x - floor k (bucket k x)) < x := by
  have hsplit := two_pow_split (le_log2 h)
  have hrest : x - floor k (bucket k x) = x % 2 ^ (x.log2 - k) := by
    have := Nat.div_add_mod' x (2 ^ (x.log2 - k))
    rw [floor_bucket_of_le hk h]
    omega
  calc 2 ^ k * (x - floor k (bucket k x))
      < 2 ^ k * 2 ^ (x.log2 - k) := by
        rw [hrest]
        exact Nat.mul_lt_mul_of_pos_left (Nat.mod_lt _ (Nat.two_pow_pos _)) (Nat.two_pow_pos k)
    _ = 2 ^ x.log2 := hsplit.symm
    _ ≤ x := two_pow_log2_le h

theorem bucket_floor_bucket (hk : 0 < k) (x : Nat) :
    bucket k (floor k (bucket k x)) = bucket k x := by
  rcases Nat.lt_or_ge x (2 ^ k) with hsmall | hlarge
  · rw [floor_bucket_of_lt hsmall]
  · have hpos := Nat.two_pow_pos (x.log2 - k)
    have hfloor := floor_bucket_of_le hk hlarge
    have hle := floor_bucket_le hk x
    have hlow : 2 ^ x.log2 ≤ floor k (bucket k x) := by
      rw [hfloor, two_pow_split (le_log2 hlarge)]
      exact Nat.mul_le_mul_right _ (top_bits hlarge).1
    have hlarge' : 2 ^ k ≤ floor k (bucket k x) :=
      (Nat.pow_le_pow_right (by decide) (le_log2 hlarge)).trans hlow
    have hlog : (floor k (bucket k x)).log2 = x.log2 := by
      rw [Nat.log2_eq_iff (Nat.pos_iff_ne_zero.mp ((Nat.two_pow_pos k).trans_le hlarge'))]
      exact ⟨hlow, hle.trans_lt Nat.lt_log2_self⟩
    rw [bucket_of_le hlarge', hlog, hfloor, Nat.mul_div_cancel _ hpos, bucket_of_le hlarge]

theorem floor_bucket_mono (hk : 0 < k) {x y : Nat} (h : x ≤ y) :
    floor k (bucket k x) ≤ floor k (bucket k y) := by
  rcases Nat.lt_or_eq_of_le (bucket_mono hk h) with hlt | heq
  · by_contra hgt
    have hback := bucket_mono hk (Nat.le_of_not_le hgt)
    rw [bucket_floor_bucket hk, bucket_floor_bucket hk] at hback
    omega
  · rw [heq]

end VidhiArena.Foundation.LogBuckets
