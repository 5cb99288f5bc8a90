import Mathlib.Data.Rat.Floor
import VidhiArena.Foundation.OrderStatistic
import VidhiArena.GameMaster.LatencyBuckets

/-!
# The percentiles of the histogram

`HDRHistogram::percentile` against the recorded latencies themselves. The target is a double
product that is cut off (`UnitDouble.portion`), so it need not be the integer part of the
exact product; the scan of the counters then ends at the bucket of the latency that has this
place in the order of all of them.
-/

namespace VidhiArena.GameMaster

open VidhiArena.Foundation DoubleCount

namespace HDRHistogram

/-- `percentile(p)`, for any double `p` in `(0, 1]`. -/
def percentileAt (hdr : HDRHistogram) (p : UnitDouble) : Int64 :=
  if hdr.totalCount = 0 then 0
  else
    let target := Int64.ofNat (p.portion hdr.totalCount.toInt.toNat)
    hdr.scan target 0 ((List.range 2048).map UInt64.ofNat)

theorem percentile_eq (hdr : HDRHistogram) {p : Nat} (hpos : 0 < p) (hle : p ≤ 2 ^ 53) :
    hdr.percentile p = hdr.percentileAt ⟨p, 53, hpos, hle, hle⟩ := rfl

/-- The bucket whose `bucket_to_ns` the loop returns. -/
def stopBucket (hdr : HDRHistogram) (target : Int64) : Int64 → List UInt64 → UInt64
  | _, [] => 2047
  | running, i :: is =>
      if target ≤ running + hdr.counts i then i
      else hdr.stopBucket target (running + hdr.counts i) is

theorem scan_eq (hdr : HDRHistogram) (target : Int64) : ∀ (running : Int64) (is : List UInt64),
    hdr.scan target running is = (bucketToNs (hdr.stopBucket target running is)).toInt64
  | _, [] => rfl
  | running, i :: is => by
      rw [scan, stopBucket, scan_eq hdr target _ is]
      split <;> rfl

/-- The bucket that `percentile(p)` evaluates. -/
def bucketAt (hdr : HDRHistogram) (p : UnitDouble) : UInt64 :=
  hdr.stopBucket (Int64.ofNat (p.portion hdr.totalCount.toInt.toNat)) 0
    ((List.range 2048).map UInt64.ofNat)

theorem percentileAt_eq (hdr : HDRHistogram) (p : UnitDouble) (h : hdr.totalCount ≠ 0) :
    hdr.percentileAt p = (bucketToNs (hdr.bucketAt p)).toInt64 := by
  rw [percentileAt, if_neg h, bucketAt, scan_eq]

end HDRHistogram

open HDRHistogram

/-! ## The counters -/

/-- `max(0, ns)`. -/
def recorded (ns : Int64) : ℕ := ns.toInt.toNat

theorem toNat_max_zero (ns : Int64) : (max 0 ns).toUInt64.toNat = recorded ns := by
  have hmax : max 0 ns = if 0 ≤ ns then ns else 0 := rfl
  rw [hmax]
  split
  · next h => exact Int64.toNat_toUInt64_of_le h
  · next h =>
      have hneg : ns.toInt < 0 := Int64.lt_iff_toInt_lt.mp (Int64.not_le.mp h)
      rw [recorded, Int.toNat_of_nonpos hneg.le]
      rfl

theorem toNat_bucketOf (ns : Int64) : (bucketOf ns).toNat = LogBuckets.bucket 5 (recorded ns) := by
  have hlt := getHdrBucket_lt (max 0 ns).toUInt64
  have hmin : bucketOf ns = getHdrBucket (max 0 ns).toUInt64 :=
    if_pos (UInt64.le_iff_toNat_le.mpr (Nat.le_of_lt_succ hlt))
  rw [hmin, toNat_getHdrBucket, toNat_max_zero]

section Scan

variable {lats : List Int64}

theorem countP_succ (f : Int64 → ℕ) (lats : List Int64) (b : ℕ) :
    (lats.countP fun ns => f ns ≤ b) =
      (lats.countP fun ns => f ns < b) + lats.countP fun ns => f ns = b := by
  induction lats with
  | nil => rfl
  | cons ns lats ih =>
      simp only [List.countP_cons, ih, decide_eq_true_eq]
      rcases Nat.lt_trichotomy (f ns) b with hlt | heq | hgt
      · rw [if_pos hlt.le, if_pos hlt, if_neg hlt.ne]
        omega
      · rw [if_pos heq.le, if_neg (by omega), if_pos heq]
        omega
      · rw [if_neg (by omega), if_neg (by omega), if_neg hgt.ne']
        omega

theorem stopBucket_eq {t B : ℕ} (hlen : lats.length < 2 ^ 63) (ht : t < 2 ^ 63) (hB : B < 2048)
    (hreach : ∀ b, t ≤ lats.countP (fun ns => (bucketOf ns).toNat ≤ b) ↔ B ≤ b) :
    ∀ m s : ℕ, s + m = 2048 → s ≤ B →
      (HDRHistogram.ofLatencies lats).stopBucket (Int64.ofNat t)
        (Int64.ofNat (lats.countP fun ns => (bucketOf ns).toNat < s))
        ((List.range' s m).map UInt64.ofNat) = UInt64.ofNat B
  | 0, s, hsum, hs => by omega
  | m + 1, s, hsum, hs => by
      have hto : (UInt64.ofNat s).toNat = s := UInt64.toNat_ofNat_of_lt' (by
        simp only [UInt64.size]
        omega)
      have hcount : (HDRHistogram.ofLatencies lats).counts (UInt64.ofNat s) =
          Int64.ofNat (lats.countP fun ns => (bucketOf ns).toNat = s) := by
        rw [counts_ofLatencies]
        refine congrArg Int64.ofNat (List.countP_congr fun ns _ => ?_)
        rw [decide_eq_true_eq, decide_eq_true_eq, ← UInt64.toNat_inj, hto]
      have hnext : (lats.countP fun ns => (bucketOf ns).toNat < s + 1) =
          lats.countP fun ns => (bucketOf ns).toNat ≤ s := by
        refine List.countP_congr fun ns _ => ?_
        rw [decide_eq_true_eq, decide_eq_true_eq, Nat.lt_succ_iff]
      have hle : (lats.countP fun ns => (bucketOf ns).toNat ≤ s) < 2 ^ 63 :=
        List.countP_le_length.trans_lt hlen
      rw [List.range'_succ, List.map_cons, HDRHistogram.stopBucket, hcount, ← Int64.ofNat_add,
        ← countP_succ fun ns => (bucketOf ns).toNat]
      by_cases hstop : B ≤ s
      · rw [if_pos ((ofNat_le_iff ht hle).mpr ((hreach s).mpr hstop)), Nat.le_antisymm hs hstop]
      · rw [if_neg fun hc => hstop ((hreach s).mp ((ofNat_le_iff ht hle).mp hc)), ← hnext]
        exact stopBucket_eq hlen ht hB hreach m (s + 1) (by omega) (by omega)

end Scan

/-! ## The percentiles -/

section Percentile

variable {lats : List Int64} {p : UnitDouble}

/-- The bucket that is evaluated is that of the `t`-th smallest latency. -/
theorem bucketAt_eq (hlen : lats.length < 2 ^ 63) (hhi : p.portion lats.length ≤ lats.length)
    {v : ℕ} (hv : IsKth (lats.map recorded) (p.portion lats.length) v) :
    ((HDRHistogram.ofLatencies lats).bucketAt p).toNat = LogBuckets.bucket 5 v := by
  obtain ⟨ns, _, rfl⟩ := List.mem_map.mp hv.mem
  have hB : LogBuckets.bucket 5 (recorded ns) < 2048 := by
    rw [← toNat_max_zero, ← toNat_getHdrBucket]
    exact getHdrBucket_lt _
  have hreach : ∀ b, p.portion lats.length ≤ lats.countP (fun ns => (bucketOf ns).toNat ≤ b) ↔
      LogBuckets.bucket 5 (recorded ns) ≤ b := by
    intro b
    have hmono : Monotone (LogBuckets.bucket 5) := fun _ _ => LogBuckets.bucket_mono (by decide)
    rw [← hv.le_countP_map hmono b, List.countP_map]
    simp only [toNat_bucketOf, Function.comp_def]
  have hnone : (lats.countP fun ns => (bucketOf ns).toNat < 0) = 0 :=
    List.countP_eq_zero.mpr fun ns _ => by simp
  have hstop := stopBucket_eq hlen (hhi.trans_lt hlen) hB hreach 2048 0 rfl (Nat.zero_le _)
  rw [hnone] at hstop
  rw [HDRHistogram.bucketAt, totalCount_ofLatencies, Int64.toInt_ofNat_of_lt hlen,
    Int.toNat_natCast, List.range_eq_range']
  rw [show Int64.ofNat 0 = 0 from rfl] at hstop
  rw [hstop]
  exact UInt64.toNat_ofNat_of_lt' (hB.trans (by decide))

/-- A right percentile, with `t` the target: the least latency of the bucket of the
`t`-th smallest one. -/
structure PercentileRight (lats : List Int64) (p : UnitDouble) (v : ℕ) : Prop where
  kth : IsKth (lats.map recorded) (p.portion lats.length) v
  value : (HDRHistogram.ofLatencies lats).percentileAt p =
    (bucketToNs (getHdrBucket (UInt64.ofNat v))).toInt64
  le : ((HDRHistogram.ofLatencies lats).percentileAt p).toInt ≤ v
  close : (v - ((HDRHistogram.ofLatencies lats).percentileAt p).toInt : ℚ) ≤ v / 32
  /-- the shift of `bucket_to_ns` is not negative -/
  evaluated : (HDRHistogram.ofLatencies lats).percentileAt p =
      (bucketToNs ((HDRHistogram.ofLatencies lats).bucketAt p)).toInt64 ∧
    ¬ (32 ≤ (HDRHistogram.ofLatencies lats).bucketAt p ∧
      (HDRHistogram.ofLatencies lats).bucketAt p < 160)

theorem toInt_toInt64 {x : UInt64} (h : x.toNat < 2 ^ 63) : x.toInt64.toInt = x.toNat := by
  calc x.toInt64.toInt = (UInt64.ofNat x.toNat).toInt64.toInt := by rw [UInt64.ofNat_toNat]
    _ = (Int64.ofNat x.toNat).toInt := by rw [UInt64.toInt64_ofNat']
    _ = x.toNat := Int64.toInt_ofNat_of_lt h

theorem recorded_lt (ns : Int64) : recorded ns < 2 ^ 63 := by
  have := ns.toInt_lt
  unfold recorded
  omega

theorem toInt_percentileAt (hlen : lats.length < 2 ^ 63)
    (hhi : p.portion lats.length ≤ lats.length) {v : ℕ}
    (hv : IsKth (lats.map recorded) (p.portion lats.length) v) :
    ((HDRHistogram.ofLatencies lats).percentileAt p).toInt =
        LogBuckets.floor 5 (LogBuckets.bucket 5 v) ∧
      (HDRHistogram.ofLatencies lats).percentileAt p =
        (bucketToNs ((HDRHistogram.ofLatencies lats).bucketAt p)).toInt64 ∧
      (HDRHistogram.ofLatencies lats).bucketAt p = getHdrBucket (UInt64.ofNat v) ∧
      (UInt64.ofNat v).toNat = v := by
  obtain ⟨ns, _, hns⟩ := List.mem_map.mp hv.mem
  have hlt : v < 2 ^ 63 := hns ▸ recorded_lt ns
  have hto : (UInt64.ofNat v).toNat = v := UInt64.toNat_ofNat_of_lt' (hlt.trans (by decide))
  have hbucket : (HDRHistogram.ofLatencies lats).bucketAt p = getHdrBucket (UInt64.ofNat v) := by
    rw [← UInt64.toNat_inj, bucketAt_eq hlen hhi hv, toNat_getHdrBucket, hto]
  have htotal : (HDRHistogram.ofLatencies lats).totalCount ≠ 0 := by
    rw [totalCount_ofLatencies]
    intro hzero
    have hpos := hv.1
    have hcast := Int64.toInt_ofNat_of_lt hlen
    rw [hzero, Int64.toInt_zero] at hcast
    omega
  have hvalue := percentileAt_eq (HDRHistogram.ofLatencies lats) p htotal
  have hfloor : (bucketToNs (getHdrBucket (UInt64.ofNat v))).toNat =
      LogBuckets.floor 5 (LogBuckets.bucket 5 v) := by
    rw [toNat_floor, hto]
  have hle : LogBuckets.floor 5 (LogBuckets.bucket 5 v) ≤ v :=
    LogBuckets.floor_bucket_le (by decide) v
  refine ⟨?_, hvalue, hbucket, hto⟩
  rw [hvalue, hbucket, toInt_toInt64 (by omega), hfloor]

theorem percentileRight_of_kth (hlen : lats.length < 2 ^ 63)
    (hhi : p.portion lats.length ≤ lats.length) {v : ℕ}
    (hv : IsKth (lats.map recorded) (p.portion lats.length) v) : PercentileRight lats p v := by
  obtain ⟨hint, hvalue, hbucket, hto⟩ := toInt_percentileAt hlen hhi hv
  refine ⟨hv, by rw [hvalue, hbucket], ?_, ?_, hvalue, ?_⟩
  · rw [hint]
    exact_mod_cast LogBuckets.floor_bucket_le (by decide) v
  · rw [hint, Int.cast_natCast, ← Nat.cast_sub (LogBuckets.floor_bucket_le (by decide) v)]
    rcases Nat.lt_or_ge v (2 ^ 5) with hsmall | hlarge
    · rw [LogBuckets.floor_bucket_of_lt hsmall, Nat.sub_self, Nat.cast_zero]
      positivity
    · have hpart := LogBuckets.sub_floor_bucket_lt (k := 5) (by decide) hlarge
      rw [le_div_iff₀ (by norm_num), mul_comm]
      exact_mod_cast hpart.le
  · rw [hbucket]
    rintro ⟨hlo, hhi⟩
    have hlo : 32 ≤ (getHdrBucket (UInt64.ofNat v)).toNat := UInt64.le_iff_toNat_le.mp hlo
    have hhi : (getHdrBucket (UInt64.ofNat v)).toNat < 160 := UInt64.lt_iff_toNat_lt.mp hhi
    have := getHdrBucket_gap (UInt64.ofNat v)
    omega

/-- The percentiles of any latencies: with the target `t = (int64_t)(n * p)`, between 1
and `n` (`UnitDouble.portion_le`), the percentile is right for the `t`-th smallest latency;
and a greater `p` has no smaller percentile. -/
theorem percentile_right (hlen : lats.length < 2 ^ 63) (hlo : 1 ≤ p.portion lats.length)
    (hhi : p.portion lats.length ≤ lats.length) :
    (∃ v, PercentileRight lats p v) ∧
      ∀ q : UnitDouble, p.value ≤ q.value → q.portion lats.length ≤ lats.length →
        (HDRHistogram.ofLatencies lats).percentileAt p ≤
          (HDRHistogram.ofLatencies lats).percentileAt q := by
  have hlength : (lats.map recorded).length = lats.length := List.length_map _
  obtain ⟨v, hv⟩ := IsKth.exists_of_le (l := lats.map recorded) hlo (hlength.symm ▸ hhi)
  refine ⟨⟨v, percentileRight_of_kth hlen hhi hv⟩, fun q hpq hq => ?_⟩
  have hmono := UnitDouble.portion_mono hpq lats.length
  obtain ⟨w, hw⟩ := IsKth.exists_of_le (l := lats.map recorded)
    (hv.1.trans_le hmono) (hlength.symm ▸ hq)
  rw [Int64.le_iff_toInt_le, (toInt_percentileAt hlen hhi hv).1, (toInt_percentileAt hlen hq hw).1]
  exact_mod_cast LogBuckets.floor_bucket_mono (by decide) (hv.mono hw hmono)

/-- The median of three. -/
theorem percentile_right_median :
    (∃ v, PercentileRight [100, 5, 7] ⟨2 ^ 52, 53, by decide, by decide, by decide⟩ v) ∧
      ∀ q : UnitDouble, UnitDouble.value ⟨2 ^ 52, 53, by decide, by decide, by decide⟩ ≤ q.value →
        q.portion 3 ≤ 3 → (HDRHistogram.ofLatencies [100, 5, 7]).percentileAt
            ⟨2 ^ 52, 53, by decide, by decide, by decide⟩ ≤
          (HDRHistogram.ofLatencies [100, 5, 7]).percentileAt q :=
  @percentile_right [100, 5, 7] _ (by decide) (by decide) (by decide)

theorem countP_recorded_burst (before slow after : ℕ) {v : ℕ} (hv : 0 < v) :
    before + after ≤ (burst before slow after).countP ((fun w => decide (w < v)) ∘ recorded) := by
  have hfast : ((fun w => decide (w < v)) ∘ recorded) 0 = true := decide_eq_true hv
  rw [burst, List.countP_append, List.countP_append, List.countP_replicate, List.countP_replicate,
    List.countP_replicate, if_pos hfast, if_pos hfast]
  omega

/-- The product is rounded: 100 times the double 0.99 is less than 99, but rounds to it. -/
theorem percentile_rounds_up :
    let lats := burst 98 2 0
    let p : UnitDouble := ⟨ninetyNinth, 53, by decide, by decide, by decide⟩
    ⌊(lats.length : ℚ) * p.value⌋₊ = 98 ∧ ¬ ∃ v, IsKth (lats.map recorded) 98 v ∧
      (HDRHistogram.ofLatencies lats).percentileAt p =
        (bucketToNs (getHdrBucket (UInt64.ofNat v))).toInt64 := by
  intro lats p
  have hlength : lats.length = 100 := length_burst 98 2 0
  refine ⟨?_, ?_⟩
  · rw [hlength]
    refine (Nat.floor_eq_iff ?_).mpr ?_
    all_goals
      simp only [p, UnitDouble.value, ninetyNinth]
      norm_num
  · rintro ⟨v, hv, heq⟩
    obtain ⟨hzeros, hones⟩ := countP_burst 98 2 0
    have hone : (HDRHistogram.ofLatencies lats).percentileAt p = 1 := by
      have hfraction : fraction ninetyNinth lats.length = 99 := by
        rw [hlength]
        decide
      exact percentile_eq_one (p := ninetyNinth) 98 2 hzeros hones
        (List.ne_nil_of_length_pos (by omega))
        (by omega) (by omega) (by omega) (by omega) (by omega)
    -- two latencies of one nanosecond, the 98th smallest is not one of them
    have hsmall : v = 0 := by
      by_contra hne
      have hfast := countP_recorded_burst 98 2 0 (Nat.pos_iff_ne_zero.mpr hne)
      have hcount := hv.countP_lt_lt
      rw [List.countP_map] at hcount
      exact absurd hcount (Nat.not_lt.mpr hfast)
    rw [hone, hsmall] at heq
    exact absurd heq (by decide)

end Percentile

end VidhiArena.GameMaster
