import VidhiArena.Foundation.DoubleCount
import VidhiArena.GameMaster.Telemetry

/-!
# The reported latency

The final report of `run_simulation` reads `percentiles()` after the watchdog has been
joined: the percentiles of the histogram that is not being recorded into. The watchdog
swaps the two at every tick whose id is 999 modulo 1000 and clears the one that it goes on
with, so what is reported is the last complete thousand of ticks (`afterRun_windows`), and
nothing before the first thousand is complete.
-/

namespace VidhiArena.GameMaster

open VidhiArena.Foundation DoubleCount

/-! ## Percentiles -/

namespace HDRHistogram

def bucketToNs (bucket : UInt64) : UInt64 :=
  if bucket < 32 then bucket
  else
    let msb := bucket >>> 5
    let subBucket := bucket &&& 31
    (1 <<< msb) + (subBucket <<< (msb - 5))

def scan (hdr : HDRHistogram) (target : Int64) : Int64 → List UInt64 → Int64
  | _, [] => (bucketToNs 2047).toInt64
  | running, i :: is =>
      let running := running + hdr.counts i
      if target ≤ running then (bucketToNs i).toInt64 else hdr.scan target running is

/-- `p` is the mantissa of the fraction, as in `DoubleCount.fraction`. -/
def percentile (hdr : HDRHistogram) (p : Nat) : Int64 :=
  if hdr.totalCount = 0 then 0
  else
    let target := Int64.ofNat (fraction p hdr.totalCount.toInt.toNat)
    hdr.scan target 0 ((List.range 2048).map UInt64.ofNat)

end HDRHistogram

namespace TelemetryWatchdog

def currentHdr (wd : TelemetryWatchdog) : HDRHistogram := if wd.currentIsA then wd.hdrA else wd.hdrB

def readableHdr (wd : TelemetryWatchdog) : HDRHistogram :=
  if wd.currentIsA then wd.hdrB else wd.hdrA

def percentiles (wd : TelemetryWatchdog) : Int64 × Int64 :=
  (wd.readableHdr.percentile half, wd.readableHdr.percentile ninetyNinth)

end TelemetryWatchdog

/-! ## A run -/

/-- What `record_metrics` gets besides the tick id. -/
structure MetricsRow where
  tickNs : Int64
  pnlFp : Int64
  position : Int64

/-- The events of step 8, tick by tick from 0 on. -/
def metricsEvents (rows : List MetricsRow) : List TelemetryEvent :=
  rows.mapIdx fun tick row => .tickMetrics (Int64.ofNat tick) row.tickNs row.pnlFp row.position

/-- The watchdog when it has handled them all. -/
def TelemetryWatchdog.afterRun (rows : List MetricsRow) : TelemetryWatchdog :=
  (metricsEvents rows).foldl TelemetryWatchdog.handle TelemetryWatchdog.start

/-- All of some latencies in one histogram. -/
def HDRHistogram.ofLatencies (lats : List Int64) : HDRHistogram :=
  lats.foldl HDRHistogram.record HDRHistogram.empty

/-- The report covers the run: its p50 and p99 are those of the latencies of all ticks. -/
def ReportCoversRun (rows : List MetricsRow) : Prop :=
  let hdr := HDRHistogram.ofLatencies (rows.map MetricsRow.tickNs)
  (TelemetryWatchdog.afterRun rows).percentiles =
    (hdr.percentile half, hdr.percentile ninetyNinth)

/-! ## What the histograms hold -/

section Windows

variable {rows : List MetricsRow}

theorem ofLatencies_concat (lats : List Int64) (ns : Int64) :
    HDRHistogram.ofLatencies (lats ++ [ns]) = (HDRHistogram.ofLatencies lats).record ns := by
  rw [HDRHistogram.ofLatencies, List.foldl_append]
  rfl

theorem ofNat_mod_thousand {n : Nat} (hn : n < 2 ^ 63) :
    Int64.ofNat n % 1000 = 999 ↔ n % 1000 = 999 := by
  have hto : (Int64.ofNat n).toInt = n := Int64.toInt_ofNat_of_lt hn
  have hmod : (Int64.ofNat n % 1000).toInt = (n % 1000 : Nat) := by
    rw [Int64.toInt_mod, hto]
    rfl
  rw [← Int64.toInt_inj, hmod]
  exact Int.natCast_inj

/-- The two histograms after some ticks: the one in use holds the ticks since the last
thousand, the readable one that thousand. -/
structure Windows (rows : List MetricsRow) (wd : TelemetryWatchdog) : Prop where
  current : wd.currentHdr = HDRHistogram.ofLatencies
    ((rows.map MetricsRow.tickNs).drop (1000 * (rows.length / 1000)))
  readable : wd.readableHdr = HDRHistogram.ofLatencies
    (((rows.map MetricsRow.tickNs).take (1000 * (rows.length / 1000))).drop
      (1000 * (rows.length / 1000) - 1000))
  lastSwapTick : wd.lastSwapTick.toInt = 1000 * (rows.length / 1000) - 1

theorem TelemetryWatchdog.recordLatency_hdr (wd : TelemetryWatchdog) (ns : Int64) :
    (wd.recordLatency ns).currentHdr = wd.currentHdr.record ns ∧
      (wd.recordLatency ns).readableHdr = wd.readableHdr ∧
      (wd.recordLatency ns).lastSwapTick = wd.lastSwapTick := by
  unfold TelemetryWatchdog.recordLatency
  cases h : wd.currentIsA <;> simp [currentHdr, readableHdr, h]

theorem TelemetryWatchdog.swapHdr_hdr (wd : TelemetryWatchdog) :
    wd.swapHdr.currentHdr = HDRHistogram.empty ∧ wd.swapHdr.readableHdr = wd.currentHdr := by
  unfold TelemetryWatchdog.swapHdr
  cases h : wd.currentIsA <;> simp [currentHdr, readableHdr, h]

theorem TelemetryWatchdog.handle_tickMetrics (wd : TelemetryWatchdog)
    (tickId tickNs pnlFp position : Int64) :
    wd.handle (.tickMetrics tickId tickNs pnlFp position) =
      if (wd.recordLatency tickNs).lastSwapTick < tickId ∧ tickId % 1000 = 999 then
        { (wd.recordLatency tickNs).swapHdr with lastSwapTick := tickId }
      else wd.recordLatency tickNs := rfl

theorem Windows.concat {wd : TelemetryWatchdog} (h : Windows rows wd) (hlen : rows.length < 2 ^ 63)
    (row : MetricsRow) :
    Windows (rows ++ [row])
      (wd.handle (.tickMetrics (Int64.ofNat rows.length) row.tickNs row.pnlFp row.position)) := by
  obtain ⟨hcurrent, hreadable, hlast⟩ := wd.recordLatency_hdr row.tickNs
  have hlater : (wd.recordLatency row.tickNs).lastSwapTick < Int64.ofNat rows.length := by
    rw [Int64.lt_iff_toInt_lt, hlast, h.lastSwapTick, Int64.toInt_ofNat_of_lt hlen]
    omega
  have hwhole : 1000 * (rows.length / 1000) ≤ (rows.map MetricsRow.tickNs).length := by
    rw [List.length_map]
    omega
  rw [h.current, ← ofLatencies_concat, ← List.drop_append_of_le_length hwhole] at hcurrent
  have hnew : (rows ++ [row]).map MetricsRow.tickNs = rows.map MetricsRow.tickNs ++ [row.tickNs] :=
    List.map_append
  have hlength : (rows ++ [row]).length = rows.length + 1 := by
    rw [List.length_append, List.length_singleton]
  rw [TelemetryWatchdog.handle_tickMetrics]
  by_cases hfull : rows.length % 1000 = 999
  · -- the thousand is complete
    have hdiv : (rows.length + 1) / 1000 = rows.length / 1000 + 1 := by omega
    have hall : 1000 * (rows.length / 1000 + 1) = rows.length + 1 := by omega
    have hlats : (rows.map MetricsRow.tickNs ++ [row.tickNs]).length ≤ rows.length + 1 := by
      rw [← hnew, List.length_map, hlength]
    rw [if_pos ⟨hlater, (ofNat_mod_thousand hlen).mpr hfull⟩]
    obtain ⟨hempty, hswapped⟩ := (wd.recordLatency row.tickNs).swapHdr_hdr
    refine ⟨?_, ?_, ?_⟩
    · rw [hnew, hlength, hdiv, hall, List.drop_of_length_le hlats]
      exact hempty
    · rw [hnew, hlength, hdiv, hall, List.take_of_length_le hlats]
      rw [hcurrent] at hswapped
      have hfrom : rows.length + 1 - 1000 = 1000 * (rows.length / 1000) := by omega
      rw [hfrom]
      exact hswapped
    · show (Int64.ofNat rows.length).toInt = _
      rw [hlength, Int64.toInt_ofNat_of_lt hlen]
      omega
  · have hdiv : (rows.length + 1) / 1000 = rows.length / 1000 := by omega
    rw [if_neg fun hc => hfull ((ofNat_mod_thousand hlen).mp hc.2)]
    refine ⟨?_, ?_, ?_⟩
    · rw [hcurrent, hnew, hlength, hdiv]
    · rw [hreadable, h.readable, hnew, hlength, hdiv, List.take_append_of_le_length hwhole]
    · rw [hlast, h.lastSwapTick, hlength]
      omega

theorem afterRun_windows (rows : List MetricsRow) (hlen : rows.length < 2 ^ 63) :
    Windows rows (TelemetryWatchdog.afterRun rows) := by
  induction rows using List.reverseRecOn with
  | nil => exact ⟨rfl, rfl, rfl⟩
  | append_singleton rows row ih =>
      have hlength : (rows ++ [row]).length = rows.length + 1 := by
        rw [List.length_append, List.length_singleton]
      have hlen' : rows.length < 2 ^ 63 := by omega
      have hevents : metricsEvents (rows ++ [row]) = metricsEvents rows ++
          [.tickMetrics (Int64.ofNat rows.length) row.tickNs row.pnlFp row.position] :=
        List.mapIdx_concat
      rw [TelemetryWatchdog.afterRun, hevents, List.foldl_append]
      exact (ih hlen').concat hlen' row

end Windows

/-! ## The first two buckets -/

/-- The bucket that `record` counts a latency in. -/
def bucketOf (ns : Int64) : UInt64 := min (HDRHistogram.getHdrBucket (max 0 ns).toUInt64) 2047

section Buckets

variable {lats : List Int64}

theorem totalCount_ofLatencies (lats : List Int64) :
    (HDRHistogram.ofLatencies lats).totalCount = Int64.ofNat lats.length := by
  induction lats using List.reverseRecOn with
  | nil => rfl
  | append_singleton lats ns ih =>
      rw [ofLatencies_concat, List.length_append, List.length_singleton, Int64.ofNat_add, ← ih]
      rfl

theorem counts_ofLatencies (lats : List Int64) (b : UInt64) :
    (HDRHistogram.ofLatencies lats).counts b =
      Int64.ofNat (lats.countP fun ns => bucketOf ns = b) := by
  induction lats using List.reverseRecOn with
  | nil => rfl
  | append_singleton lats ns ih =>
      rw [ofLatencies_concat, List.countP_append, Int64.ofNat_add, ← ih]
      show Function.update _ (bucketOf ns) _ b = _
      by_cases hb : bucketOf ns = b
      · subst hb
        have hself := Function.update_self (bucketOf ns)
          ((HDRHistogram.ofLatencies lats).counts (bucketOf ns) + 1)
          (HDRHistogram.ofLatencies lats).counts
        rw [List.countP_singleton, if_pos (decide_eq_true rfl)]
        exact hself
      · rw [Function.update_of_ne (Ne.symm hb)]
        simp [hb]

theorem ofNat_le_iff {a b : Nat} (ha : a < 2 ^ 63) (hb : b < 2 ^ 63) :
    Int64.ofNat a ≤ Int64.ofNat b ↔ a ≤ b := by
  rw [Int64.le_iff_toInt_le, Int64.toInt_ofNat_of_lt ha, Int64.toInt_ofNat_of_lt hb]
  exact Int.ofNat_le

theorem buckets_eq : (List.range 2048).map UInt64.ofNat =
    0 :: 1 :: (List.range' 2 2046).map UInt64.ofNat := by
  rw [List.range_eq_range', List.range'_succ, List.range'_succ]
  rfl

/-- The percentile as a scan that starts at the first two buckets. -/
theorem percentile_scan (p : Nat) (hne : lats ≠ []) (hlen : lats.length < 2 ^ 63) :
    (HDRHistogram.ofLatencies lats).percentile p =
      (HDRHistogram.ofLatencies lats).scan (Int64.ofNat (fraction p lats.length)) 0
        (0 :: 1 :: (List.range' 2 2046).map UInt64.ofNat) := by
  have hto : (Int64.ofNat lats.length).toInt = lats.length := Int64.toInt_ofNat_of_lt hlen
  have hpos : Int64.ofNat lats.length ≠ 0 := by
    intro hc
    rw [hc] at hto
    have hzero : (0 : Int) = lats.length := hto
    have := List.length_pos_iff.mpr hne
    omega
  rw [HDRHistogram.percentile, totalCount_ofLatencies, if_neg hpos, hto, Int.toNat_natCast,
    buckets_eq]

variable {p : Nat} (zeros ones : Nat) (hzeros : (lats.countP fun ns => bucketOf ns = 0) = zeros)
  (hones : (lats.countP fun ns => bucketOf ns = 1) = ones) (hne : lats ≠ [])
  (hlen : lats.length < 2 ^ 63) (hp : fraction p lats.length < 2 ^ 63)

include hzeros hne hlen hp in
theorem percentile_eq_zero (h : fraction p lats.length ≤ zeros) :
    (HDRHistogram.ofLatencies lats).percentile p = 0 := by
  have hle : zeros ≤ lats.length := hzeros ▸ List.countP_le_length
  rw [percentile_scan p hne hlen, HDRHistogram.scan, counts_ofLatencies, hzeros, Int64.zero_add,
    if_pos ((ofNat_le_iff hp (hle.trans_lt hlen)).mpr h)]
  rfl

include hzeros hones hne hlen hp in
theorem percentile_eq_one (h : zeros < fraction p lats.length)
    (hone : fraction p lats.length ≤ zeros + ones) (hsum : zeros + ones ≤ lats.length) :
    (HDRHistogram.ofLatencies lats).percentile p = 1 := by
  have hle : zeros ≤ lats.length := (Nat.le_add_right _ _).trans hsum
  rw [percentile_scan p hne hlen, HDRHistogram.scan, counts_ofLatencies, hzeros, Int64.zero_add,
    if_neg fun hc => Nat.not_le.mpr h ((ofNat_le_iff hp (hle.trans_lt hlen)).mp hc),
    HDRHistogram.scan, counts_ofLatencies, hones, ← Int64.ofNat_add,
    if_pos ((ofNat_le_iff hp (hsum.trans_lt hlen)).mpr hone)]
  rfl

end Buckets

/-! ## Which runs are covered -/

/-- The ticks that the report is about. -/
def reportedTicks (lats : List Int64) : List Int64 :=
  (lats.take (1000 * (lats.length / 1000))).drop (1000 * (lats.length / 1000) - 1000)

theorem reportCoversRun_iff {rows : List MetricsRow} (hlen : rows.length < 2 ^ 63) :
    ReportCoversRun rows ↔
      (HDRHistogram.ofLatencies (reportedTicks (rows.map MetricsRow.tickNs))).percentile half =
          (HDRHistogram.ofLatencies (rows.map MetricsRow.tickNs)).percentile half ∧
        (HDRHistogram.ofLatencies (reportedTicks (rows.map MetricsRow.tickNs))).percentile
            ninetyNinth =
          (HDRHistogram.ofLatencies (rows.map MetricsRow.tickNs)).percentile ninetyNinth := by
  have hreadable := (afterRun_windows rows hlen).readable
  rw [ReportCoversRun, TelemetryWatchdog.percentiles, hreadable, Prod.mk.injEq, reportedTicks,
    List.length_map]

def rowsOf (lats : List Int64) : List MetricsRow := lats.map fun ns => ⟨ns, 0, 0⟩

theorem tickNs_rowsOf (lats : List Int64) : (rowsOf lats).map MetricsRow.tickNs = lats := by
  rw [rowsOf, List.map_map]
  exact List.map_id lats

theorem countP_replicate_bucket (n : Nat) (ns : Int64) (b : UInt64) :
    ((List.replicate n ns).countP fun ns => bucketOf ns = b) = if bucketOf ns = b then n else 0 := by
  rw [List.countP_replicate]
  simp only [decide_eq_true_eq]

theorem bucketOf_zero : bucketOf 0 = 0 := by decide

theorem bucketOf_one : bucketOf 1 = 1 := by decide

/-- Fast ticks, some slow ones, and fast ticks. -/
def burst (before slow after : Nat) : List Int64 :=
  List.replicate before 0 ++ List.replicate slow 1 ++ List.replicate after 0

theorem length_burst (before slow after : Nat) :
    (burst before slow after).length = before + slow + after := by
  rw [burst, List.length_append, List.length_append, List.length_replicate, List.length_replicate,
    List.length_replicate]

theorem countP_burst (before slow after : Nat) :
    ((burst before slow after).countP fun ns => bucketOf ns = 0) = before + after ∧
      ((burst before slow after).countP fun ns => bucketOf ns = 1) = slow := by
  constructor
  · rw [burst, List.countP_append, List.countP_append, countP_replicate_bucket,
      countP_replicate_bucket, countP_replicate_bucket, bucketOf_zero, bucketOf_one, if_pos rfl,
      if_neg (by decide), if_pos rfl, Nat.add_zero]
  · rw [burst, List.countP_append, List.countP_append, countP_replicate_bucket,
      countP_replicate_bucket, countP_replicate_bucket, bucketOf_zero, bucketOf_one, if_pos rfl,
      if_neg (by decide), if_neg (by decide), Nat.zero_add, Nat.add_zero]

/-- The median of a burst: slow if the fast ticks are fewer than half of all. -/
theorem percentile_burst_one {before slow after : Nat}
    (hlen : before + slow + after < 2 ^ 63)
    (hlo : before + after < fraction half (before + slow + after))
    (hhi : fraction half (before + slow + after) ≤ before + slow + after) :
    (HDRHistogram.ofLatencies (burst before slow after)).percentile half = 1 := by
  obtain ⟨hzeros, hones⟩ := countP_burst before slow after
  rw [← length_burst before slow after] at hlen hlo hhi
  refine percentile_eq_one _ _ hzeros hones ?_ hlen (hhi.trans_lt hlen) hlo ?_ ?_
  · intro hnil
    rw [hnil] at hlo hhi
    exact absurd (hlo.trans_le hhi) (Nat.not_lt_zero _)
  · refine hhi.trans (le_of_eq ?_)
    rw [length_burst]
    omega
  · rw [length_burst]
    omega

theorem percentile_burst_zero {before slow after : Nat} (hpos : 0 < before + slow + after)
    (hlen : before + slow + after < 2 ^ 63)
    (h : fraction half (before + slow + after) ≤ before + after) :
    (HDRHistogram.ofLatencies (burst before slow after)).percentile half = 0 := by
  rw [← length_burst before slow after] at hlen h hpos
  obtain ⟨hzeros, -⟩ := countP_burst before slow after
  have hle : before + after ≤ (burst before slow after).length := by
    rw [length_burst]
    omega
  exact percentile_eq_zero _ hzeros (List.ne_nil_of_length_pos hpos) hlen
    ((h.trans hle).trans_lt hlen) h

theorem length_rowsOf (lats : List Int64) : (rowsOf lats).length = lats.length :=
  List.length_map _

theorem not_covered_short {n : Nat} (hlo : 2 ≤ n) (hhi : n < 1000) :
    ¬ ReportCoversRun (rowsOf (burst 0 n 0)) := by
  have hlength : (burst 0 n 0).length = n := by
    rw [length_burst]
    omega
  have hnone : reportedTicks (burst 0 n 0) = [] := by
    rw [reportedTicks, hlength, Nat.div_eq_of_lt hhi]
    rfl
  have hsum : 0 + n + 0 = n := by omega
  have hhalf : fraction half n = n / 2 := fraction_half_of_small (by omega)
  have hone : (HDRHistogram.ofLatencies (burst 0 n 0)).percentile half = 1 := by
    refine percentile_burst_one ?_ ?_ ?_
    · omega
    · rw [hsum, hhalf]
      omega
    · rw [hsum, hhalf]
      omega
  rw [reportCoversRun_iff (by rw [length_rowsOf]; omega), tickNs_rowsOf, hnone, hone]
  exact fun hcovers => absurd hcovers.1 (by decide)

theorem not_covered_long {n : Nat} (hlo : 1000 < n) (hhi : n < 2 ^ 63) :
    ∃ before after, before + 501 + after = n ∧
      ¬ ReportCoversRun (rowsOf (burst before 501 after)) := by
  -- of the last thousand, 499 ticks are fast and 501 slow
  obtain ⟨before, hbefore⟩ : ∃ before, 1000 * (n / 1000) = before + 501 :=
    ⟨1000 * (n / 1000) - 501, by omega⟩
  obtain ⟨skipped, rfl⟩ : ∃ skipped, before = skipped + 499 := ⟨before - 499, by omega⟩
  refine ⟨skipped + 499, n % 1000, by omega, ?_⟩
  have hlength : (burst (skipped + 499) 501 (n % 1000)).length = n := by
    rw [length_burst]
    omega
  have hwindow : reportedTicks (burst (skipped + 499) 501 (n % 1000)) = burst 499 501 0 := by
    have hfrom : skipped + 499 + 501 - 1000 = skipped := by omega
    rw [reportedTicks, hlength, hbefore, hfrom, burst, List.take_left']
    · rw [List.replicate_add, List.append_assoc, List.drop_left' List.length_replicate]
      rw [burst, List.replicate_zero, List.append_nil]
    · rw [List.length_append, List.length_replicate, List.length_replicate]
  have hslow : (HDRHistogram.ofLatencies (burst 499 501 0)).percentile half = 1 := by
    have hhalf : fraction half (499 + 501 + 0) = 500 := fraction_half_of_small (by decide)
    exact percentile_burst_one (by decide) (by omega) (by omega)
  have hsum : skipped + 499 + 501 + n % 1000 = n := by omega
  have hfast : (HDRHistogram.ofLatencies
      (burst (skipped + 499) 501 (n % 1000))).percentile half = 0 := by
    refine percentile_burst_zero (by omega) (by omega) ?_
    rw [hsum]
    rcases Nat.lt_or_ge n (2 ^ 53) with hsmall | hlarge
    · rw [fraction_half_of_small hsmall]
      omega
    · have hhalf := fraction_half_le n
      omega
  rw [reportCoversRun_iff (by rw [length_rowsOf]; omega), tickNs_rowsOf, hwindow, hslow, hfast]
  exact fun hcovers => absurd hcovers.1 (by decide)

/-- The report covers every run of `max_ticks` ticks if and only if that is one tick or
exactly a thousand. -/
theorem report_covers_iff (maxTicks : Int64) (hpos : 1 ≤ maxTicks) :
    (∀ rows : List MetricsRow, (rows.length : Int) = maxTicks.toInt → ReportCoversRun rows) ↔
      maxTicks = 1 ∨ maxTicks = 1000 := by
  have hpos : 1 ≤ maxTicks.toInt := Int64.le_iff_toInt_le.mp hpos
  have hlt := maxTicks.toInt_lt
  obtain ⟨n, hn⟩ : ∃ n : Nat, (n : Int) = maxTicks.toInt := ⟨maxTicks.toInt.toNat, by omega⟩
  constructor
  · intro hall
    by_contra hno
    obtain ⟨hne₁, hne₂⟩ := not_or.mp hno
    have hne₁ : maxTicks.toInt ≠ 1 := fun hc => hne₁ (Int64.toInt_inj.mp hc)
    have hne₂ : maxTicks.toInt ≠ 1000 := fun hc => hne₂ (Int64.toInt_inj.mp hc)
    rcases Nat.lt_or_ge n 1000 with hshort | hlong
    · refine not_covered_short (n := n) (by omega) hshort (hall _ ?_)
      rw [length_rowsOf, length_burst]
      omega
    · obtain ⟨before, after, hsum, hnot⟩ := not_covered_long (n := n) (by omega) (by omega)
      refine hnot (hall _ ?_)
      rw [length_rowsOf, length_burst]
      omega
  · rintro hcase rows hlength
    rw [reportCoversRun_iff (by omega)]
    rcases hcase with rfl | rfl
    · -- a single latency is below both targets
      have hone : rows.length = 1 := Int.natCast_inj.mp hlength
      have hlats : (rows.map MetricsRow.tickNs).length = 1 := by rw [List.length_map, hone]
      have hne : rows.map MetricsRow.tickNs ≠ [] := List.ne_nil_of_length_pos (by omega)
      have hnone : reportedTicks (rows.map MetricsRow.tickNs) = [] := by
        rw [reportedTicks, hlats]
        rfl
      have hzero : ∀ p, fraction p 1 = 0 →
          (HDRHistogram.ofLatencies (rows.map MetricsRow.tickNs)).percentile p = 0 := by
        intro p hp
        rw [← hlats] at hp
        refine percentile_eq_zero _ rfl hne (by omega) (by omega) (by omega)
      rw [hnone, hzero half (by decide), hzero ninetyNinth (by decide)]
      exact ⟨rfl, rfl⟩
    · have hthousand : rows.length = 1000 := Int.natCast_inj.mp hlength
      have hwhole : reportedTicks (rows.map MetricsRow.tickNs) = rows.map MetricsRow.tickNs := by
        rw [reportedTicks, List.length_map, hthousand, List.take_of_length_le]
        · rfl
        · rw [List.length_map, hthousand]
      rw [hwhole]
      exact ⟨rfl, rfl⟩

/-- A thousand ticks of five nanoseconds. -/
theorem report_covers_thousand : ReportCoversRun (rowsOf (List.replicate 1000 5)) :=
  (report_covers_iff 1000 (by decide)).mpr (Or.inr rfl) _
    (by rw [length_rowsOf, List.length_replicate]; rfl)

/-- Five hundred ticks of one nanosecond, reported as p50 = 0. -/
theorem short_run_unreported : ¬ ReportCoversRun (rowsOf (burst 0 500 0)) :=
  not_covered_short (by decide) (by decide)

end VidhiArena.GameMaster
