import Mathlib.Algebra.Order.Ring.Int
import Mathlib.Data.Int.DivMod

/-!
# The pace of a fleet

`handleLaunch`, `newFleet` and the interval of `Fleet.run` in `bot-fleet/main.go`, with
Go's 64-bit `int`. A bot wakes up at every tick of a ticker whose interval is a quotient of
quotients of the numbers in the request. `make` is taken to find the memory for the bots.
-/

namespace VidhiArena.Botfleet

def DefaultBotCount : Int64 := 50

/-- `time.Millisecond`, in nanoseconds -/
def Millisecond : Int64 := 1000000

/-- What is decoded from a request. -/
structure BotJob where
  runID : String
  sandboxURL : String
  botCount : Int64
  targetTPS : Int64
  deriving DecidableEq

/-- A fleet has bots. -/
structure Fleet where
  job : BotJob
  /-- `len(f.bots)` -/
  bots : Int64
  positive : 0 < bots

/-- `/` panics on a divisor of zero. -/
def divide (a b : Int64) : Option Int64 := if b = 0 then none else some (a / b)

protected def max (a b : Int64) : Int64 := if a > b then a else b

def newFleet (job : BotJob) : Fleet :=
  if h : job.botCount ≤ 0 then ⟨job, DefaultBotCount, by decide⟩
  else ⟨job, job.botCount, Int64.not_le.mp h⟩

/-- `tickInterval` of `run`, a `time.Duration`; `none` where the division panics. -/
def Fleet.tickInterval (f : Fleet) : Option Int64 := do
  let perBot ← divide f.job.targetTPS f.bots
  let milliseconds ← divide 1000 (Botfleet.max perBot 1)
  return milliseconds * Millisecond

/-- The two defaults of `handleLaunch`. -/
def BotJob.withDefaults (job : BotJob) : BotJob :=
  let botCount := if job.botCount = 0 then DefaultBotCount else job.botCount
  let targetTPS := if job.targetTPS = 0 then botCount * 10 else job.targetTPS
  { job with botCount, targetTPS }

/-- The fleet that `handleLaunch` starts, or the status and the text of its answer. -/
def handleLaunch (job : BotJob) : Except (Nat × String) Fleet :=
  if job.runID = "" ∨ job.sandboxURL = "" then
    .error (400, "run_id and sandbox_url required")
  else .ok (newFleet job.withDefaults)

/-- `time.NewTicker` panics on an interval that is not positive. -/
def Paced (job : BotJob) : Prop :=
  ∀ f, handleLaunch job = .ok f → ∃ d, f.tickInterval = some d ∧ 0 < d

/-! ## The interval -/

theorem toInt_max (a b : Int64) : (Botfleet.max a b).toInt = max a.toInt b.toInt := by
  unfold Botfleet.max
  split
  · rename_i h
    exact (max_eq_left (Int64.lt_iff_toInt_lt.mp h).le).symm
  · rename_i h
    exact (max_eq_right (Int64.le_iff_toInt_le.mp (Int64.not_lt.mp h))).symm

theorem divide_pos (a : Int64) {b : Int64} (hb : 0 < b) :
    ∃ q, divide a b = some q ∧ q.toInt = a.toInt.tdiv b.toInt := by
  have hpos : 0 < b.toInt := Int64.lt_iff_toInt_lt.mp hb
  have hzero : b ≠ 0 := by
    rintro rfl
    exact absurd hpos (lt_irrefl _)
  have hone : b ≠ -1 := by
    rintro rfl
    exact absurd hpos (by decide)
  exact ⟨a / b, if_neg hzero, Int64.toInt_div_of_ne_right a b hone⟩

/-- A bot sleeps for a thousandth of a second or more if it is asked for 1000 orders a second
or less. -/
theorem thousand_tdiv_pos {m : Int} (hm : 0 < m) : 0 < (1000 : Int).tdiv m ↔ m < 1001 := by
  rw [Int.tdiv_eq_ediv_of_nonneg (by decide), ← Int.add_one_le_iff, Int.zero_add,
    Int.le_ediv_iff_mul_le hm, one_mul]
  exact Int.lt_add_one_iff.symm

theorem tdiv_lt_iff (t : Int) {n : Int} (hn : 0 < n) : t.tdiv n < 1001 ↔ t < 1001 * n := by
  rcases le_or_gt 0 t with ht | ht
  · rw [Int.tdiv_eq_ediv_of_nonneg ht, Int.ediv_lt_iff_lt_mul hn]
  · have hquotient : t.tdiv n ≤ 0 := by
      rw [← neg_neg t, Int.neg_tdiv]
      exact neg_nonpos.mpr (Int.tdiv_nonneg (neg_nonneg.mpr ht.le) hn.le)
    have hproduct : 0 < 1001 * n := mul_pos (by decide) hn
    exact iff_of_true (hquotient.trans_lt (by decide)) (ht.trans hproduct)

/-- A fleet whose bots are asked for less than 1001 orders a second ticks. -/
theorem Fleet.tickInterval_pos_iff (f : Fleet) :
    (∃ d, f.tickInterval = some d ∧ 0 < d) ↔ f.job.targetTPS.toInt < 1001 * f.bots.toInt := by
  have hbots : 0 < f.bots.toInt := Int64.lt_iff_toInt_lt.mp f.positive
  obtain ⟨perBot, hperBot, hshare⟩ := divide_pos f.job.targetTPS f.positive
  have hdivisor : (Botfleet.max perBot 1).toInt = max perBot.toInt 1 := toInt_max perBot 1
  have hone : 0 < (Botfleet.max perBot 1).toInt := by
    rw [hdivisor]
    exact lt_max_of_lt_right (by decide)
  obtain ⟨ms, hms, hvalue⟩ := divide_pos 1000 (Int64.lt_iff_toInt_lt.mpr hone)
  have hthousand : ms.toInt = (1000 : Int).tdiv (max perBot.toInt 1) := by
    rw [hvalue, hdivisor]
    rfl
  have hinterval : f.tickInterval = some (ms * Millisecond) := by
    simp only [tickInterval, hperBot, hms, Option.bind_eq_bind, Option.bind_some, pure]
  -- there are at most 1000 milliseconds, and the product does not overflow
  have hnanos : (ms * Millisecond).toInt = ms.toInt * 1000000 := by
    rw [Int64.toInt_mul]
    have hlow : 0 ≤ ms.toInt := by
      rw [hthousand]
      exact Int.tdiv_nonneg (by decide) (le_max_of_le_right (by decide))
    have hhigh : ms.toInt ≤ 1000 := by
      rw [hthousand, Int.tdiv_eq_ediv_of_nonneg (by decide)]
      exact Int.ediv_le_self _ (by decide)
    have hunit : Millisecond.toInt = 1000000 := by decide
    rw [hunit]
    exact Int.bmod_eq_of_le (by omega) (by omega)
  have hpos : 0 < ms * Millisecond ↔ 0 < ms.toInt := by
    rw [Int64.lt_iff_toInt_lt, hnanos]
    exact mul_pos_iff_of_pos_right (by decide)
  rw [hinterval]
  constructor
  · rintro ⟨d, hd, hlt⟩
    obtain rfl := Option.some.inj hd
    rw [hpos, hthousand, thousand_tdiv_pos (lt_max_of_lt_right (by decide)), max_lt_iff, hshare,
      tdiv_lt_iff _ hbots] at hlt
    exact hlt.1
  · intro hlt
    refine ⟨_, rfl, ?_⟩
    rw [hpos, hthousand, thousand_tdiv_pos (lt_max_of_lt_right (by decide)), max_lt_iff, hshare,
      tdiv_lt_iff _ hbots]
    exact ⟨hlt, by decide⟩

/-! ## The request -/

/-- The number of bots that a request leads to. -/
def bots (job : BotJob) : Int := if job.botCount.toInt ≤ 0 then 50 else job.botCount.toInt

/-- The orders a second; by default ten for each bot asked for, which may wrap around. -/
def target (job : BotJob) : Int :=
  if job.targetTPS = 0 then
    if job.botCount = 0 then 500 else (job.botCount.toInt * 10).bmod (2 ^ 64)
  else job.targetTPS.toInt

theorem newFleet_job (job : BotJob) : (newFleet job).job = job := by
  unfold newFleet
  split <;> rfl

theorem newFleet_bots (job : BotJob) : (newFleet job).bots.toInt = bots job := by
  unfold newFleet bots
  have hnone : job.botCount ≤ 0 ↔ job.botCount.toInt ≤ 0 := Int64.le_iff_toInt_le
  split
  · rename_i h
    rw [if_pos (hnone.mp h)]
    rfl
  · rename_i h
    rw [if_neg (mt hnone.mpr h)]

theorem bots_withDefaults (job : BotJob) : bots job.withDefaults = bots job := by
  unfold bots BotJob.withDefaults
  dsimp only
  by_cases hcount : job.botCount = 0
  · rw [if_pos hcount, hcount]
    rfl
  · rw [if_neg hcount]

theorem target_withDefaults (job : BotJob) : job.withDefaults.targetTPS.toInt = target job := by
  unfold target BotJob.withDefaults
  dsimp only
  by_cases htarget : job.targetTPS = 0
  · rw [if_pos htarget, if_pos htarget]
    by_cases hcount : job.botCount = 0
    · rw [if_pos hcount, if_pos hcount]
      decide
    · rw [if_neg hcount, if_neg hcount, Int64.toInt_mul]
      rfl
  · rw [if_neg htarget, if_neg htarget]

/-- When the tickers start: less than 1001 orders a second for each bot. -/
theorem paced_iff (job : BotJob) :
    Paced job ↔ job.runID = "" ∨ job.sandboxURL = "" ∨ target job < 1001 * bots job := by
  by_cases hrefused : job.runID = "" ∨ job.sandboxURL = ""
  · refine iff_of_true (fun f hf => ?_) (or_assoc.mp (.inl hrefused))
    rw [handleLaunch, if_pos hrefused] at hf
    cases hf
  · have hstarted : handleLaunch job = .ok (newFleet job.withDefaults) := if_neg hrefused
    have hpaced : Paced job ↔
        ∃ d, (newFleet job.withDefaults).tickInterval = some d ∧ 0 < d := by
      constructor
      · exact fun h => h _ hstarted
      · rintro h f hf
        obtain rfl := Except.ok.inj (hstarted.symm.trans hf)
        exact h
    rw [hpaced, Fleet.tickInterval_pos_iff, newFleet_job, newFleet_bots, target_withDefaults,
      bots_withDefaults, ← or_assoc]
    exact (or_iff_right hrefused).symm

/-- Two thousand orders a second from a single bot. -/
theorem not_paced_single : ¬ Paced ⟨"run", "http://sandbox:8080", 1, 2000⟩ := by
  intro h
  obtain ⟨d, hd, hpos⟩ := h _ rfl
  obtain rfl : 0 = d := Option.some.inj hd
  exact absurd hpos (by decide)

end VidhiArena.Botfleet
