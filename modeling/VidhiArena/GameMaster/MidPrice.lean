import VidhiArena.GameMaster.TickLoop
import VidhiArena.GameMaster.Volumes

/-!
# The mid price

The market snapshot of a tick carries `(best_bid + best_ask) / 2` when the signal
brings no mid of its own. An empty side shows as 0 or `INT64_MAX`;
`PersistentLOB::mid()` looks for these two values and answers with the last trade,
the snapshot does not. What it computes goes into the averages of the momentum
bot and into the deviation of the mean-reversion bot.

`MidRight` is what the snapshot owes the book, `EmaFits` and `DeviationFits` what
it owes the bots. `Priced` is the condition on a tick, and the result is about
every tick of a run in which all ticks so far have met it.
-/

namespace VidhiArena.GameMaster

open VidhiArena.Foundation BookProg

/-! ## What the snapshot owes -/

/-- The mid price is the one of the book: a GBM tick, or a row without a positive
mid of its own. -/
def PriceTick.FromBook : PriceTick → Prop
  | row _ _ midFp _ _ _ _ => ¬ 0 < midFp
  | gbm .. => True

instance : ∀ price : PriceTick, Decidable price.FromBook
  | .row .. => inferInstanceAs (Decidable (¬ _))
  | .gbm .. => inferInstanceAs (Decidable True)

/-- The snapshot that the tick takes of a book. -/
def PriceTick.of (price : PriceTick) (lob : PersistentLOB) : MarketSnapshot :=
  price.snapshot lob.bestBid lob.bestAsk

/-- A right mid: no overflow; between the best prices when there are two, and
`mid()` otherwise. -/
structure PersistentLOB.MidRight (lob : PersistentLOB) (midFp : Int64) : Prop where
  sum : Fits (lob.bestBid.toInt + lob.bestAsk.toInt)
  between : lob.bids.levels ≠ [] → lob.asks.levels ≠ [] →
    lob.bestBid ≤ midFp ∧ midFp ≤ lob.bestAsk ∨ lob.bestAsk ≤ midFp ∧ midFp ≤ lob.bestBid
  quoted : lob.bids.levels = [] ∨ lob.asks.levels = [] → midFp = lob.mid

/-- No product and no sum of the two averages overflows. -/
structure MomentumBot.EmaFits (bot : MomentumBot) (midFp : Int64) : Prop where
  fastTerm : Fits (bot.emaFastFp.toInt * 95)
  midTerm : Fits (midFp.toInt * 5)
  fast : Fits (bot.emaFastFp.toInt * 95 + midFp.toInt * 5)
  slowTerm : Fits (bot.emaSlowFp.toInt * 99)
  slow : Fits (bot.emaSlowFp.toInt * 99 + midFp.toInt * 1)

/-- `mid_fp - fair_value_fp` does not overflow. -/
def MarketSnapshot.DeviationFits (snap : MarketSnapshot) : Prop :=
  Fits (snap.midFp.toInt - snap.fairValueFp.toInt)

structure SnapshotRight (s : SimState) (input : TickInput) : Prop where
  mid : input.price.FromBook → s.1.MidRight (input.price.of s.1).midFp
  ema : s.2.bots.mom.initialized = true → s.2.bots.mom.EmaFits (input.price.of s.1).midFp
  deviation : (input.price.of s.1).DeviationFits

/-! ## Prices that the averages can hold -/

/-- A hundred times this is still an `int64_t`. -/
def midBound : Int := (2 ^ 63 - 1) / 100

def Within (n : Int) (x : Int64) : Prop := -n ≤ x.toInt ∧ x.toInt ≤ n

instance (n : Int) (x : Int64) : Decidable (Within n x) := inferInstanceAs (Decidable (_ ∧ _))

/-- What a tick has to find: two best prices whose sum leaves room for the
averages (or a mid of its own that does), and a fair value with room for the
deviation. -/
def Priced (s : SimState) (input : TickInput) : Prop :=
  (if input.price.FromBook then
      s.1.bids.levels ≠ [] ∧ s.1.asks.levels ≠ [] ∧
        -(2 * midBound) ≤ s.1.bestBid.toInt + s.1.bestAsk.toInt ∧
        s.1.bestBid.toInt + s.1.bestAsk.toInt ≤ 2 * midBound
    else Within midBound (input.price.of s.1).midFp) ∧
  Within (2 ^ 63 - 1 - midBound) (input.price.of s.1).fairValueFp

instance (s : SimState) (input : TickInput) : Decidable (Priced s input) :=
  have : Decidable (if input.price.FromBook then
      s.1.bids.levels ≠ [] ∧ s.1.asks.levels ≠ [] ∧
        -(2 * midBound) ≤ s.1.bestBid.toInt + s.1.bestAsk.toInt ∧
        s.1.bestBid.toInt + s.1.bestAsk.toInt ≤ 2 * midBound
    else Within midBound (input.price.of s.1).midFp) := inferInstance
  inferInstanceAs (Decidable (_ ∧ _))

theorem PriceTick.FromBook.midFp {price : PriceTick} (h : price.FromBook) (lob : PersistentLOB) :
    (price.of lob).midFp = (lob.bestBid + lob.bestAsk) / 2 := by
  cases price with
  | row bidFp askFp midFp spreadFp fairValueFp volatilityFp isNewsEvent => exact if_neg h
  | gbm fairValueFp volatilityFp isNewsEvent => rfl

/-! ## Division towards zero -/

theorem tdiv_between {lo hi x n : Int} (hn : 0 < n) (hlo : lo * n ≤ x) (hhi : x ≤ hi * n) :
    lo ≤ x.tdiv n ∧ x.tdiv n ≤ hi := by
  rcases le_total 0 x with hx | hx
  · rw [Int.tdiv_eq_ediv_of_nonneg hx]
    exact ⟨(Int.le_ediv_iff_mul_le hn).mpr hlo, Int.ediv_le_of_le_mul hn hhi⟩
  · have hneg : x.tdiv n = -((-x) / n) := by
      rw [← Int.tdiv_eq_ediv_of_nonneg (by omega), Int.neg_tdiv, neg_neg]
    have hle : (-x) / n ≤ -lo := Int.ediv_le_of_le_mul hn (by rw [Int.neg_mul]; omega)
    have hge : -hi ≤ (-x) / n := (Int.le_ediv_iff_mul_le hn).mpr (by rw [Int.neg_mul]; omega)
    rw [hneg]
    omega

theorem toInt_half (x : Int64) : (x / 2).toInt = x.toInt.tdiv 2 :=
  Int64.toInt_div_of_ne_right x 2 (by decide)

theorem toInt_hundredth (x : Int64) : (x / 100).toInt = x.toInt.tdiv 100 :=
  Int64.toInt_div_of_ne_right x 100 (by decide)

theorem mean_between {a b : Int64} (h : Fits (a.toInt + b.toInt)) :
    a ≤ (a + b) / 2 ∧ (a + b) / 2 ≤ b ∨ b ≤ (a + b) / 2 ∧ (a + b) / 2 ≤ a := by
  have hsum : ((a + b) / 2).toInt = (a.toInt + b.toInt).tdiv 2 := by
    rw [toInt_half, toInt_add_of_fits h]
  simp only [Int64.le_iff_toInt_le, hsum]
  rcases le_total a.toInt b.toInt with hab | hab
  · exact Or.inl (tdiv_between (by decide) (by omega) (by omega))
  · exact Or.inr (tdiv_between (by decide) (by omega) (by omega))

theorem toInt_mul_of_fits {a b : Int64} (h : Fits (a.toInt * b.toInt)) :
    (a * b).toInt = a.toInt * b.toInt := by
  rw [Int64.toInt_mul, bmod_of_fits h]

/-! ## One tick -/

/-- A priced tick reads a right mid, and one that the averages can hold. -/
theorem Priced.mid {s : SimState} {input : TickInput} (h : Priced s input) :
    (input.price.FromBook → s.1.MidRight (input.price.of s.1).midFp) ∧
      Within midBound (input.price.of s.1).midFp := by
  by_cases hbook : input.price.FromBook
  · obtain ⟨hbids, hasks, hlo, hhi⟩ := (if_pos hbook).mp h.1
    have hfits : Fits (s.1.bestBid.toInt + s.1.bestAsk.toInt) := by
      unfold Fits
      unfold midBound at hlo hhi
      omega
    refine ⟨fun _ => ⟨hfits, fun _ _ => ?_, ?_⟩, ?_⟩
    · rw [hbook.midFp]
      exact mean_between hfits
    · rintro (hnil | hnil)
      · exact absurd hnil hbids
      · exact absurd hnil hasks
    · rw [hbook.midFp, Within, toInt_half, toInt_add_of_fits hfits]
      exact tdiv_between (by decide) (by omega) (by omega)
  · exact ⟨fun hb => absurd hb hbook, (if_neg hbook).mp h.1⟩

theorem MomentumBot.EmaFits.of_within {bot : MomentumBot} {midFp : Int64}
    (hfast : Within midBound bot.emaFastFp) (hslow : Within midBound bot.emaSlowFp)
    (hmid : Within midBound midFp) : bot.EmaFits midFp := by
  unfold Within midBound at hfast hslow hmid
  refine ⟨?_, ?_, ?_, ?_, ?_⟩
  all_goals
    unfold Fits
    omega

theorem within_average {x y k l : Int64} (hx : Within midBound x) (hy : Within midBound y)
    (hk : 0 ≤ k.toInt) (hl : 0 ≤ l.toInt) (hkl : k.toInt + l.toInt = 100) :
    Within midBound ((x * k + y * l) / 100) := by
  have hbound : midBound * k.toInt + midBound * l.toInt = midBound * 100 := by
    rw [← Int.mul_add, hkl]
  have hxk : -(midBound * k.toInt) ≤ x.toInt * k.toInt ∧ x.toInt * k.toInt ≤ midBound * k.toInt := by
    rw [← Int.neg_mul]
    exact ⟨Int.mul_le_mul_of_nonneg_right hx.1 hk, Int.mul_le_mul_of_nonneg_right hx.2 hk⟩
  have hyl : -(midBound * l.toInt) ≤ y.toInt * l.toInt ∧ y.toInt * l.toInt ≤ midBound * l.toInt := by
    rw [← Int.neg_mul]
    exact ⟨Int.mul_le_mul_of_nonneg_right hy.1 hl, Int.mul_le_mul_of_nonneg_right hy.2 hl⟩
  have hk' : 0 ≤ midBound * k.toInt := Int.mul_nonneg (by decide) hk
  have hl' : 0 ≤ midBound * l.toInt := Int.mul_nonneg (by decide) hl
  have hmax : midBound * 100 < 2 ^ 63 := by decide
  have hprod : Fits (x.toInt * k.toInt) ∧ Fits (y.toInt * l.toInt) ∧
      Fits (x.toInt * k.toInt + y.toInt * l.toInt) := by
    unfold Fits
    omega
  have hsum : (x * k + y * l).toInt = x.toInt * k.toInt + y.toInt * l.toInt := by
    rw [toInt_add_of_fits, toInt_mul_of_fits hprod.1, toInt_mul_of_fits hprod.2.1]
    rw [toInt_mul_of_fits hprod.1, toInt_mul_of_fits hprod.2.1]
    exact hprod.2.2
  rw [Within, toInt_hundredth, hsum]
  exact tdiv_between (by decide) (by omega) (by omega)

/-! ## The averages along a run -/

namespace MomentumBot

/-- The averages after a tick, whatever the bot trades. -/
def averaged (bot : MomentumBot) (midFp : Int64) : MomentumBot :=
  if bot.initialized = false then
    { bot with emaFastFp := midFp, emaSlowFp := midFp, initialized := true }
  else
    { bot with
      emaFastFp := (bot.emaFastFp * 95 + midFp * 5) / 100
      emaSlowFp := (bot.emaSlowFp * 99 + midFp * 1) / 100 }

theorem compute_averaged (bot : MomentumBot) (agg : Aggression) (threshold : Int64)
    (snap : MarketSnapshot) (lob : PersistentLOB) :
    Prog.Ensures PersistentLOB.apply (fun _ _ => True) (fun bot' _ => bot' = bot.averaged snap.midFp)
      (bot.compute agg threshold snap) lob := by
  unfold compute averaged
  refine Prog.ensures_ite (fun hnew => ?_) fun hold => ?_
  · rw [if_pos hnew]
    exact Prog.ensures_ret rfl
  · rw [if_neg hold]
    refine Prog.ensures_skip (a := []) fun _ _ => ?_
    refine Prog.ensures_skip (a := []) fun _ _ => ?_
    refine Prog.ensures_skip (a := []) fun _ _ => ?_
    exact Prog.ensures_ret rfl

/-- The averages hold prices within the bound. -/
def Bounded (bot : MomentumBot) : Prop :=
  bot.initialized = true → Within midBound bot.emaFastFp ∧ Within midBound bot.emaSlowFp

theorem Bounded.averaged {bot : MomentumBot} (h : bot.Bounded) {midFp : Int64}
    (hmid : Within midBound midFp) : (bot.averaged midFp).Bounded := by
  unfold MomentumBot.averaged
  split
  · exact fun _ => ⟨hmid, hmid⟩
  · rename_i hold
    obtain ⟨hfast, hslow⟩ := h (by simpa using hold)
    exact fun _ => ⟨within_average hfast hmid (by decide) (by decide) (by decide),
      within_average hslow hmid (by decide) (by decide) (by decide)⟩

theorem Bounded.onFill {bot : MomentumBot} (h : bot.Bounded) (f : MatchedFill) :
    (bot.onFill f).Bounded := by
  unfold MomentumBot.onFill
  split <;> exact h

end MomentumBot

theorem BotFleet.distributeFills_bounded : ∀ (fills : List MatchedFill) {bots : BotFleet},
    bots.mom.Bounded → (bots.distributeFills fills).mom.Bounded := by
  intro fills
  induction fills with
  | nil => exact fun h => h
  | cons f fills ih => exact fun h => ih (h.onFill f)

theorem BotFleet.step_bounded (bots : BotFleet) (cfg : BotConfig) {snap : MarketSnapshot}
    (h : bots.mom.Bounded) (hmid : Within midBound snap.midFp) (lob : PersistentLOB) :
    Prog.Ensures PersistentLOB.apply (fun _ _ => True) (fun bots' _ => bots'.mom.Bounded)
      (bots.step cfg snap) lob := by
  unfold BotFleet.step
  refine Prog.ensures_skip fun _ _ => ?_
  refine Prog.ensures_when (Q := fun mom _ => mom.Bounded) (fun _ => ?_) (fun _ => h)
    fun _ _ hmom => ?_
  · have hcompute := bots.mom.compute_averaged cfg.mom cfg.threshold snap
    exact (hcompute _).imp fun _ _ heq => heq ▸ h.averaged hmid
  refine Prog.ensures_skip fun _ _ => ?_
  refine Prog.ensures_skip fun _ _ => ?_
  refine Prog.ensures_skip (a := ()) fun _ _ => ?_
  exact Prog.ensures_ret hmom

theorem Priced.bounded {cfg : SimConfig} {s s' : SimState} {input : TickInput} {h : BookHistory}
    (hbounded : s.2.bots.mom.Bounded) (hpriced : Priced s input)
    (hstep : SimState.step cfg s input = .ok (h, s')) : s'.2.bots.mom.Bounded := by
  obtain ⟨bots, h₁, lob₁, h₂, allFills, _, hbots, -, -, -, heq⟩ :=
    Master.tick_run (SimState.step_eq_ok.mp hstep)
  rw [heq]
  refine BotFleet.distributeFills_bounded allFills ?_
  exact (BotFleet.step_bounded _ cfg.bots hbounded hpriced.mid.2 s.1).of_run hbots

theorem Priced.deviationFits {s : SimState} {input : TickInput} (h : Priced s input) :
    (input.price.of s.1).DeviationFits := by
  have hmid := h.mid.2
  have hfair := h.2
  unfold MarketSnapshot.DeviationFits Fits
  unfold Within midBound at hmid hfair
  omega

/-- Every tick of a run whose ticks are priced takes a right snapshot. -/
theorem snapshots_right {cfg : SimConfig} {inputs : List TickInput}
    (hpriced : TicksAdmitted cfg Priced inputs) :
    ∀ pre input post, inputs = pre ++ input :: post → ∀ hs s,
      runSimulation cfg pre = .ok (hs, s) → SnapshotRight s input := by
  rintro pre input post rfl hs s hrun
  obtain ⟨hbounded, htick⟩ := hpriced.reached (fun s => s.2.bots.mom.Bounded)
    (fun _ _ _ hinit => by cases hinit) (fun _ _ _ _ hb hp hs => hp.bounded hb hs) hrun
  refine ⟨htick.mid.1, fun hinit => ?_, htick.deviationFits⟩
  obtain ⟨hfast, hslow⟩ := hbounded hinit
  exact MomentumBot.EmaFits.of_within hfast hslow htick.mid.2

/-- Two ticks, with every bot at work: the contestant buys ten and then holds. -/
theorem snapshots_right_two_ticks :
    let cfg : SimConfig := ⟨BotConfig.default, 1000, fun _ _ => 0⟩
    let inputs : List TickInput := [⟨.gbm 100050000 450000 false, .answer 1 fun _ => ⟨3, 0, 10, 0⟩⟩,
      ⟨.gbm 100060000 450000 false, .timeout⟩]
    TicksAdmitted cfg Priced inputs ∧ ∀ pre input post, inputs = pre ++ input :: post → ∀ hs s,
      runSimulation cfg pre = .ok (hs, s) → SnapshotRight s input := by
  intro cfg inputs
  have hpriced : TicksAdmitted cfg Priced inputs := by decide +kernel
  exact ⟨hpriced, snapshots_right hpriced⟩

/-- A sweep of the asks: the contestant buys everything there is, and the next
snapshot adds `INT64_MAX` to the best bid. -/
theorem swept_side_overflows :
    ∃ hs s, runSimulation ⟨BotConfig.default, 1000, fun _ _ => 0⟩
        [⟨.gbm 100050000 450000 false, .answer 1 fun _ => ⟨3, 0, 1000000, 0⟩⟩] = .ok (hs, s) ∧
      s.1.asks.levels = [] ∧ 0 < s.1.bestBid ∧
      ¬ s.1.MidRight ((PriceTick.gbm 100050000 450000 false).of s.1).midFp := by
  have hbook : (runSimulation ⟨BotConfig.default, 1000, fun _ _ => 0⟩
      [⟨.gbm 100050000 450000 false, .answer 1 fun _ => ⟨3, 0, 1000000, 0⟩⟩]).map
        (fun r => decide (r.2.1.asks.levels = [] ∧ r.2.1.bestAsk = Int64.maxValue ∧
          0 < r.2.1.bestBid)) = .ok true := by
    decide +kernel
  obtain ⟨⟨hs, s⟩, hrun, hbook⟩ := map_eq_ok hbook
  obtain ⟨hasks, hask, hbid⟩ : s.1.asks.levels = [] ∧ s.1.bestAsk = Int64.maxValue ∧
    0 < s.1.bestBid := of_decide_eq_true hbook
  refine ⟨hs, s, hrun, hasks, hbid, fun hright => ?_⟩
  have hsum := hright.sum.2
  rw [Int64.lt_iff_toInt_lt, Int64.toInt_zero] at hbid
  rw [hask, show Int64.maxValue.toInt = 2 ^ 63 - 1 from rfl] at hsum
  omega

end VidhiArena.GameMaster
