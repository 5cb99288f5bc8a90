import VidhiArena.GameMaster.MidPrice

/-!
# The inventory skew

The market maker quotes around the fair value and moves both quotes by
`inventory * volatility_fp / (1000 * FIXED_POINT)`. The inventory is clamped to
±500, so the skew is at most `volatility_fp / 2000000`, cut off towards zero:
below a volatility of two dollars it is zero at every inventory.

`Skewed` is what the quotes owe, over the whole clamped range. It holds of the
snapshots of `skewThreshold` and more whose extreme quotes are values of
`int64_t`, and of no others.
-/

namespace VidhiArena.GameMaster

open VidhiArena.Foundation BookProg

/-! ## The quotes over the integers -/

/-- `inventory` is between the two clamps of `on_fill`. -/
def Clamped (inventory : Int64) : Prop := -500 ≤ inventory.toInt ∧ inventory.toInt ≤ 500

instance (inventory : Int64) : Decidable (Clamped inventory) := inferInstanceAs (Decidable (_ ∧ _))

namespace MarketSnapshot

/-- `skew_fp`. -/
def skew (snap : MarketSnapshot) (inventory : Int) : Int :=
  (inventory * snap.volatilityFp.toInt).tdiv 1000000000

/-- `half_spread_fp` before a news event doubles it. -/
def quietHalf (snap : MarketSnapshot) : Int :=
  max 10000 (snap.volatilityFp.toInt.tdiv 2 + 5000)

/-- `half_spread_fp`. -/
def half (snap : MarketSnapshot) : Int :=
  if snap.isNewsEvent then snap.quietHalf * 2 else snap.quietHalf

/-- No step of the quotes overflows at this inventory. -/
structure QuotesFit (snap : MarketSnapshot) (inventory : Int) : Prop where
  product : Fits (inventory * snap.volatilityFp.toInt)
  half : Fits snap.half
  below : Fits (snap.fairValueFp.toInt - snap.half)
  bid : Fits (snap.fairValueFp.toInt - snap.half - snap.skew inventory)
  above : Fits (snap.fairValueFp.toInt + snap.half)
  ask : Fits (snap.fairValueFp.toInt + snap.half - snap.skew inventory)

theorem quietHalf_pos (snap : MarketSnapshot) : 0 < snap.quietHalf :=
  lt_of_lt_of_le (by decide) (le_max_left _ _)

theorem half_pos (snap : MarketSnapshot) : 0 < snap.half := by
  have hpos := snap.quietHalf_pos
  unfold half
  split <;> omega

end MarketSnapshot

theorem toInt_max (x y : Int64) : (max x y).toInt = max x.toInt y.toInt := by
  by_cases hxy : x ≤ y
  · rw [show max x y = y from if_pos hxy, max_eq_right (Int64.le_iff_toInt_le.mp hxy)]
  · rw [show max x y = x from if_neg hxy]
    rw [Int64.le_iff_toInt_le] at hxy
    exact (max_eq_left (by omega)).symm

namespace MarketMakerBot

def holding (bot : MarketMakerBot) (inventory : Int64) : MarketMakerBot := { bot with inventory }

theorem toInt_quietHalf (snap : MarketSnapshot) :
    (max oneCent (snap.volatilityFp / 2 + halfCent)).toInt = snap.quietHalf := by
  have hvol := fits_toInt snap.volatilityFp
  have hbound : -2 ^ 62 ≤ snap.volatilityFp.toInt.tdiv 2 ∧ snap.volatilityFp.toInt.tdiv 2 ≤ 2 ^ 62 :=
    tdiv_between (by decide) (by unfold Fits at hvol; omega) (by unfold Fits at hvol; omega)
  have hcent : halfCent.toInt = 5000 := by decide
  have hsum : (snap.volatilityFp / 2 + halfCent).toInt = snap.volatilityFp.toInt.tdiv 2 + 5000 := by
    rw [toInt_add_of_fits, toInt_half, hcent]
    rw [toInt_half, hcent]
    unfold Fits
    omega
  rw [toInt_max, hsum]
  rfl

theorem quotes_exact (bot : MarketMakerBot) {snap : MarketSnapshot}
    (h : snap.QuotesFit bot.inventory.toInt) :
    (bot.quotes snap).1.toInt =
        snap.fairValueFp.toInt - snap.half - snap.skew bot.inventory.toInt ∧
      (bot.quotes snap).2.toInt =
        snap.fairValueFp.toInt + snap.half - snap.skew bot.inventory.toInt := by
  have hskew : ((bot.inventory * snap.volatilityFp) / (1000 * fixedPoint)).toInt =
      snap.skew bot.inventory.toInt := by
    rw [Int64.toInt_div_of_ne_right _ _ (by decide), toInt_mul_of_fits h.product]
    rfl
  have hhalf : (if snap.isNewsEvent then max oneCent (snap.volatilityFp / 2 + halfCent) * 2
      else max oneCent (snap.volatilityFp / 2 + halfCent)).toInt = snap.half := by
    have hquiet := toInt_quietHalf snap
    have hfits := h.half
    unfold MarketSnapshot.half at hfits ⊢
    split at hfits
    · rename_i hnews
      rw [if_pos hnews, toInt_mul_of_fits, hquiet]
      · rw [if_pos hnews]
        rfl
      · rw [hquiet]
        exact hfits
    · rename_i hnews
      rw [if_neg hnews, if_neg hnews]
      exact hquiet
  unfold quotes
  simp only
  generalize (bot.inventory * snap.volatilityFp) / (1000 * fixedPoint) = skewFp at hskew
  generalize (if snap.isNewsEvent then max oneCent (snap.volatilityFp / 2 + halfCent) * 2
    else max oneCent (snap.volatilityFp / 2 + halfCent)) = halfSpreadFp at hhalf
  have hbid : (snap.fairValueFp - halfSpreadFp - skewFp).toInt =
      snap.fairValueFp.toInt - snap.half - snap.skew bot.inventory.toInt := by
    have hbelow := toInt_sub_of_fits (a := snap.fairValueFp) (b := halfSpreadFp) (hhalf ▸ h.below)
    rw [toInt_sub_of_fits, hbelow, hhalf, hskew]
    rw [hbelow, hhalf, hskew]
    exact h.bid
  have hask : (snap.fairValueFp + halfSpreadFp - skewFp).toInt =
      snap.fairValueFp.toInt + snap.half - snap.skew bot.inventory.toInt := by
    have habove := toInt_add_of_fits (a := snap.fairValueFp) (b := halfSpreadFp) (hhalf ▸ h.above)
    rw [toInt_sub_of_fits, habove, hhalf, hskew]
    rw [habove, hhalf, hskew]
    exact h.ask
  -- The half spread is positive, so the sanity check finds the quotes in order.
  have hordered : ¬ snap.fairValueFp + halfSpreadFp - skewFp ≤
      snap.fairValueFp - halfSpreadFp - skewFp := by
    have hpos := snap.half_pos
    rw [Int64.le_iff_toInt_le, hbid, hask]
    omega
  rw [if_neg hordered]
  exact ⟨hbid, hask⟩

/-! ## What the quotes owe -/

/-- Skewed quotes: over the clamped inventories they are defined, in order and
non-increasing, and lower at one end than at the other. -/
structure Skewed (bot : MarketMakerBot) (snap : MarketSnapshot) : Prop where
  defined : ∀ i, Clamped i → snap.QuotesFit i.toInt
  antitone : ∀ i j, Clamped i → Clamped j → i ≤ j →
    ((bot.holding j).quotes snap).1 ≤ ((bot.holding i).quotes snap).1 ∧
      ((bot.holding j).quotes snap).2 ≤ ((bot.holding i).quotes snap).2
  ordered : ∀ i, Clamped i → ((bot.holding i).quotes snap).1 < ((bot.holding i).quotes snap).2
  lowered : ((bot.holding 500).quotes snap).1 < ((bot.holding (-500)).quotes snap).1 ∧
    ((bot.holding 500).quotes snap).2 < ((bot.holding (-500)).quotes snap).2

theorem compute_posted (bot : MarketMakerBot) (agg : Aggression) (snap : MarketSnapshot)
    (lob : PersistentLOB) :
    Prog.Ensures PersistentLOB.apply (fun _ _ => True)
      (fun bot' _ => (bot'.postedBid, bot'.postedAsk) = bot.quotes snap ∧
        bot'.inventory = bot.inventory) (bot.compute agg snap) lob := by
  have hany : ∀ {α : Type} (p : BookProg α) (s : PersistentLOB),
      Prog.Ensures PersistentLOB.apply (fun _ _ => True) (fun _ _ => True) p s :=
    fun _ _ _ _ _ _ _ => trivial
  unfold compute
  refine Prog.ensures_bind (hany _ _) fun _ _ _ => ?_
  refine Prog.ensures_bind (hany _ _) fun _ _ _ => ?_
  refine Prog.ensures_bind (hany _ _) fun _ _ _ => ?_
  refine Prog.ensures_bind (hany _ _) fun _ _ _ => ?_
  exact Prog.ensures_ret ⟨rfl, rfl⟩

end MarketMakerBot

/-! ## The skew -/

/-- The volatility from which the skew of a full inventory is not cut off. -/
def skewThreshold : Int := 2000000

namespace MarketSnapshot

/-- The quotes of a full inventory are values of `int64_t`. -/
structure Room (snap : MarketSnapshot) : Prop where
  product : Fits (500 * snap.volatilityFp.toInt)
  low : Fits (snap.fairValueFp.toInt - snap.half - snap.skew 500)
  high : Fits (snap.fairValueFp.toInt + snap.half + snap.skew 500)

theorem skew_neg (snap : MarketSnapshot) (inventory : Int) :
    snap.skew (-inventory) = -snap.skew inventory := by
  rw [skew, Int.neg_mul, Int.neg_tdiv, skew]

theorem skew_mono {snap : MarketSnapshot} (hvol : 0 ≤ snap.volatilityFp.toInt) {i j : Int}
    (hij : i ≤ j) : snap.skew i ≤ snap.skew j :=
  Int.tdiv_le_tdiv (by decide) (Int.mul_le_mul_of_nonneg_right hij hvol)

theorem skew_pos_iff (snap : MarketSnapshot) :
    0 < snap.skew 500 ↔ skewThreshold ≤ snap.volatilityFp.toInt := by
  unfold skew skewThreshold
  constructor
  · intro hpos
    by_contra hlow
    rcases le_total 0 snap.volatilityFp.toInt with hvol | hvol
    · rw [Int.tdiv_eq_zero_of_lt (by omega) (by omega)] at hpos
      exact absurd hpos (lt_irrefl 0)
    · rw [← Int.neg_neg (500 * snap.volatilityFp.toInt), Int.neg_tdiv,
        Int.tdiv_eq_ediv_of_nonneg (by omega)] at hpos
      omega
  · intro hvol
    rw [Int.tdiv_eq_ediv_of_nonneg (by omega)]
    omega

theorem product_between {snap : MarketSnapshot} (hvol : 0 ≤ snap.volatilityFp.toInt) {i : Int}
    (hlo : -500 ≤ i) (hhi : i ≤ 500) : -(500 * snap.volatilityFp.toInt) ≤ i * snap.volatilityFp.toInt ∧
      i * snap.volatilityFp.toInt ≤ 500 * snap.volatilityFp.toInt := by
  rw [← Int.neg_mul]
  exact ⟨Int.mul_le_mul_of_nonneg_right hlo hvol, Int.mul_le_mul_of_nonneg_right hhi hvol⟩

theorem skew_between {snap : MarketSnapshot} (hvol : 0 ≤ snap.volatilityFp.toInt) {i : Int}
    (hlo : -500 ≤ i) (hhi : i ≤ 500) : -snap.skew 500 ≤ snap.skew i ∧ snap.skew i ≤ snap.skew 500 :=
  ⟨snap.skew_neg 500 ▸ skew_mono hvol hlo, skew_mono hvol hhi⟩

theorem Room.quotesFit {snap : MarketSnapshot} (h : snap.Room)
    (hvol : 0 ≤ snap.volatilityFp.toInt) {i : Int} (hlo : -500 ≤ i) (hhi : i ≤ 500) :
    snap.QuotesFit i := by
  have hskew := skew_between hvol hlo hhi
  have hprod := product_between hvol hlo hhi
  have hhalf := snap.half_pos
  obtain ⟨hproduct, hlow, hhigh⟩ := h
  unfold Fits at hproduct hlow hhigh
  constructor <;> unfold Fits <;> omega

end MarketSnapshot

/-- The skew has an effect from the threshold on, and on no snapshot below it. -/
theorem MarketMakerBot.skewed_iff (bot : MarketMakerBot) (snap : MarketSnapshot) :
    bot.Skewed snap ↔ skewThreshold ≤ snap.volatilityFp.toInt ∧ snap.Room := by
  constructor
  · intro h
    have hfull := h.defined 500 (by decide)
    have hshort := h.defined (-500) (by decide)
    have hbids := Int64.lt_iff_toInt_lt.mp h.lowered.1
    rw [(quotes_exact (bot.holding 500) hfull).1,
      (quotes_exact (bot.holding (-500)) hshort).1] at hbids
    have hends : snap.skew (-500 : Int64).toInt = -snap.skew 500 := snap.skew_neg 500
    have hpos : 0 < snap.skew 500 := by
      change _ - snap.skew 500 < _ - snap.skew (-500 : Int64).toInt at hbids
      omega
    refine ⟨snap.skew_pos_iff.mp hpos, hfull.product, hfull.bid, ?_⟩
    have hask := hshort.ask
    rw [hends, Int.sub_neg] at hask
    exact hask
  · rintro ⟨hvol, hroom⟩
    have hnonneg : 0 ≤ snap.volatilityFp.toInt := le_trans (by decide) hvol
    have hfit : ∀ i, Clamped i → snap.QuotesFit i.toInt :=
      fun i hi => hroom.quotesFit hnonneg hi.1 hi.2
    have hexact : ∀ i, Clamped i → _ := fun i hi => quotes_exact (bot.holding i) (hfit i hi)
    refine ⟨hfit, fun i j hi hj hij => ?_, fun i hi => ?_, ?_⟩
    · have hskew := MarketSnapshot.skew_mono hnonneg (Int64.le_iff_toInt_le.mp hij)
      rw [Int64.le_iff_toInt_le, Int64.le_iff_toInt_le, (hexact i hi).1, (hexact i hi).2,
        (hexact j hj).1, (hexact j hj).2]
      exact ⟨Int.sub_le_sub_left hskew _, Int.sub_le_sub_left hskew _⟩
    · have hhalf := snap.half_pos
      rw [Int64.lt_iff_toInt_lt, (hexact i hi).1, (hexact i hi).2]
      omega
    · have hfull := hexact 500 (by decide)
      have hshort := hexact (-500) (by decide)
      have hskew : snap.skew (-500 : Int64).toInt < snap.skew (500 : Int64).toInt := by
        have hends : snap.skew (-500 : Int64).toInt = -snap.skew 500 := snap.skew_neg 500
        have hpos := snap.skew_pos_iff.mpr hvol
        change _ < snap.skew 500
        omega
      rw [Int64.lt_iff_toInt_lt, Int64.lt_iff_toInt_lt, hfull.1, hfull.2, hshort.1, hshort.2]
      exact ⟨Int.sub_lt_sub_left hskew _, Int.sub_lt_sub_left hskew _⟩

/-- Below the threshold the quotes do not depend on the inventory. -/
theorem MarketMakerBot.quotes_unskewed {bot : MarketMakerBot} {snap : MarketSnapshot}
    (hvol : 0 ≤ snap.volatilityFp.toInt) (hlow : snap.volatilityFp.toInt < skewThreshold)
    (hi : Clamped bot.inventory) : bot.quotes snap = (bot.holding 0).quotes snap := by
  have hzero : ∀ i : Int64, Clamped i → (i * snap.volatilityFp) / (1000 * fixedPoint) = 0 := by
    rintro i ⟨hlo, hhi⟩
    have hfits : Fits (i.toInt * snap.volatilityFp.toInt) := by
      have hprod := MarketSnapshot.product_between hvol hlo hhi
      unfold skewThreshold at hlow
      unfold Fits
      omega
    have hskew := MarketSnapshot.skew_between hvol hlo hhi
    have hcut : ¬ 0 < snap.skew 500 := fun hpos => by
      have := snap.skew_pos_iff.mp hpos
      omega
    rw [← Int64.toInt_inj, Int64.toInt_div_of_ne_right _ _ (by decide), toInt_mul_of_fits hfits]
    change snap.skew i.toInt = 0
    omega
  unfold quotes
  rw [hzero _ hi, show (bot.holding 0).inventory = 0 from rfl, hzero 0 (by decide)]

/-- A snapshot of the generated signal, at a price of 1500 dollars: the skew of a
full inventory is 225 of 1000 units and cut off. -/
theorem generated_snapshot_unskewed :
    ¬ MarketMakerBot.init.Skewed ⟨1499540000, 1500460000, 1500000000, 920000, 1500000000, 450000,
      false⟩ :=
  fun h => absurd h.lowered.1 (by decide)

end VidhiArena.GameMaster
