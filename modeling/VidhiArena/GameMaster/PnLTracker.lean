import VidhiArena.GameMaster.PersistentLOB

/-!
# The contestant's account

`game-master/pnl_tracker.hpp`. The position is an `int64_t`. Cash is an
`__int128`, here an integer that `wrap128` keeps in range; the product
`sign * volume * price` is taken in 128 bits and always fits.

`pnl` and `pnl_pct` are `double` views of the two and are left out.
-/

namespace VidhiArena.GameMaster

/-- The value of `x` in an `__int128`. -/
def wrap128 (x : Int) : Int := x.bmod (2 ^ 128)

/-- `std::abs` on `int64_t`; the smallest value is its own absolute value. -/
def abs64 (x : Int64) : Int64 := if x < 0 then -x else x

/-- The absolute value of an `__int128`, taken by negation. -/
def abs128 (x : Int) : Int := if x < 0 then wrap128 (-x) else x

/-- `to_fp(100'000.0) / 10`. -/
def limitPenalty : Int := 10000000000

structure PnLTracker where
  position : Int64
  cashFp : Int
  positionLimit : Int64
  penaltyChargedThisTick : Bool
deriving DecidableEq

namespace PnLTracker

def create (limit : Int64) : PnLTracker := ⟨0, startingCash.toInt, limit, false⟩

def resetTickState (t : PnLTracker) : PnLTracker := { t with penaltyChargedThisTick := false }

/-- `+1` when the contestant buys, `-1` when it sells. -/
def fillSign (f : MatchedFill) (contestantIsTaker : Bool) : Int64 :=
  if (if contestantIsTaker then f.takerIsBuy else !f.takerIsBuy) then 1 else -1

def applyFill (t : PnLTracker) (f : MatchedFill) (contestantIsTaker : Bool) : PnLTracker :=
  let sign := fillSign f contestantIsTaker
  let position := t.position + sign * f.volume
  let cashFp := wrap128 (t.cashFp - sign.toInt * f.volume.toInt * f.priceFp.toInt)
  -- one penalty for each tick in which some fill leaves the position over the limit
  if t.positionLimit < abs64 position ∧ t.penaltyChargedThisTick = false then
    { t with
      position := position
      cashFp := wrap128 (cashFp - limitPenalty)
      penaltyChargedThisTick := true }
  else { t with position := position, cashFp := cashFp }

/-- The clamped cash that the Game Master reports. -/
def cashFpSafe (t : PnLTracker) : Int64 :=
  if Int64.maxValue.toInt < t.cashFp then Int64.maxValue
  else if t.cashFp < Int64.minValue.toInt then Int64.minValue
  else Int64.ofInt t.cashFp

end PnLTracker

end VidhiArena.GameMaster
