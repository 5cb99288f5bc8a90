import Mathlib.Data.Fintype.Pi

/-!
# The rendezvous page: constants, participants and shared memory

`game-master/rendezvous.hpp`. Prices and cash are fixed-point `int64_t`
microdollars (`FIXED_POINT = 1e6`). Machine integers are Lean's fixed-width
types, so `+`, `-` and `*` wrap exactly where the compiled code wraps.

A `double` appears in this header only inside `to_fp`; every call the Game
Master makes with a literal is recorded here as the integer it returns.
-/

namespace VidhiArena.GameMaster

def orderSlots : Nat := 4
def depthLevels : Nat := 5

/-- `FIXED_POINT`, the scale of every price. -/
def fixedPoint : Int64 := 1000000

/-- `to_fp(0.01)`: one tick, and the tolerance of the shadow checks. -/
def oneCent : Int64 := 10000

/-- `to_fp(0.005)`: half a tick. -/
def halfCent : Int64 := 5000

/-- `to_fp(0.05)`: the deviation that wakes the mean-reversion bot. -/
def fiveCents : Int64 := 50000

/-- `to_fp(100'000.0)`: everybody's starting cash. -/
def startingCash : Int64 := 100000000000

/-! ## Participants -/

/-- `ParticipantID` is a plain `int32_t`: 0 the contestant, 1–5 the bots, the
rest reserved. -/
abbrev ParticipantID := Int32

def contestant : ParticipantID := 0
def botMM : ParticipantID := 1
def botMOM : ParticipantID := 2
def botMR : ParticipantID := 3
def botNOISE : ParticipantID := 4
def botSNIPER : ParticipantID := 5

/-! ## Shared memory

The market block that the Game Master publishes and the order zone that the
sandbox writes. Padding and the two sequence words are not data of the
matching engine and stand in the rendezvous protocol instead. -/

structure LOBLevel where
  priceFp : Int64
  volume : Int64
deriving DecidableEq, Inhabited

/-- The four `int64_t` of one contestant order: nothing in them is checked
before the Game Master dispatches on `type`. -/
structure OrderWord where
  type : Int64
  priceFp : Int64
  volume : Int64
  orderId : Int64
deriving DecidableEq, Inhabited

/-- One fill notification: `[order_id, price_fp, volume, side]`. -/
structure FillWord where
  orderId : Int64
  priceFp : Int64
  volume : Int64
  side : Int64
deriving DecidableEq, Inhabited

structure SharedMem where
  bidPriceFp : Int64
  askPriceFp : Int64
  midPriceFp : Int64
  spreadFp : Int64
  lastTradePriceFp : Int64
  lastTradeVolume : Int64
  underlyingSignalFp : Int64
  volatilityFp : Int64
  bidDepth : Fin depthLevels → LOBLevel
  askDepth : Fin depthLevels → LOBLevel
  contestantPosition : Int64
  contestantCashFp : Int64
  contestantPnlFp : Int64
  fillCount : Int64
  fills : Fin orderSlots → FillWord
  orderCount : Int64
  orders : Fin orderSlots → OrderWord
deriving DecidableEq, Inhabited

end VidhiArena.GameMaster
