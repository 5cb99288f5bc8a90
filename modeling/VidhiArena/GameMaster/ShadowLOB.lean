import Mathlib.Algebra.Order.Ring.Unbundled.Rat
import Mathlib.Data.Rat.Defs
import VidhiArena.Foundation.OrderedMap
import VidhiArena.GameMaster.PnLTracker

/-!
# The shadow book

`game-master/shadow_lob.hpp`: an independent book that replays every add, fill
and cancel of the live one, logs what looks wrong and keeps its own account of
the contestant.

`std::map` is an association list in iteration order, `std::unordered_map`
(never iterated) a function. The penalties are exact rationals where the source
has `double`. The mutex makes every call atomic and leaves no trace here.
-/

namespace VidhiArena.GameMaster

open VidhiArena.Foundation

/-! ## Violations -/

inductive ViolationType where
  | fifoPriorityBreach
  | doubleFill
  | staleCancel
  | fillPriceInvalid
  | cashIntegrityMismatch
  | positionIntegrityMismatch
deriving DecidableEq

/-- What a violation says, with the numbers it is about. -/
inductive Detail where
  | buyAboveAsk (priceFp bestAsk : Int64)
  | sellBelowBid (priceFp bestBid : Int64)
  | cancelledFill
  | overfill (volume remaining : Int64)
  | unknownFill
  | skippedOlder (orderId frontId : UInt64) (priceFp : Int64)
  | unknownCancel
  | closedCancel
  | position (shadow reported : Int64)
  | cash (shadow reported : Int64)
deriving DecidableEq

structure Violation where
  type : ViolationType
  tickId : Int64
  orderId : UInt64
  detail : Detail
deriving DecidableEq

/-! ## State -/

structure ShadowOrder where
  orderId : UInt64
  sequenceNum : UInt64
  priceFp : Int64
  originalVolume : Int64
  remainingVolume : Int64
  isBid : Bool
  isCancelled : Bool
  isFullyFilled : Bool
  tickAdded : Int64
deriving DecidableEq

structure ShadowLevel where
  orderIds : List UInt64
  totalVolume : Int64
deriving DecidableEq

/-- The level after `std::find` and `erase` on its deque. -/
def ShadowLevel.without (level : ShadowLevel) (orderId : UInt64) (volume : Int64) :
    ShadowLevel :=
  if orderId ∈ level.orderIds then
    ⟨level.orderIds.erase orderId, level.totalVolume - volume⟩
  else level

/-- The five penalty accumulators. -/
structure Penalties where
  fifo : ℚ
  double : ℚ
  cancel : ℚ
  price : ℚ
  cash : ℚ
deriving DecidableEq

structure ShadowLOB where
  bestBid : Int64
  bestAsk : Int64
  lastTradeFp : Int64
  position : Int64
  cashFp : Int
  contestantFills : Int32
  bidLevels : List (Int64 × ShadowLevel)
  askLevels : List (Int64 × ShadowLevel)
  orders : UInt64 → Option ShadowOrder
  globalSeq : UInt64
  violations : List Violation
  penalties : Penalties

def maxViolations : Nat := 10000

namespace ShadowLOB

def init : ShadowLOB where
  bestBid := 0
  bestAsk := Int64.maxValue
  lastTradeFp := 0
  position := 0
  cashFp := startingCash.toInt
  contestantFills := 0
  bidLevels := []
  askLevels := []
  orders := fun _ => none
  globalSeq := 0
  violations := []
  penalties := ⟨0, 0, 0, 0, 0⟩

def side (S : ShadowLOB) (isBid : Bool) : List (Int64 × ShadowLevel) :=
  if isBid then S.bidLevels else S.askLevels

def setSide (S : ShadowLOB) (isBid : Bool) (m : List (Int64 × ShadowLevel)) : ShadowLOB :=
  if isBid then { S with bidLevels := m } else { S with askLevels := m }

/-! ## Helpers -/

/-- The log stops growing at `MAX_VIOLATIONS`. -/
def addViolation (S : ShadowLOB) (v : Violation) : ShadowLOB :=
  if S.violations.length < maxViolations then { S with violations := S.violations ++ [v] }
  else S

/-- `std::min(W, penalty + PENALTY_PER)` of each kind of violation; a position
mismatch carries none. -/
def Penalties.charge (p : Penalties) : ViolationType → Penalties
  | .fifoPriorityBreach => { p with fifo := min (35 / 100) (p.fifo + 1 / 100) }
  | .doubleFill => { p with double := min (25 / 100) (p.double + 2 / 100) }
  | .staleCancel => { p with cancel := min (10 / 100) (p.cancel + 5 / 1000) }
  | .fillPriceInvalid => { p with price := min (20 / 100) (p.price + 15 / 1000) }
  | .cashIntegrityMismatch => { p with cash := min (10 / 100) (p.cash + 5 / 100) }
  | .positionIntegrityMismatch => p

/-- Log a violation and charge its penalty. -/
def report (S : ShadowLOB) (v : Violation) : ShadowLOB :=
  { S.addViolation v with penalties := Penalties.charge S.penalties v.type }

/-- `_remove_from_level`: the level goes with its last order, or when its
volume is not positive. -/
def removeFromLevel (S : ShadowLOB) (orderId : UInt64) (so : ShadowOrder) : ShadowLOB :=
  match OrderedMap.find (S.side so.isBid) so.priceFp with
  | none => S
  | some level =>
      let level := level.without orderId so.remainingVolume
      if level.totalVolume ≤ 0 ∨ level.orderIds = [] then
        S.setSide so.isBid (OrderedMap.erase (S.side so.isBid) so.priceFp)
      else
        S.setSide so.isBid
          (OrderedMap.modify (S.side so.isBid) so.priceFp fun _ => level)

def firstKey (m : List (Int64 × ShadowLevel)) (d : Int64) : Int64 :=
  match m with
  | (k, _) :: _ => k
  | [] => d

/-- `_update_best`. -/
def updateBest (S : ShadowLOB) : ShadowLOB :=
  { S with bestBid := firstKey S.bidLevels 0, bestAsk := firstKey S.askLevels Int64.maxValue }

/-- An order leaves: its level, then the table of orders, then the best prices. -/
def closeOrder (S : ShadowLOB) (orderId : UInt64) (so : ShadowOrder) : ShadowLOB :=
  let S := S.removeFromLevel orderId so
  { S with orders := Function.update S.orders orderId none }.updateBest

/-! ## The replayed calls -/

def onLimitAdd (S : ShadowLOB) (isBid : Bool) (priceFp volume : Int64) (orderId : UInt64)
    (tickId : Int64) : ShadowLOB :=
  let seq := S.globalSeq + 1
  let so : ShadowOrder := ⟨orderId, seq, priceFp, volume, volume, isBid, false, false, tickId⟩
  let S := { S with globalSeq := seq, orders := Function.update S.orders orderId (some so) }
  let S := S.setSide isBid
    (OrderedMap.modify (OrderedMap.access (LOBSide.before isBid) (S.side isBid) priceFp ⟨[], 0⟩)
      priceFp fun level => ⟨level.orderIds ++ [orderId], level.totalVolume + volume⟩)
  let S := if isBid ∧ S.bestBid < priceFp then { S with bestBid := priceFp } else S
  if ¬ isBid ∧ priceFp < S.bestAsk then { S with bestAsk := priceFp } else S

/-- The fill is worse than the best price of the shadow, with a tolerance of one tick. -/
def priceInvalid (S : ShadowLOB) (f : MatchedFill) : Bool :=
  if f.takerIsBuy then decide (S.bestAsk + oneCent < f.priceFp)
  else decide (f.priceFp < S.bestBid - oneCent)

/-- Section 1 of `on_fill`: fill price validity. -/
def checkPrice (S : ShadowLOB) (f : MatchedFill) (makerId : UInt64) (tickId : Int64) :
    ShadowLOB :=
  if S.priceInvalid f then
    S.report ⟨.fillPriceInvalid, tickId, makerId,
      if f.takerIsBuy then .buyAboveAsk f.priceFp S.bestAsk
      else .sellBelowBid f.priceFp S.bestBid⟩
  else S

/-- Section 2: double fill and volume integrity of a known order. -/
def checkVolume (S : ShadowLOB) (so : ShadowOrder) (f : MatchedFill) (makerId : UInt64)
    (tickId : Int64) : ShadowLOB :=
  if so.isCancelled then S.report ⟨.doubleFill, tickId, makerId, .cancelledFill⟩
  else if so.remainingVolume < f.volume then
    S.report ⟨.doubleFill, tickId, makerId, .overfill f.volume so.remainingVolume⟩
  else S

/-- The order in front of a level, when the level exists and is not empty. -/
def frontId (S : ShadowLOB) (so : ShadowOrder) : Option UInt64 :=
  (OrderedMap.find (S.side so.isBid) so.priceFp).bind fun level => level.orderIds.head?

/-- The older order that section 3 of `on_fill` finds in front of `makerId`. -/
def olderFront (S : ShadowLOB) (so : ShadowOrder) (makerId : UInt64) : Option UInt64 :=
  match S.frontId so with
  | none => none
  | some front =>
      if front = makerId then none
      else match S.orders front with
        | none => none
        | some fo =>
            if fo.sequenceNum < so.sequenceNum ∧ fo.isCancelled = false then some front
            else none

def checkPriority (S : ShadowLOB) (so : ShadowOrder) (makerId : UInt64) (tickId : Int64) :
    ShadowLOB :=
  match S.olderFront so makerId with
  | none => S
  | some front =>
      S.report ⟨.fifoPriorityBreach, tickId, makerId, .skippedOlder makerId front so.priceFp⟩

/-- The fill is applied to the order; a filled order leaves. -/
def applyFill (S : ShadowLOB) (so : ShadowOrder) (f : MatchedFill) (makerId : UInt64) :
    ShadowLOB :=
  let so := { so with remainingVolume := so.remainingVolume - f.volume }
  if so.remainingVolume ≤ 0 then S.closeOrder makerId { so with isFullyFilled := true }
  else { S with orders := Function.update S.orders makerId (some so) }

def matchMaker (S : ShadowLOB) (f : MatchedFill) (makerId : UInt64) (tickId : Int64) :
    ShadowLOB :=
  let S := { S with lastTradeFp := f.priceFp }
  match S.orders makerId with
  | some so =>
      ((S.checkVolume so f makerId tickId).checkPriority so makerId tickId).applyFill so f makerId
  | none => S.report ⟨.doubleFill, tickId, makerId, .unknownFill⟩

/-- Section 4: the contestant's account. The product is taken in 64 bits. -/
def trackContestant (S : ShadowLOB) (f : MatchedFill) : ShadowLOB :=
  if f.takerParticipant = contestant ∨ f.makerParticipant = contestant then
    let cBuy : Bool := (f.takerIsBuy && f.takerParticipant = contestant) ||
      (!f.takerIsBuy && f.makerParticipant = contestant)
    let sign : Int64 := if cBuy then 1 else -1
    { S with
      position := S.position + sign * f.volume
      cashFp := wrap128 (S.cashFp - (sign * f.volume * f.priceFp).toInt)
      contestantFills := S.contestantFills + 1 }
  else S

def onFill (S : ShadowLOB) (f : MatchedFill) (makerId : UInt64) (tickId : Int64) : ShadowLOB :=
  ((S.checkPrice f makerId tickId).matchMaker f makerId tickId).trackContestant f

def onCancel (S : ShadowLOB) (orderId : UInt64) (liveSucceeded : Bool) (tickId : Int64) :
    ShadowLOB :=
  match S.orders orderId with
  | none =>
      if liveSucceeded then S.report ⟨.staleCancel, tickId, orderId, .unknownCancel⟩ else S
  | some so =>
      if so.isCancelled ∨ so.isFullyFilled then
        S.report ⟨.staleCancel, tickId, orderId, .closedCancel⟩
      else S.closeOrder orderId { so with isCancelled := true }

/-- `validate_contestant_state`: a tolerance of one share and one tick. -/
def validateContestantState (S : ShadowLOB) (reportedPosition reportedCashFp : Int64)
    (tickId : Int64) : ShadowLOB :=
  let S := if 1 < abs64 (S.position - reportedPosition) then
      S.report ⟨.positionIntegrityMismatch, tickId, 0, .position S.position reportedPosition⟩
    else S
  if oneCent.toInt < abs128 (wrap128 (S.cashFp - reportedCashFp.toInt)) then
    S.report ⟨.cashIntegrityMismatch, tickId, 0,
      .cash (Int64.ofInt S.cashFp) reportedCashFp⟩
  else S

def correctnessScore (S : ShadowLOB) : ℚ :=
  max 0 (1 - (S.penalties.fifo + S.penalties.double + S.penalties.cancel + S.penalties.price +
    S.penalties.cash))

end ShadowLOB

end VidhiArena.GameMaster
