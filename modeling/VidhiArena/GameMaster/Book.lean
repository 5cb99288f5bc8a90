import VidhiArena.GameMaster.PersistentLOB

/-!
# The naive book

What the pool-allocated book is for, in its own terms: two price-ordered maps
from price to a FIFO list of resting orders (the `std::map` and `std::deque`
book that `PersistentLOB` replaced). No slab, no links, no hash, no capacity.

A map is its list of levels in iteration order, best price first. A market
order consumes the best price first and, inside a price, the oldest order
first. Volumes and ids are the machine integers of the program, so the naive
book wraps where the program wraps.

`addLimitBounded` is the same book with the two capacity limits of the flat
one: it refuses an order when the level table or the pool is full, and in the
second case a price that was new keeps its empty level.
-/

namespace VidhiArena.GameMaster

structure RestingOrder where
  orderId : UInt64
  volume : Int64
  participant : ParticipantID
deriving DecidableEq

structure BookLevel where
  priceFp : Int64
  queue : List RestingOrder
deriving DecidableEq

structure Book where
  bids : List BookLevel
  asks : List BookLevel
  nextOrderId : UInt64
  lastTradeFp : Int64
  totalFills : Int64
deriving DecidableEq

namespace Book

def empty : Book := ⟨[], [], 1, 0, 0⟩

def side (B : Book) (isBid : Bool) : List BookLevel := if isBid then B.bids else B.asks

def setSide (B : Book) (isBid : Bool) (ls : List BookLevel) : Book :=
  if isBid then { B with bids := ls } else { B with asks := ls }

/-- The orders of one side in the order in which a market order meets them. -/
def priority (ls : List BookLevel) : List RestingOrder := ls.flatMap BookLevel.queue

def orders (B : Book) : List RestingOrder := priority B.bids ++ priority B.asks

/-! ## Adding -/

def hasLevel (ls : List BookLevel) (priceFp : Int64) : Bool :=
  ls.any fun lv => lv.priceFp = priceFp

def insertLevel (isBid : Bool) (lv : BookLevel) : List BookLevel → List BookLevel
  | [] => [lv]
  | x :: xs =>
      if LOBSide.before isBid lv.priceFp x.priceFp then lv :: x :: xs
      else x :: insertLevel isBid lv xs

/-- The map with a (possibly empty) queue at `priceFp`. -/
def openLevel (isBid : Bool) (priceFp : Int64) (ls : List BookLevel) : List BookLevel :=
  if hasLevel ls priceFp then ls else insertLevel isBid ⟨priceFp, []⟩ ls

def enqueue (priceFp : Int64) (o : RestingOrder) (ls : List BookLevel) : List BookLevel :=
  ls.map fun lv => if lv.priceFp = priceFp then { lv with queue := lv.queue ++ [o] } else lv

def addLimit (B : Book) (isBid : Bool) (priceFp volume : Int64)
    (participant : ParticipantID) : UInt64 × Book :=
  (B.nextOrderId,
    { B.setSide isBid (enqueue priceFp ⟨B.nextOrderId, volume, participant⟩
        (openLevel isBid priceFp (B.side isBid))) with
      nextOrderId := B.nextOrderId + 1 })

/-- The level table of the side has no room for a new price. -/
def TableFull (B : Book) (isBid : Bool) (priceFp : Int64) : Prop :=
  hasLevel (B.side isBid) priceFp = false ∧ maxPriceLevels ≤ (B.side isBid).length

instance (B : Book) (isBid : Bool) (priceFp : Int64) :
    Decidable (B.TableFull isBid priceFp) := inferInstanceAs (Decidable (_ ∧ _))

/-- Every slot of the order pool is taken. -/
def PoolFull (B : Book) : Prop := orderPoolSize ≤ B.orders.length

instance (B : Book) : Decidable B.PoolFull := inferInstanceAs (Decidable (_ ≤ _))

def addLimitBounded (B : Book) (isBid : Bool) (priceFp volume : Int64)
    (participant : ParticipantID) : UInt64 × Book :=
  if B.TableFull isBid priceFp then (nullOrderId, B)
  else if B.PoolFull then
    (nullOrderId, B.setSide isBid (openLevel isBid priceFp (B.side isBid)))
  else B.addLimit isBid priceFp volume participant

/-! ## Cancelling -/

/-- A level without the order `orderId`; a level emptied that way is gone. -/
def withoutOrder (orderId : UInt64) (lv : BookLevel) : Option BookLevel :=
  if lv.queue.any fun o => o.orderId = orderId then
    match lv.queue.filter fun o => o.orderId ≠ orderId with
    | [] => none
    | q => some { lv with queue := q }
  else some lv

def removeOrder (orderId : UInt64) (ls : List BookLevel) : List BookLevel :=
  ls.filterMap (withoutOrder orderId)

def cancel (B : Book) (orderId : UInt64) : Bool × Book :=
  if B.orders.any fun o => o.orderId = orderId then
    (true, { B with bids := removeOrder orderId B.bids, asks := removeOrder orderId B.asks })
  else (false, B)

/-! ## Matching -/

def fillOf (isBuy : Bool) (taker : ParticipantID) (priceFp volume : Int64)
    (maker : RestingOrder) : MatchedFill where
  priceFp := priceFp
  volume := volume
  takerParticipant := taker
  makerParticipant := maker.participant
  makerOrderId := maker.orderId
  takerIsBuy := isBuy
  contestantIsTaker := taker = contestant
  contestantIsMaker := maker.participant = contestant

/-- Match `remaining` against one queue: the fills, what is left of the taker,
what is left of the queue. -/
def matchQueue (isBuy : Bool) (taker : ParticipantID) (priceFp : Int64) :
    Int64 → List RestingOrder → List MatchedFill × Int64 × List RestingOrder
  | remaining, [] => ([], remaining, [])
  | remaining, o :: q =>
      if 0 < remaining then
        let fillVol := min remaining o.volume
        let fill := fillOf isBuy taker priceFp fillVol o
        if o.volume - fillVol = 0 then
          let (fills, remaining, q) := matchQueue isBuy taker priceFp (remaining - fillVol) q
          (fill :: fills, remaining, q)
        else ([fill], remaining - fillVol, { o with volume := o.volume - fillVol } :: q)
      else ([], remaining, o :: q)

def matchLevels (isBuy : Bool) (taker : ParticipantID) :
    Int64 → List BookLevel → List MatchedFill × List BookLevel
  | _, [] => ([], [])
  | remaining, lv :: ls =>
      if 0 < remaining then
        let (fills, remaining, q) := matchQueue isBuy taker lv.priceFp remaining lv.queue
        if q = [] then
          let (fills', ls) := matchLevels isBuy taker remaining ls
          (fills ++ fills', ls)
        else (fills, { lv with queue := q } :: ls)
      else ([], lv :: ls)

/-- The price of the last fill, if there was one. -/
def lastPrice (last : Int64) (fills : List MatchedFill) : Int64 :=
  (fills.getLast?.map MatchedFill.priceFp).getD last

def marketOrder (B : Book) (isBuy : Bool) (volume : Int64) (taker : ParticipantID) :
    List MatchedFill × Book :=
  let (fills, ls) := matchLevels isBuy taker volume (B.side !isBuy)
  (fills, { B.setSide (!isBuy) ls with
    lastTradeFp := lastPrice B.lastTradeFp fills
    totalFills := B.totalFills + Int64.ofNat fills.length })

/-! ## Quotes -/

def bestPrice (isBid : Bool) (ls : List BookLevel) : Int64 :=
  match ls with
  | lv :: _ => lv.priceFp
  | [] => if isBid then 0 else Int64.maxValue

def bestBid (B : Book) : Int64 := bestPrice true B.bids

def bestAsk (B : Book) : Int64 := bestPrice false B.asks

def mid (B : Book) : Int64 := PersistentLOB.midOf B.bestBid B.bestAsk B.lastTradeFp

def spread (B : Book) : Int64 := PersistentLOB.spreadOf B.bestBid B.bestAsk

/-- The volume resting in one queue, in the `int64_t` arithmetic of the book. -/
def volumeSum (q : List RestingOrder) : Int64 := (q.map RestingOrder.volume).sum

def depth (ls : List BookLevel) (i : Fin depthLevels) : LOBLevel :=
  match ls[i.val]? with
  | some lv => ⟨lv.priceFp, volumeSum lv.queue⟩
  | none => ⟨0, 0⟩

def fillSnapshot (B : Book) (sm : SharedMem) : SharedMem :=
  { sm with
    bidDepth := depth B.bids
    askDepth := depth B.asks
    bidPriceFp := B.bestBid
    askPriceFp := B.bestAsk
    spreadFp := B.spread
    lastTradePriceFp := B.lastTradeFp }

end Book

end VidhiArena.GameMaster
