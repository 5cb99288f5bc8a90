import Mathlib.Algebra.Ring.Int.Defs
import VidhiArena.Foundation.Probing
import VidhiArena.GameMaster.Rendezvous

/-!
# The pool-allocated limit order book

`game-master/persistent_lob.hpp`: a slab of `LimitOrder` nodes with a stack of
free indices, two flat price-sorted arrays of levels whose orders form
intrusive singly linked lists through the slab, and an open-addressing map from
order id to slab index.

Conventions of the embedding.

* `levels[0..count)` is a list; the array cells past `count` are never read.
* `free_stack[0..free_top)` is a list with the top of the stack first.
* The slab and the order map are functions on their index type. Every slab
  access is bounds-checked: an index outside the array is the `Fault`
  `poolIndex`, since the compiled code would read or write foreign memory.
* The two `while` loops carry a budget; `loopBudget` marks that it ran out,
  and the refinement layer shows that this never happens.
-/

namespace VidhiArena.GameMaster

open VidhiArena.Foundation

def orderPoolSize : Nat := 16384
def maxPriceLevels : Nat := 256
def nullIdx : UInt32 := 4294967295
def nullOrderId : UInt64 := 0

/-- How an operation leaves the defined behaviour of the program. -/
inductive Fault where
  | poolIndex (idx : UInt32)
  | freeStackFull
  | loopBudget
deriving DecidableEq

/-! ## Nodes, levels and the slab -/

structure LimitOrder where
  orderId : UInt64
  volume : Int64
  participant : ParticipantID
  next : UInt32
deriving DecidableEq, Inhabited

structure PriceLevel where
  priceFp : Int64
  totalVolume : Int64
  head : UInt32
  tail : UInt32
  count : Int
deriving DecidableEq, Inhabited

structure OrderPool where
  nodes : UInt32 → LimitOrder
  freeStack : List UInt32

namespace OrderPool

/-- `free_stack[i] = i` for every slot; the top of the stack is the last. -/
def freeIndices : Nat → List UInt32
  | 0 => []
  | n + 1 => UInt32.ofNat n :: freeIndices n

def init : OrderPool where
  nodes := fun _ => default
  freeStack := freeIndices orderPoolSize

def alloc (p : OrderPool) : UInt32 × OrderPool :=
  match p.freeStack with
  | [] => (nullIdx, p)
  | idx :: rest => (idx, { p with freeStack := rest })

def release (p : OrderPool) (idx : UInt32) : Except Fault OrderPool :=
  if idx = nullIdx then .ok p
  else if p.freeStack.length < orderPoolSize then
    .ok { p with freeStack := idx :: p.freeStack }
  else .error .freeStackFull

def get (p : OrderPool) (idx : UInt32) : Except Fault LimitOrder :=
  if idx.toNat < orderPoolSize then .ok (p.nodes idx) else .error (.poolIndex idx)

/-- A write through the reference that `get` returns. -/
def set (p : OrderPool) (idx : UInt32) (o : LimitOrder) : Except Fault OrderPool :=
  if idx.toNat < orderPoolSize then
    .ok { p with nodes := Function.update p.nodes idx o }
  else .error (.poolIndex idx)

end OrderPool

/-! ## One side of the book -/

structure LOBSide where
  levels : List PriceLevel
  descending : Bool

namespace LOBSide

def init (isBid : Bool) : LOBSide := ⟨[], isBid⟩

/-- The order of a side: the better price first. -/
def before (descending : Bool) (a b : Int64) : Bool :=
  if descending then decide (b < a) else decide (a < b)

/-- `while (lo <= hi)` of `find`: at most one round for each level. -/
def findLoop (s : LOBSide) (priceFp : Int64) : Nat → Int → Int → Option Nat
  | 0, _, _ => none
  | fuel + 1, lo, hi =>
      if lo ≤ hi then
        let mid := (lo + hi) / 2
        match s.levels[mid.toNat]? with
        | none => none
        | some lv =>
            if lv.priceFp = priceFp then some mid.toNat
            else if before s.descending lv.priceFp priceFp then
              findLoop s priceFp fuel (mid + 1) hi
            else findLoop s priceFp fuel lo (mid - 1)
      else none

/-- Binary search: the index of `priceFp`, `none` for the source's `-1`. -/
def find (s : LOBSide) (priceFp : Int64) : Option Nat :=
  findLoop s priceFp s.levels.length 0 (s.levels.length - 1)

/-- A new empty level at its sorted position, `none` for a full table. -/
def insert (s : LOBSide) (priceFp : Int64) : Option (Nat × LOBSide) :=
  if maxPriceLevels ≤ s.levels.length then none
  else
    let ins := s.levels.findIdx fun lv => before s.descending priceFp lv.priceFp
    some (ins, { s with levels := s.levels.insertIdx ins ⟨priceFp, 0, nullIdx, nullIdx, 0⟩ })

def erase (s : LOBSide) (idx : Nat) : LOBSide :=
  { s with levels := s.levels.eraseIdx idx }

def getOrCreate (s : LOBSide) (priceFp : Int64) : Option (Nat × LOBSide) :=
  match s.find priceFp with
  | some idx => some (idx, s)
  | none => s.insert priceFp

def bestPrice (s : LOBSide) : Int64 :=
  match s.levels with
  | lv :: _ => lv.priceFp
  | [] => if s.descending then 0 else Int64.maxValue

/-- A write through the reference `levels[idx]`. -/
def setLevel (s : LOBSide) (idx : Nat) (lv : PriceLevel) : LOBSide :=
  { s with levels := s.levels.set idx lv }

end LOBSide

/-! ## The book -/

structure MatchedFill where
  priceFp : Int64
  volume : Int64
  takerParticipant : ParticipantID
  makerParticipant : ParticipantID
  makerOrderId : UInt64
  takerIsBuy : Bool
  contestantIsTaker : Bool
  contestantIsMaker : Bool
deriving DecidableEq

structure MapEntry where
  key : UInt64
  val : UInt32
  priceFp : Int64
  isBid : Bool
deriving DecidableEq

/-- `MAP_SIZE`, and `MAP_MASK = MAP_SIZE - 1`. -/
def mapSize : Nat := 32768
def mapMask : UInt32 := 32767

/-- `UINT64_MAX` in the key field: the slot was never used. -/
def emptyKey : UInt64 := 18446744073709551615

/-- Zero in the key field: the entry was erased. -/
def deletedKey : UInt64 := 0

structure PersistentLOB where
  pool : OrderPool
  bids : LOBSide
  asks : LOBSide
  orderMap : UInt32 → MapEntry
  nextOrderId : UInt64
  lastTradeFp : Int64
  totalFills : Int64

namespace PersistentLOB

/-- `memset(order_map, 0xFF, …)` makes every field all ones. -/
def init : PersistentLOB where
  pool := OrderPool.init
  bids := LOBSide.init true
  asks := LOBSide.init false
  orderMap := fun _ => ⟨emptyKey, nullIdx, -1, true⟩
  nextOrderId := 1
  lastTradeFp := 0
  totalFills := 0

def side (lob : PersistentLOB) (isBid : Bool) : LOBSide :=
  if isBid then lob.bids else lob.asks

def setSide (lob : PersistentLOB) (isBid : Bool) (s : LOBSide) : PersistentLOB :=
  if isBid then { lob with bids := s } else { lob with asks := s }

/-! ### Order map helpers -/

/-- The slot that round `i` of a probing loop for `orderId` inspects. -/
def mapSlot (orderId : UInt64) (i : Nat) : UInt32 :=
  (((orderId * 2654435761).toUInt32 &&& mapMask) + UInt32.ofNat i) &&& mapMask

def mapInsert (m : UInt32 → MapEntry) (orderId : UInt64) (poolIdx : UInt32)
    (priceFp : Int64) (isBid : Bool) : UInt32 → MapEntry :=
  match Probing.vacancy MapEntry.key emptyKey deletedKey mapSlot mapSize m orderId with
  | some s => Function.update m s ⟨orderId, poolIdx, priceFp, isBid⟩
  | none => m

def mapFind (m : UInt32 → MapEntry) (orderId : UInt64) : Option MapEntry :=
  (Probing.find MapEntry.key emptyKey mapSlot mapSize m orderId).map m

def mapErase (m : UInt32 → MapEntry) (orderId : UInt64) : UInt32 → MapEntry :=
  match Probing.find MapEntry.key emptyKey mapSlot mapSize m orderId with
  | some s => Function.update m s { m s with key := deletedKey }
  | none => m

/-! ### add_limit -/

/-- Link the fresh node `idx` behind the tail of a level. -/
def appendNode (pool : OrderPool) (lv : PriceLevel) (idx : UInt32) (volume : Int64) :
    Except Fault (OrderPool × PriceLevel) :=
  if lv.tail = nullIdx then
    .ok (pool, { lv with head := idx, tail := idx,
                         totalVolume := lv.totalVolume + volume, count := lv.count + 1 })
  else do
    let last ← pool.get lv.tail
    let pool ← pool.set lv.tail { last with next := idx }
    return (pool, { lv with tail := idx,
                            totalVolume := lv.totalVolume + volume, count := lv.count + 1 })

def addLimit (lob : PersistentLOB) (isBid : Bool) (priceFp volume : Int64)
    (participant : ParticipantID) : Except Fault (UInt64 × PersistentLOB) :=
  match (lob.side isBid).getOrCreate priceFp with
  | none => .ok (nullOrderId, lob)
  | some (k, side) =>
      let (idx, pool) := lob.pool.alloc
      -- the level is created before the pool is asked, and stays on failure
      if idx = nullIdx then .ok (nullOrderId, { lob.setSide isBid side with pool := pool })
      else do
        let orderId := lob.nextOrderId
        let pool ← pool.set idx ⟨orderId, volume, participant, nullIdx⟩
        let (pool, lv) ← appendNode pool (side.levels.getD k default) idx volume
        return (orderId, { lob.setSide isBid (side.setLevel k lv) with
          pool := pool
          nextOrderId := orderId + 1
          orderMap := mapInsert lob.orderMap orderId idx priceFp isBid })

/-! ### cancel -/

/-- Walk a queue to `target`: `some prev` when it is met behind `prev`, `none`
when the queue ends first. -/
def findPrev (pool : OrderPool) (target : UInt32) :
    Nat → UInt32 → UInt32 → Except Fault (Option UInt32)
  | 0, _, _ => .error .loopBudget
  | fuel + 1, prev, cur =>
      if cur = nullIdx then .ok none
      else if cur = target then .ok (some prev)
      else do
        let node ← pool.get cur
        findPrev pool target fuel cur node.next

/-- Unlink `cur`, which follows `prev` (or heads the level if `prev` is null),
and give its slot back. -/
def unlinkNode (pool : OrderPool) (lv : PriceLevel) (prev cur : UInt32) (volume : Int64) :
    Except Fault (OrderPool × PriceLevel) := do
  let node ← pool.get cur
  let (pool, head) ←
    if prev = nullIdx then pure (pool, node.next)
    else do
      let before ← pool.get prev
      let pool ← pool.set prev { before with next := node.next }
      pure (pool, lv.head)
  let pool ← pool.release cur
  return (pool, { lv with head := head
                          tail := if lv.tail = cur then prev else lv.tail
                          totalVolume := lv.totalVolume - volume
                          count := lv.count - 1 })

def cancel (lob : PersistentLOB) (orderId : UInt64) : Except Fault (Bool × PersistentLOB) :=
  if orderId = nullOrderId then .ok (false, lob)
  else match mapFind lob.orderMap orderId with
  | none => .ok (false, lob)
  | some entry => do
      let target ← lob.pool.get entry.val
      let side := lob.side entry.isBid
      match side.find entry.priceFp with
      | none => return (false, lob)
      | some k =>
          let lv := side.levels.getD k default
          match ← findPrev lob.pool entry.val (orderPoolSize + 1) nullIdx lv.head with
          | none => return (false, lob)
          | some prev =>
              let (pool, lv) ← unlinkNode lob.pool lv prev entry.val target.volume
              let side := if lv.count = 0 then side.erase k else side.setLevel k lv
              return (true, { lob.setSide entry.isBid side with
                pool := pool
                orderMap := mapErase lob.orderMap orderId })

/-! ### market_order -/

/-- One round of the matching loop against the head of the best level: the
fill, what is left of the taker, and the book after it. -/
def matchHead (lob : PersistentLOB) (isBuy : Bool) (taker : ParticipantID)
    (remaining : Int64) (lv : PriceLevel) :
    Except Fault (MatchedFill × Int64 × PersistentLOB) := do
  let maker ← lob.pool.get lv.head
  let fillVol := min remaining maker.volume
  let fill : MatchedFill :=
    { priceFp := lv.priceFp
      volume := fillVol
      takerParticipant := taker
      makerParticipant := maker.participant
      makerOrderId := maker.orderId
      takerIsBuy := isBuy
      contestantIsTaker := taker = contestant
      contestantIsMaker := maker.participant = contestant }
  let volume := maker.volume - fillVol
  let pool ← lob.pool.set lv.head { maker with volume := volume }
  let lob := { lob with lastTradeFp := lv.priceFp, totalFills := lob.totalFills + 1 }
  let total := lv.totalVolume - fillVol
  let side := lob.side !isBuy
  if volume = 0 then do
    let pool ← pool.release lv.head
    let left := { lv with head := maker.next
                          tail := if lv.tail = lv.head then nullIdx else lv.tail
                          totalVolume := total
                          count := lv.count - 1 }
    let side := if left.count = 0 then side.erase 0 else side.setLevel 0 left
    return (fill, remaining - fillVol, { lob.setSide (!isBuy) side with
      pool := pool
      orderMap := mapErase lob.orderMap maker.orderId })
  else
    return (fill, remaining - fillVol,
      { lob.setSide (!isBuy) (side.setLevel 0 { lv with totalVolume := total }) with
        pool := pool })

/-- `while (remaining > 0 && side.count > 0)`. -/
def matchLoop (isBuy : Bool) (taker : ParticipantID) :
    Nat → PersistentLOB → Int64 → Except Fault (List MatchedFill × PersistentLOB)
  | 0, _, _ => .error .loopBudget
  | fuel + 1, lob, remaining =>
      if 0 < remaining then
        match (lob.side !isBuy).levels with
        | [] => .ok ([], lob)
        | lv :: _ =>
            if lv.head = nullIdx then
              matchLoop isBuy taker fuel
                (lob.setSide (!isBuy) ((lob.side !isBuy).erase 0)) remaining
            else do
              let (fill, remaining, lob) ← matchHead lob isBuy taker remaining lv
              let (fills, lob) ← matchLoop isBuy taker fuel lob remaining
              return (fill :: fills, lob)
      else .ok ([], lob)

/-- Every round but the last erases a level or an order. -/
def marketOrder (lob : PersistentLOB) (isBuy : Bool) (volume : Int64)
    (taker : ParticipantID) : Except Fault (List MatchedFill × PersistentLOB) :=
  matchLoop isBuy taker (orderPoolSize + maxPriceLevels + 1) lob volume

/-! ### Quotes -/

def bestBid (lob : PersistentLOB) : Int64 := lob.bids.bestPrice

def bestAsk (lob : PersistentLOB) : Int64 := lob.asks.bestPrice

/-- `mid()` as a function of the two best prices and the last trade. -/
def midOf (bid ask last : Int64) : Int64 :=
  if bid = 0 ∨ ask = Int64.maxValue then last else (bid + ask) / 2

/-- `spread()` as a function of the two best prices. -/
def spreadOf (bid ask : Int64) : Int64 :=
  if bid = 0 ∨ ask = Int64.maxValue then 0 else ask - bid

def mid (lob : PersistentLOB) : Int64 := midOf lob.bestBid lob.bestAsk lob.lastTradeFp

def spread (lob : PersistentLOB) : Int64 := spreadOf lob.bestBid lob.bestAsk

/-- The depth slots of one side: cleared, then the first five levels. -/
def depth (s : LOBSide) (i : Fin depthLevels) : LOBLevel :=
  match s.levels[i.val]? with
  | some lv => ⟨lv.priceFp, lv.totalVolume⟩
  | none => ⟨0, 0⟩

def fillSnapshot (lob : PersistentLOB) (sm : SharedMem) : SharedMem :=
  { sm with
    bidDepth := depth lob.bids
    askDepth := depth lob.asks
    bidPriceFp := lob.bestBid
    askPriceFp := lob.bestAsk
    spreadFp := lob.spread
    lastTradePriceFp := lob.lastTradeFp }

end PersistentLOB

end VidhiArena.GameMaster
