import Mathlib.Data.Rat.Floor
import VidhiArena.Browser.PersistentLOB
import VidhiArena.Foundation.Programs

/-!
# The browser engine

The bots of `engine/simulation.worker.js`, `initSimulation` and the ticks of
`runBatch`. A tick is a program over the book. The price signal and what the contestant's
code submits are inputs of a tick.

Numbers of the source that are prices of orders, volumes, positions or cash are
integers (cash in ticks). Everything else is a `double`: the arithmetic of the bots is
written over the operations of `Doubles`. Custom bots do not take part in `runBatch`.
The profit, the activity counters and the charts are left out.
-/

namespace VidhiArena.Browser

open Foundation OrderedMap

/-! ## Doubles -/

/-- The arithmetic that the bots do in `double`. -/
structure Doubles where
  Num : Type
  lit : Rat → Num
  ofInt : Int → Num
  negInfinity : Num
  infinity : Num
  add : Num → Num → Num
  sub : Num → Num → Num
  mul : Num → Num → Num
  div : Num → Num → Num
  max : Num → Num → Num
  lt : Num → Num → Bool
  /-- `Math.round` and `Math.floor` -/
  round : Num → Int
  floor : Num → Int

namespace Doubles

variable (D : Doubles)

instance : Add D.Num := ⟨D.add⟩
instance : Sub D.Num := ⟨D.sub⟩
instance : Mul D.Num := ⟨D.mul⟩
instance : Div D.Num := ⟨D.div⟩
instance : OfScientific D.Num := ⟨fun m s e => D.lit (Rat.ofScientific m s e)⟩
instance (n : Nat) : OfNat D.Num n := ⟨D.ofInt n⟩

def TICK_SIZE : D.Num := 0.01

/-- The price of `k` ticks. -/
def price (k : Int) : D.Num := D.ofInt k * D.TICK_SIZE

/-- `_priceKey`, in ticks. -/
def priceKey (p : D.Num) : Int := D.round (p / D.TICK_SIZE)

def isZero (x : D.Num) : Bool := !D.lt x 0 && !D.lt 0 x

def ofBid : Option Int → D.Num
  | none => D.negInfinity
  | some k => D.price k

def ofAsk : Option Int → D.Num
  | none => D.infinity
  | some k => D.price k

/-- Rounding half up, as `Math.round` does. The infinities do not occur. -/
def exact : Doubles where
  Num := Rat
  lit := id
  ofInt := fun n => n
  negInfinity := 0
  infinity := 0
  add := fun a b => a + b
  sub := fun a b => a - b
  mul := fun a b => a * b
  div := fun a b => a / b
  max := fun a b => if a < b then b else a
  lt := fun a b => a < b
  round := fun a => (a + 1 / 2).floor
  floor := Rat.floor

end Doubles

/-! ## Programs over the book -/

abbrev Name := String

def CONTESTANT : Name := "CONTESTANT"

abbrev Book := PersistentLOB Name

abbrev EngineProg := Prog Book (BookCall Name) (Answer Name)

abbrev EngineHistory := Prog.History (BookCall Name) (Answer Name)

namespace EngineProg

def addOrder (side : Side) (key volume : Int) (participantId : Name) : EngineProg Nat :=
  .call (.addOrder side key volume participantId) fun
    | .orderId id => .ret id
    | _ => .ret 0

def cancelOrder (side : Side) (key : Int) (orderId : Nat) : EngineProg Bool :=
  .call (.cancelOrder side key orderId) fun
    | .cancelled ok => .ret ok
    | _ => .ret false

def marketOrder (side : Side) (volume : Int) (participantId : Name) :
    EngineProg (List (Fill Name)) :=
  .call (.marketOrder side volume participantId) fun
    | .fills fs => .ret fs
    | _ => .ret []

/-- `lob` as it stands. -/
def lob : EngineProg Book := .read .ret

end EngineProg

open EngineProg

/-! ## Snapshots -/

structure Snapshot (D : Doubles) where
  bidPrice : D.Num
  askPrice : D.Num
  midPrice : D.Num
  spread : D.Num
  /-- price and volume of five levels -/
  bidDepth : List (Int × Int)
  askDepth : List (Int × Int)

structure Signal (D : Doubles) where
  fairValue : D.Num
  volatility : D.Num

namespace PersistentLOB

/-- `depth`: the levels that a market order of the other side would meet. -/
def depth {ρ : Type} (lob : PersistentLOB ρ) (side : Side) (levels : Nat) : List (Int × Int) :=
  ((lob.sortedPrices side.other).take levels).filterMap fun p =>
    (find (lob.book side) p).map fun level => (p, level.volume)

def snapshot {ρ : Type} (D : Doubles) (base : Int) (lob : PersistentLOB ρ) : Snapshot D :=
  let bid := D.ofBid (lob.bestBid base)
  let ask := D.ofAsk (lob.bestAsk base)
  { bidPrice := bid
    askPrice := ask
    midPrice := (bid + ask) / 2
    spread := ask - bid
    bidDepth := lob.depth .buy 5
    askDepth := lob.depth .sell 5 }

end PersistentLOB

/-! ## The bots -/

/-- `OrderRing`: ids with their prices; `push` returns what it evicts. -/
structure OrderRing (D : Doubles) where
  ids : List (Option (Nat × D.Num))
  head : Nat
  count : Nat

namespace OrderRing

variable {D : Doubles}

def new (capacity : Nat) : OrderRing D := ⟨List.replicate capacity none, 0, 0⟩

def push (ring : OrderRing D) (id : Nat) (price : D.Num) :
    Option (Nat × D.Num) × OrderRing D :=
  let cap := ring.ids.length
  let full := ring.count = cap
  (if full then (ring.ids[ring.head]?).join else none,
    { ids := ring.ids.set ring.head (some (id, price))
      head := (ring.head + 1) % cap
      count := if full then ring.count else ring.count + 1 })

end OrderRing

/-- `if (evicted) this.lob.cancelOrder(side, evicted.price, evicted.id)`. -/
def cancelEvicted {D : Doubles} (side : Side) : Option (Nat × D.Num) → EngineProg Unit
  | none => return
  | some (id, price) => do
      let _ ← cancelOrder side (D.priceKey price) id

/-- `if (orderId !== null) this.lob.cancelOrder(side, price, orderId)`. -/
def cancelQuote (side : Side) (price : Int) : Option Nat → EngineProg Unit
  | none => return
  | some id => do
      let _ ← cancelOrder side price id

structure MarketMaker where
  inventory : Int
  bidOrderId : Option Nat
  askOrderId : Option Nat
  bidPrice : Int
  askPrice : Int

namespace MarketMaker

variable {D : Doubles}

/-- The prices are `null` until the first quotes; nothing is cancelled before. -/
def new : MarketMaker := ⟨0, none, none, 0, 0⟩

def id : Name := "BOT_MM"

def compute (bot : MarketMaker) (scale : D.Num) (snap : Snapshot D) (signal : Signal D) :
    EngineProg MarketMaker := do
  cancelQuote .buy bot.bidPrice bot.bidOrderId
  cancelQuote .sell bot.askPrice bot.askOrderId
  let skew := D.ofInt bot.inventory * (0.002 : D.Num)
  let spread := D.max (2 * D.TICK_SIZE)
    (snap.spread * (0.8 : D.Num) + signal.volatility * (0.5 : D.Num))
  let bidPrice := D.round ((signal.fairValue - spread / 2 - skew) / D.TICK_SIZE)
  let askPrice := D.round ((signal.fairValue + spread / 2 - skew) / D.TICK_SIZE)
  if D.isZero scale then
    return { bot with bidPrice, askPrice }
  else
    let bidOrderId ← addOrder .buy bidPrice (D.round (50 * scale)) id
    let askOrderId ← addOrder .sell askPrice (D.round (50 * scale)) id
    return { bot with
      bidPrice
      askPrice
      bidOrderId := some bidOrderId
      askOrderId := some askOrderId }

def onFill (bot : MarketMaker) (fill : Fill Name) : MarketMaker :=
  if fill.participantId = id ∨ fill.makerParticipantId = id then
    { bot with
      inventory := bot.inventory + (if fill.side = .buy then -fill.volume else fill.volume) }
  else bot

end MarketMaker

structure MomentumBot (D : Doubles) where
  ema : D.Num

namespace MomentumBot

variable {D : Doubles}

def new (base : Int) : MomentumBot D := ⟨D.price base⟩

def id : Name := "BOT_MOM"

def compute (bot : MomentumBot D) (scale : D.Num) (snap : Snapshot D) :
    EngineProg (MomentumBot D) :=
  if D.isZero scale then return bot
  else do
    let ema := (0.97 : D.Num) * bot.ema + (0.03 : D.Num) * snap.midPrice
    let signalStrength := snap.midPrice - ema
    if D.lt (3 * D.TICK_SIZE) signalStrength then
      let _ ← marketOrder .buy (D.round (30 * scale)) id
    if D.lt signalStrength (D.ofInt (-3) * D.TICK_SIZE) then
      let _ ← marketOrder .sell (D.round (30 * scale)) id
    return ⟨ema⟩

end MomentumBot

structure MeanReversionBot (D : Doubles) where
  bidRing : OrderRing D
  askRing : OrderRing D

namespace MeanReversionBot

variable {D : Doubles}

def new : MeanReversionBot D := ⟨.new 8, .new 8⟩

def id : Name := "BOT_MR"

/-- One side: a new order at `price`, and the oldest one out. -/
def place (side : Side) (ring : OrderRing D) (price scale : D.Num) :
    EngineProg (OrderRing D) := do
  let newId ← addOrder side (D.priceKey price) (D.round (80 * scale)) id
  let (evicted, ring) := ring.push newId price
  cancelEvicted side evicted
  return ring

def compute (bot : MeanReversionBot D) (scale : D.Num) (snap : Snapshot D)
    (signal : Signal D) : EngineProg (MeanReversionBot D) :=
  if D.isZero scale then return bot
  else do
    let dev := snap.midPrice - signal.fairValue
    let askRing ← if D.lt (5 * D.TICK_SIZE) dev then
        place .sell bot.askRing (snap.midPrice - D.TICK_SIZE) scale
      else pure bot.askRing
    let bidRing ← if D.lt dev (D.ofInt (-5) * D.TICK_SIZE) then
        place .buy bot.bidRing (snap.midPrice + D.TICK_SIZE) scale
      else pure bot.bidRing
    return ⟨bidRing, askRing⟩

end MeanReversionBot

structure NoiseTrader (D : Doubles) where
  rng : UInt32
  ring : OrderRing D

namespace NoiseTrader

variable {D : Doubles}

def new : NoiseTrader D := ⟨0xCAFEBABE, .new 6⟩

def id : Name := "BOT_NOISE"

/-- `x >> 17` shifts a signed number. -/
def xorshift (rng : UInt32) : D.Num × UInt32 :=
  let x := rng.toInt32
  let x := x ^^^ (x <<< 13)
  let x := x ^^^ (x >>> 17)
  let x := x ^^^ (x <<< 5)
  (D.ofInt x.toUInt32.toNat / D.ofInt 0xFFFFFFFF, x.toUInt32)

def compute (bot : NoiseTrader D) (scale : D.Num) (snap : Snapshot D) :
    EngineProg (NoiseTrader D) :=
  if D.isZero scale then return bot
  else
    let (r, rng) := xorshift bot.rng
    if D.lt (0.6 : D.Num) r then return { bot with rng }
    else do
      let (r, rng) := xorshift (D := D) rng
      let offset := D.ofInt (D.floor (r * 5) - 2) * D.TICK_SIZE
      let (r, rng) := xorshift (D := D) rng
      let vol := D.floor ((10 + r * 30) * scale)
      let (r, rng) := xorshift (D := D) rng
      let (price, side) :=
        if D.lt (0.5 : D.Num) r then (snap.bidPrice + offset, Side.buy)
        else (snap.askPrice + offset, Side.sell)
      let newId ← addOrder side (D.priceKey price) vol id
      let (evicted, ring) := bot.ring.push newId price
      cancelEvicted side evicted
      return ⟨rng, ring⟩

end NoiseTrader

namespace SniperBot

variable {D : Doubles}

def id : Name := "BOT_SNIPER"

/-- `if (depth) this.lob.marketOrder(side, Math.min(depth.volume, 100), this.id)`. -/
def snipe (side : Side) (depth : Option (Int × Int)) : EngineProg Unit :=
  match depth with
  | none => return
  | some (_, volume) => do
      let _ ← marketOrder side (min volume 100) id

def compute (scale : D.Num) (snap : Snapshot D) (signal : Signal D) : EngineProg Unit :=
  if D.isZero scale then return
  else do
    if D.lt snap.askPrice (signal.fairValue - D.TICK_SIZE) then
      snipe .buy snap.askDepth.head?
    if D.lt (signal.fairValue + D.TICK_SIZE) snap.bidPrice then
      snipe .sell snap.bidDepth.head?

end SniperBot

/-! ## The contestant -/

inductive ContestantOrder (D : Doubles) where
  | limitBuy (price : D.Num) (volume : Int)
  | limitSell (price : D.Num) (volume : Int)
  | marketBuy (volume : Int)
  | marketSell (volume : Int)
  | cancel (orderId : Nat)

def POSITION_LIMIT : Int := 1000

/-- An entry of `contestantOrdersQueue`. -/
structure Queued (D : Doubles) where
  side : Side
  price : D.Num
  id : Nat

/-- Where the search of the cancel branch finds the order: its side and price, if it is
the contestant's own. -/
def findOwn (lob : Book) (orderId : Nat) : Option (Side × Int) :=
  let holds := fun entry : Int × Level Name =>
    match entry.2.orders.find? (·.id = orderId) with
    | some order => decide (order.participantId = CONTESTANT)
    | none => false
  match lob.bids.find? holds with
  | some entry => some (.buy, entry.1)
  | none => (lob.asks.find? holds).map fun entry => (.sell, entry.1)

namespace ContestantOrder

variable {D : Doubles}

/-- One pass of the dispatch loop: the fills, and what is queued. -/
def process (position : Int) : ContestantOrder D →
    EngineProg (List (Fill Name) × List (Queued D))
  | marketBuy volume =>
      if POSITION_LIMIT ≤ |position| ∧ 0 < position then return ([], [])
      else do
        let fills ← marketOrder .buy volume CONTESTANT
        return (fills, [])
  | marketSell volume =>
      if POSITION_LIMIT ≤ |position| ∧ position < 0 then return ([], [])
      else do
        let fills ← marketOrder .sell volume CONTESTANT
        return (fills, [])
  | limitBuy price volume => do
      let oid ← addOrder .buy (D.priceKey price) volume CONTESTANT
      return ([], [⟨.buy, price, oid⟩])
  | limitSell price volume => do
      let oid ← addOrder .sell (D.priceKey price) volume CONTESTANT
      return ([], [⟨.sell, price, oid⟩])
  | cancel orderId => do
      let book ← lob
      match findOwn book orderId with
      | none => return ([], [])
      | some (side, price) =>
          let _ ← cancelOrder side price orderId
          return ([], [])

end ContestantOrder

section

variable {D : Doubles}

/-- Step 5 without the flood control. -/
def processOrders (position : Int) : List (ContestantOrder D) →
    EngineProg (List (Fill Name) × List (Queued D))
  | [] => return ([], [])
  | order :: orders => do
      let (fills, queued) ← order.process position
      let (fills', queued') ← processOrders position orders
      return (fills ++ fills', queued ++ queued')

/-- `while (contestantOrdersQueue.length > 200)`: the oldest orders are cancelled. -/
def cancelOldest : List (Queued D) → EngineProg Unit
  | [] => return
  | old :: rest => do
      let _ ← cancelOrder old.side (D.priceKey old.price) old.id
      cancelOldest rest

/-! ## The tick -/

/-- The scales of the five bots. -/
structure BotConfig (D : Doubles) where
  MM : D.Num
  MOM : D.Num
  MR : D.Num
  NOISE : D.Num
  SNIPER : D.Num

structure Engine (D : Doubles) where
  mm : MarketMaker
  mom : MomentumBot D
  mr : MeanReversionBot D
  noise : NoiseTrader D
  position : Int
  cash : Int
  contestantOrdersQueue : List (Queued D)

structure TickInput (D : Doubles) where
  signal : Signal D
  contestantOrders : List (ContestantOrder D)

namespace Engine

def startingCash : Int := 10000000

def new (base : Int) : Engine D :=
  ⟨.new, .new base, .new, .new, 0, startingCash, []⟩

/-- The two branches of step 6 that look for the contestant. -/
def account (engine : Engine D) (fill : Fill Name) : Engine D :=
  let engine :=
    if fill.participantId = CONTESTANT then
      let sign := if fill.side = .buy then 1 else -1
      { engine with
        position := engine.position + sign * fill.volume
        cash := engine.cash - sign * fill.volume * fill.price }
    else engine
  if fill.makerParticipantId = CONTESTANT then
    let sign := if fill.side = .buy then -1 else 1
    { engine with
      position := engine.position + sign * fill.volume
      cash := engine.cash + sign * fill.volume * fill.price }
  else engine

/-- Step 6 for one fill; of the bots only the market maker listens. -/
def settle (engine : Engine D) (fill : Fill Name) : Engine D :=
  let engine := engine.account fill
  { engine with mm := engine.mm.onFill fill }

def botsCompute (cfg : BotConfig D) (base : Int) (engine : Engine D) (signal : Signal D) :
    EngineProg (Engine D) := do
  let snap := (← lob).snapshot D base
  let mm ← engine.mm.compute cfg.MM snap signal
  let mom ← engine.mom.compute cfg.MOM snap
  let mr ← engine.mr.compute cfg.MR snap signal
  let noise ← engine.noise.compute cfg.NOISE snap
  SniperBot.compute cfg.SNIPER snap signal
  return { engine with mm, mom, mr, noise }

/-- Steps 4 and 5: `newFills`, and the queue after the flood control. -/
def contestantTrades (engine : Engine D) (orders : List (ContestantOrder D)) :
    EngineProg (List (Fill Name) × List (Queued D)) := do
  let (newFills, queued) ← processOrders engine.position orders
  let queue := engine.contestantOrdersQueue ++ queued
  cancelOldest (queue.take (queue.length - 200))
  return (newFills, queue.drop (queue.length - 200))

def tick (cfg : BotConfig D) (base : Int) (engine : Engine D) (input : TickInput D) :
    EngineProg (Engine D) := do
  let engine ← engine.botsCompute cfg base input.signal
  let (newFills, queue) ← engine.contestantTrades input.contestantOrders
  return newFills.foldl settle { engine with contestantOrdersQueue := queue }

end Engine

/-! ## The run -/

/-- `initSimulation`: the market maker quotes before the first tick. -/
def initSimulation (cfg : BotConfig D) (base : Int) (seedSignal : Signal D) :
    EngineProg (Engine D) := do
  let engine := Engine.new base
  if D.lt 0 cfg.MM then
    let snap := (← lob).snapshot D base
    let mm ← engine.mm.compute cfg.MM snap seedSignal
    return { engine with mm }
  else return engine

/-- The book and everything else, between two ticks. -/
abbrev EngineState (D : Doubles) := Book × Engine D

/-- The result of a program of the engine, with the calls it has made. -/
def EngineProg.result (base : Int) (p : EngineProg (Engine D)) (lob : Book) :
    EngineHistory × EngineState D :=
  let r := p.exec (PersistentLOB.apply base) lob
  (r.2.1, r.2.2, r.1)

/-- A run of `runBatch` after `initSimulation`: the calls of the initialisation, those
of every tick, and the state in the end. -/
def runBatch (cfg : BotConfig D) (base : Int) (seedSignal : Signal D)
    (inputs : List (TickInput D)) : List EngineHistory × EngineState D :=
  let r := (initSimulation cfg base seedSignal).result base (PersistentLOB.new base)
  let r' := traceFrom
    (fun s input => (s.2.tick cfg base input).result base s.1) r.2 inputs
  (r.1 :: r'.1, r'.2)

end

end VidhiArena.Browser
