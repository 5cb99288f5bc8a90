import VidhiArena.Browser.JsBook

/-!
# The browser engine on any numbers

The ticks of `runBatch` over the book of `JsBook`, with the noise trader, the contestant's
orders and the flood control as the source has them. What the other bots ask of the book is
an input, in their own names. `position` does not change while the orders of a tick are
processed; what it holds back is an input as well.

Whoever keeps records of the orders it has placed can find them again: `Tracked` says what
the records of a participant are worth, and every call preserves it. Ids are told apart as
long as the counter is exact, which is up to `2^53`.
-/

namespace VidhiArena.Browser.Js

open Foundation OrderedMap

variable {N : Numbers}

/-! ## The noise trader -/

structure NoiseTrader (N : Numbers) where
  rng : UInt32
  ring : OrderRing N.toDoubles

/-- What the noise trader is about to place. -/
structure Placement (N : Numbers) where
  side : Side
  price : N.Num
  volume : N.Num

namespace NoiseTrader

def new : NoiseTrader N := ⟨0xCAFEBABE, .new 6⟩

def id : Name := Browser.NoiseTrader.id

abbrev xorshift (rng : UInt32) : N.Num × UInt32 := Browser.NoiseTrader.xorshift rng

/-- The draws of a tick. Nothing is placed in six of ten. -/
def draw (scale bidPrice askPrice : N.Num) (rng : UInt32) : Option (Placement N) × UInt32 :=
  if N.isZero scale then (none, rng)
  else
    let (r, rng) := xorshift rng
    if N.lt (0.6 : N.Num) r then (none, rng)
    else
      let (r, rng) := xorshift rng
      let offset := (N.floorNum (r * 5) - 2) * N.TICK_SIZE
      let (r, rng) := xorshift rng
      let vol := N.floorNum ((10 + r * 30) * scale)
      let (r, rng) := xorshift rng
      if N.lt (0.5 : N.Num) r then (some ⟨.buy, bidPrice + offset, vol⟩, rng)
      else (some ⟨.sell, askPrice + offset, vol⟩, rng)

/-- `if (evicted) this.lob.cancelOrder(side, evicted.price, evicted.id)`. -/
def cancelEvicted (base : N.Num) (b : Book N) (side : Side) :
    Option (Nat × N.Num) → Book N
  | none => b
  | some (id, price) => b.cancelOrder base side price id

def place (base : N.Num) (ring : OrderRing N.toDoubles) (b : Book N) (p : Placement N) :
    OrderRing N.toDoubles × Book N :=
  let (newId, b) := b.addOrder p.side p.price p.volume id
  let (evicted, ring) := ring.push newId p.price
  (ring, cancelEvicted base b p.side evicted)

def compute (base scale bidPrice askPrice : N.Num) (bot : NoiseTrader N) (b : Book N) :
    NoiseTrader N × Book N :=
  match draw scale bidPrice askPrice bot.rng with
  | (none, rng) => (⟨rng, bot.ring⟩, b)
  | (some p, rng) =>
      let (ring, b) := place base bot.ring b p
      (⟨rng, ring⟩, b)

end NoiseTrader

/-! ## The contestant -/

inductive ContestantOrder (N : Numbers) where
  | limitBuy (price volume : N.Num)
  | limitSell (price volume : N.Num)
  | marketBuy (volume : N.Num)
  | marketSell (volume : N.Num)
  /-- an argument that is no order id is `0`, which no order has -/
  | cancel (orderId : Nat)

/-- Where the search of the cancel branch finds the order. -/
def findOwn (b : Book N) (orderId : Nat) : Option (Side × N.Key) :=
  let holds := fun entry : N.Key × Level N =>
    match entry.2.orders.find? (·.id = orderId) with
    | some order => decide (order.participantId = CONTESTANT)
    | none => false
  match b.bids.find? holds with
  | some entry => some (.buy, entry.1)
  | none => (b.asks.find? holds).map fun entry => (.sell, entry.1)

namespace ContestantOrder

/-- A market order on a side that the position limit holds back is skipped. -/
def market (limited : Side → Bool) (side : Side) (volume : N.Num) : Option (Call N) :=
  if limited side then none else some (.marketOrder side volume)

/-- The call that one pass of the dispatch loop makes. -/
def call (limited : Side → Bool) (b : Book N) : ContestantOrder N → Option (Call N)
  | limitBuy price volume => some (.addOrder .buy price volume CONTESTANT)
  | limitSell price volume => some (.addOrder .sell price volume CONTESTANT)
  | marketBuy volume => market limited .buy volume
  | marketSell volume => market limited .sell volume
  | cancel orderId =>
      (findOwn b orderId).map fun found => .cancelOrder found.1 (N.ofKey found.2) orderId

/-- What it pushes to `contestantOrdersQueue`. -/
def queued (b : Book N) : ContestantOrder N → List (Queued N.toDoubles)
  | limitBuy price _ => [⟨.buy, price, b.nextOrderId⟩]
  | limitSell price _ => [⟨.sell, price, b.nextOrderId⟩]
  | marketBuy _ | marketSell _ | cancel _ => []

end ContestantOrder

/-- The book and the queue, which step 5 works on. -/
structure Desk (N : Numbers) where
  book : Book N
  contestantOrdersQueue : List (Queued N.toDoubles)

namespace Desk

def process (base : N.Num) (limited : Side → Bool) (d : Desk N) (order : ContestantOrder N) :
    Desk N where
  book := match order.call limited d.book with
    | none => d.book
    | some c => d.book.apply base c
  contestantOrdersQueue := d.contestantOrdersQueue ++ order.queued d.book

variable {base : N.Num} {limited : Side → Bool} {d : Desk N} {order : ContestantOrder N}

theorem process_queue : (d.process base limited order).contestantOrdersQueue =
    d.contestantOrdersQueue ++ order.queued d.book := rfl

theorem process_idle (h : order.call limited d.book = none) :
    (d.process base limited order).book = d.book := by
  simp only [process, h]

theorem process_call {c : Call N} (h : order.call limited d.book = some c) :
    (d.process base limited order).book = d.book.apply base c := by
  simp only [process, h]

/-- `lob.cancelOrder(old.side, old.price, old.id)` for the oldest orders of the queue. -/
def cancelOldest (base : N.Num) (b : Book N) (olds : List (Queued N.toDoubles)) : Book N :=
  olds.foldl (fun b old => b.cancelOrder base old.side old.price old.id) b

/-- `while (contestantOrdersQueue.length > 200)`. -/
def floodControl (base : N.Num) (d : Desk N) : Desk N :=
  let queue := d.contestantOrdersQueue
  ⟨cancelOldest base d.book (queue.take (queue.length - 200)),
    queue.drop (queue.length - 200)⟩

end Desk

/-! ## The tick -/

/-- A call of another bot, in its own name. -/
abbrev BotCall (N : Numbers) :=
  { c : Call N // c.By fun who => who ≠ CONTESTANT ∧ who ≠ NoiseTrader.id }

def botCalls (base : N.Num) (b : Book N) (calls : List (BotCall N)) : Book N :=
  calls.foldl (fun b c => b.apply base c.1) b

structure TickInput (N : Numbers) where
  /-- the market maker, the momentum bot and the mean reversion bot -/
  before : List (BotCall N)
  /-- the sniper -/
  after : List (BotCall N)
  /-- the sides on which `POSITION_LIMIT` holds market orders back -/
  limited : Side → Bool
  contestantOrders : List (ContestantOrder N)

structure Sim (N : Numbers) where
  book : Book N
  noise : NoiseTrader N
  contestantOrdersQueue : List (Queued N.toDoubles)

namespace Sim

/-- What the noise trader finds, and the prices of the snapshot it works with. -/
def noiseTurn (base scale : N.Num) (s : Sim N) (input : TickInput N) : NoiseTrader N × Book N :=
  s.noise.compute base scale (s.book.bestBid base) (s.book.bestAsk base)
    (botCalls base s.book input.before)

def tick (base scale : N.Num) (s : Sim N) (input : TickInput N) : Sim N :=
  let (noise, b) := s.noiseTurn base scale input
  let d : Desk N := ⟨botCalls base b input.after, s.contestantOrdersQueue⟩
  let d := (input.contestantOrders.foldl (Desk.process base input.limited) d).floodControl base
  ⟨d.book, noise, d.contestantOrdersQueue⟩

/-- `initSimulation`: the market maker may quote before the first tick. -/
def init (base : N.Num) (seed : List (BotCall N)) : Sim N :=
  ⟨botCalls base .new seed, .new, []⟩

/-- A run of `runBatch`: the state after the ticks. -/
def run (base scale : N.Num) (seed : List (BotCall N)) (inputs : List (TickInput N)) : Sim N :=
  inputs.foldl (tick base scale) (init base seed)

end Sim

/-- The resting orders of a participant. -/
def Book.restingOf (b : Book N) (who : Name) : List (Resting N) :=
  b.resting.filter (·.participantId = who)

end VidhiArena.Browser.Js
