import VidhiArena.Foundation.Programs
import VidhiArena.GameMaster.PnLTracker
import VidhiArena.GameMaster.Refinement

/-!
# The bot fleet

`game-master/bot_fleet.hpp`: the five inline bots. Each is a program over the
book: it reads a market snapshot, calls `add_limit`, `cancel` and
`market_order`, and keeps what the replies tell it.

The aggressiveness `agg` of a bot is a `double`. It is used in two ways, which
are the two fields of `Aggression`: the test `agg > 0`, and the cast of `k * agg`
to `int64_t`. The momentum threshold `to_fp(0.03) / agg` is a third, `threshold`.
Everything else is integer arithmetic and wraps as the program does.
-/

namespace VidhiArena.GameMaster

open VidhiArena.Foundation

/-! ## Programs over the book -/

abbrev BookProg := Prog PersistentLOB BookOp Reply

abbrev BookHistory := Prog.History BookOp Reply

namespace BookProg

def addLimit (isBid : Bool) (priceFp volume : Int64) (participant : ParticipantID) :
    BookProg UInt64 :=
  .call (.addLimit isBid priceFp volume participant) fun
    | .orderId id => .ret id
    | _ => .ret nullOrderId

def cancel (orderId : UInt64) : BookProg Bool :=
  .call (.cancel orderId) fun
    | .cancelled ok => .ret ok
    | _ => .ret false

def marketOrder (isBuy : Bool) (volume : Int64) (taker : ParticipantID) :
    BookProg (List MatchedFill) :=
  .call (.marketOrder isBuy volume taker) fun
    | .fills fs => .ret fs
    | _ => .ret []

def book : BookProg PersistentLOB := .read .ret

/-- `if (id) lob.cancel(id)`. -/
def cancelIfSet (orderId : UInt64) : BookProg Unit := do
  if orderId ≠ 0 then
    let _ ← cancel orderId

end BookProg

/-- The call is made in the name of somebody with `who`; cancels carry no name. -/
def BookOp.By (who : ParticipantID → Prop) : BookOp → Prop
  | .addLimit _ _ _ participant => who participant
  | .marketOrder _ _ taker => who taker
  | .cancel _ => True

namespace BookProg

variable {who : ParticipantID → Prop}

theorem all_addLimit {isBid : Bool} {priceFp volume : Int64} {participant : ParticipantID}
    (h : who participant) : (addLimit isBid priceFp volume participant).All (BookOp.By who) :=
  ⟨h, fun r => by cases r <;> trivial⟩

theorem all_marketOrder {isBuy : Bool} {volume : Int64} {taker : ParticipantID} (h : who taker) :
    (marketOrder isBuy volume taker).All (BookOp.By who) :=
  ⟨h, fun r => by cases r <;> trivial⟩

theorem all_cancel {id : UInt64} : (cancel id).All (BookOp.By who) :=
  ⟨trivial, fun r => by cases r <;> trivial⟩

theorem all_cancelIfSet {id : UInt64} : (cancelIfSet id).All (BookOp.By who) := by
  unfold cancelIfSet
  split
  · exact Prog.all_bind all_cancel fun _ => trivial
  · trivial

end BookProg

open BookProg

/-! ## What the bots see and how eager they are -/

structure MarketSnapshot where
  bidFp : Int64
  askFp : Int64
  midFp : Int64
  spreadFp : Int64
  fairValueFp : Int64
  volatilityFp : Int64
  isNewsEvent : Bool
deriving DecidableEq

/-- What a bot does with its `agg`. -/
structure Aggression where
  /-- `agg > 0` -/
  active : Bool
  /-- `static_cast<int64_t>(k * agg)` -/
  scaled : Int64 → Int64

/-- The configuration of the fleet; `threshold` is `to_fp(0.03) / agg` of the
momentum bot. -/
structure BotConfig where
  mm : Aggression
  mom : Aggression
  threshold : Int64
  mr : Aggression
  noise : Aggression
  sniper : Aggression

/-- Every bot at `agg = 1.0`, the default of the command line. -/
def BotConfig.default : BotConfig :=
  let one : Aggression := ⟨true, fun k => k⟩
  ⟨one, one, 30000, one, one, one⟩

/-! ## The order ring -/

structure OrderRing (capacity : Nat) where
  ids : Fin capacity → UInt64
  head : Nat
  count : Nat

namespace OrderRing

variable {capacity : Nat}

def empty : OrderRing capacity := ⟨fun _ => 0, 0, 0⟩

/-- The id that has to be cancelled to make room (0 if there is room), and the
ring with the new id in its place. -/
def push (ring : OrderRing capacity) (newId : UInt64) : UInt64 × OrderRing capacity :=
  let full := ring.count = capacity
  let evicted := if h : full ∧ ring.head < capacity then ring.ids ⟨ring.head, h.2⟩ else 0
  (evicted,
    { ids := fun i => if i.val = ring.head then newId else ring.ids i
      head := (ring.head + 1) % capacity
      count := if full then ring.count else ring.count + 1 })

end OrderRing

/-! ## Bot 1: the market maker -/

structure MarketMakerBot where
  inventory : Int64
  bidOrderId : UInt64
  askOrderId : UInt64
  postedBid : Int64
  postedAsk : Int64
  quoteVolume : Int64

namespace MarketMakerBot

def init : MarketMakerBot := ⟨0, 0, 0, 0, 0, 50⟩

/-- Skewed by the inventory, wider when the market moves. -/
def quotes (bot : MarketMakerBot) (snap : MarketSnapshot) : Int64 × Int64 :=
  let skewFp := (bot.inventory * snap.volatilityFp) / (1000 * fixedPoint)
  let halfSpreadFp := max oneCent (snap.volatilityFp / 2 + halfCent)
  let halfSpreadFp := if snap.isNewsEvent then halfSpreadFp * 2 else halfSpreadFp
  let postedBid := snap.fairValueFp - halfSpreadFp - skewFp
  let postedAsk := snap.fairValueFp + halfSpreadFp - skewFp
  if postedAsk ≤ postedBid then (snap.midFp - oneCent, snap.midFp + oneCent)
  else (postedBid, postedAsk)

def compute (bot : MarketMakerBot) (agg : Aggression) (snap : MarketSnapshot) :
    BookProg MarketMakerBot := do
  cancelIfSet bot.bidOrderId
  cancelIfSet bot.askOrderId
  let (postedBid, postedAsk) := bot.quotes snap
  let currentQuoteVol := agg.scaled bot.quoteVolume
  let bidOrderId ← addLimit true postedBid currentQuoteVol botMM
  let askOrderId ← addLimit false postedAsk currentQuoteVol botMM
  return { bot with bidOrderId, askOrderId, postedBid, postedAsk }

/-- Inventory moves when the bot is the maker; it is clamped either way. -/
def onFill (bot : MarketMakerBot) (f : MatchedFill) : MarketMakerBot :=
  let inventory := if f.makerParticipant = botMM then
      bot.inventory + (if f.takerIsBuy then -f.volume else f.volume)
    else bot.inventory
  { bot with inventory := max (-500) (min 500 inventory) }

end MarketMakerBot

/-! ## Bot 2: momentum -/

structure MomentumBot where
  emaFastFp : Int64
  emaSlowFp : Int64
  initialized : Bool
  position : Int64

namespace MomentumBot

def init : MomentumBot := ⟨0, 0, false, 0⟩

/-- The fills of its market orders are not read: they come back, if at all,
through `on_fill`. -/
def compute (bot : MomentumBot) (agg : Aggression) (threshold : Int64) (snap : MarketSnapshot) :
    BookProg MomentumBot := do
  if bot.initialized = false then
    return { bot with emaFastFp := snap.midFp, emaSlowFp := snap.midFp, initialized := true }
  let emaFastFp := (bot.emaFastFp * 95 + snap.midFp * 5) / 100
  let emaSlowFp := (bot.emaSlowFp * 99 + snap.midFp * 1) / 100
  let signalFp := emaFastFp - emaSlowFp
  let threshold := if snap.isNewsEvent then threshold / 2 else threshold
  if threshold < signalFp ∧ bot.position < 200 then
    let _ ← marketOrder true (agg.scaled 30) botMOM
  if signalFp < -threshold ∧ -200 < bot.position then
    let _ ← marketOrder false (agg.scaled 30) botMOM
  -- gradual unwind when the signal is neutral
  if abs64 signalFp < threshold / 2 ∧ bot.position ≠ 0 then
    let unwindVol := min 10 (abs64 bot.position)
    let _ ← marketOrder (¬ 0 < bot.position) unwindVol botMOM
  return { bot with emaFastFp, emaSlowFp }

def onFill (bot : MomentumBot) (f : MatchedFill) : MomentumBot :=
  if f.takerParticipant = botMOM then
    { bot with position := bot.position + (if f.takerIsBuy then f.volume else -f.volume) }
  else bot

end MomentumBot

/-! ## Bot 3: mean reversion -/

def maxMROrders : Nat := 8

structure MeanReversionBot where
  bidRing : OrderRing maxMROrders
  askRing : OrderRing maxMROrders

namespace MeanReversionBot

def init : MeanReversionBot := ⟨OrderRing.empty, OrderRing.empty⟩

def compute (bot : MeanReversionBot) (agg : Aggression) (snap : MarketSnapshot) :
    BookProg MeanReversionBot := do
  let deviationFp := snap.midFp - snap.fairValueFp
  let volume := agg.scaled 80
  let mut bot := bot
  if fiveCents < deviationFp then
    let refBid := if 0 < snap.bidFp then snap.bidFp else snap.fairValueFp
    let newId ← addLimit false (refBid - oneCent) volume botMR
    let (evicted, askRing) := bot.askRing.push newId
    bot := { bot with askRing }
    cancelIfSet evicted
  if deviationFp < -fiveCents then
    let refAsk := if snap.askFp < Int64.maxValue then snap.askFp else snap.fairValueFp
    let newId ← addLimit true (refAsk + oneCent) volume botMR
    let (evicted, bidRing) := bot.bidRing.push newId
    bot := { bot with bidRing }
    cancelIfSet evicted
  return bot

end MeanReversionBot

/-! ## Bot 4: the noise trader -/

def maxNoiseOrders : Nat := 6

structure NoiseTraderBot where
  rng : UInt64
  orderRing : OrderRing maxNoiseOrders

namespace NoiseTraderBot

def init : NoiseTraderBot := ⟨0xDEADBEEFCAFEBABE, OrderRing.empty⟩

def xorshift (rng : UInt64) : UInt64 :=
  let rng := rng ^^^ (rng <<< 13)
  let rng := rng ^^^ (rng >>> 7)
  rng ^^^ (rng <<< 17)

def compute (bot : NoiseTraderBot) (agg : Aggression) (snap : MarketSnapshot) :
    BookProg NoiseTraderBot := do
  let r := xorshift bot.rng
  let bot := { bot with rng := r }
  if r % 5 ≠ 0 then
    return bot
  let offsetFp := oneCent * ((r >>> 8) % 5).toInt64
  let volume := agg.scaled ((10 : Int64) + ((r >>> 16) % 30).toInt64)
  let newId ← if r &&& 1 ≠ 0 then
      addLimit true ((if 0 < snap.bidFp then snap.bidFp else snap.fairValueFp) - offsetFp)
        volume botNOISE
    else
      addLimit false ((if snap.askFp < Int64.maxValue then snap.askFp else snap.fairValueFp) +
        offsetFp) volume botNOISE
  let (evicted, orderRing) := bot.orderRing.push newId
  cancelIfSet evicted
  return { bot with orderRing }

end NoiseTraderBot

/-! ## Bot 5: the sniper -/

namespace SniperBot

/-- The volume of a sweep against a quote of `quoteFp`. -/
def sweepVolume (agg : Aggression) (snap : MarketSnapshot) (quoteFp : Int64) : Int64 :=
  let vol := if 0 < quoteFp then agg.scaled 100 else 0
  if snap.isNewsEvent then vol * 2 else vol

def compute (agg : Aggression) (snap : MarketSnapshot) : BookProg Unit := do
  if oneCent < snap.fairValueFp - snap.askFp then
    let vol := sweepVolume agg snap snap.askFp
    if 0 < vol then
      let _ ← marketOrder true vol botSNIPER
  if oneCent < snap.bidFp - snap.fairValueFp then
    let vol := sweepVolume agg snap snap.bidFp
    if 0 < vol then
      let _ ← marketOrder false vol botSNIPER

end SniperBot

/-! ## The fleet -/

structure BotFleet where
  mm : MarketMakerBot
  mom : MomentumBot
  mr : MeanReversionBot
  noise : NoiseTraderBot

namespace BotFleet

def init : BotFleet :=
  ⟨MarketMakerBot.init, MomentumBot.init, MeanReversionBot.init, NoiseTraderBot.init⟩

def step (bots : BotFleet) (cfg : BotConfig) (snap : MarketSnapshot) : BookProg BotFleet := do
  let mm ← if cfg.mm.active then bots.mm.compute cfg.mm snap else pure bots.mm
  let mom ← if cfg.mom.active then bots.mom.compute cfg.mom cfg.threshold snap else pure bots.mom
  let mr ← if cfg.mr.active then bots.mr.compute cfg.mr snap else pure bots.mr
  let noise ← if cfg.noise.active then bots.noise.compute cfg.noise snap else pure bots.noise
  if cfg.sniper.active then
    SniperBot.compute cfg.sniper snap
  return ⟨mm, mom, mr, noise⟩

/-- The mean-reversion bot, the noise trader and the sniper do not track fills. -/
def distributeFills (bots : BotFleet) (fills : List MatchedFill) : BotFleet :=
  fills.foldl (fun bots f => { bots with mm := bots.mm.onFill f, mom := bots.mom.onFill f }) bots

end BotFleet

/-! ## In whose name the bots trade -/

section Names

variable {who : ParticipantID → Prop}

theorem MarketMakerBot.compute_by (hwho : who botMM) (bot : MarketMakerBot) (agg : Aggression)
    (snap : MarketSnapshot) : (bot.compute agg snap).All (BookOp.By who) := by
  unfold MarketMakerBot.compute
  refine Prog.all_bind all_cancelIfSet fun _ => Prog.all_bind all_cancelIfSet fun _ => ?_
  refine Prog.all_bind (all_addLimit hwho) fun _ => ?_
  exact Prog.all_bind (all_addLimit hwho) fun _ => trivial

theorem MomentumBot.compute_by (hwho : who botMOM) (bot : MomentumBot) (agg : Aggression)
    (threshold : Int64) (snap : MarketSnapshot) :
    (bot.compute agg threshold snap).All (BookOp.By who) := by
  unfold MomentumBot.compute
  split
  · trivial
  · refine Prog.all_when (a := []) (all_marketOrder hwho) fun _ => ?_
    refine Prog.all_when (a := []) (all_marketOrder hwho) fun _ => ?_
    exact Prog.all_when (a := []) (all_marketOrder hwho) fun _ => trivial

theorem MeanReversionBot.compute_by (hwho : who botMR) (bot : MeanReversionBot)
    (agg : Aggression) (snap : MarketSnapshot) :
    (bot.compute agg snap).All (BookOp.By who) := by
  unfold MeanReversionBot.compute
  refine Prog.all_ite (Prog.all_bind (all_addLimit hwho) fun _ =>
    Prog.all_bind all_cancelIfSet fun _ => ?_) ?_
  · exact Prog.all_ite (Prog.all_bind (all_addLimit hwho) fun _ =>
      Prog.all_bind all_cancelIfSet fun _ => trivial) trivial
  · exact Prog.all_ite (Prog.all_bind (all_addLimit hwho) fun _ =>
      Prog.all_bind all_cancelIfSet fun _ => trivial) trivial

theorem NoiseTraderBot.compute_by (hwho : who botNOISE) (bot : NoiseTraderBot)
    (agg : Aggression) (snap : MarketSnapshot) :
    (bot.compute agg snap).All (BookOp.By who) := by
  unfold NoiseTraderBot.compute
  refine Prog.all_ite trivial (Prog.all_ite ?_ ?_)
  · exact Prog.all_bind (all_addLimit hwho) fun _ =>
      Prog.all_bind all_cancelIfSet fun _ => trivial
  · exact Prog.all_bind (all_addLimit hwho) fun _ =>
      Prog.all_bind all_cancelIfSet fun _ => trivial

theorem SniperBot.compute_by (hwho : who botSNIPER) (agg : Aggression) (snap : MarketSnapshot) :
    (SniperBot.compute agg snap).All (BookOp.By who) := by
  have hsweep : ∀ {isBuy : Bool} {vol : Int64} {k : BookProg Unit},
      k.All (BookOp.By who) → Prog.All (BookOp.By who) (if 0 < vol then do
        let _ ← marketOrder isBuy vol botSNIPER
        k
      else k) :=
    fun hk => Prog.all_when (a := []) (all_marketOrder hwho) fun _ => hk
  unfold SniperBot.compute
  refine Prog.all_ite (hsweep ?_) ?_
  · exact Prog.all_ite (hsweep trivial) trivial
  · exact Prog.all_ite (hsweep trivial) trivial

end Names

theorem BotFleet.step_by (bots : BotFleet) (cfg : BotConfig) (snap : MarketSnapshot) :
    (bots.step cfg snap).All (BookOp.By (· ≠ contestant)) := by
  unfold BotFleet.step
  refine Prog.all_when (MarketMakerBot.compute_by (by decide) ..) fun _ => ?_
  refine Prog.all_when (MomentumBot.compute_by (by decide) ..) fun _ => ?_
  refine Prog.all_when (MeanReversionBot.compute_by (by decide) ..) fun _ => ?_
  refine Prog.all_when (NoiseTraderBot.compute_by (by decide) ..) fun _ => ?_
  exact Prog.all_when (a := ()) (SniperBot.compute_by (by decide) ..) fun _ => trivial

end VidhiArena.GameMaster
