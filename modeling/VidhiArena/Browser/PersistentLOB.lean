import Mathlib.Algebra.Group.Nat.Defs
import Mathlib.Data.List.Sort
import VidhiArena.Foundation.OrderedMap

/-!
# The order book of the browser engine

`class PersistentLOB` in `engine/simulation.worker.js`. Prices are whole ticks, so a
price is its own `_priceKey`; volumes are integers. A `Map` is the list of its entries
in insertion order. The participant ids are strings that the book never looks at: any
type `ρ`.

`_bestBid` and `_bestAsk` start as `-Infinity` and `Infinity`, here `none`; `BASE_PRICE` is
the parameter `base`. The trade history feeds a chart and is left out.
-/

namespace VidhiArena.Browser

open Foundation.OrderedMap

inductive Side where
  | buy
  | sell
deriving DecidableEq, Repr

/-- The side that a market order takes from. -/
def Side.other : Side → Side
  | buy => sell
  | sell => buy

def Side.before : Side → Int → Int → Prop
  | buy => (· > ·)
  | sell => (· < ·)

instance (side : Side) : DecidableRel side.before := by
  cases side <;> unfold Side.before <;> infer_instance

/-- `Math.max(...keys)` of the bids, `Math.min(...keys)` of the asks. -/
def Side.bestOf (side : Side) : List Int → Option Int
  | [] => none
  | key :: keys => some (keys.foldl (fun best key => if side.before key best then key else best) key)

/-- `key > this._bestBid`, `key < this._bestAsk`. -/
def Side.improves (side : Side) (key : Int) : Option Int → Prop
  | none => True
  | some best => side.before key best

instance (side : Side) (key : Int) : ∀ best, Decidable (side.improves key best)
  | none => inferInstanceAs (Decidable True)
  | some best => inferInstanceAs (Decidable (side.before key best))

structure Order (ρ : Type) where
  id : Nat
  participantId : ρ
  volume : Int
deriving DecidableEq

structure Level (ρ : Type) where
  volume : Int
  orders : List (Order ρ)
deriving DecidableEq

structure Fill (ρ : Type) where
  price : Int
  volume : Int
  participantId : ρ
  makerParticipantId : ρ
  side : Side
deriving DecidableEq

abbrev Levels (ρ : Type) := List (Int × Level ρ)

structure PersistentLOB (ρ : Type) where
  bids : Levels ρ
  asks : Levels ρ
  nextOrderId : Nat
  lastTradePrice : Int
  lastTradeVolume : Int
  _bestBid : Option Int
  _bestAsk : Option Int
deriving DecidableEq

namespace PersistentLOB

variable {ρ : Type}

def new (base : Int) : PersistentLOB ρ := ⟨[], [], 1, base, 0, none, none⟩

def book (lob : PersistentLOB ρ) : Side → Levels ρ
  | .buy => lob.bids
  | .sell => lob.asks

def setBook (lob : PersistentLOB ρ) (side : Side) (book : Levels ρ) : PersistentLOB ρ :=
  match side with
  | .buy => { lob with bids := book }
  | .sell => { lob with asks := book }

/-- `++` on a number that is a double: from `2^53` on it stays where it is. -/
def incr (n : Nat) : Nat := if n < 2 ^ 53 then n + 1 else n

def _rebuildBest (base : Int) (lob : PersistentLOB ρ) : PersistentLOB ρ :=
  { lob with
    _bestBid := if lob.bids.isEmpty then some (base - 1) else Side.buy.bestOf (keys lob.bids)
    _bestAsk := if lob.asks.isEmpty then some (base + 1) else Side.sell.bestOf (keys lob.asks) }

/-- The incremental update of `addOrder`. -/
def improveBest (side : Side) (key : Int) (lob : PersistentLOB ρ) : PersistentLOB ρ :=
  match side with
  | .buy => { lob with
      _bestBid := if Side.buy.improves key lob._bestBid then some key else lob._bestBid }
  | .sell => { lob with
      _bestAsk := if Side.sell.improves key lob._bestAsk then some key else lob._bestAsk }

def addOrder (lob : PersistentLOB ρ) (side : Side) (key volume : Int) (participantId : ρ) :
    Nat × PersistentLOB ρ :=
  let orderId := lob.nextOrderId
  let book := modify (push (lob.book side) key ⟨0, []⟩) key fun level =>
    ⟨level.volume + volume, level.orders ++ [⟨orderId, participantId, volume⟩]⟩
  (orderId, improveBest side key { lob.setBook side book with nextOrderId := incr orderId })

/-- The level is the cached best one. -/
def isBest (lob : PersistentLOB ρ) (side : Side) (key : Int) : Prop :=
  match side with
  | .buy => lob._bestBid = some key
  | .sell => lob._bestAsk = some key

instance (lob : PersistentLOB ρ) (side : Side) (key : Int) : Decidable (lob.isBest side key) := by
  cases side <;> unfold isBest <;> infer_instance

def cancelOrder (base : Int) (lob : PersistentLOB ρ) (side : Side) (key : Int) (orderId : Nat) :
    Bool × PersistentLOB ρ :=
  match find (lob.book side) key with
  | none => (false, lob)
  | some level =>
      match level.orders.find? (·.id = orderId) with
      | none => (false, lob)
      | some order =>
          let level : Level ρ :=
            ⟨level.volume - order.volume, level.orders.eraseP (·.id = orderId)⟩
          if level.volume ≤ 0 then
            let lob' := lob.setBook side (erase (lob.book side) key)
            (true, if lob.isBest side key then _rebuildBest base lob' else lob')
          else (true, lob.setBook side (modify (lob.book side) key fun _ => level))

/-- What `cancelOrder` can do: nothing, when the level does not hold the id; take the
last volume of a level, which goes; or take an order out of the level. -/
theorem cancelOrder_cases (base : Int) (lob : PersistentLOB ρ) (side : Side) (key : Int)
    (orderId : Nat) :
    (cancelOrder base lob side key orderId = (false, lob) ∧
      ∀ level, find (lob.book side) key = some level → ∀ o ∈ level.orders, o.id ≠ orderId) ∨
    ∃ level order, find (lob.book side) key = some level ∧
      level.orders.find? (·.id = orderId) = some order ∧
      (level.volume - order.volume ≤ 0 ∧
          cancelOrder base lob side key orderId =
            (true, if lob.isBest side key then
                _rebuildBest base (lob.setBook side (erase (lob.book side) key))
              else lob.setBook side (erase (lob.book side) key)) ∨
        ¬ level.volume - order.volume ≤ 0 ∧
          cancelOrder base lob side key orderId =
            (true, lob.setBook side (modify (lob.book side) key fun _ =>
              ⟨level.volume - order.volume, level.orders.eraseP (·.id = orderId)⟩))) := by
  cases hlevel : find (lob.book side) key with
  | none => exact Or.inl ⟨by simp only [cancelOrder, hlevel], fun _ h => by cases h⟩
  | some level =>
      cases horder : level.orders.find? (·.id = orderId) with
      | none =>
          refine Or.inl ⟨by simp only [cancelOrder, hlevel, horder], ?_⟩
          rintro _ ⟨⟩ o ho
          simpa using List.find?_eq_none.mp horder o ho
      | some order =>
          refine Or.inr ⟨level, order, rfl, horder, ?_⟩
          by_cases hgone : level.volume - order.volume ≤ 0
          · exact Or.inl ⟨hgone, by simp only [cancelOrder, hlevel, horder, if_pos hgone]⟩
          · exact Or.inr ⟨hgone, by simp only [cancelOrder, hlevel, horder, if_neg hgone]⟩

/-! ### Market orders -/

/-- The inner loop of `marketOrder`: the fills, what remains of the taker, and the level. -/
def takeOrders (side : Side) (participantId : ρ) (price : Int) :
    Int → Int → List (Order ρ) → List (Fill ρ) × Int × Level ρ
  | remaining, volume, [] => ([], remaining, ⟨volume, []⟩)
  | remaining, volume, order :: orders =>
      if 0 < remaining then
        let fillVol := min order.volume remaining
        let (fills, remaining', level) :=
          takeOrders side participantId price (remaining - fillVol) (volume - fillVol) orders
        (⟨price, fillVol, participantId, order.participantId, side⟩ :: fills, remaining',
          if order.volume - fillVol ≤ 0 then level
          else ⟨level.volume, { order with volume := order.volume - fillVol } :: level.orders⟩)
      else ([], remaining, ⟨volume, order :: orders⟩)

/-- The outer loop, over the sorted prices. Every price of the list is a key. -/
def takeLevels (base : Int) (side : Side) (participantId : ρ) :
    List Int → Int → PersistentLOB ρ → List (Fill ρ) × PersistentLOB ρ
  | [], _, lob => ([], lob)
  | price :: prices, remaining, lob =>
      if 0 < remaining then
        match find (lob.book side.other) price with
        | none => ([], lob)
        | some level =>
            let (fills, remaining, level) :=
              takeOrders side participantId price remaining level.volume level.orders
            let lob :=
              if level.volume ≤ 0 then
                _rebuildBest base (lob.setBook side.other (erase (lob.book side.other) price))
              else lob.setBook side.other (modify (lob.book side.other) price fun _ => level)
            let (fills', lob) := takeLevels base side participantId prices remaining lob
            (fills ++ fills', lob)
      else ([], lob)

def sortedPrices (lob : PersistentLOB ρ) : Side → List Int
  | .buy => (keys lob.asks).insertionSort (· ≤ ·)
  | .sell => (keys lob.bids).insertionSort (· ≥ ·)

/-- `lastTradePrice` and `lastTradeVolume` follow the fills. -/
def recordTrades (fills : List (Fill ρ)) (lob : PersistentLOB ρ) : PersistentLOB ρ :=
  match fills.getLast? with
  | none => lob
  | some fill => { lob with lastTradePrice := fill.price, lastTradeVolume := fill.volume }

def marketOrder (base : Int) (lob : PersistentLOB ρ) (side : Side) (volume : Int)
    (participantId : ρ) : List (Fill ρ) × PersistentLOB ρ :=
  let (fills, lob) := takeLevels base side participantId (lob.sortedPrices side) volume lob
  (fills, recordTrades fills lob)

/-! ### Quotes -/

def bestBid (base : Int) (lob : PersistentLOB ρ) : Option Int :=
  if lob.bids.isEmpty then some (base - 1) else lob._bestBid

def bestAsk (base : Int) (lob : PersistentLOB ρ) : Option Int :=
  if lob.asks.isEmpty then some (base + 1) else lob._bestAsk

end PersistentLOB

/-! ## Calls -/

/-- A call of one of the three operations. -/
inductive BookCall (ρ : Type) where
  | addOrder (side : Side) (key volume : Int) (participantId : ρ)
  | cancelOrder (side : Side) (key : Int) (orderId : Nat)
  | marketOrder (side : Side) (volume : Int) (participantId : ρ)
deriving DecidableEq

inductive Answer (ρ : Type) where
  | orderId (id : Nat)
  | cancelled (ok : Bool)
  | fills (fs : List (Fill ρ))
deriving DecidableEq

namespace PersistentLOB

variable {ρ : Type}

def apply (base : Int) (lob : PersistentLOB ρ) : BookCall ρ → Answer ρ × PersistentLOB ρ
  | .addOrder side key volume participantId =>
      let (id, lob) := lob.addOrder side key volume participantId
      (.orderId id, lob)
  | .cancelOrder side key orderId =>
      let (ok, lob) := cancelOrder base lob side key orderId
      (.cancelled ok, lob)
  | .marketOrder side volume participantId =>
      let (fs, lob) := marketOrder base lob side volume participantId
      (.fills fs, lob)

end PersistentLOB

end VidhiArena.Browser
