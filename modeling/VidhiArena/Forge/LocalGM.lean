import Mathlib.Algebra.Order.Group.Unbundled.Int
import Mathlib.Data.List.Sort
import VidhiArena.Foundation.Faulting
import VidhiArena.Foundation.OrderedMap
import VidhiArena.Foundation.Sweeping

/-!
# The Python Game Master

`SimpleLOB` and the processing of the contestant's orders in `forge/local_gm.py`. Prices are
whole ticks, so `_round` is the identity, and cash is in ticks; volumes are any integers. A
`dict` is the list of its entries in insertion order.

A limit order whose price reaches the snapshot that was taken before the contestant ran is
executed as a market order. The bots are whatever calls of the book.
-/

namespace VidhiArena.Forge.LocalGM

open Foundation OrderedMap

inductive Side where
  | buy
  | sell
  deriving DecidableEq

/-- The side that a market order takes from. -/
def Side.other : Side → Side
  | buy => sell
  | sell => buy

theorem Side.eq_other {s side : Side} (h : s ≠ side) : s = side.other := by
  cases s <;> cases side <;> first | rfl | exact absurd rfl h

/-- price → volume -/
structure PriceMap where
  entries : List (Int × Int)
  nodup : (keys entries).Nodup

namespace PriceMap

def empty : PriceMap := ⟨[], List.nodup_nil⟩

/-- `book[p]` -/
def volume (book : PriceMap) (p : Int) : Int := (find book.entries p).getD 0

/-- `book[p] = volume` -/
def set (book : PriceMap) (p volume : Int) : PriceMap where
  entries := modify (push book.entries p 0) p fun _ => volume
  nodup := by
    rw [keys_modify, keys_push]
    split
    · exact book.nodup
    · rename_i hfresh
      rw [← List.concat_eq_append]
      exact book.nodup.concat hfresh

/-- `del book[p]` -/
def delete (book : PriceMap) (p : Int) : PriceMap where
  entries := erase book.entries p
  nodup := by
    rw [keys_erase]
    exact book.nodup.filter _

end PriceMap

structure SimpleLOB where
  bids : PriceMap
  asks : PriceMap
  lastTradePrice : Int
  lastTradeVolume : Int

/-- An entry of `fills`. -/
structure Fill where
  price : Int
  volume : Int
  deriving DecidableEq

namespace SimpleLOB

def new : SimpleLOB := ⟨.empty, .empty, 0, 0⟩

def book (lob : SimpleLOB) : Side → PriceMap
  | .buy => lob.bids
  | .sell => lob.asks

def setBook (lob : SimpleLOB) (side : Side) (book : PriceMap) : SimpleLOB :=
  match side with
  | .buy => { lob with bids := book }
  | .sell => { lob with asks := book }

def addOrder (lob : SimpleLOB) (side : Side) (price volume : Int) : SimpleLOB :=
  lob.setBook side ((lob.book side).set price ((lob.book side).volume price + volume))

/-- `max(self.bids.keys()) if self.bids else 0.0` -/
def bestBid (lob : SimpleLOB) : Int := (keys lob.bids.entries).max?.getD 0

/-- `none` is infinity. -/
def bestAsk (lob : SimpleLOB) : Option Int := (keys lob.asks.entries).min?

/-- The prices that a market order goes through. -/
def sortedPrices (lob : SimpleLOB) : Side → List Int
  | .buy => (keys lob.asks.entries).insertionSort (· ≤ ·)
  | .sell => (keys lob.bids.entries).insertionSort (· ≥ ·)

/-- What the loop of `market_order` does to a level and to the last trade. -/
def fillLevel (lob : SimpleLOB) (side : Side) (p filled : Int) : SimpleLOB :=
  let book := lob.book side
  let avail := book.volume p - filled
  { lob.setBook side (if avail ≤ 0 then book.delete p else book.set p avail) with
    lastTradePrice := p
    lastTradeVolume := filled }

/-- The loop of `market_order`. -/
def takeLevels (side : Side) : List Int → Int → SimpleLOB → List Fill × SimpleLOB
  | [], _, lob => ([], lob)
  | p :: prices, remaining, lob =>
      if remaining ≤ 0 then ([], lob)
      else
        let filled := min ((lob.book side.other).volume p) remaining
        let (fills, lob) :=
          takeLevels side prices (remaining - filled) (lob.fillLevel side.other p filled)
        (⟨p, filled⟩ :: fills, lob)

def marketOrder (lob : SimpleLOB) (side : Side) (volume : Int) : List Fill × SimpleLOB :=
  takeLevels side (lob.sortedPrices side) volume lob

end SimpleLOB

namespace PriceMap

theorem volume_set (book : PriceMap) (p q volume : Int) :
    (book.set p volume).volume q = if p = q then volume else book.volume q := by
  unfold PriceMap.volume set
  rw [find_modify, find_push]
  split
  · rw [Option.map_some, Option.getD_some]
  · rfl

theorem volume_delete (book : PriceMap) (p q : Int) :
    (book.delete p).volume q = if p = q then 0 else book.volume q := by
  unfold PriceMap.volume delete
  rw [find_erase]
  split
  · rfl
  · rfl

end PriceMap

namespace SimpleLOB

/-- The levels that a market order goes through, with their volumes. -/
def levels (lob : SimpleLOB) (side : Side) : List (Int × Int) :=
  (lob.sortedPrices side).map fun p => (p, (lob.book side.other).volume p)

@[simp] theorem book_setBook (lob : SimpleLOB) (side : Side) (book : PriceMap) :
    (lob.setBook side book).book side = book := by
  cases side <;> rfl

theorem book_fillLevel (lob : SimpleLOB) (side : Side) (p filled : Int) :
    (lob.fillLevel side p filled).book side =
      if (lob.book side).volume p - filled ≤ 0 then (lob.book side).delete p
      else (lob.book side).set p ((lob.book side).volume p - filled) := by
  cases side <;> rfl

theorem volume_fillLevel {p q : Int} (hne : p ≠ q) (lob : SimpleLOB) (side : Side) (filled : Int) :
    ((lob.fillLevel side p filled).book side).volume q = (lob.book side).volume q := by
  rw [book_fillLevel]
  split
  · rw [PriceMap.volume_delete, if_neg hne]
  · rw [PriceMap.volume_set, if_neg hne]

theorem takeLevels_fills (side : Side) : ∀ {prices : List Int}, prices.Nodup →
    ∀ (remaining : Int) (lob : SimpleLOB), (takeLevels side prices remaining lob).1 =
      (sweep (prices.map fun p => (p, (lob.book side.other).volume p)) remaining).map
        fun x => ⟨x.1, x.2⟩
  | [], _, _, _ => rfl
  | p :: prices, hnodup, remaining, lob => by
      obtain ⟨hfresh, hrest⟩ := List.nodup_cons.mp hnodup
      rw [takeLevels, List.map_cons, sweep]
      split
      · rfl
      · -- the levels behind keep their volumes
        have hkeep : ∀ filled, (prices.map fun q =>
              (q, ((lob.fillLevel side.other p filled).book side.other).volume q)) =
            prices.map fun q => (q, (lob.book side.other).volume q) := by
          refine fun filled => List.map_congr_left fun q hq => ?_
          have hne : p ≠ q := fun e => hfresh (e ▸ hq)
          rw [volume_fillLevel hne]
        simp only [List.map_cons, takeLevels_fills side hrest, hkeep]

/-- The fills of a market order are a sweep through the levels of the other side. -/
theorem marketOrder_fills (lob : SimpleLOB) (side : Side) (volume : Int) :
    (lob.marketOrder side volume).1 =
      (sweep (lob.levels side) volume).map fun x => ⟨x.1, x.2⟩ := by
  refine takeLevels_fills side ?_ volume lob
  cases side with
  | buy => exact (List.perm_insertionSort _ _).nodup_iff.mpr lob.asks.nodup
  | sell => exact (List.perm_insertionSort _ _).nodup_iff.mpr lob.bids.nodup

end SimpleLOB

/-- The prices of `snapshot` that the processing of orders looks at. -/
structure Snapshot where
  bidPrice : Int
  askPrice : Int
  deriving DecidableEq

def SimpleLOB.snapshot (lob : SimpleLOB) : Snapshot where
  bidPrice := lob.bestBid
  askPrice := lob.bestAsk.getD (lob.bestBid + 1)

/-! ## The contestant's orders -/

def POSITION_LIMIT : Int := 1000

/-- An entry of `orders.pending`. -/
inductive ContestantOrder where
  | limit (side : Side) (price volume : Int)
  | market (side : Side) (volume : Int)
  deriving DecidableEq

namespace ContestantOrder

def side : ContestantOrder → Side
  | limit side _ _ => side
  | market side _ => side

def volume : ContestantOrder → Int
  | limit _ _ volume => volume
  | market _ volume => volume

/-- A market order, or a limit order that reaches the snapshot. -/
def Marketable (snap : Snapshot) : ContestantOrder → Prop
  | market _ _ => True
  | limit .buy price _ => snap.askPrice ≤ price
  | limit .sell price _ => price ≤ snap.bidPrice

instance (snap : Snapshot) : ∀ o, Decidable (Marketable snap o)
  | market _ _ => inferInstanceAs (Decidable True)
  | limit .buy _ _ => inferInstanceAs (Decidable (_ ≤ _))
  | limit .sell _ _ => inferInstanceAs (Decidable (_ ≤ _))

end ContestantOrder

/-- What the loop over the orders works on. -/
structure Desk where
  lob : SimpleLOB
  position : Int
  cash : Int
  totalFills : Nat
  fillCount : Nat

def Desk.new : Desk := ⟨.new, 0, 10000000, 0, 0⟩

namespace Desk

/-- `continue`: the position is at the limit, on the side of the order. -/
def HeldBack (d : Desk) (side : Side) : Prop :=
  POSITION_LIMIT ≤ |d.position| ∧
    (0 < d.position ∧ side = .buy ∨ d.position < 0 ∧ side = .sell)

instance (d : Desk) (side : Side) : Decidable (d.HeldBack side) :=
  inferInstanceAs (Decidable (_ ∧ _))

/-- The loop over the fills of an order. -/
def account (side : Side) (d : Desk) (f : Fill) : Desk :=
  match side with
  | .buy => { d with
      cash := d.cash - f.price * f.volume
      position := d.position + f.volume
      totalFills := d.totalFills + 1
      fillCount := d.fillCount + 1 }
  | .sell => { d with
      cash := d.cash + f.price * f.volume
      position := d.position - f.volume
      totalFills := d.totalFills + 1
      fillCount := d.fillCount + 1 }

/-- One pass of the loop over the orders: the fills of the order, and the desk. -/
def process (snap : Snapshot) (d : Desk) (o : ContestantOrder) : List Fill × Desk :=
  if d.HeldBack o.side then ([], d)
  else if o.Marketable snap then
    let (fills, lob) := d.lob.marketOrder o.side o.volume
    (fills, fills.foldl (account o.side) { d with lob := lob })
  else
    match o with
    | .limit side price volume => ([], { d with lob := d.lob.addOrder side price volume })
    | .market _ _ => ([], d)

def processAll (snap : Snapshot) (d : Desk) (orders : List ContestantOrder) : Desk :=
  orders.foldl (fun d o => (d.process snap o).2) d

end Desk

end VidhiArena.Forge.LocalGM
