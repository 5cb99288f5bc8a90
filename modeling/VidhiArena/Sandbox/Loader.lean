import Mathlib.Logic.Function.Basic
import VidhiArena.GameMaster.Rendezvous

/-!
# The loader's side of the rendezvous page

`game-master/loader.cpp`, the body of the tick loop. The page is taken word by
word: the 64 `int64_t` of the market block under the slot numbers of
`rendezvous.hpp`, the 64 of the order block, and the two sequence words.

For a tick the loader copies words of the page into `market_data`
(`PackOp`), calls `on_tick`, and copies `order_out` back (`answer`). Every load
and every store is one action, since the Game Master may come in between; `pack`
is what the copies amount to when it does not.
-/

namespace VidhiArena.Sandbox

open VidhiArena.GameMaster

/-- An array of 64 `int64_t`. -/
abbrev Slots := Nat → Int64

/-! ## The page -/

structure Page where
  gmSequence : UInt64
  market : Slots
  sbSequence : UInt64
  /-- `order_count` in slot 0, the orders in slots 1 to 16, the persistent state in
  slots 48 to 63 -/
  zone : Slots

/-- `SharedMem{}`. -/
def Page.zero : Page := ⟨0, fun _ => 0, 0, fun _ => 0⟩

inductive Store where
  | gmSequence (seq : UInt64)
  | market (slot : Nat) (v : Int64)
  | sbSequence (seq : UInt64)
  | zone (slot : Nat) (v : Int64)
deriving DecidableEq

namespace Page

def store (page : Page) : Store → Page
  | .gmSequence seq => { page with gmSequence := seq }
  | .market slot v => { page with market := Function.update page.market slot v }
  | .sbSequence seq => { page with sbSequence := seq }
  | .zone slot v => { page with zone := Function.update page.zone slot v }

/-- `order_count`. -/
def orderCount (page : Page) : Int64 := page.zone 0

/-- Word `k` of order `i`. -/
def orderWord (page : Page) (i k : Nat) : Int64 := page.zone (1 + 4 * i + k)

theorem orderCount_store (page : Page) (slot : Nat) (v : Int64) :
    (page.store (.zone slot v)).orderCount = if slot = 0 then v else page.orderCount := by
  refine (Function.update_apply page.zone slot v 0).trans ?_
  exact if_congr eq_comm rfl rfl

/-- `fill_count`. -/
def fillCount (page : Page) : Int64 := page.market 33

end Page

/-! ## Packing `market_data` -/

inductive PackOp where
  /-- `market_data[dst] = …`, from slot `src` of the market block -/
  | copy (dst src : Nat)
  /-- the test of the fill loop, `i < sm->fill_count && i < 4` -/
  | fills (i : Nat)
  /-- word `i` of `memcpy(market_data + 48, sm->persistent_state, …)` -/
  | restore (i : Nat)
deriving DecidableEq

namespace PackOp

/-- Price, volume and side of fill `i`. -/
def fillCopies (i : Nat) : List PackOp :=
  [copy (12 + i * 6) (35 + i * 4), copy (14 + i * 6) (36 + i * 4), copy (16 + i * 6) (37 + i * 4)]

/-- One action: what it leaves to do before the rest, and the array. -/
def exec (page : Page) (md : Slots) : PackOp → List PackOp × Slots
  | copy dst src => ([], Function.update md dst (page.market src))
  | fills i =>
      (if Int64.ofNat i < page.fillCount ∧ i < orderSlots then fillCopies i ++ [fills (i + 1)]
        else [], md)
  | restore i => ([], Function.update md (48 + i) (page.zone (48 + i)))

/-- The first twelve slots: quotes, best volumes, last trade, signal and account. -/
def quoteOps : List PackOp :=
  [copy 0 0, copy 1 1, copy 2 2, copy 3 3, copy 4 9, copy 5 19, copy 6 4, copy 7 6,
    copy 8 29, copy 9 30, copy 10 31, copy 11 33]

/-- The volumes of the five best levels on each side. -/
def depthOps : List PackOp :=
  (List.range depthLevels).flatMap fun i => [copy (32 + i) (9 + 2 * i), copy (37 + i) (19 + 2 * i)]

def stateOps : List PackOp := (List.range 16).map restore

/-- Everything the loader does before it calls `on_tick`. -/
def all : List PackOp := quoteOps ++ [fills 0] ++ depthOps ++ stateOps

end PackOp

/-- The array when nobody writes to the page meanwhile; what was in it before stays
in the slots that are not written. -/
def pack (page : Page) (md : Slots) : Slots :=
  let fillOps := ((List.range orderSlots).filter fun i => Int64.ofNat i < page.fillCount).flatMap
    PackOp.fillCopies
  (PackOp.quoteOps ++ fillOps ++ PackOp.depthOps ++ PackOp.stateOps).foldl
    (fun md op => (op.exec page md).2) md

/-! ## The answer -/

/-- The orders in `order_out`; a slot of type 0 is skipped. -/
def ordersIn (out : Slots) : List OrderWord :=
  ((List.range orderSlots).map fun i =>
    (⟨out (1 + i * 4), out (1 + i * 4 + 1), out (1 + i * 4 + 2), out (1 + i * 4 + 3)⟩ :
      OrderWord)).filter fun w => w.type ≠ 0

/-- The stores of the orders from place `k` on. -/
def orderStores : Nat → List OrderWord → List (Nat × Int64)
  | _, [] => []
  | k, w :: ws =>
      [(1 + 4 * k, w.type), (1 + 4 * k + 1, w.priceFp), (1 + 4 * k + 2, w.volume),
        (1 + 4 * k + 3, w.orderId)] ++ orderStores (k + 1) ws

/-- The stores to the order block after `on_tick`: the persistent state,
`order_count = 0`, the orders one after the other, and their number. -/
def zoneStores (out : Slots) : List (Nat × Int64) :=
  (List.range 16).map (fun i => (48 + i, out (48 + i))) ++ [(0, 0)] ++
    orderStores 0 (ordersIn out) ++ [(0, Int64.ofNat (ordersIn out).length)]

/-- The remaining stores of an answer: those to the order block, then `sandbox_signal`. -/
def answer (seq : UInt64) (zs : List (Nat × Int64)) : List Store :=
  zs.map (fun z => .zone z.1 z.2) ++ [.sbSequence seq]

/-! ## What an answer leaves in the order block -/

namespace Page

/-- The order block holds the orders `ws` and their number. -/
def Holds (page : Page) (ws : List OrderWord) : Prop :=
  page.orderCount = Int64.ofNat ws.length ∧ ∀ (i : Nat) (w : OrderWord), ws[i]? = some w →
    w = ⟨page.orderWord i 0, page.orderWord i 1, page.orderWord i 2, page.orderWord i 3⟩

/-- The order block after some stores. -/
def written (zone : Slots) (zs : List (Nat × Int64)) : Slots :=
  zs.foldl (fun zone z => Function.update zone z.1 z.2) zone

theorem written_append (zone : Slots) (zs zs' : List (Nat × Int64)) :
    written zone (zs ++ zs') = written (written zone zs) zs' := List.foldl_append

/-- The stores of the orders from place `k` on leave the slots before alone. -/
theorem written_orderStores_lt {slot : Nat} (ws : List OrderWord) : ∀ (k : Nat) (zone : Slots),
    slot < 1 + 4 * k → written zone (orderStores k ws) slot = zone slot := by
  induction ws with
  | nil => exact fun _ _ _ => rfl
  | cons w ws ih =>
      intro k zone hlt
      rw [orderStores, written_append, ih (k + 1) _ (by omega)]
      simp only [written, List.foldl_cons, List.foldl_nil]
      rw [Function.update_of_ne (by omega), Function.update_of_ne (by omega),
        Function.update_of_ne (by omega), Function.update_of_ne (by omega)]

theorem written_orderStores (ws : List OrderWord) : ∀ (k : Nat) (zone : Slots) (i : Nat)
    (w : OrderWord), ws[i]? = some w → ∀ zone', zone' = written zone (orderStores k ws) →
    w = ⟨zone' (1 + 4 * (k + i)), zone' (1 + 4 * (k + i) + 1), zone' (1 + 4 * (k + i) + 2),
      zone' (1 + 4 * (k + i) + 3)⟩ := by
  induction ws with
  | nil => exact fun _ _ _ _ h => nomatch h
  | cons w ws ih =>
      rintro k zone i w' hw zone' rfl
      rw [orderStores, written_append]
      cases i with
      | zero =>
          cases hw
          simp only [Nat.add_zero]
          rw [written_orderStores_lt _ _ _ (by omega), written_orderStores_lt _ _ _ (by omega),
            written_orderStores_lt _ _ _ (by omega), written_orderStores_lt _ _ _ (by omega)]
          simp [written]
      | succ i =>
          rw [show k + (i + 1) = k + 1 + i by omega]
          exact ih (k + 1) _ i w' hw _ rfl

/-- An answer arrives whole when nobody writes to the order block meanwhile. -/
theorem holds_zoneStores (page : Page) (out : Slots) :
    Holds { page with zone := written page.zone (zoneStores out) } (ordersIn out) := by
  unfold zoneStores
  rw [written_append]
  refine ⟨by simp [orderCount, written], fun i w hw => ?_⟩
  rw [written_append]
  have hwords := written_orderStores (ordersIn out) 0 (written page.zone
    ((List.range 16).map (fun i => (48 + i, out (48 + i))) ++ [(0, 0)])) i w hw _ rfl
  rw [Nat.zero_add] at hwords
  simp only [orderWord, written, List.foldl_cons, List.foldl_nil] at hwords ⊢
  rw [Function.update_of_ne (by omega), Function.update_of_ne (by omega),
    Function.update_of_ne (by omega), Function.update_of_ne (by omega)]
  exact hwords

end Page

theorem ordersIn_length (out : Slots) : (ordersIn out).length ≤ orderSlots := by
  refine (List.length_filter_le _ _).trans ?_
  rw [List.length_map, List.length_range]

end VidhiArena.Sandbox
