import Mathlib.Data.Rat.Defs
import VidhiArena.Sandbox.Loader

/-!
# The market view of a transpiled program

`backend/forge/transpiler.py` turns `state.field` into a read of the array that
`on_tick` is called with. Which slot that is stands in a table of the transpiler, and
in the two depth helpers of `forge.py`. The array itself is filled elsewhere, by
`loader.cpp` word by word, and by `sandbox_runner.cpp` not at all: it passes the market
block of the page.

`meaning` is what a contestant is told that the field holds, in terms of the page.
-/

namespace VidhiArena.Forge

open VidhiArena.GameMaster VidhiArena.Sandbox

/-! ## Numbers -/

/-- The values of a compiled program: a word of an array as it is, a word divided by
`1e6`, and tuples. The quotient is a double, of which no more is asked than that 0, 1 and
a million are told apart. -/
structure Numerals where
  Value : Type
  plain : Int64 → Value
  scaled : Int64 → Value
  tuple : List Value → Value
  tuple_injective : Function.Injective tuple
  scaled_zero_ne : scaled 0 ≠ scaled fixedPoint
  plain_zero_ne : plain 0 ≠ plain fixedPoint
  scaled_ne_plain : scaled fixedPoint ≠ plain fixedPoint

/-- Values with exact quotients. -/
inductive Exact where
  | number (q : ℚ)
  | tuple (vs : List Exact)

def Numerals.exact : Numerals where
  Value := Exact
  plain v := .number v.toInt
  scaled v := .number (v.toInt / 1000000)
  tuple := .tuple
  tuple_injective _ _ h := Exact.tuple.inj h
  scaled_zero_ne h := absurd (Exact.number.inj h) (by decide +kernel)
  plain_zero_ne h := absurd (Exact.number.inj h) (by decide +kernel)
  scaled_ne_plain h := absurd (Exact.number.inj h) (by decide +kernel)

/-! ## The transpiler's side -/

/-- The names that the transpiler accepts on `state` for the market: those of
`MARKET_DATA_SLOTS`, `bid_depth` and `ask_depth`. -/
inductive Field where
  | bidPrice
  | askPrice
  | midPrice
  | spread
  | lastTradePrice
  | lastTradeVolume
  | underlyingSignal
  | volatility
  | position
  | cash
  | pnl
  | fillCount
  | fillPrice (i : Fin orderSlots)
  | fillVolume (i : Fin orderSlots)
  | fillSide (i : Fin orderSlots)
  | bidDepth
  | askDepth
deriving DecidableEq

/-- What `_market_read` makes of a field. -/
inductive MarketRead where
  /-- `_md[slot] / 1000000.0` -/
  | quotient (slot : Nat)
  /-- `get_bid_depth(_md)` -/
  | getBidDepth
  /-- `get_ask_depth(_md)` -/
  | getAskDepth
deriving DecidableEq

/-- `_market_read`, with `MARKET_DATA_SLOTS`. -/
def marketRead : Field → MarketRead
  | .bidPrice => .quotient 0
  | .askPrice => .quotient 1
  | .midPrice => .quotient 2
  | .spread => .quotient 3
  | .lastTradePrice => .quotient 4
  | .lastTradeVolume => .quotient 5
  | .underlyingSignal => .quotient 6
  | .volatility => .quotient 7
  | .position => .quotient 29
  | .cash => .quotient 30
  | .pnl => .quotient 31
  | .fillCount => .quotient 33
  | .fillPrice i => .quotient (35 + 4 * i)
  | .fillVolume i => .quotient (36 + 4 * i)
  | .fillSide i => .quotient (37 + 4 * i)
  | .bidDepth => .getBidDepth
  | .askDepth => .getAskDepth

/-- The value of a read in a program that has been given `md`. -/
def MarketRead.eval (N : Numerals) (md : Slots) : MarketRead → N.Value
  | .quotient slot => N.scaled (md slot)
  | .getBidDepth => N.tuple ([32, 33, 34, 35, 36].map fun slot => N.plain (md slot))
  | .getAskDepth => N.tuple ([37, 38, 39, 40, 41].map fun slot => N.plain (md slot))

/-! ## The page's side -/

/-- The words of the page under the names of `SharedMem`. -/
def sharedMem (page : Page) : SharedMem where
  bidPriceFp := page.market 0
  askPriceFp := page.market 1
  midPriceFp := page.market 2
  spreadFp := page.market 3
  lastTradePriceFp := page.market 4
  lastTradeVolume := page.market 5
  underlyingSignalFp := page.market 6
  volatilityFp := page.market 7
  bidDepth i := ⟨page.market (8 + 2 * i), page.market (9 + 2 * i)⟩
  askDepth i := ⟨page.market (18 + 2 * i), page.market (19 + 2 * i)⟩
  contestantPosition := page.market 29
  contestantCashFp := page.market 30
  contestantPnlFp := page.market 31
  fillCount := page.fillCount
  fills i := ⟨page.market (34 + 4 * i), page.market (35 + 4 * i), page.market (36 + 4 * i),
    page.market (37 + 4 * i)⟩
  orderCount := page.orderCount
  orders i := ⟨page.orderWord i 0, page.orderWord i 1, page.orderWord i 2, page.orderWord i 3⟩

/-- What a field holds: prices, cash and profit in dollars, everything else as the
whole number it is, and the depth as the volumes from the best level on. -/
def meaning (N : Numerals) (sm : SharedMem) : Field → N.Value
  | .bidPrice => N.scaled sm.bidPriceFp
  | .askPrice => N.scaled sm.askPriceFp
  | .midPrice => N.scaled sm.midPriceFp
  | .spread => N.scaled sm.spreadFp
  | .lastTradePrice => N.scaled sm.lastTradePriceFp
  | .lastTradeVolume => N.plain sm.lastTradeVolume
  | .underlyingSignal => N.scaled sm.underlyingSignalFp
  | .volatility => N.scaled sm.volatilityFp
  | .position => N.plain sm.contestantPosition
  | .cash => N.scaled sm.contestantCashFp
  | .pnl => N.scaled sm.contestantPnlFp
  | .fillCount => N.plain sm.fillCount
  | .fillPrice i => N.scaled (sm.fills i).priceFp
  | .fillVolume i => N.plain (sm.fills i).volume
  | .fillSide i => N.plain (sm.fills i).side
  | .bidDepth => N.tuple ((List.finRange depthLevels).map fun i => N.plain (sm.bidDepth i).volume)
  | .askDepth => N.tuple ((List.finRange depthLevels).map fun i => N.plain (sm.askDepth i).volume)

/-! ## The two hosts -/

/-- Who calls the compiled function. -/
inductive Host where
  | loader
  | sandboxRunner
deriving DecidableEq

/-- The array `on_tick` is given for the snapshot `page`, after those of `history`. The
loader's array is zero at the start, and keeps what is not written. -/
def Host.marketData : Host → List Page → Page → Slots
  | loader, history, page => (history ++ [page]).foldl (fun md page => pack page md) fun _ => 0
  | sandboxRunner, _, page => page.market

/-- The field reads what it means, whatever the page holds. -/
def Agrees (N : Numerals) (host : Host) (f : Field) : Prop :=
  ∀ history page, (marketRead f).eval N (host.marketData history page) = meaning N (sharedMem page) f

/-- The fields that are kept in fixed point. -/
def Field.isFixedPoint : Field → Bool
  | bidPrice | askPrice | midPrice | spread | lastTradePrice | underlyingSignal | volatility
  | cash | pnl | fillPrice _ => true
  | lastTradeVolume | position | fillCount | fillVolume _ | fillSide _ | bidDepth | askDepth => false

def Field.isQuote : Field → Bool
  | bidPrice | askPrice | midPrice | spread | bidDepth | askDepth => true
  | _ => false

/-- The fields on which the table of the transpiler and the host agree. -/
def Host.serves : Host → Field → Bool
  | loader, f => f.isQuote
  | sandboxRunner, f => f.isFixedPoint

/-! ## What the loader writes where -/

/-- The slot of `market_data` that an action writes. -/
def target : PackOp → Option Nat
  | .copy dst _ => some dst
  | .fills _ => none
  | .restore i => some (48 + i)

/-- Some actions, with nobody else at the page. -/
def packAll (page : Page) (ops : List PackOp) (md : Slots) : Slots :=
  ops.foldl (fun md op => (op.exec page md).2) md

theorem packAll_append (page : Page) (ops ops' : List PackOp) (md : Slots) :
    packAll page (ops ++ ops') md = packAll page ops' (packAll page ops md) := List.foldl_append

theorem packAll_of_ne {page : Page} {slot : Nat} {ops : List PackOp} :
    ∀ {md : Slots}, (∀ op ∈ ops, target op ≠ some slot) → packAll page ops md slot = md slot := by
  induction ops with
  | nil => exact fun _ => rfl
  | cons op ops ih =>
      intro md h
      refine (ih fun op' hop => h op' (List.mem_cons_of_mem _ hop)).trans ?_
      have hne := h op List.mem_cons_self
      cases op with
      | copy dst src => exact Function.update_of_ne (fun heq => hne (congrArg some heq.symm)) ..
      | fills i => rfl
      | restore i => exact Function.update_of_ne (fun heq => hne (congrArg some heq.symm)) ..

theorem target_fillCopies {i : Nat} {op : PackOp} (h : op ∈ PackOp.fillCopies i) :
    ∃ slot, target op = some slot ∧ 12 ≤ slot := by
  simp only [PackOp.fillCopies, List.mem_cons, List.not_mem_nil, or_false] at h
  rcases h with rfl | rfl | rfl
  · exact ⟨_, rfl, Nat.le_add_right ..⟩
  · exact ⟨_, rfl, by omega⟩
  · exact ⟨_, rfl, by omega⟩

theorem target_stateOps {op : PackOp} (h : op ∈ PackOp.stateOps) :
    ∃ slot, target op = some slot ∧ 48 ≤ slot := by
  obtain ⟨i, -, rfl⟩ := List.mem_map.mp h
  exact ⟨_, rfl, Nat.le_add_right ..⟩

theorem target_depthOps {op : PackOp} (h : op ∈ PackOp.depthOps) :
    ∃ slot, target op = some slot ∧ 32 ≤ slot := by
  obtain ⟨i, -, hop⟩ := List.mem_flatMap.mp h
  simp only [List.mem_cons, List.not_mem_nil, or_false] at hop
  rcases hop with rfl | rfl
  · exact ⟨_, rfl, Nat.le_add_right ..⟩
  · exact ⟨_, rfl, by omega⟩

theorem target_ne {op : PackOp} {slot bound : Nat} (h : ∃ slot, target op = some slot ∧ bound ≤ slot)
    (hlt : slot < bound) : target op ≠ some slot := by
  obtain ⟨slot', htarget, hle⟩ := h
  intro heq
  have : slot' = slot := Option.some.inj (htarget.symm.trans heq)
  omega

theorem pack_quoteOps (page : Page) (md : Slots) {slot : Nat} (h : slot < 12) :
    pack page md slot = packAll page PackOp.quoteOps md slot := by
  change packAll page _ md slot = _
  rw [packAll_append, packAll_append, packAll_append]
  refine (packAll_of_ne fun op hop => ?_).trans ((packAll_of_ne fun op hop => ?_).trans
    (packAll_of_ne fun op hop => ?_))
  · exact target_ne (target_stateOps hop) (by omega)
  · exact target_ne (target_depthOps hop) (by omega)
  · obtain ⟨i, -, hop⟩ := List.mem_flatMap.mp hop
    exact target_ne (target_fillCopies hop) h

theorem pack_depthOps (page : Page) (md : Slots) : ∃ md', ∀ slot < 48,
    pack page md slot = packAll page PackOp.depthOps md' slot := by
  have hsplit : ∃ md', pack page md =
      packAll page PackOp.stateOps (packAll page PackOp.depthOps md') :=
    ⟨_, (packAll_append page _ PackOp.stateOps md).trans
      (congrArg (packAll page PackOp.stateOps) (packAll_append page _ PackOp.depthOps md))⟩
  obtain ⟨md', hpack⟩ := hsplit
  refine ⟨md', fun slot h => ?_⟩
  rw [hpack]
  exact packAll_of_ne fun op hop => target_ne (target_stateOps hop) h

theorem pack_bidDepth (page : Page) (md : Slots) :
    [32, 33, 34, 35, 36].map (pack page md) =
      (List.finRange depthLevels).map fun i => ((sharedMem page).bidDepth i).volume := by
  obtain ⟨md', hpack⟩ := pack_depthOps page md
  rw [List.map_congr_left fun slot hslot => hpack slot (by revert slot; decide)]
  rfl

theorem pack_askDepth (page : Page) (md : Slots) :
    [37, 38, 39, 40, 41].map (pack page md) =
      (List.finRange depthLevels).map fun i => ((sharedMem page).askDepth i).volume := by
  obtain ⟨md', hpack⟩ := pack_depthOps page md
  rw [List.map_congr_left fun slot hslot => hpack slot (by revert slot; decide)]
  rfl

/-! ## Agreement -/

/-- A page that holds a million in one word of the market block. -/
def unitPage (slot : Nat) : Page :=
  { Page.zero with market := Function.update (fun _ => 0) slot fixedPoint }

section Agreement

variable {N : Numerals} {f : Field} {slot word : Nat}

theorem not_agrees_loader {g : Int64 → N.Value} (hg : g 0 ≠ g fixedPoint)
    (hread : marketRead f = .quotient slot)
    (hmeaning : ∀ page, meaning N (sharedMem page) f = g (page.market word))
    (hunit : pack (unitPage word) (fun _ => 0) slot = 0)
    (hzero : pack Page.zero (fun _ => 0) slot = 0) : ¬ Agrees N .loader f := by
  intro h
  have hempty : ∀ page, pack page (fun _ => 0) slot = 0 → N.scaled 0 = g (page.market word) := by
    intro page hpack
    have hagree := h [] page
    rw [hread, hmeaning] at hagree
    exact (congrArg N.scaled hpack).symm.trans hagree
  have hword : (unitPage word).market word = fixedPoint := by simp [unitPage]
  exact hg ((hempty _ hzero).symm.trans ((hempty _ hunit).trans (congrArg g hword)))

theorem not_agrees_sandboxRunner (hread : marketRead f = .quotient word)
    (hmeaning : ∀ page, meaning N (sharedMem page) f = N.plain (page.market word)) :
    ¬ Agrees N .sandboxRunner f := by
  intro h
  have hagree := h [] (unitPage word)
  rw [hread, hmeaning] at hagree
  exact N.scaled_ne_plain (by simpa [MarketRead.eval, Host.marketData, unitPage] using hagree)

theorem agrees_loader_quote (hslot : slot < 12) (hread : marketRead f = .quotient slot)
    (hquote : ∀ page md, packAll page PackOp.quoteOps md slot = page.market slot)
    (hmeaning : ∀ page, meaning N (sharedMem page) f = N.scaled (page.market slot)) :
    Agrees N .loader f := by
  intro history page
  rw [hread, hmeaning]
  simp only [MarketRead.eval, Host.marketData, List.foldl_append, List.foldl_cons, List.foldl_nil]
  rw [pack_quoteOps _ _ hslot, hquote]

theorem agrees_loader_depth {slots : List Nat} {volumes : Page → List Int64}
    (hread : ∀ md, (marketRead f).eval N md = N.tuple ((slots.map md).map N.plain))
    (hpack : ∀ page md, slots.map (pack page md) = volumes page)
    (hmeaning : ∀ page, meaning N (sharedMem page) f = N.tuple ((volumes page).map N.plain)) :
    Agrees N .loader f := by
  intro history page
  rw [hread, hmeaning]
  simp only [Host.marketData, List.foldl_append, List.foldl_cons, List.foldl_nil]
  rw [hpack]

/-- The slots that the transpiler reads for the fills hold none of them. -/
theorem pack_unread : ∀ i : Fin orderSlots, ∀ k ∈ [35, 36, 37],
    pack (unitPage (k + 4 * i)) (fun _ => 0) (k + 4 * i) = 0 ∧
      pack Page.zero (fun _ => 0) (k + 4 * i) = 0 := by
  decide +kernel

theorem loader_agrees_iff : Agrees N .loader f ↔ Host.loader.serves f = true := by
  cases f with
  | bidPrice | askPrice | midPrice | spread =>
      exact iff_of_true (agrees_loader_quote (by decide) rfl (fun _ _ => rfl) fun _ => rfl) rfl
  | bidDepth => exact iff_of_true (agrees_loader_depth (fun _ => rfl) pack_bidDepth fun _ => rfl) rfl
  | askDepth => exact iff_of_true (agrees_loader_depth (fun _ => rfl) pack_askDepth fun _ => rfl) rfl
  | lastTradePrice | underlyingSignal | volatility | cash | pnl =>
      exact iff_of_false (not_agrees_loader N.scaled_zero_ne rfl (fun _ => rfl) (by decide +kernel)
        (by decide +kernel)) Bool.false_ne_true
  | lastTradeVolume | position | fillCount =>
      exact iff_of_false (not_agrees_loader N.plain_zero_ne rfl (fun _ => rfl) (by decide +kernel)
        (by decide +kernel)) Bool.false_ne_true
  | fillPrice i =>
      obtain ⟨hunit, hzero⟩ := pack_unread i 35 (by decide)
      exact iff_of_false (not_agrees_loader N.scaled_zero_ne rfl (fun _ => rfl) hunit hzero)
        Bool.false_ne_true
  | fillVolume i =>
      obtain ⟨hunit, hzero⟩ := pack_unread i 36 (by decide)
      exact iff_of_false (not_agrees_loader N.plain_zero_ne rfl (fun _ => rfl) hunit hzero)
        Bool.false_ne_true
  | fillSide i =>
      obtain ⟨hunit, hzero⟩ := pack_unread i 37 (by decide)
      exact iff_of_false (not_agrees_loader N.plain_zero_ne rfl (fun _ => rfl) hunit hzero)
        Bool.false_ne_true

theorem sandboxRunner_agrees_iff : Agrees N .sandboxRunner f ↔ Host.sandboxRunner.serves f = true := by
  cases f with
  | bidPrice | askPrice | midPrice | spread | lastTradePrice | underlyingSignal | volatility
  | cash | pnl | fillPrice => exact iff_of_true (fun _ _ => rfl) rfl
  | lastTradeVolume | position | fillCount | fillVolume | fillSide =>
      exact iff_of_false (not_agrees_sandboxRunner rfl fun _ => rfl) Bool.false_ne_true
  | bidDepth =>
      refine iff_of_false (fun h => ?_) Bool.false_ne_true
      have hdepth := N.tuple_injective (h [] (unitPage 9))
      exact N.plain_zero_ne (List.cons.inj hdepth).1
  | askDepth =>
      refine iff_of_false (fun h => ?_) Bool.false_ne_true
      have hdepth := N.tuple_injective (h [] (unitPage 19))
      exact N.plain_zero_ne (List.cons.inj hdepth).1

end Agreement

/-- The market view: through the loader a field reads what it means, for every content
of the page, just if it is a quote or the depth; through the sandbox runner, just if it
is kept in fixed point. -/
theorem market_view_agrees_iff (N : Numerals) (host : Host) (f : Field) :
    Agrees N host f ↔ host.serves f = true := by
  cases host with
  | loader => exact loader_agrees_iff
  | sandboxRunner => exact sandboxRunner_agrees_iff

/-- A page on which the contestant has five shares. -/
def fiveShares : Page := { Page.zero with market := Function.update (fun _ => 0) 29 5 }

/-- A position of five shares is read as 0 through the loader, which leaves slot 29
alone, and as 5 / 1000000 through the sandbox runner. -/
theorem position_misread :
    (marketRead .position).eval Numerals.exact (Host.loader.marketData [] fiveShares) ≠
        meaning Numerals.exact (sharedMem fiveShares) .position ∧
      (marketRead .position).eval Numerals.exact (Host.sandboxRunner.marketData [] fiveShares) ≠
        meaning Numerals.exact (sharedMem fiveShares) .position := by
  refine ⟨fun h => ?_, fun h => ?_⟩
  · exact absurd (Exact.number.inj h) (by decide +kernel)
  · exact absurd (Exact.number.inj h) (by decide +kernel)

end VidhiArena.Forge
