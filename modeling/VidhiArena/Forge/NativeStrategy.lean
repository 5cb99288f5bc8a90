import VidhiArena.Forge.OrderBuffer

/-!
# Native strategies

A strategy in C++ behind `vidhi.hpp` that begins every call of `on_tick` by making its
`OrderBuffer` and makes no other one. It reads the market through a `MarketState`, keeps
numbers in `state(0)` to `state(15)` and gives its orders to the buffer; all three are views of
two arrays that a host lends it for the tick. To its author they are a `Desk`: a snapshot,
sixteen numbers of his own and room for four orders.

Both hosts run every such strategy as its desk does (`native_strategy_refines`), over all
ticks, if each answer comes in time: the loader whatever it reads, the sandbox runner if it
reads the quotes alone.
-/

namespace VidhiArena.Forge

open VidhiArena.Foundation VidhiArena.GameMaster VidhiArena.Sandbox

/-! ## The interface -/

/-- The methods of `MarketState`. -/
inductive Accessor where
  | bidPrice
  | askPrice
  | midPrice
  | spread
  | position
  | cash
  | pnl
deriving DecidableEq

/-- `MarketDataIdx`. -/
def Accessor.slot : Accessor → Nat
  | bidPrice => 0
  | askPrice => 1
  | midPrice => 2
  | spread => 3
  | position => 8
  | cash => 9
  | pnl => 10

/-- What a strategy asks of the two arrays. -/
inductive NativeOp where
  /-- the word that the method divides by its scale -/
  | view (a : Accessor)
  /-- `state(index)`, read -/
  | load (index : Fin 16)
  /-- `state(index) = value` -/
  | store (index : Fin 16) (value : Int64)
  | submit (c : BufferCall)
  /-- `order_count()` -/
  | orderCount

/-- A call of `on_tick`: what it does next depends on what it has read. -/
abbrev NativeProg := Prog Unit NativeOp Int64 Unit

/-! ## The two arrays -/

/-- What `on_tick` works on. -/
structure Seat where
  md : Slots
  buffer : OrderBuffer

def Seat.step (s : Seat) : NativeOp → Int64 × Seat
  | .view a => (s.md a.slot, s)
  | .load index => (s.buffer.oo (48 + index), s)
  | .store index value => (value, { s with buffer := s.buffer.setState index value })
  | .submit c => (0, { s with buffer := s.buffer.apply c })
  | .orderCount => (Int64.ofNat s.buffer.count, s)

/-! ## Ticks under a host -/

/-- What the Game Master does to the page between two answers that come in time. -/
structure Publication where
  /-- `gm_sequence - 1` -/
  tickId : Int64
  market : Slots

def Publication.publish (p : Publication) (page : Page) : Page := { page with market := p.market }

/-- The page, and the two arrays of the loader. -/
structure HostState where
  page : Page
  md : Slots
  out : Slots

def HostState.init : HostState := ⟨.zero, fun _ => 0, fun _ => 0⟩

/-- The array of the market that `on_tick` is given. -/
def Host.view : Host → Page → Slots → Slots
  | loader, page, md => pack page md
  | sandboxRunner, page, _ => page.market

/-- A tick that is answered in time: the words that step 6 finds, and the state. -/
def Host.onTick (host : Host) (strategy : Int64 → NativeProg) (s : HostState) (p : Publication) :
    List OrderWord × HostState :=
  let page := p.publish s.page
  let md := host.view page s.md
  let seat := (Prog.serve Seat.step (strategy p.tickId) ⟨md, .new (host.orderOut page s.out)⟩).2
  let page := host.answered page seat.buffer.oo
  ((sharedMem page).pending, ⟨page, md, seat.buffer.oo⟩)

/-! ## The desk -/

/-- What the methods of `MarketState` are named after. -/
def Accessor.meaning (sm : SharedMem) : Accessor → Int64
  | bidPrice => sm.bidPriceFp
  | askPrice => sm.askPriceFp
  | midPrice => sm.midPriceFp
  | spread => sm.spreadFp
  | position => sm.contestantPosition
  | cash => sm.contestantCashFp
  | pnl => sm.contestantPnlFp

structure Desk where
  cells : Fin 16 → Int64
  orders : List BufferCall
  room : orders.length ≤ 4

def Desk.submit (d : Desk) (c : BufferCall) : Desk :=
  if h : d.orders.length < 4 then ⟨d.cells, d.orders ++ [c], by rw [List.length_append]; exact h⟩
  else d

def Desk.step (view : Accessor → Int64) (d : Desk) : NativeOp → Int64 × Desk
  | .view a => (view a, d)
  | .load index => (d.cells index, d)
  | .store index value => (value, { d with cells := Function.update d.cells index value })
  | .submit c => (0, d.submit c)
  | .orderCount => (Int64.ofNat d.orders.length, d)

/-- A tick at the desk: the orders, and the numbers that it leaves. -/
def deskTick (strategy : Int64 → NativeProg) (cells : Fin 16 → Int64) (p : Publication) :
    List BufferCall × (Fin 16 → Int64) :=
  let view := Accessor.meaning (sharedMem (p.publish .zero))
  let desk := (Prog.serve (Desk.step view) (strategy p.tickId) ⟨cells, [], Nat.zero_le 4⟩).2
  (desk.orders, desk.cells)

/-! ## One operation -/

def Host.shows : Host → NativeOp → Prop
  | sandboxRunner, .view a => a.slot < 4
  | _, _ => True

/-- The arrays of the tick hold the desk. -/
structure Seat.Serves (host : Host) (view : Accessor → Int64) (oo : Slots) (s : Seat) (d : Desk) :
    Prop where
  shown : ∀ a, host.shows (.view a) → s.md a.slot = view a
  orders : OrderBuffer.Holds oo d.orders s.buffer
  cells : ∀ index : Fin 16, s.buffer.oo (48 + index) = d.cells index

section Operation

variable {host : Host} {view : Accessor → Int64} {oo : Slots} {s : Seat} {d : Desk}

theorem apply_cell (b : OrderBuffer) (c : BufferCall) (index : Fin 16) :
    (b.apply c).oo (48 + index) = b.oo (48 + index) := by
  rw [BufferCall.apply_eq, OrderBuffer.push]
  split
  · rfl
  · dsimp only
    rw [Function.update_of_ne (by omega), Function.update_of_ne (by omega),
      Function.update_of_ne (by omega), Function.update_of_ne (by omega),
      Function.update_of_ne (by omega)]

theorem setState_cell (b : OrderBuffer) (index index' : Fin 16) (value : Int64) :
    (b.setState index value).oo (48 + index') =
      if index' = index then value else b.oo (48 + index') := by
  refine (Function.update_apply b.oo _ value _).trans (if_congr ?_ rfl rfl)
  rw [Nat.add_left_cancel_iff, Fin.val_inj]

theorem Seat.Serves.submit (h : s.Serves host view oo d) (c : BufferCall) :
    Seat.Serves host view oo { s with buffer := s.buffer.apply c } (d.submit c) := by
  have hcount := h.orders.count
  rw [Desk.submit]
  split
  · exact ⟨h.shown, h.orders.apply c, fun index => (apply_cell _ c index).trans (h.cells index)⟩
  · rename_i hfull
    -- the buffer drops the call as the desk does
    have hsame : s.buffer.apply c = s.buffer := by
      rw [BufferCall.apply_eq, OrderBuffer.push, if_pos (by omega)]
    rw [hsame]
    exact h

theorem Seat.Serves.step (h : s.Serves host view oo d) {op : NativeOp} (hop : host.shows op) :
    (s.step op).1 = (d.step view op).1 ∧ (s.step op).2.Serves host view oo (d.step view op).2 := by
  cases op with
  | view a => exact ⟨h.shown a hop, h⟩
  | load index => exact ⟨h.cells index, h⟩
  | store index value =>
      refine ⟨rfl, h.shown, h.orders.setState index value, fun index' => ?_⟩
      refine (setState_cell _ index index' value).trans ?_
      rw [h.cells]
      exact (Function.update_apply d.cells index value index').symm
  | submit c => exact ⟨rfl, h.submit c⟩
  | orderCount =>
      refine ⟨congrArg Int64.ofNat ?_, h⟩
      rw [h.orders.count, min_eq_left d.room]

end Operation

/-! ## One tick -/

/-- The numbers of the strategy are where the host will lend them again. -/
def Host.Keeps (host : Host) (s : HostState) (cells : Fin 16 → Int64) : Prop :=
  ∀ index : Fin 16, host.orderOut s.page s.out (48 + index) = cells index

theorem loader_shows (page : Page) (md : Slots) (a : Accessor) :
    pack page md a.slot = a.meaning (sharedMem page) := by
  have hslot : a.slot < 12 := by cases a <;> decide
  rw [pack_quoteOps page md hslot]
  cases a <;> rfl

theorem view_shows (host : Host) (page : Page) (md : Slots) {a : Accessor}
    (ha : host.shows (.view a)) : host.view page md a.slot = a.meaning (sharedMem page) := by
  cases host with
  | loader => exact loader_shows page md a
  | sandboxRunner =>
      cases a with
      | bidPrice | askPrice | midPrice | spread => rfl
      | position | cash | pnl => exact absurd (show _ < 4 from ha) (by decide)

theorem orderOut_publish (host : Host) (p : Publication) (page : Page) (last : Slots) :
    host.orderOut (p.publish page) last = host.orderOut page last := by
  cases host <;> rfl

theorem Host.Keeps.publish {host : Host} {s : HostState} {cells : Fin 16 → Int64}
    (h : host.Keeps s cells) (p : Publication) (index : Fin 16) :
    OrderBuffer.oo (.new (host.orderOut (p.publish s.page) s.out)) (48 + index) = cells index := by
  rw [← h index, OrderBuffer.new, orderOut_publish]
  exact Function.update_of_ne (by omega) ..

variable {strategy : Int64 → NativeProg}

theorem meaning_publish (p : Publication) (page : Page) (a : Accessor) :
    a.meaning (sharedMem (p.publish page)) = a.meaning (sharedMem (p.publish .zero)) := by
  cases a <;> rfl

theorem keeps_answered (host : Host) (page : Page) (md out : Slots) :
    host.Keeps ⟨host.answered page out, md, out⟩ fun index => out (48 + index) := by
  intro index
  cases host with
  | loader => exact if_neg (by omega)
  | sandboxRunner => rfl

theorem Host.Keeps.onTick {host : Host} {s : HostState} {cells : Fin 16 → Int64}
    (h : host.Keeps s cells) (p : Publication) (hshows : (strategy p.tickId).All host.shows) :
    (host.onTick strategy s p).1 = (deskTick strategy cells p).1.map BufferCall.word ∧
      host.Keeps (host.onTick strategy s p).2 (deskTick strategy cells p).2 := by
  let view := Accessor.meaning (sharedMem (p.publish .zero))
  let oo := host.orderOut (p.publish s.page) s.out
  let seat : Seat := ⟨host.view (p.publish s.page) s.md, .new oo⟩
  let desk : Desk := ⟨cells, [], Nat.zero_le 4⟩
  have hstart : seat.Serves host view oo desk :=
    ⟨fun a ha => (view_shows host _ s.md ha).trans (meaning_publish p _ a),
      OrderBuffer.holds_new oo, h.publish p⟩
  obtain ⟨-, hend⟩ := @Prog.serve_sim _ _ _ host.shows _ _ _ (Desk.step view)
    (Seat.Serves host view oo) (fun _ _ _ hserves hop => hserves.step hop) _ _ _ hshows hstart
  have hkept := keeps_answered host (p.publish s.page) seat.md
    (Prog.serve Seat.step (strategy p.tickId) seat).2.buffer.oo
  constructor
  · refine (hend.orders.pending host).trans ?_
    rw [List.take_of_length_le (Desk.room _)]
    rfl
  · rwa [funext hend.cells] at hkept

/-! ## Runs -/

/-- Both hosts run a native strategy as its desk does. Whatever the Game Master publishes,
if every answer comes in time, step 6 finds in every tick the words of the first four orders
that the strategy has given at its desk, and executes those; the sixteen numbers are what the
strategy has left in them. The sandbox runner does so for strategies that read no more of the
market than the four quotes. -/
theorem native_strategy_refines (host : Host) (strategy : Int64 → NativeProg)
    (hshows : ∀ tickId, (strategy tickId).All host.shows) (ps : List Publication) :
    let hosted := traceFrom (host.onTick strategy) .init ps
    let desk := traceFrom (deskTick strategy) (fun _ => 0) ps
    hosted.1 = desk.1.map (·.map BufferCall.word) ∧
      hosted.1.map processOrders = desk.1.map BufferCall.executeAll ∧
      ∀ index : Fin 16, host.orderOut hosted.2.page hosted.2.out (48 + index) = desk.2 index := by
  intro hosted desk
  have hinit : host.Keeps .init fun _ => 0 := by
    intro index
    cases host with
    | loader => exact if_neg (by omega)
    | sandboxRunner => rfl
  obtain ⟨hwords, hcells⟩ := traceFrom_sim host.Keeps id (List.map BufferCall.word)
    (fun _ _ p h => h.onTick p (hshows p.tickId)) ps hinit
  rw [List.map_id] at hwords
  refine ⟨hwords, ?_, hcells⟩
  rw [hwords, List.map_map]
  exact List.map_congr_left fun cs _ => BufferCall.processOrders_word cs

/-- A strategy that counts its ticks in `state(0)`, quotes both sides on every tick and from the
second on tries to buy three times more. -/
def countAndQuote (_tickId : Int64) : NativeProg := do
  let bid ← .call (.view .bidPrice) .ret
  let ask ← .call (.view .askPrice) .ret
  let count ← .call (.load ⟨0, by decide⟩) .ret
  let _ ← .call (.store ⟨0, by decide⟩ (count + 1)) .ret
  let _ ← .call (.submit (.limitBuy bid 10)) .ret
  let _ ← .call (.submit (.limitSell ask 10)) .ret
  if 0 < count then
    let _ ← .call (.submit (.marketBuy 1)) .ret
    let _ ← .call (.submit (.marketBuy 2)) .ret
    let _ ← .call (.submit (.marketBuy 3)) .ret
    return ()
  else return ()

/-- Two ticks at a bid of 99.50 and an ask of 100.50. -/
def twoTicks : List Publication :=
  let market : Slots := fun slot => if slot = 0 then 99500000 else if slot = 1 then 100500000 else 0
  [⟨0, market⟩, ⟨1, market⟩]

theorem native_strategy_refines_quotes :
    (∀ tickId, (countAndQuote tickId).All Host.sandboxRunner.shows) ∧
      let hosted := traceFrom (Host.sandboxRunner.onTick countAndQuote) .init twoTicks
      hosted.1 = [[⟨1, 99500000, 10, 0⟩, ⟨2, 100500000, 10, 0⟩],
        [⟨1, 99500000, 10, 0⟩, ⟨2, 100500000, 10, 0⟩, ⟨3, 0, 1, 0⟩, ⟨3, 0, 2, 0⟩]] ∧
        hosted.2.page.zone 48 = 2 := by
  have hshows : ∀ tickId, (countAndQuote tickId).All Host.sandboxRunner.shows := by
    intro tickId
    refine ⟨Nat.zero_lt_succ 3, fun bid => ⟨Nat.one_lt_succ_succ 2, fun ask => ?_⟩⟩
    refine ⟨trivial, fun count => ⟨trivial, fun _ => ⟨trivial, fun _ => ⟨trivial, fun _ => ?_⟩⟩⟩⟩
    exact Prog.all_ite ⟨trivial, fun _ => ⟨trivial, fun _ => ⟨trivial, fun _ => trivial⟩⟩⟩ trivial
  obtain ⟨hwords, -, hcells⟩ :=
    native_strategy_refines .sandboxRunner countAndQuote hshows twoTicks
  exact ⟨hshows, hwords.trans rfl, (hcells 0).trans rfl⟩

end VidhiArena.Forge
