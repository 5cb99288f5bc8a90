import VidhiArena.Browser.Ledger

/-!
# The contestant's orders at rest

`contestantOrdersQueue` is a ledger of the contestant: an order enters it with its side, its
price and its id, and leaves it when the flood control cancels it. So no more than 200
orders of the contestant rest after a tick, whatever else goes on.
-/

namespace VidhiArena.Browser.Js

open Foundation OrderedMap

variable {N : Numbers} {b : Book N}

def queueLedger (N : Numbers) : Ledger N where
  who := CONTESTANT
  Rec := Queued N.toDoubles
  id := Queued.id
  At old r := r.side = old.side ∧ r.key = N.key old.price

variable {queue : List (Queued N.toDoubles)}

theorem sound_process (base : N.Num) (limited : Side → Bool) {d : Desk N}
    (h : (queueLedger N).Sound d.contestantOrdersQueue d.book) (order : ContestantOrder N) :
    (queueLedger N).Sound (d.process base limited order).contestantOrdersQueue
      (d.process base limited order).book := by
  have hlimit : ∀ (side : Side) (price volume : N.Num),
      (queueLedger N).Sound (d.contestantOrdersQueue ++ [⟨side, price, d.book.nextOrderId⟩])
        (d.book.addOrder side price volume CONTESTANT).2 := by
    intro side price volume
    refine h.add (fun _ hx => List.mem_append_left _ hx) (fun x hx => ?_) fun _ => ?_
    · rcases List.mem_append.mp hx with hx | hx
      · exact .inl hx
      · rw [List.mem_singleton.mp hx]
        exact .inr ⟨rfl, rfl, rfl⟩
    · exact ⟨_, List.mem_append_right _ (List.mem_singleton_self _), rfl⟩
  have hmarket : ∀ (side : Side) (volume : N.Num),
      order.call limited d.book = ContestantOrder.market limited side volume →
      (queueLedger N).Sound d.contestantOrdersQueue (d.process base limited order).book := by
    intro side volume hcall
    unfold ContestantOrder.market at hcall
    split at hcall
    · rwa [Desk.process_idle hcall]
    · rw [Desk.process_call hcall]
      exact h.apply base trivial
  cases order with
  | limitBuy price volume => exact hlimit .buy price volume
  | limitSell price volume => exact hlimit .sell price volume
  | marketBuy volume =>
      rw [Desk.process_queue, ContestantOrder.queued, List.append_nil]
      exact hmarket .buy volume rfl
  | marketSell volume =>
      rw [Desk.process_queue, ContestantOrder.queued, List.append_nil]
      exact hmarket .sell volume rfl
  | cancel orderId =>
      rw [Desk.process, ContestantOrder.queued, List.append_nil, ContestantOrder.call]
      cases findOwn d.book orderId with
      | none => exact h
      | some found =>
          exact h.apply base (c := .cancelOrder found.1 (N.ofKey found.2) orderId) trivial

theorem sound_processAll (base : N.Num) (limited : Side → Bool)
    (orders : List (ContestantOrder N)) : ∀ {d : Desk N},
    (queueLedger N).Sound d.contestantOrdersQueue d.book →
    (queueLedger N).Sound (orders.foldl (Desk.process base limited) d).contestantOrdersQueue
      (orders.foldl (Desk.process base limited) d).book := by
  induction orders with
  | nil => exact fun h => h
  | cons order orders ih => exact fun h => ih (sound_process base limited h order)

/-- An order that is cancelled by its record is gone, and the record with it. -/
theorem sound_cancelOld (base : N.Num) {old : Queued N.toDoubles}
    (h : (queueLedger N).Sound (old :: queue) b) :
    (queueLedger N).Sound queue (b.cancelOrder base old.side old.price old.id) := by
  have ht := Book.cancelOrder_thinned h.keyed base old.side old.price old.id
  refine (h.thin ht).drop (fun _ hx => List.mem_cons_of_mem _ hx) ?_
  intro hexact x hx hgone r hr _ hid
  obtain rfl : x = old := (List.mem_cons.mp hx).resolve_right hgone
  have htracked := h.tracked (ht.added ▸ hexact)
  obtain ⟨hside, hkey⟩ := htracked.placed x List.mem_cons_self r (ht.resting.subset hr) hid
  have hid : r.id = x.id := hid
  rw [← hside, ← hid] at hr
  exact Book.cancelOrder_gone h.keyed htracked.ids hr hkey

theorem sound_cancelOldest (base : N.Num) (olds : List (Queued N.toDoubles)) :
    ∀ {b : Book N}, (queueLedger N).Sound (olds ++ queue) b →
      (queueLedger N).Sound queue (Desk.cancelOldest base b olds) := by
  induction olds with
  | nil => exact fun h => h
  | cons old olds ih => exact fun h => ih (sound_cancelOld base h)

theorem sound_floodControl (base : N.Num) {d : Desk N}
    (h : (queueLedger N).Sound d.contestantOrdersQueue d.book) :
    (queueLedger N).Sound (d.floodControl base).contestantOrdersQueue
      (d.floodControl base).book := by
  simp only [Desk.floodControl]
  refine sound_cancelOldest base (List.take _ _) ?_
  rw [List.take_append_drop]
  exact h

theorem sound_cancelEvicted (base : N.Num) (side : Side) (evicted : Option (Nat × N.Num))
    (h : (queueLedger N).Sound queue b) :
    (queueLedger N).Sound queue (NoiseTrader.cancelEvicted base b side evicted) := by
  cases evicted with
  | none => exact h
  | some old => exact h.apply base (c := .cancelOrder side old.2 old.1) trivial

theorem sound_noise (base scale bidPrice askPrice : N.Num) (bot : NoiseTrader N)
    (h : (queueLedger N).Sound queue b) :
    (queueLedger N).Sound queue (bot.compute base scale bidPrice askPrice b).2 := by
  unfold NoiseTrader.compute
  split
  · exact h
  · rename_i p rng _
    exact sound_cancelEvicted base p.side _
      (h.apply base (c := .addOrder p.side p.price p.volume NoiseTrader.id)
        (show NoiseTrader.id ≠ CONTESTANT by decide))

theorem sound_tick (base scale : N.Num) {s : Sim N} (input : TickInput N)
    (h : (queueLedger N).Sound s.contestantOrdersQueue s.book) :
    (queueLedger N).Sound (s.tick base scale input).contestantOrdersQueue
      (s.tick base scale input).book := by
  have hnoise := sound_noise base scale (s.book.bestBid base) (s.book.bestAsk base) s.noise
    (h.botCalls (.inl rfl) base input.before)
  simp only [Sim.tick, Sim.noiseTurn]
  refine sound_floodControl base (sound_processAll base input.limited input.contestantOrders ?_)
  exact hnoise.botCalls (.inl rfl) base input.after

theorem sound_run (base scale : N.Num) (seed : List (BotCall N)) (inputs : List (TickInput N)) :
    (queueLedger N).Sound (Sim.run base scale seed inputs).contestantOrdersQueue
      (Sim.run base scale seed inputs).book := by
  induction inputs using List.reverseRecOn with
  | nil => exact (Ledger.sound_new _).botCalls (.inl rfl) base seed
  | append_singleton inputs input ih =>
      rw [Sim.run, List.foldl_append]
      exact sound_tick base scale input ih

theorem length_floodControl (base : N.Num) (d : Desk N) :
    (d.floodControl base).contestantOrdersQueue.length ≤ 200 := by
  simp only [Desk.floodControl, List.length_drop]
  omega

theorem queue_le (base scale : N.Num) (seed : List (BotCall N)) (inputs : List (TickInput N)) :
    (Sim.run base scale seed inputs).contestantOrdersQueue.length ≤ 200 := by
  cases inputs using List.reverseRecOn with
  | nil => exact Nat.zero_le _
  | append_singleton inputs input =>
      rw [Sim.run, List.foldl_append, List.foldl_cons, List.foldl_nil]
      simp only [Sim.tick]
      exact length_floodControl base _

/-- The cap: after every tick at most 200 resting orders are the contestant's, as long
as ids are exact. -/
theorem contestant_capped (base scale : N.Num) (seed : List (BotCall N))
    (inputs : List (TickInput N)) (h : (Sim.run base scale seed inputs).book.added ≤ MAX_EXACT) :
    ((Sim.run base scale seed inputs).book.restingOf CONTESTANT).length ≤ 200 :=
  ((sound_run base scale seed inputs).tracked h).cap.trans (queue_le base scale seed inputs)

theorem contestant_capped_flood :
    ((Sim.run (Numbers.exact.ofInt 1500) (Numbers.exact.ofInt 0) []
      [⟨[], [], fun _ => false, List.replicate 201 (.limitBuy (Numbers.exact.ofInt 1500)
        (Numbers.exact.ofInt 1))⟩]).book.restingOf CONTESTANT).length ≤ 200 :=
  contestant_capped _ _ _ _ (by decide +kernel)

/-! ### When ids repeat -/

/-- Whole numbers are added, subtracted and compared without error. -/
structure Numbers.Whole (N : Numbers) : Prop where
  add : ∀ a b : Int, N.ofInt a + N.ofInt b = N.ofInt (a + b)
  sub : ∀ a b : Int, N.ofInt a - N.ofInt b = N.ofInt (a - b)
  le : ∀ a b : Int, N.le (N.ofInt a) (N.ofInt b) = decide (a ≤ b)

namespace Saturation

variable {p : N.Num} {ids : List Nat}

def buyOne (p : N.Num) : ContestantOrder N := .limitBuy p (N.ofInt 1)

def ownOne (id : Nat) : Order N := ⟨id, CONTESTANT, N.ofInt 1⟩

/-- The bids when nothing but such orders has been placed there. -/
def stack (p : N.Num) : List Nat → Levels N
  | [] => []
  | id :: ids => [(N.key p, ⟨N.ofInt (ids.length + 1), (id :: ids).map ownOne⟩)]

theorem modify_single {key : N.Key} {level : Level N} (f : Level N → Level N) :
    modify [(key, level)] key f = [(key, f level)] := by
  rw [OrderedMap.modify, List.map_singleton, if_pos rfl]

theorem bids_buyOne (hN : N.Whole) (h : b.bids = stack p ids) :
    (b.addOrder .buy p (N.ofInt 1) CONTESTANT).2.bids = stack p (ids ++ [b.nextOrderId]) := by
  show modify (push b.bids (N.key p) ⟨0, []⟩) (N.key p) (fun level =>
    ⟨level.volume + N.ofInt 1, level.orders ++ [ownOne b.nextOrderId]⟩) = _
  rw [h]
  cases ids with
  | nil =>
      rw [push, if_neg (by simp [stack, find]), stack, List.nil_append, modify_single]
      show [(N.key p, (⟨N.ofInt 0 + N.ofInt 1, _⟩ : Level N))] = _
      rw [hN.add]
      rfl
  | cons id ids =>
      rw [push, if_pos (by simp [stack, find]), stack, modify_single, hN.add, List.cons_append,
        stack, List.length_append, ← List.cons_append, List.map_append]
      rfl

theorem cancelFirst (hN : N.Whole) {id id' : Nat} (base : N.Num)
    (h : b.bids = stack p (id :: id' :: ids)) :
    b.cancelOrder base .buy p id = { b with bids := stack p (id' :: ids) } := by
  have hfind : find (b.side .buy) (N.key p) =
      some ⟨N.ofInt ((id' :: ids).length + 1), (id :: id' :: ids).map ownOne⟩ := by
    show find b.bids _ = _
    rw [h, stack, find, if_pos rfl]
  rw [Book.cancelOrder, hfind]
  dsimp only
  rw [List.map_cons, List.find?_cons_of_pos (by simp [ownOne])]
  dsimp only
  have hvolume : N.ofInt ((id' :: ids).length + 1) - (ownOne id : Order N).volume =
      N.ofInt (ids.length + 1) := by
    rw [ownOne, hN.sub, List.length_cons]
    congr 1
    push_cast
    omega
  have hpositive : N.le (N.ofInt (ids.length + 1)) 0 = false := by
    show N.le (N.ofInt (ids.length + 1)) (N.ofInt 0) = false
    rw [hN.le, decide_eq_false]
    omega
  rw [hvolume, hpositive, if_neg Bool.false_ne_true, List.eraseP_cons_of_pos (by simp [ownOne])]
  show { b with bids := modify b.bids _ _ } = _
  rw [h, stack, modify_single]
  rfl

def ownEntry (p : N.Num) (id : Nat) : Queued N.toDoubles := ⟨.buy, p, id⟩

/-- The ids of the next `m` orders. -/
def newIds (next m : Nat) : List Nat := (List.range m).map fun i => min (next + i) MAX_EXACT

theorem newIds_succ (next m : Nat) :
    newIds next (m + 1) = newIds next m ++ [min (next + m) MAX_EXACT] := by
  rw [newIds, List.range_succ, List.map_append]
  rfl

theorem length_newIds (next m : Nat) : (newIds next m).length = m := by
  rw [newIds, List.length_map, List.length_range]

theorem incr_min (n : Nat) :
    PersistentLOB.incr (min n MAX_EXACT) = min (n + 1) MAX_EXACT := by
  unfold PersistentLOB.incr MAX_EXACT
  split <;> omega

/-- A desk after `m` more orders. -/
structure Bought (p : N.Num) (d : Desk N) (ids : List Nat) (m : Nat) (d' : Desk N) : Prop where
  bids : d'.book.bids = stack p (ids ++ newIds d.book.nextOrderId m)
  asks : d'.book.asks = d.book.asks
  next : d'.book.nextOrderId = min (d.book.nextOrderId + m) MAX_EXACT
  queue : d'.contestantOrdersQueue =
    d.contestantOrdersQueue ++ (newIds d.book.nextOrderId m).map (ownEntry p)

theorem bought (hN : N.Whole) (base : N.Num) (limited : Side → Bool) {d : Desk N}
    (h : d.book.bids = stack p ids) (hnext : d.book.nextOrderId ≤ MAX_EXACT) (m : Nat) :
    Bought p d ids m ((List.replicate m (buyOne p)).foldl (Desk.process base limited) d) := by
  induction m with
  | zero =>
      exact
        { bids := by rw [newIds, List.range_zero, List.map_nil, List.append_nil]; exact h
          asks := rfl
          next := (min_eq_left hnext).symm
          queue := by
            rw [newIds, List.range_zero, List.map_nil, List.map_nil, List.append_nil]
            rfl }
  | succ m ih =>
      rw [List.replicate_succ', List.foldl_append, List.foldl_cons, List.foldl_nil]
      exact
        { bids := by
            rw [newIds_succ, ← List.append_assoc, ← ih.next]
            exact bids_buyOne hN ih.bids
          asks := ih.asks
          next := (congrArg PersistentLOB.incr ih.next).trans (incr_min _)
          queue := by
            rw [newIds_succ, List.map_append, ← List.append_assoc, ← ih.queue, ← ih.next]
            rfl }

theorem cancelOldest_stack (hN : N.Whole) (base : N.Num) {id : Nat} (olds : List Nat) :
    ∀ {b : Book N}, b.bids = stack p (olds ++ id :: ids) →
      Desk.cancelOldest base b (olds.map (ownEntry p)) = { b with bids := stack p (id :: ids) } := by
  induction olds with
  | nil =>
      intro b h
      rw [← List.nil_append (id :: ids), ← h]
      rfl
  | cons old olds ih =>
      intro b h
      have hfirst : b.cancelOrder base .buy p old = { b with bids := stack p (olds ++ id :: ids) } := by
        cases olds with
        | nil => exact cancelFirst hN base h
        | cons old' olds => exact cancelFirst hN base h
      rw [List.map_cons, Desk.cancelOldest, List.foldl_cons]
      show Desk.cancelOldest base (b.cancelOrder base .buy p old) _ = _
      rw [hfirst, ih rfl]

/-! #### The run -/

/-- The contestant buys all the time, and nobody else does anything. -/
def busy (p : N.Num) (m : Nat) : TickInput N :=
  ⟨[], [], fun _ => false, List.replicate m (buyOne p)⟩

structure Stacked (p : N.Num) (s : Sim N) (n : Nat) (ids : List Nat) : Prop where
  bids : s.book.bids = stack p ids
  asks : s.book.asks = []
  next : s.book.nextOrderId = n + 1
  queue : s.contestantOrdersQueue = ids.map (ownEntry p)

theorem tick_quiet (base : N.Num) {scale : N.Num} (hscale : N.isZero scale = true) (s : Sim N)
    (before : List (BotCall N)) (limited : Side → Bool) (orders : List (ContestantOrder N)) :
    s.tick base scale ⟨before, [], limited, orders⟩ =
      let d := (orders.foldl (Desk.process base limited)
        ⟨botCalls base s.book before, s.contestantOrdersQueue⟩).floodControl base
      ⟨d.book, s.noise, d.contestantOrdersQueue⟩ := by
  have hdraw : NoiseTrader.draw scale (s.book.bestBid base) (s.book.bestAsk base) s.noise.rng =
      (none, s.noise.rng) := by
    rw [NoiseTrader.draw, hscale]
    rfl
  have hturn : s.noiseTurn base scale ⟨before, [], limited, orders⟩ =
      (s.noise, botCalls base s.book before) := by
    rw [Sim.noiseTurn, NoiseTrader.compute, hdraw]
  rw [Sim.tick, hturn]
  rfl

theorem floodControl_stack (hN : N.Whole) (base : N.Num) {d : Desk N} {olds : List Nat} {id : Nat}
    {rest : List (Queued N.toDoubles)} (hbids : d.book.bids = stack p (olds ++ id :: ids))
    (hqueue : d.contestantOrdersQueue = olds.map (ownEntry p) ++ rest)
    (hrest : rest.length = 200) :
    d.floodControl base = ⟨{ d.book with bids := stack p (id :: ids) }, rest⟩ := by
  have hlength : d.contestantOrdersQueue.length - 200 = (olds.map (ownEntry p)).length := by
    rw [hqueue, List.length_append, hrest, Nat.add_sub_cancel]
  simp only [Desk.floodControl]
  rw [hlength, hqueue, List.take_left, List.drop_left, cancelOldest_stack hN base olds hbids]

theorem exists_cut (ids : List Nat) (h : 200 ≤ ids.length) :
    ∃ olds id rest, ids = olds ++ id :: rest ∧ (id :: rest).length = 200 := by
  have hlength : (ids.drop (ids.length - 200)).length = 200 := by
    rw [List.length_drop]
    omega
  cases hdrop : ids.drop (ids.length - 200) with
  | nil => rw [hdrop] at hlength; exact absurd hlength (by decide)
  | cons id rest =>
      exact ⟨_, id, rest, by rw [← hdrop, List.take_append_drop], hdrop ▸ hlength⟩

theorem stacked_busy (hN : N.Whole) (base : N.Num) {scale : N.Num} (hscale : N.isZero scale = true)
    {s : Sim N} {n m : Nat} (h : Stacked p s n ids) (hm : 200 ≤ m) (hn : n + m < MAX_EXACT) :
    ∃ ids', Stacked p (s.tick base scale (busy p m)) (n + m) ids' ∧ ids'.length = 200 := by
  have hb := bought hN base (fun _ => false) (d := ⟨s.book, s.contestantOrdersQueue⟩) h.bids
    (by show s.book.nextOrderId ≤ _; rw [h.next]; omega) m
  have hqueue := hb.queue.trans
    (congrArg (· ++ (newIds s.book.nextOrderId m).map (ownEntry p)) h.queue)
  obtain ⟨olds, id, rest, hcut, hlength⟩ :=
    exists_cut (ids ++ newIds s.book.nextOrderId m) (by
      rw [List.length_append, length_newIds]
      omega)
  have hbids := hb.bids
  dsimp only at hqueue hbids
  rw [hcut] at hbids
  rw [← List.map_append, hcut, List.map_append] at hqueue
  have hflood := floodControl_stack hN base hbids hqueue (by rw [List.length_map]; exact hlength)
  refine ⟨id :: rest, ?_, hlength⟩
  rw [busy, tick_quiet base hscale]
  show Stacked p ⟨(Desk.floodControl base _).book, s.noise, _⟩ _ _
  rw [botCalls, List.foldl_nil, hflood]
  exact
    { bids := rfl
      asks := hb.asks.trans h.asks
      next := by
        refine hb.next.trans ?_
        show min (s.book.nextOrderId + m) MAX_EXACT = n + m + 1
        rw [h.next]
        omega
      queue := rfl }

theorem stacked_run (hN : N.Whole) (base : N.Num) {scale : N.Num} (hscale : N.isZero scale = true)
    {m : Nat} (hm : 200 ≤ m) (k : Nat) (hk : (k + 1) * m < MAX_EXACT) :
    ∃ ids, Stacked p (Sim.run base scale [] (List.replicate (k + 1) (busy p m))) ((k + 1) * m) ids ∧
      ids.length = 200 := by
  have hinit : Stacked p (Sim.init base []) 0 [] := ⟨rfl, rfl, rfl, rfl⟩
  induction k with
  | zero =>
      have := stacked_busy hN base hscale hinit hm (by omega)
      rw [Nat.zero_add] at this
      rwa [Nat.zero_add, Nat.one_mul]
  | succ k ih =>
      obtain ⟨ids, h, -⟩ := ih ((Nat.mul_le_mul_right m (Nat.le_succ _)).trans_lt hk)
      rw [List.replicate_succ', Sim.run, List.foldl_append, Nat.add_mul (k + 1), Nat.one_mul]
      exact stacked_busy hN base hscale h hm (by rw [Nat.add_mul (k + 1), Nat.one_mul] at hk; exact hk)

def mrOrder (id : Nat) : Order N := ⟨id, MeanReversionBot.id, N.ofInt 80⟩

theorem mr_other : MeanReversionBot.id ≠ CONTESTANT ∧ MeanReversionBot.id ≠ NoiseTrader.id := by
  decide

def mrSell (p : N.Num) : BotCall N := ⟨.addOrder .sell p (N.ofInt 80) MeanReversionBot.id, mr_other⟩

/-- The mean reversion bot sells, the contestant sells behind it, and buys again. -/
def lastTick (p : N.Num) (m : Nat) : TickInput N :=
  ⟨[mrSell p], [], fun _ => false,
    .limitSell p (N.ofInt 1) :: List.replicate m (buyOne p)⟩

theorem cancelBehind (hN : N.Whole) (base : N.Num) {id : Nat}
    (h : b.asks = [(N.key p, ⟨N.ofInt 81, [mrOrder id, ownOne id]⟩)]) :
    b.cancelOrder base .sell p id =
      { b with asks := [(N.key p, ⟨N.ofInt 1, [ownOne id]⟩)] } := by
  have hfind : find (b.side .sell) (N.key p) = some ⟨N.ofInt 81, [mrOrder id, ownOne id]⟩ := by
    show find b.asks _ = _
    rw [h, find, if_pos rfl]
  have hpositive : N.le (N.ofInt 1) 0 = false := hN.le 1 0
  rw [Book.cancelOrder, hfind]
  dsimp only
  rw [List.find?_cons_of_pos (by simp [mrOrder])]
  dsimp only
  have hvolume : N.ofInt 81 - (mrOrder id : Order N).volume = N.ofInt 1 := hN.sub 81 80
  rw [hvolume, hpositive, if_neg Bool.false_ne_true,
    List.eraseP_cons_of_pos (by simp [mrOrder])]
  show { b with asks := modify b.asks _ _ } = _
  rw [h, modify_single]

theorem asks_lastTick (hN : N.Whole) (base : N.Num) (m : Nat) (hasks : b.asks = []) :
    ((botCalls base b (lastTick p m).before).addOrder .sell p (N.ofInt 1) CONTESTANT).2.asks =
      [(N.key p, ⟨N.ofInt 81, [mrOrder b.nextOrderId,
        ownOne (PersistentLOB.incr b.nextOrderId)]⟩)] := by
  have hmr : (botCalls base b (lastTick p m).before).asks =
      [(N.key p, ⟨N.ofInt 80, [mrOrder b.nextOrderId]⟩)] := by
    show modify (push b.asks (N.key p) ⟨0, []⟩) (N.key p) (fun level =>
      ⟨level.volume + N.ofInt 80, level.orders ++ [mrOrder b.nextOrderId]⟩) = _
    rw [hasks, push, if_neg (by simp [find]), List.nil_append, modify_single]
    show [(N.key p, (⟨N.ofInt 0 + N.ofInt 80, _⟩ : Level N))] = _
    rw [hN.add]
    rfl
  show modify (push (botCalls base b (lastTick p m).before).asks (N.key p) ⟨0, []⟩) (N.key p)
    (fun level => ⟨level.volume + N.ofInt 1,
      level.orders ++ [ownOne (PersistentLOB.incr b.nextOrderId)]⟩) = _
  rw [hmr, push, if_pos (by simp [find]), modify_single, hN.add]
  rfl

theorem resting_own (side : Side) (key : N.Key) (volume : N.Num) (ids : List Nat) :
    Levels.resting side [(key, ⟨volume, ids.map ownOne⟩)] =
      ids.map fun id => ⟨side, key, id, CONTESTANT⟩ := by
  rw [resting_cons, Level.resting, List.map_map]
  exact List.append_nil _

/-- The flood control comes to the contestant's sell, behind which there are 200 more. -/
theorem floodControl_sell (hN : N.Whole) (base : N.Num) {d : Desk N} {id sell : Nat}
    {olds : List Nat} {rest : List (Queued N.toDoubles)}
    (hbids : d.book.bids = stack p (olds ++ id :: ids))
    (hasks : d.book.asks = [(N.key p, ⟨N.ofInt 81, [mrOrder sell, ownOne sell]⟩)])
    (hqueue : d.contestantOrdersQueue = olds.map (ownEntry p) ++ ⟨.sell, p, sell⟩ :: rest)
    (hrest : rest.length = 200) :
    (d.floodControl base).book = { d.book with
      bids := stack p (id :: ids)
      asks := [(N.key p, ⟨N.ofInt 1, [ownOne sell]⟩)] } := by
  have hqueue : d.contestantOrdersQueue = (olds.map (ownEntry p) ++ [⟨.sell, p, sell⟩]) ++ rest := by
    rw [hqueue, List.append_assoc, List.singleton_append]
  have hlength : d.contestantOrdersQueue.length - 200 =
      (olds.map (ownEntry p) ++ [(⟨.sell, p, sell⟩ : Queued N.toDoubles)]).length := by
    rw [hqueue, List.length_append, hrest, Nat.add_sub_cancel]
  simp only [Desk.floodControl]
  rw [hlength, hqueue, List.take_left, Desk.cancelOldest, List.foldl_append]
  have hfirst := cancelOldest_stack hN base olds hbids
  rw [Desk.cancelOldest] at hfirst
  rw [hfirst]
  exact cancelBehind hN base hasks

/-- One order too many: the cancel of the contestant's sell takes the bot's. -/
theorem exceeded (hN : N.Whole) {base scale : N.Num} (hscale : N.isZero scale = true)
    {s : Sim N} {n m : Nat} (h : Stacked p s n ids) (hm : m = 200) (hn : n + 1 = MAX_EXACT) :
    ((s.tick base scale (lastTick p m)).book.restingOf CONTESTANT).length = m + 1 := by
  have hincr : PersistentLOB.incr MAX_EXACT = MAX_EXACT := rfl
  have hnext : s.book.nextOrderId = MAX_EXACT := h.next.trans hn
  obtain ⟨d, hd⟩ : ∃ d, Desk.process base (fun _ => false)
    ⟨botCalls base s.book (lastTick p m).before, s.contestantOrdersQueue⟩
      (.limitSell p (N.ofInt 1)) = d := ⟨_, rfl⟩
  have hasks : d.book.asks = [(N.key p, ⟨N.ofInt 81, [mrOrder MAX_EXACT, ownOne MAX_EXACT]⟩)] := by
    rw [← hd]
    refine (asks_lastTick hN base m h.asks).trans ?_
    rw [hnext, hincr]
  have hdnext : d.book.nextOrderId = MAX_EXACT := by
    rw [← hd]
    show PersistentLOB.incr (PersistentLOB.incr s.book.nextOrderId) = _
    rw [hnext, hincr, hincr]
  have hqueue : d.contestantOrdersQueue = ids.map (ownEntry p) ++ [⟨.sell, p, MAX_EXACT⟩] := by
    rw [← hd]
    show s.contestantOrdersQueue ++ [⟨.sell, p, PersistentLOB.incr s.book.nextOrderId⟩] = _
    rw [hnext, hincr, h.queue]
  have hbids : d.book.bids = stack p ids := by
    rw [← hd]
    exact h.bids
  have hb := bought hN base (fun _ => false) hbids hdnext.le m
  obtain ⟨id, rest, hnew⟩ := List.exists_cons_of_length_pos
    (show 0 < (newIds d.book.nextOrderId m).length by rw [length_newIds]; omega)
  have hrest : (id :: rest).length = m := by rw [← hnew, length_newIds]
  have hqueue' := hb.queue
  rw [hnew, hqueue, List.append_assoc, List.singleton_append] at hqueue'
  have hflood := floodControl_sell hN base (hnew ▸ hb.bids) (hb.asks.trans hasks) hqueue'
    (by rw [List.length_map, hrest, hm])
  have htick := tick_quiet base hscale s (lastTick p m).before (fun _ => false)
    (.limitSell p (N.ofInt 1) :: List.replicate m (buyOne p))
  rw [List.foldl_cons, hd] at htick
  have hresting : (s.tick base scale (lastTick p m)).book.resting =
      (id :: rest).map (fun id => ⟨.buy, N.key p, id, CONTESTANT⟩) ++
        [⟨.sell, N.key p, MAX_EXACT, CONTESTANT⟩] := by
    refine (congrArg (fun s : Sim N => s.book.resting) htick).trans ?_
    dsimp only
    rw [hflood, Book.resting, stack, resting_own]
    exact congrArg (_ ++ ·) (resting_own .sell (N.key p) (N.ofInt 1) [MAX_EXACT])
  rw [Book.restingOf, hresting, List.filter_eq_self.mpr, List.length_append, List.length_map, hrest]
  · rfl
  · intro r hr
    rcases List.mem_append.mp hr with hr | hr
    · obtain ⟨_, -, rfl⟩ := List.mem_map.mp hr
      rfl
    · rw [List.mem_singleton.mp hr]
      rfl

theorem whole_exact : Numbers.exact.Whole where
  add := fun a b => (Rat.intCast_add a b).symm
  sub := fun a b => (Rat.intCast_sub a b).symm
  le := fun _ _ => decide_eq_decide.mpr Rat.intCast_le_intCast

def quote : Numbers.exact.Num := (149999 / 100 : Rat)

end Saturation

open Saturation in
/-- The bound on the ids is needed: 441650591 orders in each of 20394401 ticks are one
order less than `2^53`. The next two orders get one id. -/
theorem contestant_exceeds_cap :
    ((Sim.run (Numbers.exact.ofInt 1500) (Numbers.exact.ofInt 0) []
      (List.replicate (20394400 + 1) (busy quote 441650591) ++
        [lastTick quote 200])).book.restingOf CONTESTANT).length = 201 := by
  have hscale : Numbers.exact.isZero (Numbers.exact.ofInt 0) = true := by decide +kernel
  obtain ⟨ids, h, -⟩ := stacked_run (p := quote) whole_exact (Numbers.exact.ofInt 1500)
    hscale (m := 441650591) (by decide) 20394400 (by decide)
  rw [Sim.run, List.foldl_append]
  exact exceeded whole_exact hscale h rfl (by decide)

end VidhiArena.Browser.Js
