import VidhiArena.Browser.Engine

/-!
# The browser book on any numbers

`class PersistentLOB` once more, for what becomes of orders whatever numbers they come
with: fractions, infinities and `NaN`. Fills and the last trade, which decide nothing here,
are left out.

`resting` is the content of the book as a list. A call takes some of it away, and
`addOrder` adds to it; the rules about that are at the end.
-/

namespace VidhiArena.Browser.Js

open Foundation OrderedMap

/-- The numbers of JavaScript. -/
structure Numbers extends Doubles where
  min : Num → Num → Num
  /-- nothing is `<=` a `NaN`, and a `NaN` is not `<=` anything -/
  le : Num → Num → Bool
  /-- a price as a key of a `Map`, for which `NaN` equals itself -/
  Key : Type
  keyEq : DecidableEq Key
  /-- `_priceKey` -/
  key : Num → Key
  ofKey : Key → Num
  /-- `Math.floor`, of infinities and `NaN` too -/
  floorNum : Num → Num
  /-- `[...keys].sort(…)` of the side -/
  sorted : Side → List Key → List Key

instance (N : Numbers) : DecidableEq N.Key := N.keyEq

/-- Exact numbers, with keys in ticks; a million dollars stands for infinity. -/
def Numbers.exact : Numbers where
  toDoubles := { Doubles.exact with
    negInfinity := (-1000000 : Rat)
    infinity := (1000000 : Rat) }
  min := fun (a b : Rat) => if b < a then b else a
  le := fun (a b : Rat) => a ≤ b
  Key := Int
  keyEq := inferInstance
  key := Doubles.exact.priceKey
  ofKey := Doubles.exact.price
  floorNum := fun (a : Rat) => ((a.floor : Int) : Rat)
  sorted
    | .buy => fun keys => keys.insertionSort (· ≥ ·)
    | .sell => fun keys => keys.insertionSort (· ≤ ·)

structure Order (N : Numbers) where
  id : Nat
  participantId : Name
  volume : N.Num

structure Level (N : Numbers) where
  volume : N.Num
  orders : List (Order N)

abbrev Levels (N : Numbers) := List (N.Key × Level N)

structure Book (N : Numbers) where
  bids : Levels N
  asks : Levels N
  nextOrderId : Nat
  _bestBid : N.Num
  _bestAsk : N.Num
  /-- how many orders have been added, which the code does not count -/
  added : Nat

namespace Book

variable {N : Numbers}

def new : Book N := ⟨[], [], 1, N.negInfinity, N.infinity, 0⟩

def side (b : Book N) : Side → Levels N
  | .buy => b.bids
  | .sell => b.asks

def setSide (b : Book N) (side : Side) (levels : Levels N) : Book N :=
  match side with
  | .buy => { b with bids := levels }
  | .sell => { b with asks := levels }

@[simp] theorem side_setSide (b : Book N) (side : Side) (levels : Levels N) :
    (b.setSide side levels).side side = levels := by
  cases side <;> rfl

@[simp] theorem side_setSide_other (b : Book N) (side : Side) (levels : Levels N) :
    (b.setSide side levels).side side.other = b.side side.other := by
  cases side <;> rfl

def _rebuildBest (base : N.Num) (b : Book N) : Book N :=
  { b with
    _bestBid := if b.bids.isEmpty then base - N.TICK_SIZE
      else ((keys b.bids).map N.ofKey).foldl N.max N.negInfinity
    _bestAsk := if b.asks.isEmpty then base + N.TICK_SIZE
      else ((keys b.asks).map N.ofKey).foldl N.min N.infinity }

/-- The incremental update of `addOrder`. -/
def improveBest (side : Side) (key : N.Num) (b : Book N) : Book N :=
  match side with
  | .buy => { b with _bestBid := if N.lt b._bestBid key then key else b._bestBid }
  | .sell => { b with _bestAsk := if N.lt key b._bestAsk then key else b._bestAsk }

def addOrder (b : Book N) (side : Side) (price volume : N.Num) (participantId : Name) :
    Nat × Book N :=
  let orderId := b.nextOrderId
  let levels := modify (push (b.side side) (N.key price) ⟨0, []⟩) (N.key price) fun level =>
    ⟨level.volume + volume, level.orders ++ [⟨orderId, participantId, volume⟩]⟩
  (orderId, improveBest side (N.ofKey (N.key price)) { b.setSide side levels with
    nextOrderId := PersistentLOB.incr orderId
    added := b.added + 1 })

/-- `key === this._bestBid`, `key === this._bestAsk`. -/
def isBest (b : Book N) (side : Side) (key : N.Num) : Bool :=
  let best := match side with
    | .buy => b._bestBid
    | .sell => b._bestAsk
  N.le best key && N.le key best

def cancelOrder (base : N.Num) (b : Book N) (side : Side) (price : N.Num) (orderId : Nat) :
    Book N :=
  match find (b.side side) (N.key price) with
  | none => b
  | some level =>
      match level.orders.find? (·.id = orderId) with
      | none => b
      | some order =>
          let volume := level.volume - order.volume
          if N.le volume 0 then
            let b' := b.setSide side (erase (b.side side) (N.key price))
            if b.isBest side (N.ofKey (N.key price)) then _rebuildBest base b' else b'
          else b.setSide side (modify (b.side side) (N.key price) fun _ =>
            ⟨volume, level.orders.eraseP (·.id = orderId)⟩)

/-- The inner loop of `marketOrder`: what remains of the taker, and the level. -/
def takeOrders : N.Num → N.Num → List (Order N) → N.Num × Level N
  | remaining, volume, [] => (remaining, ⟨volume, []⟩)
  | remaining, volume, order :: orders =>
      if N.lt 0 remaining then
        let fillVol := N.min order.volume remaining
        let (remaining', level) := takeOrders (remaining - fillVol) (volume - fillVol) orders
        (remaining',
          if N.le (order.volume - fillVol) 0 then level
          else ⟨level.volume, { order with volume := order.volume - fillVol } :: level.orders⟩)
      else (remaining, ⟨volume, order :: orders⟩)

/-- The outer loop, over the sorted keys. -/
def takeLevels (base : N.Num) (side : Side) : List N.Key → N.Num → Book N → Book N
  | [], _, b => b
  | key :: keys, remaining, b =>
      if N.le remaining 0 then b
      else
        match find (b.side side) key with
        | none => b
        | some level =>
            let (remaining, level) := takeOrders remaining level.volume level.orders
            takeLevels base side keys remaining
              (if N.le level.volume 0 then
                _rebuildBest base (b.setSide side (erase (b.side side) key))
              else b.setSide side (modify (b.side side) key fun _ => level))

def marketOrder (base : N.Num) (b : Book N) (side : Side) (volume : N.Num) : Book N :=
  takeLevels base side.other (N.sorted side.other (keys (b.side side.other))) volume b

def bestBid (base : N.Num) (b : Book N) : N.Num :=
  if b.bids.isEmpty then base - N.TICK_SIZE else b._bestBid

def bestAsk (base : N.Num) (b : Book N) : N.Num :=
  if b.asks.isEmpty then base + N.TICK_SIZE else b._bestAsk

end Book

/-- A call of one of the three operations. -/
inductive Call (N : Numbers) where
  | addOrder (side : Side) (price volume : N.Num) (participantId : Name)
  | cancelOrder (side : Side) (price : N.Num) (orderId : Nat)
  | marketOrder (side : Side) (volume : N.Num)

namespace Call

variable {N : Numbers}

/-- An order is added in the name of somebody else. -/
def By (who : Name → Prop) : Call N → Prop
  | addOrder _ _ _ participantId => who participantId
  | cancelOrder .. | marketOrder .. => True

end Call

def Book.apply {N : Numbers} (base : N.Num) (b : Book N) : Call N → Book N
  | .addOrder side price volume participantId => (b.addOrder side price volume participantId).2
  | .cancelOrder side price orderId => cancelOrder base b side price orderId
  | .marketOrder side volume => marketOrder base b side volume

/-! ## What rests -/

/-- A resting order, by its place and its owner. -/
structure Resting (N : Numbers) where
  side : Side
  key : N.Key
  id : Nat
  participantId : Name

section Rests

variable {N : Numbers} {b : Book N} {side : Side} {price volume : N.Num} {orderId : Nat}

def Level.resting (side : Side) (key : N.Key) (orders : List (Order N)) : List (Resting N) :=
  orders.map fun o => ⟨side, key, o.id, o.participantId⟩

def Levels.resting (side : Side) (levels : Levels N) : List (Resting N) :=
  levels.flatMap fun l => Level.resting side l.1 l.2.orders

def Book.resting (b : Book N) : List (Resting N) :=
  Levels.resting .buy b.bids ++ Levels.resting .sell b.asks

/-- No side has two levels of one key. -/
def Book.Keyed (b : Book N) : Prop := ∀ side, (keys (b.side side)).Nodup

theorem resting_append (side : Side) (l l' : Levels N) :
    Levels.resting side (l ++ l') = Levels.resting side l ++ Levels.resting side l' :=
  List.flatMap_append

theorem resting_cons (side : Side) (key : N.Key) (level : Level N) (l : Levels N) :
    Levels.resting side ((key, level) :: l) =
      Level.resting side key level.orders ++ Levels.resting side l :=
  List.flatMap_cons

theorem mem_resting_side {r : Resting N} :
    r ∈ b.resting ↔ r ∈ Levels.resting r.side (b.side r.side) := by
  have hside : ∀ {side l}, r ∈ Levels.resting side l → r.side = side := by
    intro side l h
    obtain ⟨lv, -, hr⟩ := List.mem_flatMap.mp h
    obtain ⟨o, -, rfl⟩ := List.mem_map.mp hr
    rfl
  unfold Book.resting
  rw [List.mem_append]
  constructor
  · rintro (h | h)
    · rw [hside h]
      exact h
    · rw [hside h]
      exact h
  · intro h
    cases hs : r.side with
    | buy =>
        rw [hs] at h
        exact .inl h
    | sell =>
        rw [hs] at h
        exact .inr h

theorem mem_resting {r : Resting N} :
    r ∈ Levels.resting side (b.side side) ↔
      r.side = side ∧ ∃ level, (r.key, level) ∈ b.side side ∧
        ∃ o ∈ level.orders, o.id = r.id ∧ o.participantId = r.participantId := by
  constructor
  · intro h
    obtain ⟨⟨key, level⟩, hlevel, hr⟩ := List.mem_flatMap.mp h
    obtain ⟨o, ho, rfl⟩ := List.mem_map.mp hr
    exact ⟨rfl, level, hlevel, o, ho, rfl, rfl⟩
  · obtain ⟨rs, key, id, who⟩ := r
    rintro ⟨rfl, level, hlevel, o, ho, rfl, rfl⟩
    exact List.mem_flatMap.mpr ⟨(key, level), hlevel, List.mem_map.mpr ⟨o, ho, rfl⟩⟩

theorem resting_setSide {levels : Levels N}
    (h : (Levels.resting side levels).Sublist (Levels.resting side (b.side side))) :
    (b.setSide side levels).resting.Sublist b.resting := by
  cases side with
  | buy => exact h.append (List.Sublist.refl _)
  | sell => exact (List.Sublist.refl _).append h

theorem resting_setSide_perm {levels : Levels N} {r : Resting N}
    (h : (Levels.resting side levels).Perm (r :: Levels.resting side (b.side side))) :
    (b.setSide side levels).resting.Perm (r :: b.resting) := by
  cases side with
  | buy => exact h.append_right _
  | sell => exact (h.append_left _).trans List.perm_middle

theorem Book.Keyed.setSide (h : b.Keyed) {levels : Levels N} (hl : (keys levels).Nodup) :
    (b.setSide side levels).Keyed := by
  intro s
  cases side <;> cases s
  · exact hl
  · exact h .sell
  · exact h .buy
  · exact hl

theorem split_of_find {levels : Levels N} {key : N.Key} {level : Level N}
    (h : find levels key = some level) : ∃ pre post, levels = pre ++ (key, level) :: post :=
  List.append_of_mem (mem_of_find h)

/-! ### Adding -/

theorem resting_improveBest (side : Side) (key : N.Num) (b : Book N) :
    (Book.improveBest side key b).resting = b.resting := by
  cases side <;> rfl

theorem keyed_improveBest {key : N.Num} : (Book.improveBest side key b).Keyed ↔ b.Keyed :=
  forall_congr' fun s => by cases side <;> cases s <;> rfl

theorem Book.addOrder_keyed (h : b.Keyed) (side : Side) (price volume : N.Num) (who : Name) :
    (b.addOrder side price volume who).2.Keyed := by
  refine keyed_improveBest.mpr (Book.Keyed.setSide (b := b) h ?_)
  rw [keys_modify, keys_push]
  split
  · exact h side
  · rename_i hfresh
    rw [← List.concat_eq_append]
    exact (h side).concat hfresh

theorem Book.addOrder_resting (h : b.Keyed) (side : Side) (price volume : N.Num) (who : Name) :
    (b.addOrder side price volume who).2.resting.Perm
      (⟨side, N.key price, b.nextOrderId, who⟩ :: b.resting) := by
  rw [addOrder, resting_improveBest]
  refine resting_setSide_perm (b := b) ?_
  cases hfind : find (b.side side) (N.key price) with
  | some level =>
      obtain ⟨pre, post, hsplit⟩ := split_of_find hfind
      have hnodup := h side
      rw [push, if_pos (by rw [hfind]; rfl)]
      rw [hsplit] at hnodup ⊢
      rw [modify_middle hnodup, resting_append, resting_append, resting_cons, resting_cons,
        Level.resting, List.map_append, List.append_assoc, List.map_singleton]
      refine (List.Perm.append_left _ ?_).trans List.perm_middle
      exact List.perm_middle
  | none =>
      have hnodup : (keys (b.side side ++ [(N.key price, (⟨0, []⟩ : Level N))])).Nodup := by
        rw [keys, List.map_append, List.map_singleton, ← List.concat_eq_append]
        exact (h side).concat (find_eq_none.mp hfind)
      rw [push, if_neg (by rw [hfind]; exact Bool.false_ne_true), modify_middle hnodup,
        resting_append, resting_cons]
      exact List.perm_append_comm

/-! ### Taking away -/

/-- Some orders have gone, and nothing else has happened. -/
structure Book.Thinned (b b' : Book N) : Prop where
  resting : b'.resting.Sublist b.resting
  keyed : b'.Keyed
  nextOrderId : b'.nextOrderId = b.nextOrderId
  added : b'.added = b.added

namespace Book.Thinned

theorem refl (h : b.Keyed) : Thinned b b := ⟨.refl _, h, rfl, rfl⟩

theorem trans {b₁ b₂ b₃ : Book N} (h : Thinned b₁ b₂) (h' : Thinned b₂ b₃) : Thinned b₁ b₃ :=
  ⟨h'.resting.trans h.resting, h'.keyed, h'.nextOrderId.trans h.nextOrderId,
    h'.added.trans h.added⟩

theorem rebuildBest {b' : Book N} (h : Thinned b b') (base : N.Num) :
    Thinned b (_rebuildBest base b') :=
  ⟨h.resting, fun s => by cases s; exacts [h.keyed .buy, h.keyed .sell], h.nextOrderId, h.added⟩

theorem setSide (h : b.Keyed) {levels : Levels N}
    (hsub : (Levels.resting side levels).Sublist (Levels.resting side (b.side side)))
    (hkeys : (keys levels).Nodup) : Thinned b (b.setSide side levels) :=
  ⟨resting_setSide hsub, h.setSide hkeys, by cases side <;> rfl, by cases side <;> rfl⟩

theorem erase (h : b.Keyed) {key : N.Key} {level : Level N}
    (hfind : find (b.side side) key = some level) :
    Thinned b (b.setSide side (OrderedMap.erase (b.side side) key)) := by
  obtain ⟨pre, post, hsplit⟩ := split_of_find hfind
  have hnodup := h side
  rw [hsplit] at hnodup
  refine setSide h ?_ ?_
  · rw [hsplit, erase_middle hnodup, resting_append, resting_append, resting_cons]
    exact (List.Sublist.refl _).append (List.sublist_append_right ..)
  · rw [keys_erase]
    exact (h side).filter _

theorem modify (h : b.Keyed) {key : N.Key} {level level' : Level N}
    (hfind : find (b.side side) key = some level)
    (hsub : (Level.resting side key level'.orders).Sublist
      (Level.resting side key level.orders)) :
    Thinned b (b.setSide side (OrderedMap.modify (b.side side) key fun _ => level')) := by
  obtain ⟨pre, post, hsplit⟩ := split_of_find hfind
  have hnodup := h side
  rw [hsplit] at hnodup
  refine setSide h ?_ ?_
  · rw [hsplit, modify_middle hnodup, resting_append, resting_append, resting_cons, resting_cons]
    exact (List.Sublist.refl _).append (hsub.append (List.Sublist.refl _))
  · rw [keys_modify]
    exact h side

end Book.Thinned

theorem Book.cancelOrder_thinned (h : b.Keyed) (base : N.Num) (side : Side) (price : N.Num)
    (orderId : Nat) : Thinned b (cancelOrder base b side price orderId) := by
  unfold cancelOrder
  cases hfind : find (b.side side) (N.key price) with
  | none => exact .refl h
  | some level =>
      dsimp only
      cases level.orders.find? (·.id = orderId) with
      | none => exact .refl h
      | some order =>
          dsimp only
          split
          · split
            · exact (Thinned.erase h hfind).rebuildBest base
            · exact .erase h hfind
          · exact .modify h hfind (List.eraseP_sublist.map _)

theorem not_mem_eraseP {orders : List (Order N)} (h : (orders.map Order.id).Nodup) {o : Order N}
    {id : Nat} (ho : o ∈ orders.eraseP (·.id = id)) : o.id ≠ id := by
  induction orders with
  | nil => exact absurd ho List.not_mem_nil
  | cons o' orders ih =>
      obtain ⟨hfresh, hnodup⟩ := List.nodup_cons.mp h
      by_cases hid : o'.id = id
      · rw [List.eraseP_cons_of_pos (by simpa using hid)] at ho
        rintro rfl
        exact hfresh (List.mem_map.mpr ⟨o, ho, hid.symm⟩)
      · rw [List.eraseP_cons_of_neg (by simpa using hid)] at ho
        rcases List.mem_cons.mp ho with rfl | ho
        · exact hid
        · exact ih hnodup ho

theorem level_ids (hids : (b.resting.map Resting.id).Nodup) {key : N.Key} {level : Level N}
    (hlevel : (key, level) ∈ b.side side) : (level.orders.map Order.id).Nodup := by
  have hsub : (Level.resting side key level.orders).Sublist b.resting := by
    have hside := List.sublist_flatten_of_mem (List.mem_map_of_mem
      (f := fun l : N.Key × Level N => Level.resting side l.1 l.2.orders) hlevel)
    refine hside.trans ?_
    cases side with
    | buy => exact List.sublist_append_left ..
    | sell => exact List.sublist_append_right ..
  have hnodup := hids.sublist (hsub.map Resting.id)
  rwa [Level.resting, List.map_map] at hnodup

theorem side_rebuildBest (base : N.Num) (b : Book N) (s : Side) :
    (Book._rebuildBest base b).side s = b.side s := by
  cases s <;> rfl

/-- Nothing with that id is left at the place of a cancel, if no id occurs twice. -/
theorem Book.cancelOrder_gone (h : b.Keyed) (hids : (b.resting.map Resting.id).Nodup)
    {base price : N.Num} {r : Resting N}
    (hr : r ∈ (cancelOrder base b r.side price r.id).resting) : r.key ≠ N.key price := by
  intro hkey
  obtain ⟨-, level', hlevel', o, ho, hid, -⟩ := mem_resting.mp (mem_resting_side.mp hr)
  rw [hkey] at hlevel'
  unfold cancelOrder at hlevel'
  cases hfind : find (b.side r.side) (N.key price) with
  | none =>
      rw [hfind] at hlevel'
      exact find_eq_none.mp hfind (List.mem_map.mpr ⟨_, hlevel', rfl⟩)
  | some level =>
      rw [hfind] at hlevel'
      dsimp only at hlevel'
      obtain ⟨pre, post, hsplit⟩ := split_of_find hfind
      have hnodup := h r.side
      rw [hsplit] at hnodup
      have hne := ne_of_middle hnodup
      cases horder : level.orders.find? (·.id = r.id) with
      | none =>
          rw [horder] at hlevel'
          have heq : level = level' :=
            Option.some.inj (hfind.symm.trans (find_of_mem (h r.side) hlevel'))
          subst heq
          exact absurd hid (by simpa using List.find?_eq_none.mp horder o ho)
      | some order =>
          rw [horder] at hlevel'
          dsimp only at hlevel'
          split at hlevel'
          · have hmem : (N.key price, level') ∈ pre ++ post := by
              rw [← erase_middle hnodup, ← hsplit]
              split at hlevel'
              · rwa [← side_setSide b r.side (erase _ _), ← side_rebuildBest base]
              · rwa [← side_setSide b r.side (erase _ _)]
            exact hne _ hmem rfl
          · rw [side_setSide, hsplit, modify_middle hnodup] at hlevel'
            rcases List.mem_append.mp hlevel' with hmem | hmem
            · exact hne _ (List.mem_append_left _ hmem) rfl
            · rcases List.mem_cons.mp hmem with heq | hmem
              · cases heq
                -- the ids of the level differ, and the one that is looked for is gone
                exact not_mem_eraseP (level_ids hids (mem_of_find hfind)) ho hid
              · exact hne _ (List.mem_append_right _ hmem) rfl

theorem takeOrders_sublist (side : Side) (key : N.Key) : ∀ (orders : List (Order N))
    (remaining volume : N.Num),
    (Level.resting side key (Book.takeOrders remaining volume orders).2.orders).Sublist
      (Level.resting side key orders) := by
  intro orders
  induction orders with
  | nil => exact fun _ _ => .refl _
  | cons order orders ih =>
      intro remaining volume
      rw [Book.takeOrders]
      split
      · dsimp only
        split
        · exact (ih _ _).cons _
        · exact (ih _ _).cons_cons _
      · exact .refl _

theorem Book.takeLevels_thinned (base : N.Num) (side : Side) : ∀ (ks : List N.Key)
    (remaining : N.Num) {b : Book N}, b.Keyed → Thinned b (takeLevels base side ks remaining b) := by
  intro ks
  induction ks with
  | nil => exact fun _ {_} h => .refl h
  | cons key ks ih =>
      intro remaining b h
      rw [takeLevels]
      split
      · exact .refl h
      cases hfind : find (b.side side) key with
      | none => exact .refl h
      | some level =>
          dsimp only
          split
          · have hstep := (Thinned.erase h hfind).rebuildBest base
            exact hstep.trans (ih _ hstep.keyed)
          · have hstep := Thinned.modify h hfind (takeOrders_sublist side key level.orders
              remaining level.volume)
            exact hstep.trans (ih _ hstep.keyed)

end Rests

end VidhiArena.Browser.Js
