import VidhiArena.Forge.OrderSlots

/-!
# Orders of a native strategy

`OrderBuffer` of `vidhi_sdk/cpp/vidhi.hpp`, between its calls and step 6 of the Game
Master. A buffer is a view of the array that a host lends to `on_tick`: the loader one whose
order slots are zero, the sandbox runner the order zone as the last tick has left it.
-/

namespace VidhiArena.Forge

open VidhiArena.Foundation VidhiArena.GameMaster VidhiArena.Sandbox BookProg

/-- A call of one of the five methods, with its price in fixed point. -/
inductive BufferCall where
  | limitBuy (priceFp volume : Int64)
  | limitSell (priceFp volume : Int64)
  | marketBuy (volume : Int64)
  | marketSell (volume : Int64)
  | cancel (orderId : UInt64)
deriving DecidableEq

structure OrderBuffer where
  oo : Slots
  count : Nat

namespace OrderBuffer

def new (oo : Slots) : OrderBuffer := ⟨Function.update oo 0 0, 0⟩

/-- The body that the five methods have in common. -/
def push (b : OrderBuffer) (type priceFp volume orderId : Int64) : OrderBuffer :=
  if 4 ≤ b.count then b
  else
    let base := 1 + b.count * 4
    let oo := Function.update b.oo base type
    let oo := Function.update oo (base + 1) priceFp
    let oo := Function.update oo (base + 2) volume
    let oo := Function.update oo (base + 3) orderId
    ⟨Function.update oo 0 (Int64.ofNat (b.count + 1)), b.count + 1⟩

def limitBuy (b : OrderBuffer) (priceFp volume : Int64) : OrderBuffer := b.push 1 priceFp volume 0

def limitSell (b : OrderBuffer) (priceFp volume : Int64) : OrderBuffer := b.push 2 priceFp volume 0

def marketBuy (b : OrderBuffer) (volume : Int64) : OrderBuffer := b.push 3 0 volume 0

def marketSell (b : OrderBuffer) (volume : Int64) : OrderBuffer := b.push 4 0 volume 0

def cancel (b : OrderBuffer) (orderId : UInt64) : OrderBuffer := b.push 5 0 0 orderId.toInt64

/-- `state(index) = value`. -/
def setState (b : OrderBuffer) (index : Fin 16) (value : Int64) : OrderBuffer :=
  { b with oo := Function.update b.oo (48 + index) value }

def apply (b : OrderBuffer) : BufferCall → OrderBuffer
  | .limitBuy priceFp volume => b.limitBuy priceFp volume
  | .limitSell priceFp volume => b.limitSell priceFp volume
  | .marketBuy volume => b.marketBuy volume
  | .marketSell volume => b.marketSell volume
  | .cancel orderId => b.cancel orderId

end OrderBuffer

namespace BufferCall

def word : BufferCall → OrderWord
  | limitBuy priceFp volume => ⟨1, priceFp, volume, 0⟩
  | limitSell priceFp volume => ⟨2, priceFp, volume, 0⟩
  | marketBuy volume => ⟨3, 0, volume, 0⟩
  | marketSell volume => ⟨4, 0, volume, 0⟩
  | cancel orderId => ⟨5, 0, 0, orderId.toInt64⟩

/-- What the strategy has asked the Game Master for. -/
def execute : BufferCall → BookProg (List MatchedFill)
  | limitBuy priceFp volume => do
      let _ ← addLimit true priceFp volume contestant
      return []
  | limitSell priceFp volume => do
      let _ ← addLimit false priceFp volume contestant
      return []
  | marketBuy volume => marketOrder true volume contestant
  | marketSell volume => marketOrder false volume contestant
  | cancel orderId => do
      let _ ← BookProg.cancel orderId
      return []

def executeAll : List BufferCall → BookProg (List MatchedFill)
  | [] => return []
  | c :: cs => do
      let f ← c.execute
      let fs ← executeAll cs
      return f ++ fs

theorem dispatch_word (c : BufferCall) : c.word.dispatch = c.execute := by
  cases c <;> rfl

theorem processOrders_word (cs : List BufferCall) :
    processOrders (cs.map word) = executeAll cs := by
  induction cs with
  | nil => rfl
  | cons c cs ih => rw [List.map_cons, processOrders, dispatch_word, ih, executeAll]

theorem isOrder_word (c : BufferCall) : isOrder c.word = true := by
  cases c <;> rfl

theorem type_word (c : BufferCall) : c.word.type ≠ 0 := by
  intro h
  have := isOrder_word c
  rw [isOrder, h] at this
  cases this

theorem apply_eq (b : OrderBuffer) (c : BufferCall) :
    b.apply c = b.push c.word.type c.word.priceFp c.word.volume c.word.orderId := by
  cases c <;> rfl

end BufferCall

/-! ## What a buffer leaves in the array -/

namespace OrderBuffer

variable {oo out : Slots} {cs : List BufferCall} {b : OrderBuffer}

/-- The array has the first four of the calls; behind them is what was there before. -/
structure Filled (oo : Slots) (cs : List BufferCall) (out : Slots) : Prop where
  words : ∀ i < min cs.length 4, some (orderAt out i) = cs[i]?.map BufferCall.word
  rest : ∀ i < 4, min cs.length 4 ≤ i → orderAt out i = orderAt oo i

theorem filled_nil (h : ∀ i < 4, orderAt out i = orderAt oo i) : Filled oo [] out :=
  ⟨fun _ h => absurd h (Nat.not_lt_zero _), fun i hi _ => h i hi⟩

theorem Filled.congr {out' : Slots} (h : Filled oo cs out)
    (hkeep : ∀ i < 4, orderAt out' i = orderAt out i) : Filled oo cs out' := by
  have hcount : min cs.length 4 ≤ 4 := min_le_right _ _
  refine ⟨fun i hi => ?_, fun i hi hle => (hkeep i hi).trans (h.rest i hi hle)⟩
  rw [hkeep i (by omega)]
  exact h.words i hi

theorem orderAt_push {type priceFp volume orderId : Int64} (hroom : b.count < 4) (i : Nat) :
    orderAt (b.push type priceFp volume orderId).oo i =
      if i = b.count then ⟨type, priceFp, volume, orderId⟩ else orderAt b.oo i := by
  rw [push, if_neg (Nat.not_le.mpr hroom)]
  split
  · rename_i heq
    subst heq
    simp [orderAt]
  · rename_i hne
    refine orderAt_congr fun k hk => ?_
    dsimp only
    rw [Function.update_of_ne (by omega), Function.update_of_ne (by omega),
      Function.update_of_ne (by omega), Function.update_of_ne (by omega),
      Function.update_of_ne (by omega)]

theorem apply_full (hfull : 4 ≤ b.count) (c : BufferCall) : b.apply c = b := by
  rw [BufferCall.apply_eq, push, if_pos hfull]

theorem apply_room (hroom : b.count < 4) (c : BufferCall) :
    (b.apply c).count = b.count + 1 ∧ (b.apply c).oo 0 = Int64.ofNat (b.count + 1) ∧
      ∀ i, orderAt (b.apply c).oo i = if i = b.count then c.word else orderAt b.oo i := by
  rw [BufferCall.apply_eq]
  refine ⟨?_, ?_, orderAt_push hroom⟩
  · rw [push, if_neg (Nat.not_le.mpr hroom)]
  · rw [push, if_neg (Nat.not_le.mpr hroom)]
    dsimp only
    rw [Function.update_self]

theorem orderAt_setState (b : OrderBuffer) (index : Fin 16) (value : Int64) {i : Nat}
    (hi : i < 4) : orderAt (b.setState index value).oo i = orderAt b.oo i :=
  orderAt_congr fun k hk => Function.update_of_ne (by omega) ..

theorem Filled.concat {out' : Slots} (h : Filled oo cs out) (c : BufferCall)
    (hroom : cs.length < 4)
    (hslots : ∀ i, orderAt out' i = if i = cs.length then c.word else orderAt out i) :
    Filled oo (cs ++ [c]) out' := by
  have hlength : (cs ++ [c]).length = cs.length + 1 := by simp
  refine ⟨fun i hi => ?_, fun i hi hle => ?_⟩
  · rw [hslots]
    split
    · rename_i heq
      subst heq
      rw [List.getElem?_concat_length]
      rfl
    · rw [List.getElem?_append_left (by omega)]
      exact h.words i (by omega)
  · rw [hslots, if_neg (by omega)]
    exact h.rest i hi (by omega)

theorem Filled.concat_full (h : Filled oo cs out) (c : BufferCall) (hfull : 4 ≤ cs.length) :
    Filled oo (cs ++ [c]) out := by
  have hlength : (cs ++ [c]).length = cs.length + 1 := by simp
  refine ⟨fun i hi => ?_, fun i hi hle => h.rest i hi (by omega)⟩
  rw [List.getElem?_append_left (by omega)]
  exact h.words i (by omega)

theorem Filled.taken (h : Filled oo cs out) :
    (List.range (min cs.length 4)).map (orderAt out) = (cs.take 4).map BufferCall.word := by
  refine List.ext_getElem? fun i => ?_
  by_cases hi : i < min cs.length 4
  · rw [List.getElem?_map, List.getElem?_map, List.getElem?_range hi,
      List.getElem?_take_of_lt (by omega)]
    exact h.words i hi
  · rw [List.getElem?_eq_none (by rw [List.length_map, List.length_range]; omega),
      List.getElem?_eq_none (by rw [List.length_map, List.length_take]; omega)]

theorem Filled.pending_loader (h : Filled oo cs out) (hzero : ∀ i < 4, (orderAt oo i).type = 0)
    (page : Page) : (sharedMem (Host.loader.answered page out)).pending =
      (cs.take 4).map BufferCall.word := by
  have hrange : List.range (min cs.length 4) = (List.range 4).take (min cs.length 4) := by
    rw [List.take_range, min_eq_left (min_le_right _ _)]
  have htaken := h.taken
  rw [hrange] at htaken
  have hfirst : ∀ w ∈ (cs.take 4).map BufferCall.word, decide (w.type ≠ 0) = true := by
    intro w hw
    obtain ⟨c, -, rfl⟩ := List.mem_map.mp hw
    exact decide_eq_true c.type_word
  have hrest : ∀ w ∈ ((List.range 4).drop (min cs.length 4)).map (orderAt out),
      ¬ decide (w.type ≠ 0) = true := by
    intro w hw
    obtain ⟨i, hi, rfl⟩ := List.mem_map.mp hw
    obtain ⟨k, hk, rfl⟩ := List.mem_drop_iff_getElem.mp hi
    rw [List.length_range, Nat.add_comm] at hk
    rw [List.getElem_range, h.rest _ hk (Nat.le_add_right _ _), hzero _ hk]
    decide
  rw [Forge.pending_loader, ordersIn_eq, ← List.take_append_drop (min cs.length 4) (List.range 4),
    List.map_append, List.filter_append, htaken, List.filter_eq_self.mpr hfirst,
    List.filter_eq_nil_iff.mpr hrest, List.append_nil]

/-- From the runner's array the Game Master reads as many words as are counted. -/
theorem Filled.pending_sandboxRunner (h : Filled oo cs out)
    (hheader : out 0 = Int64.ofNat (min cs.length 4)) (page : Page) :
    (sharedMem (Host.sandboxRunner.answered page out)).pending =
      (cs.take 4).map BufferCall.word := by
  have hcount : min cs.length 4 ≤ 4 := min_le_right _ _
  rw [Forge.pending_sandboxRunner, hheader, toNat_min_count _ hcount, ← List.map_take,
    List.take_range, min_eq_left hcount, h.taken]

/-! ### One buffer -/

/-- A buffer that has got these calls, alone. -/
structure Holds (oo : Slots) (cs : List BufferCall) (b : OrderBuffer) : Prop where
  count : b.count = min cs.length 4
  header : b.oo 0 = Int64.ofNat (min cs.length 4)
  filled : Filled oo cs b.oo

theorem holds_new (oo : Slots) : Holds oo [] (new oo) where
  count := rfl
  header := by
    rw [new]
    dsimp only
    rw [Function.update_self]
    rfl
  filled := filled_nil fun _ _ => orderAt_congr fun k _ => Function.update_of_ne (by omega) ..

theorem Holds.apply (h : Holds oo cs b) (c : BufferCall) : Holds oo (cs ++ [c]) (b.apply c) := by
  have hcount := h.count
  have hlength : (cs ++ [c]).length = cs.length + 1 := by simp
  rcases Nat.lt_or_ge cs.length 4 with hroom | hfull
  · have hsame : b.count = cs.length := hcount.trans (min_eq_left hroom.le)
    obtain ⟨hnext, hheader, hslots⟩ := apply_room (hsame.trans_lt hroom) c
    rw [hsame] at hslots
    have hmore : min (cs ++ [c]).length 4 = b.count + 1 := by omega
    exact ⟨hnext.trans hmore.symm, by rw [hmore]; exact hheader, h.filled.concat c hroom hslots⟩
  · rw [apply_full (by omega)]
    have hsame : min (cs ++ [c]).length 4 = min cs.length 4 := by omega
    exact ⟨hcount.trans hsame.symm, by rw [hsame]; exact h.header, h.filled.concat_full c hfull⟩

theorem Holds.setState (h : Holds oo cs b) (index : Fin 16) (value : Int64) :
    Holds oo cs (b.setState index value) where
  count := h.count
  header := (Function.update_of_ne (by omega) ..).trans h.header
  filled := h.filled.congr fun _ hi => orderAt_setState b index value hi

end OrderBuffer

/-! ## From the array to the Game Master -/

/-- The array that `on_tick` is given. -/
def Host.orderOut : Host → Page → Slots → Slots
  | loader, _, last => fun slot => if slot ≤ 16 then 0 else last slot
  | sandboxRunner, page, _ => page.zone

theorem OrderBuffer.Holds.pending {cs : List BufferCall} {b : OrderBuffer} (host : Host)
    {page : Page} {last : Slots} (h : OrderBuffer.Holds (host.orderOut page last) cs b) :
    (sharedMem (host.answered page b.oo)).pending = (cs.take 4).map BufferCall.word := by
  cases host with
  | loader => exact h.filled.pending_loader (fun i hi => if_pos (by omega)) page
  | sandboxRunner => exact h.filled.pending_sandboxRunner h.header page

end VidhiArena.Forge
