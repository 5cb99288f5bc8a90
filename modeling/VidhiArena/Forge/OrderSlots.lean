import Mathlib.Algebra.Ring.Rat
import Mathlib.Data.List.Nodup
import VidhiArena.Forge.Transpiler
import VidhiArena.GameMaster.TickLoop

/-!
# From calls to executed orders

What the Game Master executes of the calls a strategy has made. `order_out` holds the
last call of each of the four slots; the loader packs the slots that are taken and
counts them, and `sandbox_runner.cpp` leaves the array and the count of the strategy
as they are.

Slots belong to places in the source text. A call in a loop writes the same slot
again, the fifth call in the text writes the slot of the first, and a branch that is
not taken leaves its slots empty.
-/

namespace VidhiArena.Forge

open VidhiArena.Foundation VidhiArena.GameMaster VidhiArena.Sandbox

/-! ## The last call of each slot -/

section LastCalls

variable {calls : List (Nat × OrderWord)} {c d : Nat × OrderWord} {i : Nat}

/-- The last call that went to slot `i`. -/
def lastCall (calls : List (Nat × OrderWord)) (i : Nat) : Option (Nat × OrderWord) :=
  (calls.filter fun c => c.1 % 4 = i).getLast?

/-- The calls that are left in the slots, in the order of the slots. -/
def survivors (calls : List (Nat × OrderWord)) : List (Nat × OrderWord) :=
  (List.range 4).filterMap (lastCall calls)

/-- The calls go to slots in ascending order. -/
def Ascending (calls : List (Nat × OrderWord)) : Prop :=
  calls.Pairwise fun c d => c.1 % 4 < d.1 % 4

instance (calls : List (Nat × OrderWord)) : Decidable (Ascending calls) :=
  inferInstanceAs (Decidable (List.Pairwise _ calls))

theorem lastCall_mem (h : lastCall calls i = some c) : c ∈ calls ∧ c.1 % 4 = i := by
  obtain ⟨hmem, hslot⟩ := List.mem_filter.mp (List.mem_of_getLast? h)
  exact ⟨hmem, of_decide_eq_true hslot⟩

theorem mem_survivors (h : c ∈ survivors calls) : c ∈ calls ∧ lastCall calls (c.1 % 4) = some c := by
  obtain ⟨i, -, hlast⟩ := List.mem_filterMap.mp h
  obtain ⟨hmem, rfl⟩ := lastCall_mem hlast
  exact ⟨hmem, hlast⟩

theorem survivors_ascending (calls : List (Nat × OrderWord)) : Ascending (survivors calls) := by
  refine List.Pairwise.filterMap _ ?_ List.pairwise_lt_range
  intro i j hlt c hc d hd
  rw [(lastCall_mem hc).2, (lastCall_mem hd).2]
  exact hlt

theorem Ascending.nodup (h : Ascending calls) : calls.Nodup :=
  h.imp fun hlt heq => by rw [heq] at hlt; exact lt_irrefl _ hlt

theorem Ascending.eq_of_slot (h : Ascending calls) (hc : c ∈ calls) (hd : d ∈ calls)
    (hslot : c.1 % 4 = d.1 % 4) : c = d := by
  have hslots : (calls.map fun c => c.1 % 4).Nodup := List.pairwise_map.mpr (h.imp Nat.ne_of_lt)
  exact List.inj_on_of_nodup_map hslots hc hd hslot

theorem Ascending.survivors_eq (h : Ascending calls) : survivors calls = calls := by
  have hmem : ∀ c, c ∈ survivors calls ↔ c ∈ calls := by
    intro c
    constructor
    · exact fun hc => (mem_survivors hc).1
    · intro hc
      refine List.mem_filterMap.mpr ⟨c.1 % 4, List.mem_range.mpr (Nat.mod_lt _ (by decide)), ?_⟩
      have hfilter : c ∈ calls.filter fun d => d.1 % 4 = c.1 % 4 :=
        List.mem_filter.mpr ⟨hc, decide_eq_true rfl⟩
      have hsome := List.getLast?_eq_some_getLast (List.ne_nil_of_mem hfilter)
      obtain ⟨hlast, hslot⟩ := lastCall_mem hsome
      exact hsome.trans (congrArg some (h.eq_of_slot hlast hc hslot))
  have hperm : (survivors calls).Perm calls :=
    (List.perm_ext_iff_of_nodup (survivors_ascending calls).nodup h.nodup).mpr hmem
  refine hperm.eq_of_pairwise (fun c d _ _ hlt hlt' => ?_) (survivors_ascending calls) h
  exact absurd hlt' (Nat.lt_asymm hlt)

theorem survivors_length (calls : List (Nat × OrderWord)) : (survivors calls).length ≤ 4 :=
  List.length_filterMap_le ..

/-- Overwritten or out of order: when all orders differ, the first four calls are in
the slots, in order, only if the calls went to ascending slots. -/
theorem ascending_of_survivors (hnodup : (calls.map Prod.snd).Nodup)
    (h : (survivors calls).map Prod.snd = (calls.map Prod.snd).take 4) : Ascending calls := by
  have hinj := List.inj_on_of_nodup_map hnodup
  have hfirst : survivors calls = calls.take 4 := by
    rw [← List.map_take] at h
    refine List.ext_getElem (by simpa using congrArg List.length h) fun k hk hk' => ?_
    refine hinj (mem_survivors (List.getElem_mem hk)).1 (List.mem_of_mem_take (List.getElem_mem hk')) ?_
    have hk : k < ((survivors calls).map Prod.snd).length := by simpa using hk
    simpa [-List.map_take] using List.getElem_of_eq h hk
  have hsorted := survivors_ascending calls
  by_cases hlen : calls.length ≤ 4
  · rwa [hfirst, List.take_of_length_le hlen] at hsorted
  · exfalso
    -- the fifth call has overwritten one of the first four
    obtain ⟨c, hc⟩ : ∃ c, c ∈ calls.drop 4 := List.exists_mem_of_length_pos (by simp; omega)
    have hfilter : c ∈ (calls.drop 4).filter fun d => d.1 % 4 = c.1 % 4 :=
      List.mem_filter.mpr ⟨hc, decide_eq_true rfl⟩
    have hlast : lastCall calls (c.1 % 4) =
        some (((calls.drop 4).filter fun d => d.1 % 4 = c.1 % 4).getLast
          (List.ne_nil_of_mem hfilter)) := by
      unfold lastCall
      conv_lhs => rw [← List.take_append_drop 4 calls, List.filter_append]
      rw [List.getLast?_append_of_ne_nil _ (List.ne_nil_of_mem hfilter)]
      exact List.getLast?_eq_some_getLast _
    have hlate := List.mem_of_mem_filter (List.getLast_mem (List.ne_nil_of_mem hfilter))
    have hearly := List.mem_filterMap.mpr
      ⟨c.1 % 4, List.mem_range.mpr (Nat.mod_lt _ (by decide)), hlast⟩
    rw [← survivors, hfirst] at hearly
    have hcalls : (calls.take 4 ++ calls.drop 4).Nodup := by
      rw [List.take_append_drop]
      exact hnodup.of_map _
    exact (List.nodup_append'.mp hcalls).2.2 hearly hlate

end LastCalls

/-! ## The hosts -/

/-- What the Game Master finds in the order zone after `order_out` has come from a host:
the loader's stores, or the array itself. -/
def Host.answered : Host → Page → Slots → Page
  | loader, page, out => { page with zone := Page.written page.zone (zoneStores out) }
  | sandboxRunner, page, out => { page with zone := out }

/-- Step 6 does something with the word. -/
def isOrder (w : OrderWord) : Bool := w.type ∈ [1, 2, 3, 4, 5]

theorem processOrders_filter (ws : List OrderWord) :
    processOrders (ws.filter isOrder) = processOrders ws := by
  induction ws with
  | nil => rfl
  | cons w ws ih =>
      by_cases h : isOrder w = true
      · rw [List.filter_cons_of_pos h, processOrders, ih, processOrders]
      · have hskip : w.dispatch = .ret [] := by
          have hother : ∀ t ∈ [1, 2, 3, 4, 5], w.type ≠ t := fun t ht heq =>
            h (decide_eq_true (heq ▸ ht))
          rw [OrderWord.dispatch, if_neg (hother 1 (by decide)), if_neg (hother 2 (by decide)),
            if_neg (hother 3 (by decide)), if_neg (hother 4 (by decide)),
            if_neg (hother 5 (by decide))]
          rfl
        rw [List.filter_cons_of_neg h, ih, processOrders, hskip]
        exact (Prog.bind_ret _).symm

/-- The order words that step 6 executes. -/
def executed (host : Host) (page : Page) (out : Slots) : List OrderWord :=
  (sharedMem (host.answered page out)).pending.filter isOrder

theorem toNat_min_count (n : Nat) (h : n ≤ 4) : (min (Int64.ofNat n) 4).toInt.toNat = n := by
  have hcount : ∀ n, n ≤ 4 → (min (Int64.ofNat n) 4).toInt.toNat = n := by decide
  exact hcount n h

theorem pending_loader (page : Page) (out : Slots) :
    (sharedMem (Host.loader.answered page out)).pending = ordersIn out := by
  obtain ⟨hcount, hwords⟩ := Page.holds_zoneStores page out
  have hlen := ordersIn_length out
  unfold SharedMem.pending
  rw [show (sharedMem (Host.loader.answered page out)).orderCount =
    Int64.ofNat (ordersIn out).length from hcount, toNat_min_count _ hlen]
  refine List.ext_getElem ?_ fun k hk hk' => ?_
  · simpa using hlen
  · have hword := hwords k _ (List.getElem?_eq_getElem hk')
    rw [hword]
    simp [sharedMem, Host.answered]

theorem ordersIn_eq (out : Slots) :
    ordersIn out = ((List.range 4).map (orderAt out)).filter fun w => w.type ≠ 0 := rfl

/-- A call is an order: every word that a program hands in has a type. -/
theorem run_isOrder {M : Machine} : ∀ {s : Stmt M} {site : Nat} {env : Env M},
    (∀ c ∈ env.calls, isOrder c.2 = true) → ∀ c ∈ (s.run site env).calls, isOrder c.2 = true := by
  intro s
  induction s with
  | pass => exact fun h => h
  | assign x e => exact fun h => h
  | assignState name e => exact fun h => h
  | order call =>
      intro site env h c hc
      rcases List.mem_append.mp hc with hc | hc
      · exact h c hc
      · rw [List.mem_singleton.mp hc]
        cases call <;> rfl
  | seq s t ihs iht => exact fun h => iht (ihs h)
  | ite test body orelse ihb iho =>
      intro site env h
      unfold Stmt.run
      split
      · exact ihb h
      · exact iho h
  | forRange x args body ih =>
      intro site env h
      unfold Stmt.run
      refine List.foldlRecOn (motive := fun env : Env M => ∀ c ∈ env.calls, isOrder c.2 = true)
        _ _ h ?_
      exact fun env h v _ => ih h

/-! ## Transpiled strategies -/

section Strategies

variable {M : Machine} {p : Stmt M} {code : Code M} {idx : Nat}

/-- The calls that the source program makes in a call of `on_tick`. -/
def callsOf (p : Stmt M) (locals : String → M.Value) (md oo : Slots) : List (Nat × OrderWord) :=
  (p.run 0 ⟨locals, attrsOf M md oo, []⟩).calls

theorem onTick_slots (hproper : p.proper = true) (hcode : p.transpile 0 = .ok (code, idx))
    (locals : String → M.Value) (md oo : Slots) :
    onTick code locals md oo 0 = Int64.ofNat (callsOf p locals md oo).length ∧
      ∀ i < 4, orderAt (onTick code locals md oo) i = placed (callsOf p locals md oo) i := by
  have hstart : p.transpile (0 % 4) = .ok (code, idx) := hcode
  have hsim := transpile_simulates hproper hstart (simulates_start locals md oo)
  exact ⟨hsim.count, hsim.slots⟩

theorem callsOf_isOrder {locals : String → M.Value} {md oo : Slots} :
    ∀ c ∈ callsOf p locals md oo, isOrder c.2 = true :=
  run_isOrder fun _ hc => absurd hc List.not_mem_nil

theorem filter_placed {calls : List (Nat × OrderWord)} {q : OrderWord → Bool}
    (hq : ∀ c ∈ calls, q c.2 = true) (hzero : q ⟨0, 0, 0, 0⟩ = false) (slots : List Nat) :
    (slots.map (placed calls)).filter q = (slots.filterMap (lastCall calls)).map Prod.snd := by
  have hplaced : ∀ i, placed calls i = ((lastCall calls i).map Prod.snd).getD ⟨0, 0, 0, 0⟩ :=
    fun _ => rfl
  induction slots with
  | nil => rfl
  | cons i slots ih =>
      cases h : lastCall calls i with
      | none =>
          have hskip : q (placed calls i) = false := by
            rw [hplaced, h]
            exact hzero
          rw [List.map_cons, List.filter_cons_of_neg (by rw [hskip]; exact Bool.false_ne_true), ih,
            List.filterMap_cons_none h]
      | some c =>
          have htaken : placed calls i = c.2 := by
            rw [hplaced, h]
            rfl
          rw [List.map_cons, htaken, List.filter_cons_of_pos (hq c (lastCall_mem h).1), ih,
            List.filterMap_cons_some h, List.map_cons]

/-- Under the loader the Game Master executes the surviving calls. -/
theorem executed_loader (hproper : p.proper = true) (hcode : p.transpile 0 = .ok (code, idx))
    (locals : String → M.Value) (md oo : Slots) (page : Page) :
    executed .loader page (onTick code locals md oo) =
      (survivors (callsOf p locals md oo)).map Prod.snd := by
  have hslots := (onTick_slots hproper hcode locals md oo).2
  have hwords : (List.range 4).map (orderAt (onTick code locals md oo)) =
      (List.range 4).map (placed (callsOf p locals md oo)) :=
    List.map_congr_left fun i hi => hslots i (List.mem_range.mp hi)
  have htype : ∀ c ∈ callsOf p locals md oo, decide (c.2.type ≠ 0) = true := by
    intro c hc
    have horder := callsOf_isOrder c hc
    refine decide_eq_true fun hzero => ?_
    rw [isOrder, hzero] at horder
    cases horder
  unfold executed
  rw [pending_loader, ordersIn_eq, hwords, filter_placed htype rfl]
  refine List.filter_eq_self.mpr fun w hw => ?_
  obtain ⟨c, hc, rfl⟩ := List.mem_map.mp hw
  exact callsOf_isOrder c (mem_survivors hc).1

end Strategies

inductive ExactOp where
  | add
  | less
deriving DecidableEq

def Exact.toRat : Exact → ℚ
  | number q => q
  | tuple _ => 0

theorem fixed_number_zero :
    Int64.ofInt (((0 : ℚ) * 1000000).num.tdiv ((0 : ℚ) * 1000000).den) = 0 := by
  decide +kernel

/-- Exact numbers with a few operators. -/
def Machine.exact : Machine where
  toNumerals := Numerals.exact
  zero := .number 0
  fixed v := Int64.ofInt ((v.toRat * 1000000).num.tdiv (v.toRat * 1000000).den)
  whole v := Int64.ofInt (v.toRat.num.tdiv v.toRat.den)
  fixed_zero := fixed_number_zero
  truth v := v.toRat ≠ 0
  range
    | [stop] => (List.range stop.toRat.num.toNat).map fun i => .number i
    | _ => []
  Op := ExactOp
  apply
    | .add, vs => .number (vs.map Exact.toRat).sum
    | .less, [a, b] => .number (if a.toRat < b.toRat then 1 else 0)
    | .less, _ => .number 0

def lit (q : ℚ) : Expr Machine.exact StateName := .const (.number q)

def noLocals : String → Machine.exact.Value := fun _ => .number 0

/-- `if state.spread < 1: orders.limit_buy(state.bid_price, 5)`, and then
`orders.market_sell(2)`. -/
def quoteAndSell : Stmt Machine.exact :=
  .seq (.ite (.op ExactOp.less [.read (.market .spread), lit 1])
    (.order (.limitBuy (.read (.market .bidPrice)) (lit 5))) .pass) (.order (.marketSell (lit 2)))

/-- A bid of 100.50, and everything else zero. -/
def bidOnly : Slots := Function.update (fun _ => 0) 0 100500000

/-- `for i in range(2): orders.market_buy(10)`. -/
def buyTwice : Stmt Machine.exact := .forRange "i" [lit 2] (.order (.marketBuy (lit 10)))

theorem lt_min_count (c : Int64) {i : Nat} (hi : i < 4) :
    i < (min c 4).toInt.toNat ↔ (i : Int) < c.toInt := by
  have hfour : (4 : Int64).toInt = 4 := rfl
  have hmin : (min c 4).toInt = min c.toInt 4 := by
    change (if c ≤ 4 then c else 4).toInt = _
    split
    · next h =>
        rw [Int64.le_iff_toInt_le, hfour] at h
        omega
    · next h =>
        rw [Int64.le_iff_toInt_le, hfour] at h
        omega
  rw [hmin]
  omega

theorem pending_sandboxRunner (page : Page) (out : Slots) :
    (sharedMem (Host.sandboxRunner.answered page out)).pending =
      ((List.range 4).map (orderAt out)).take (min (out 0) 4).toInt.toNat := rfl

theorem executed_loader_eq (page : Page) (out : Slots) :
    executed .loader page out = ((List.range 4).map (orderAt out)).filter isOrder := by
  unfold executed
  rw [pending_loader, ordersIn_eq, List.filter_filter]
  refine List.filter_congr fun w _ => ?_
  by_cases hzero : w.type = 0
  · simp [isOrder, hzero]
  · simp [hzero]

theorem executed_sandboxRunner_eq (page : Page) (out : Slots) :
    executed .sandboxRunner page out =
      (((List.range 4).map (orderAt out)).take (min (out 0) 4).toInt.toNat).filter isOrder := rfl

theorem filter_eq_filter_take {α : Type} {q : α → Bool} {l : List α} {n : Nat} :
    l.filter q = (l.take n).filter q ↔ ∀ x ∈ l.drop n, ¬ q x = true := by
  rw [← List.filter_eq_nil_iff]
  conv_lhs => rw [← List.take_append_drop n l, List.filter_append, List.take_append_drop]
  exact List.append_right_eq_self

/-- Two hosts, one array: they execute the same orders if and only if every slot that
holds an order has a number below the count that the strategy has left. -/
theorem executed_eq_iff (page page' : Page) (out : Slots) :
    executed .loader page out = executed .sandboxRunner page' out ↔
      ∀ i < 4, isOrder (orderAt out i) = true → (i : Int) < (out 0).toInt := by
  rw [executed_loader_eq, executed_sandboxRunner_eq, filter_eq_filter_take]
  constructor
  · intro h i hi horder
    by_contra hlate
    refine h (orderAt out i) ?_ horder
    rw [← lt_min_count _ hi] at hlate
    refine List.mem_drop_iff_getElem.mpr ⟨i - (min (out 0) 4).toInt.toNat, ?_, ?_⟩
    · rw [List.length_map, List.length_range]
      omega
    · simp only [List.getElem_map, List.getElem_range]
      rw [Nat.add_sub_cancel' (Nat.not_lt.mp hlate)]
  · intro h w hw horder
    obtain ⟨k, hk, rfl⟩ := List.mem_drop_iff_getElem.mp hw
    simp only [List.getElem_map, List.getElem_range] at horder
    have hlt : (min (out 0) 4).toInt.toNat + k < 4 := by
      rw [List.length_map, List.length_range] at hk
      omega
    have := (lt_min_count (out 0) hlt).mpr (h _ hlt horder)
    omega

theorem isOrder_placed {calls : List (Nat × OrderWord)}
    (hcalls : ∀ c ∈ calls, isOrder c.2 = true) (i : Nat) :
    isOrder (placed calls i) = true ↔ ∃ c ∈ calls, c.1 % 4 = i := by
  have hplaced : placed calls i = ((lastCall calls i).map Prod.snd).getD ⟨0, 0, 0, 0⟩ := rfl
  constructor
  · intro h
    cases hlast : lastCall calls i with
    | none =>
        rw [hplaced, hlast] at h
        cases h
    | some c => exact ⟨c, lastCall_mem hlast⟩
  · rintro ⟨c, hc, hslot⟩
    have hfilter : c ∈ calls.filter fun d => d.1 % 4 = i :=
      List.mem_filter.mpr ⟨hc, decide_eq_true hslot⟩
    have hlast := List.getLast?_eq_some_getLast (List.ne_nil_of_mem hfilter)
    rw [hplaced, lastCall, hlast]
    exact hcalls _ (lastCall_mem hlast).1

/-- The hosts are interchangeable for a strategy and a snapshot if and only if every
slot that holds an order at the end of `on_tick` has a number below `order_count`; for a
strategy that names no order slot on `state` itself: if and only if every call that it
makes belongs to a slot with a number below the number of its calls. -/
theorem hosts_interchangeable_iff {M : Machine} {p : Stmt M} {code : Code M} {idx : Nat}
    (hcode : p.transpile 0 = .ok (code, idx)) (locals : String → M.Value) (md oo : Slots)
    (page page' : Page) :
    (executed .loader page (onTick code locals md oo) =
        executed .sandboxRunner page' (onTick code locals md oo) ↔
      ∀ i < 4, isOrder (orderAt (onTick code locals md oo) i) = true →
        (i : Int) < (onTick code locals md oo 0).toInt) ∧
    (p.proper = true →
      (executed .loader page (onTick code locals md oo) =
          executed .sandboxRunner page' (onTick code locals md oo) ↔
        ∀ c ∈ callsOf p locals md oo,
          ((c.1 % 4 : Nat) : Int) < (Int64.ofNat (callsOf p locals md oo).length).toInt)) := by
  refine ⟨executed_eq_iff page page' _, fun hproper => ?_⟩
  obtain ⟨hcount, hslots⟩ := onTick_slots hproper hcode locals md oo
  rw [executed_eq_iff, hcount]
  constructor
  · intro h c hc
    have hlt : c.1 % 4 < 4 := Nat.mod_lt _ (by decide)
    refine h _ hlt ?_
    rw [hslots _ hlt]
    exact (isOrder_placed callsOf_isOrder _).mpr ⟨c, hc, rfl⟩
  · intro h i hi horder
    rw [hslots i hi] at horder
    obtain ⟨c, hc, rfl⟩ := (isOrder_placed callsOf_isOrder i).mp horder
    exact h c hc

/-- Both hosts have the Game Master buy and sell. -/
theorem hosts_interchangeable_branch :
    ∃ code idx, quoteAndSell.transpile 0 = .ok (code, idx) ∧
      executed .loader Page.zero (onTick code noLocals bidOnly fun _ => 0) =
        executed .sandboxRunner Page.zero (onTick code noLocals bidOnly fun _ => 0) := by
  obtain ⟨⟨code, idx⟩, hcode⟩ : ∃ r, quoteAndSell.transpile 0 = .ok r := ⟨_, rfl⟩
  refine ⟨code, idx, hcode, ?_⟩
  have h := hosts_interchangeable_iff hcode noLocals bidOnly (fun _ => 0) Page.zero Page.zero
  exact (h.2 (by decide)).mpr (by decide +kernel)

/-- `if state.bid_price < 1: orders.market_buy(1)`, and `orders.market_sell(1)` otherwise. -/
def buyOrSell : Stmt Machine.exact :=
  .ite (.op ExactOp.less [.read (.market .bidPrice), lit 1]) (.order (.marketBuy (lit 1)))
    (.order (.marketSell (lit 1)))

/-- A branch that is not taken leaves the first slot empty: the strategy sells one
share, its order is in the second slot and the count is 1. The loader hands the order
over; from the runner's array the Game Master reads the empty slot. -/
theorem runner_drops_order :
    ∃ code idx, buyOrSell.transpile 0 = .ok (code, idx) ∧
      executed .loader Page.zero (onTick code noLocals bidOnly fun _ => 0) = [⟨4, 0, 1, 0⟩] ∧
      executed .sandboxRunner Page.zero (onTick code noLocals bidOnly fun _ => 0) = [] := by
  obtain ⟨⟨code, idx⟩, hcode⟩ : ∃ r, buyOrSell.transpile 0 = .ok r := ⟨_, rfl⟩
  refine ⟨code, idx, hcode, ?_⟩
  cases hcode
  exact ⟨by decide +kernel, by decide +kernel⟩

end VidhiArena.Forge
