import VidhiArena.Browser.JsEngine

/-!
# Running the contestant's function

`ContestantRunner.run`: the function gets a `state` object made of the market and of the
persistent slots, and an `orders` object whose methods push to a list. A function is known
by what it does to these and to `this.state`, which it can reach as well, before it returns
or throws; all this may depend on everything that it can see.

Four of the twelve slots are copied back, and only when the function returns. The orders
are in the list once they have been submitted.
-/

namespace VidhiArena.Browser.Js

variable {N : Numbers} {V M σ : Type}

inductive Slot where
  | ema_fast | ema_slow | tick_count | my_position
  | s0 | s1 | s2 | s3 | s4 | s5 | s6 | s7
  deriving DecidableEq

def Slot.all : List Slot :=
  [.ema_fast, .ema_slow, .tick_count, .my_position, .s0, .s1, .s2, .s3, .s4, .s5, .s6, .s7]

theorem Slot.mem_all (slot : Slot) : slot ∈ Slot.all := by
  cases slot <;> decide

/-- The slots that `run` copies back. -/
def Slot.copied : Slot → Bool
  | ema_fast | ema_slow | tick_count | my_position => true
  | _ => false

abbrev Slots (V : Type) := Slot → V

/-- A step of the function that is seen outside. -/
inductive Effect (N : Numbers) (V : Type) where
  /-- `state.slot = value` -/
  | setState (slot : Slot) (value : V)
  /-- `this.state.slot = value` -/
  | setOwn (slot : Slot) (value : V)
  /-- a call of one of the methods of `orders`, with its arguments -/
  | submit (order : ContestantOrder N)

/-- What one call of the function does. -/
structure Execution (N : Numbers) (V σ : Type) where
  effects : List (Effect N V)
  threw : Bool
  /-- whatever else the function remembers -/
  memory : σ

/-- A function, over the market state and the slots that it is given. -/
abbrev ContestantFn (N : Numbers) (V M σ : Type) := σ → M → Slots V → Execution N V σ

/-- `Math.min(vol, POSITION_LIMIT)` in the methods of `orders`. -/
def ContestantOrder.limit : ContestantOrder N → ContestantOrder N
  | limitBuy price vol => .limitBuy price (N.min vol (N.ofInt POSITION_LIMIT))
  | limitSell price vol => .limitSell price (N.min vol (N.ofInt POSITION_LIMIT))
  | marketBuy vol => .marketBuy (N.min vol (N.ofInt POSITION_LIMIT))
  | marketSell vol => .marketSell (N.min vol (N.ofInt POSITION_LIMIT))
  | cancel orderId => .cancel orderId

/-- During a call: the slots of the `state` object, those of `this.state`, and the list. -/
structure Frame (N : Numbers) (V : Type) where
  state : Slots V
  own : Slots V
  submittedOrders : List (ContestantOrder N)

def Effect.perform (f : Frame N V) : Effect N V → Frame N V
  | setState slot value => { f with state := Function.update f.state slot value }
  | setOwn slot value => { f with own := Function.update f.own slot value }
  | submit order => { f with submittedOrders := f.submittedOrders ++ [order.limit] }

def Effect.isSubmit : Effect N V → Bool
  | submit _ => true
  | setState .. | setOwn .. => false

structure ContestantRunner (N : Numbers) (V M σ : Type) where
  state : Slots V
  fn : Option (ContestantFn N V M σ)
  memory : σ

namespace ContestantRunner

def new [Zero V] (fn : Option (ContestantFn N V M σ)) (memory : σ) : ContestantRunner N V M σ :=
  ⟨fun _ => 0, fn, memory⟩

/-- The end of a call that began with the slots `slots`. -/
def Ended (slots : Slots V) (e : Execution N V σ) : Frame N V :=
  e.effects.foldl Effect.perform ⟨slots, slots, []⟩

/-- `this.state.ema_fast = state.ema_fast` and so on. -/
def copyBack (f : Frame N V) : Slots V := fun slot =>
  if slot.copied then f.state slot else f.own slot

def run (r : ContestantRunner N V M σ) (marketState : M) :
    List (ContestantOrder N) × ContestantRunner N V M σ :=
  match r.fn with
  | none => ([], r)
  | some fn =>
      let e := fn r.memory marketState r.state
      let f := Ended r.state e
      (f.submittedOrders,
        { r with
          state := if e.threw then f.own else copyBack f
          memory := e.memory })

/-! ## The slots from tick to tick -/

/-- A call of the function, seen from outside. -/
structure Call (N : Numbers) (V : Type) where
  /-- the slots of `state` when it began -/
  start : Slots V
  finish : Frame N V
  threw : Bool

/-- The call that `run` makes, if there is a function. -/
def call (r : ContestantRunner N V M σ) (marketState : M) : Option (Call N V) :=
  r.fn.map fun fn =>
    let e := fn r.memory marketState r.state
    ⟨r.state, Ended r.state e, e.threw⟩

/-- The calls of a sequence of ticks. -/
def calls : ContestantRunner N V M σ → List M → List (Call N V)
  | _, [] => []
  | r, marketState :: markets =>
      (r.call marketState).toList ++ calls (r.run marketState).2 markets

/-- What is in the slots at the end of a call is there at the start of the next. -/
def Persistent (cs : List (Call N V)) : Prop :=
  cs.IsChain fun c c' => c'.start = c.finish.state

/-- The slots that are not copied back are as `this.state` has them. -/
def Call.Settled (c : Call N V) : Prop :=
  ∀ slot, slot.copied = false → c.finish.state slot = c.finish.own slot

instance [DecidableEq V] (c : Call N V) : Decidable c.Settled :=
  decidable_of_iff (∀ slot ∈ Slot.all, slot.copied = false →
    c.finish.state slot = c.finish.own slot)
    ⟨fun h slot => h slot slot.mem_all, fun h slot _ => h slot⟩

theorem copyBack_eq_iff {f : Frame N V} :
    copyBack f = f.state ↔ ∀ slot, slot.copied = false → f.state slot = f.own slot := by
  constructor
  · intro h slot hslot
    have := congrFun h slot
    rw [copyBack, hslot, if_neg Bool.false_ne_true] at this
    exact this.symm
  · intro h
    ext slot
    cases hslot : slot.copied with
    | true => rw [copyBack, hslot, if_pos rfl]
    | false => rw [copyBack, hslot, if_neg Bool.false_ne_true, h slot hslot]

theorem start_next {r : ContestantRunner N V M σ} {marketState : M} {c : Call N V}
    (hc : r.call marketState = some c) (hreturns : c.threw = false) :
    (r.run marketState).2.state = copyBack c.finish := by
  obtain ⟨fn, hfn, rfl⟩ := Option.map_eq_some_iff.mp hc
  rw [run, hfn]
  dsimp only at hreturns ⊢
  rw [hreturns, if_neg Bool.false_ne_true]

theorem run_fn (r : ContestantRunner N V M σ) (marketState : M) :
    (r.run marketState).2.fn = r.fn := by
  unfold run
  cases hfn : r.fn with
  | none => exact hfn
  | some fn => rfl

theorem calls_of_no_fn {r : ContestantRunner N V M σ} (hfn : r.fn = none) (markets : List M) :
    calls r markets = [] := by
  induction markets with
  | nil => rfl
  | cons marketState markets ih =>
      rw [calls, call, run, hfn]
      exact ih

theorem calls_cons {r : ContestantRunner N V M σ} {fn : ContestantFn N V M σ}
    (hfn : r.fn = some fn) (marketState : M) (markets : List M) :
    ∃ c, r.call marketState = some c ∧ c.start = r.state ∧
      calls r (marketState :: markets) = c :: calls (r.run marketState).2 markets := by
  refine ⟨_, by rw [call, hfn]; rfl, rfl, ?_⟩
  rw [calls, call, hfn]
  rfl

/-- Slots persist exactly where nothing is lost: along a run without exceptions every
call begins with the slots of the last one if and only if each call but the last leaves the
slots that are not copied back as `this.state` has them. -/
theorem persistent_iff (r : ContestantRunner N V M σ) (markets : List M)
    (hreturns : ∀ c ∈ calls r markets, c.threw = false) :
    Persistent (calls r markets) ↔ ∀ c ∈ (calls r markets).dropLast, c.Settled := by
  cases hfn : r.fn with
  | none =>
      rw [calls_of_no_fn hfn]
      exact ⟨fun _ _ h => absurd h List.not_mem_nil, fun _ => List.IsChain.nil⟩
  | some fn =>
      induction markets generalizing r with
      | nil => exact ⟨fun _ _ h => absurd h List.not_mem_nil, fun _ => List.IsChain.nil⟩
      | cons marketState markets ih =>
          obtain ⟨c, hc, hstart, hcalls⟩ := calls_cons hfn marketState markets
          rw [hcalls] at hreturns ⊢
          have hnext := start_next hc (hreturns c List.mem_cons_self)
          have hlater := ih (r.run marketState).2
            (fun c' hc' => hreturns c' (List.mem_cons_of_mem _ hc'))
            ((run_fn r marketState).trans hfn)
          cases markets with
          | nil =>
              exact ⟨fun _ _ h => absurd h List.not_mem_nil, fun _ => List.IsChain.singleton _⟩
          | cons marketState' markets =>
              obtain ⟨c', -, hstart', hcalls'⟩ :=
                calls_cons ((run_fn r marketState).trans hfn) marketState' markets
              rw [hcalls'] at hlater ⊢
              rw [Persistent, List.isChain_cons_cons, List.dropLast_cons_cons,
                List.forall_mem_cons, hstart', hnext]
              exact and_congr copyBack_eq_iff hlater

/-- A counter in `tick_count`. -/
def counting : ContestantRunner Numbers.exact Int Unit Unit :=
  .new (some fun _ _ slots => ⟨[.setState .tick_count (slots .tick_count + 1)], false, ()⟩) ()

theorem persistent_counting : Persistent (calls counting [(), (), ()]) :=
  (persistent_iff counting _ (by decide)).mpr (by decide)

/-- The same counter in `s0`. -/
def countingInS0 : ContestantRunner Numbers.exact Int Unit Unit :=
  .new (some fun _ _ slots => ⟨[.setState .s0 (slots .s0 + 1)], false, ()⟩) ()

/-- It counts to one in every tick. -/
theorem s0_forgotten : (∀ c ∈ calls countingInS0 [(), ()], c.threw = false) ∧
    (calls countingInS0 [(), ()]).map (fun c => (c.start .s0, c.finish.state .s0)) =
      [(0, 1), (0, 1)] ∧ ¬ Persistent (calls countingInS0 [(), ()]) := by
  refine ⟨by decide, by decide, fun h => ?_⟩
  have := congrFun (List.isChain_cons_cons.mp h).1 .s0
  exact absurd this (by decide)

/-! ## A call that throws -/

/-- The tick is that of a contestant who holds. -/
structure ActsAsHold (r : ContestantRunner N V M σ) (marketState : M) : Prop where
  noOrders : (r.run marketState).1 = []
  stateKept : (r.run marketState).2.state = r.state
  tick : ∀ (base scale : N.Num) (s : Sim N) (before after : List (BotCall N))
    (limited : Side → Bool),
    s.tick base scale ⟨before, after, limited, (r.run marketState).1⟩ =
      s.tick base scale ⟨before, after, limited, []⟩

theorem submitted_perform (f : Frame N V) (e : Effect N V) :
    (e.perform f).submittedOrders = [] ↔ f.submittedOrders = [] ∧ e.isSubmit = false := by
  cases e with
  | setState slot value => exact (and_iff_left rfl).symm
  | setOwn slot value => exact (and_iff_left rfl).symm
  | submit order =>
      constructor
      · intro h
        exact absurd (List.append_eq_nil_iff.mp h).2 (List.cons_ne_nil _ _)
      · rintro ⟨-, h⟩
        cases h

theorem submitted_effects (effects : List (Effect N V)) : ∀ f : Frame N V,
    (effects.foldl Effect.perform f).submittedOrders = [] ↔
      f.submittedOrders = [] ∧ ∀ e ∈ effects, e.isSubmit = false := by
  induction effects with
  | nil => exact fun f => (and_iff_left fun _ h => absurd h List.not_mem_nil).symm
  | cons e effects ih =>
      intro f
      rw [List.foldl_cons, ih, submitted_perform, List.forall_mem_cons, and_assoc]

/-- A function that throws is a hold exactly where it has not submitted anything, and has
left `this.state` as it was. -/
theorem actsAsHold_iff (r : ContestantRunner N V M σ) (fn : ContestantFn N V M σ)
    (hfn : r.fn = some fn) (marketState : M)
    (hthrows : (fn r.memory marketState r.state).threw = true) :
    r.ActsAsHold marketState ↔
      (∀ e ∈ (fn r.memory marketState r.state).effects, e.isSubmit = false) ∧
        (Ended r.state (fn r.memory marketState r.state)).own = r.state := by
  have horders : (r.run marketState).1 =
      (Ended r.state (fn r.memory marketState r.state)).submittedOrders := by
    rw [run, hfn]
  have hstate : (r.run marketState).2.state =
      (Ended r.state (fn r.memory marketState r.state)).own := by
    rw [run, hfn]
    dsimp only
    rw [hthrows, if_pos rfl]
  have hsubmitted := submitted_effects (fn r.memory marketState r.state).effects
    ⟨r.state, r.state, []⟩
  rw [and_iff_right rfl] at hsubmitted
  constructor
  · rintro ⟨hno, hkept, -⟩
    exact ⟨hsubmitted.mp (horders.symm.trans hno), hstate.symm.trans hkept⟩
  · rintro ⟨hno, hkept⟩
    have hnil := horders.trans (hsubmitted.mpr hno)
    exact
      { noOrders := hnil
        stateKept := hstate.trans hkept
        tick := fun base scale s before after limited => by rw [hnil] }

/-- It throws after it has written to its slots. -/
def writesAndThrows : ContestantFn Numbers.exact Int Unit Unit :=
  fun _ _ _ => ⟨[.setState .ema_fast 7, .setState .s0 7], true, ()⟩

theorem actsAsHold_writes :
    (ContestantRunner.new (some writesAndThrows) ()).ActsAsHold () :=
  (actsAsHold_iff _ writesAndThrows rfl () rfl).mpr ⟨by decide, rfl⟩

def buysAndThrows : ContestantFn Numbers.exact Int Unit Unit :=
  fun _ _ _ => ⟨[.submit (.marketBuy (Numbers.exact.ofInt 5))], true, ()⟩

theorem order_outlives_exception :
    (buysAndThrows () () fun _ => 0).threw = true ∧
      ((ContestantRunner.new (some buysAndThrows) ()).run ()).1.length = 1 ∧
      ¬ (ContestantRunner.new (some buysAndThrows) ()).ActsAsHold () :=
  ⟨rfl, rfl, fun h => absurd h.noOrders (List.cons_ne_nil _ _)⟩

end ContestantRunner

end VidhiArena.Browser.Js
