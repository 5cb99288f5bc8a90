import VidhiArena.Browser.Accounting
import VidhiArena.Forge.PositionLimit
import VidhiArena.Foundation.Sweeping

/-!
# The position limit

`runBatch` holds a market order back when the position has reached the limit before the
tick. What the orders of the tick take is booked after all of them, so the position is carried
as far as the book is deep and the orders of one tick reach. `withinLimit_iff` says which runs
stay within the limit: those in which no tick takes more from others than there is room for.
Shares that the contestant takes from itself do not move the position.
-/

namespace VidhiArena.Browser

open Foundation OrderedMap PersistentLOB

/-- `1` for a purchase, `-1` for a sale. -/
def Side.sign : Side → Int
  | buy => 1
  | sell => -1

/-- The resting orders that a market order meets: whose they are, and how many shares. -/
def offers (lob : Book) (side : Side) : List (Name × Int) :=
  (queue lob side).map fun o => (o.participantId, o.volume)

/-- How many shares of others a market order of the contestant takes. -/
def takenFromOthers (lob : Book) (side : Side) (volume : Int) : Int :=
  stock ((sweep (offers lob side) volume).filter (·.1 ≠ CONTESTANT))

/-! ## Market orders -/

section Sweep

variable {ρ : Type}

def Fill.made (f : Fill ρ) : ρ × Int := (f.makerParticipantId, f.volume)

def Order.offer (o : Order ρ) : ρ × Int := (o.participantId, o.volume)

theorem takeOrders_made (side : Side) (participantId : ρ) (price : Int) :
    ∀ (os : List (Order ρ)) (remaining volume : Int),
      (takeOrders side participantId price remaining volume os).1.map Fill.made =
          sweep (os.map Order.offer) remaining ∧
        (takeOrders side participantId price remaining volume os).2.1 =
          unmet (os.map Order.offer) remaining ∧
        ∀ f ∈ (takeOrders side participantId price remaining volume os).1, f.side = side := by
  intro os
  induction os with
  | nil => exact fun _ _ => ⟨rfl, rfl, fun _ hf => absurd hf List.not_mem_nil⟩
  | cons o os ih =>
      intro remaining volume
      rw [takeOrders, List.map_cons]
      split
      · rename_i hrem
        obtain ⟨hmade, hleft, hside⟩ :=
          ih (remaining - min o.volume remaining) (volume - min o.volume remaining)
        refine ⟨?_, ?_, fun f hf => ?_⟩
        · rw [Order.offer, sweep, if_neg (not_le.mpr hrem), ← hmade]
          rfl
        · rw [Order.offer, unmet, if_neg (not_le.mpr hrem), ← hleft]
        · rcases List.mem_cons.mp hf with rfl | hf
          · rfl
          · exact hside f hf
      · rename_i hrem
        rw [sweep_of_nonpos (not_lt.mp hrem), unmet_of_nonpos (not_lt.mp hrem)]
        exact ⟨rfl, rfl, fun _ hf => absurd hf List.not_mem_nil⟩

theorem takeListing_made (side : Side) (participantId : ρ) :
    ∀ (l : Levels ρ) (remaining : Int),
      (takeListing side participantId remaining l).1.map Fill.made =
          sweep ((l.flatMap fun entry => entry.2.orders).map Order.offer) remaining ∧
        ∀ f ∈ (takeListing side participantId remaining l).1, f.side = side := by
  intro l
  induction l with
  | nil => exact fun _ => ⟨rfl, fun _ hf => absurd hf List.not_mem_nil⟩
  | cons entry l ih =>
      obtain ⟨price, level⟩ := entry
      intro remaining
      rw [takeListing, List.flatMap_cons, List.map_append, sweep_append]
      split
      · obtain ⟨hmade, hleft, hside⟩ :=
          takeOrders_made side participantId price level.orders remaining level.volume
        obtain ⟨hmade', hside'⟩ := ih (unmet (level.orders.map Order.offer) remaining)
        simp only [hleft, List.map_append, hmade, hmade']
        refine ⟨trivial, fun f hf => ?_⟩
        rcases List.mem_append.mp hf with hf | hf
        · exact hside f hf
        · exact hside' f hf
      · rename_i hrem
        rw [unmet_of_nonpos (not_lt.mp hrem), sweep_of_nonpos (not_lt.mp hrem),
          sweep_of_nonpos (not_lt.mp hrem)]
        exact ⟨rfl, fun _ hf => absurd hf List.not_mem_nil⟩

/-- A fill of the contestant's own market order moves the position if the maker is another. -/
theorem bought_taker {side : Side} : ∀ {fills : List (Fill Name)},
    (∀ f ∈ fills, f.participantId = CONTESTANT ∧ f.side = side) →
      bought fills = side.sign * stock ((fills.map Fill.made).filter (·.1 ≠ CONTESTANT))
  | [], _ => (mul_zero _).symm
  | f :: fills, h => by
      obtain ⟨⟨htaker, hside⟩, hrest⟩ := List.forall_mem_cons.mp h
      have hbought : bought (f :: fills) = roles f * f.volume + bought fills := rfl
      rw [hbought, bought_taker hrest, List.map_cons]
      by_cases hmaker : f.makerParticipantId = CONTESTANT
      · have hown : ¬ decide (f.made.1 ≠ CONTESTANT) = true := by
          rw [decide_eq_true_eq, not_not]
          exact hmaker
        rw [roles_self htaker hmaker, List.filter_cons, if_neg hown, zero_mul, zero_add]
      · have hother : decide (f.made.1 ≠ CONTESTANT) = true := decide_eq_true hmaker
        rw [List.filter_cons, if_pos hother, Fill.made, stock_cons, mul_add]
        congr 1
        rw [roles, if_pos htaker, if_neg hmaker, add_zero, hside]
        cases side <;> rfl

theorem bought_marketOrder {lob : Book} (hkeyed : Keyed lob) (base : Int) (side : Side)
    (volume : Int) : bought (marketOrder base lob side volume CONTESTANT).1 =
      side.sign * takenFromOthers lob side volume := by
  obtain ⟨l, hl⟩ := hkeyed side.other
  obtain ⟨-, htakers⟩ := marketOrder_makers base hl volume CONTESTANT
  have hmade := takeListing_made side CONTESTANT l volume
  rw [← queue_listed hl, ← (marketOrder_listed base hl volume CONTESTANT).1] at hmade
  rw [bought_taker fun f hf => ⟨htakers f hf, hmade.2 f hf⟩, hmade.1]
  rfl

end Sweep

/-! ## One tick -/

section Tick

variable {D : Doubles} {base : Int} {lob : Book}

theorem keyed_exec {α : Type} {p : EngineProg α} : ∀ {lob : Book}, Keyed lob →
    Keyed (p.exec (PersistentLOB.apply base) lob).2.2 := by
  induction p with
  | ret a => exact fun h => h
  | read k ih => exact fun {lob} h => ih lob h
  | call i k ih => exact fun h => ih _ (h.apply base i)

/-- What an order adds to the position, which is `position` at the start of the tick. -/
def ContestantOrder.net (position : Int) (lob : Book) : ContestantOrder D → Int
  | marketBuy volume =>
      if POSITION_LIMIT ≤ |position| ∧ 0 < position then 0 else takenFromOthers lob .buy volume
  | marketSell volume =>
      if POSITION_LIMIT ≤ |position| ∧ position < 0 then 0 else -takenFromOthers lob .sell volume
  | limitBuy .. => 0
  | limitSell .. => 0
  | cancel _ => 0

/-- What the orders of a tick add to the position, each on the book that it meets. -/
def netOrders (base position : Int) : Book → List (ContestantOrder D) → Int
  | _, [] => 0
  | lob, order :: orders => order.net position lob +
      netOrders base position ((order.process position).exec (PersistentLOB.apply base) lob).2.2
        orders

theorem bought_process (hkeyed : Keyed lob) (position : Int) (order : ContestantOrder D) :
    bought ((order.process position).exec (PersistentLOB.apply base) lob).1.1 =
      order.net position lob := by
  cases order with
  | limitBuy price volume => rfl
  | limitSell price volume => rfl
  | marketBuy volume =>
      rw [ContestantOrder.process, ContestantOrder.net]
      split
      · rfl
      · exact (bought_marketOrder hkeyed base .buy volume).trans (one_mul _)
  | marketSell volume =>
      rw [ContestantOrder.process, ContestantOrder.net]
      split
      · rfl
      · exact (bought_marketOrder hkeyed base .sell volume).trans (neg_one_mul _)
  | cancel orderId =>
      have hread : ∀ f : Book → EngineProg (List (Fill Name) × List (Queued D)),
          (EngineProg.lob >>= f).exec (PersistentLOB.apply base) lob =
            (f lob).exec (PersistentLOB.apply base) lob := fun _ => rfl
      rw [ContestantOrder.process, hread]
      cases findOwn lob orderId with
      | none => rfl
      | some found => rfl

theorem bought_processOrders (position : Int) : ∀ (orders : List (ContestantOrder D)) {lob : Book},
    Keyed lob → bought ((processOrders position orders).exec (PersistentLOB.apply base) lob).1.1 =
      netOrders base position lob orders
  | [], _, _ => rfl
  | order :: orders, lob, hkeyed => by
      simp only [processOrders, Prog.exec_bind, Prog.pure_eq, Prog.exec, bought_append]
      rw [bought_process hkeyed, bought_processOrders position orders (keyed_exec hkeyed)]
      rfl

theorem settle_position : ∀ (fills : List (Fill Name)) (engine : Engine D),
    (fills.foldl Engine.settle engine).position = engine.position + bought fills
  | [], engine => (add_zero _).symm
  | f :: fills, engine => by
      have hbought : bought (f :: fills) = roles f * f.volume + bought fills := rfl
      have hsettle : (engine.settle f).position = engine.position + roles f * f.volume := by
        unfold Engine.settle Engine.account roles
        by_cases htaker : f.participantId = CONTESTANT <;>
          by_cases hmaker : f.makerParticipantId = CONTESTANT <;>
          by_cases hside : f.side = .buy <;>
          simp [htaker, hmaker, hside]
      rw [List.foldl_cons, settle_position fills, hsettle, hbought, add_assoc]

/-- The engine and the book, from tick to tick. -/
def EngineState.step (cfg : BotConfig D) (base : Int) (s : EngineState D) (input : TickInput D) :
    EngineState D :=
  ((s.2.tick cfg base input).result base s.1).2

/-- The book that the contestant's orders meet. -/
def EngineState.afterBots (cfg : BotConfig D) (base : Int) (s : EngineState D)
    (input : TickInput D) : Book :=
  ((s.2.botsCompute cfg base input.signal).exec (PersistentLOB.apply base) s.1).2.2

/-- The condition on a tick: what its market orders take from others, purchases less
sales, leaves the position within the limit. -/
def TickFits (cfg : BotConfig D) (base : Int) (s : EngineState D) (input : TickInput D) : Prop :=
  |s.2.position + netOrders base s.2.position (s.afterBots cfg base input) input.contestantOrders|
    ≤ POSITION_LIMIT

instance (cfg : BotConfig D) (base : Int) (s : EngineState D) (input : TickInput D) :
    Decidable (TickFits cfg base s input) :=
  inferInstanceAs (Decidable (_ ≤ _))

theorem step_position (cfg : BotConfig D) {s : EngineState D} (hkeyed : Keyed s.1)
    (input : TickInput D) :
    Keyed (s.step cfg base input).1 ∧ (s.step cfg base input).2.position = s.2.position +
      netOrders base s.2.position (s.afterBots cfg base input) input.contestantOrders := by
  refine ⟨keyed_exec hkeyed, ?_⟩
  have hposition := (botsCompute_account cfg base s.2 input.signal s.1).1
  have hkeyed₁ : Keyed (s.afterBots cfg base input) := keyed_exec hkeyed
  unfold EngineState.step EngineProg.result
  rw [tick_exec]
  unfold EngineState.afterBots at hkeyed₁ ⊢
  generalize (s.2.botsCompute cfg base input.signal).exec (PersistentLOB.apply base) s.1 = r at *
  obtain ⟨engine₁, h₁, lob₁⟩ := r
  dsimp only at hposition hkeyed₁ ⊢
  rw [settle_position, ← hposition, ← bought_processOrders engine₁.position _ hkeyed₁]
  simp only [Engine.contestantTrades, Prog.exec_bind, Prog.pure_eq, Prog.exec]

/-! ## The run -/

/-- After every tick of the run the position is within the limit. -/
def WithinLimit (cfg : BotConfig D) (base : Int) (seedSignal : Signal D)
    (inputs : List (TickInput D)) : Prop :=
  ∀ pre, pre <+: inputs → |(runBatch cfg base seedSignal pre).2.2.position| ≤ POSITION_LIMIT

/-- Where `initSimulation` leads. -/
def EngineState.start (cfg : BotConfig D) (base : Int) (seedSignal : Signal D) : EngineState D :=
  ((initSimulation cfg base seedSignal).result base (PersistentLOB.new base)).2

theorem withinLimit_iff (cfg : BotConfig D) (base : Int) (seedSignal : Signal D)
    (inputs : List (TickInput D)) :
    WithinLimit cfg base seedSignal inputs ↔
      Along (EngineState.step cfg base) (TickFits cfg base) (.start cfg base seedSignal)
        inputs := by
  have hrun : ∀ pre, (runBatch cfg base seedSignal pre).2 =
      pre.foldl (EngineState.step cfg base) (.start cfg base seedSignal) :=
    fun pre => traceFrom_foldl _ pre _
  have hwithin : ∀ s : EngineState D, Keyed s.1 ∧ |s.2.position| ≤ POSITION_LIMIT →
      |s.2.position| ≤ POSITION_LIMIT := fun _ h => h.2
  have hkeep : ∀ (s : EngineState D) input, Keyed s.1 ∧ |s.2.position| ≤ POSITION_LIMIT →
      TickFits cfg base s input → Keyed (s.step cfg base input).1 ∧
        |(s.step cfg base input).2.position| ≤ POSITION_LIMIT := by
    intro s input h hfits
    obtain ⟨hkeyed, hposition⟩ := step_position cfg h.1 input
    exact ⟨hkeyed, hposition ▸ hfits⟩
  have hfits : ∀ (s : EngineState D) input, Keyed s.1 ∧ |s.2.position| ≤ POSITION_LIMIT →
      |(s.step cfg base input).2.position| ≤ POSITION_LIMIT → TickFits cfg base s input := by
    intro s input h hobs
    rw [TickFits, ← (step_position cfg h.1 input).2]
    exact hobs
  have hposition : (EngineState.start cfg base seedSignal).2.position = 0 :=
    (initSimulation_account cfg base seedSignal (PersistentLOB.new base)).1
  unfold WithinLimit
  simp only [hrun]
  refine foldl_obs_iff hwithin hkeep hfits inputs ⟨keyed_exec (keyed_new base), ?_⟩
  rw [hposition]
  decide

/-! ## Both engines -/

/-- `Math.min(vol, POSITION_LIMIT)` in the methods of `orders`. -/
def ContestantOrder.limit : ContestantOrder D → ContestantOrder D
  | limitBuy price vol => .limitBuy price (min vol POSITION_LIMIT)
  | limitSell price vol => .limitSell price (min vol POSITION_LIMIT)
  | marketBuy vol => .marketBuy (min vol POSITION_LIMIT)
  | marketSell vol => .marketSell (min vol POSITION_LIMIT)
  | cancel id => .cancel id

/-- A tick in which the contestant has called the methods of `orders` with these volumes. -/
def TickInput.limit (input : TickInput D) : TickInput D :=
  { input with contestantOrders := input.contestantOrders.map ContestantOrder.limit }

end Tick

/-- When the position limit is kept. In the Python Game Master it is kept after every order
of a run if and only if every order that takes shares finds no more than there is room for; in
the browser after every tick if and only if no tick takes more from others than there is room
for. -/
theorem positionLimit_iff (seed : List Forge.LocalGM.BotCall) (ticks : List Forge.LocalGM.Tick)
    (hpositive : ∀ m ∈ Forge.LocalGM.moves seed ticks, m.Positive) {D : Doubles}
    (cfg : BotConfig D) (base : Int) (seedSignal : Signal D) (calls : List (TickInput D)) :
    (Forge.LocalGM.WithinLimit seed ticks ↔
        Along Forge.LocalGM.GM.step Forge.LocalGM.Fits .new (Forge.LocalGM.moves seed ticks)) ∧
      (WithinLimit cfg base seedSignal (calls.map TickInput.limit) ↔
        Along (EngineState.step cfg base) (TickFits cfg base) (.start cfg base seedSignal)
          (calls.map TickInput.limit)) :=
  ⟨Forge.LocalGM.withinLimit_iff hpositive, withinLimit_iff cfg base seedSignal _⟩

/-- The quotes of the Python market maker, of `volume` shares each. -/
def quotes (volume : Int) : List Forge.LocalGM.BotCall :=
  [.addOrder .buy 149996 volume, .addOrder .sell 150004 volume]

/-- A purchase of thirty shares, in both engines. -/
theorem positionLimit_iff_thirty :
    Forge.LocalGM.WithinLimit (quotes 50) [⟨quotes 50, [.market .buy 30]⟩] ∧
      WithinLimit BotConfig.default 150000 calm
        ([⟨calm, [.marketBuy 30]⟩].map TickInput.limit) := by
  obtain ⟨hpython, hbrowser⟩ := positionLimit_iff (quotes 50)
    [⟨quotes 50, [.market .buy 30]⟩] (by decide) BotConfig.default 150000 calm
    [⟨calm, [.marketBuy 30]⟩]
  exact ⟨hpython.mpr (by decide), hbrowser.mpr (by decide +kernel)⟩

/-- A market maker with thirty times its default size: an order of 1500 shares in the Python Game
Master, and two of 1000 in one tick of the browser, lead to a position of 1500. -/
theorem not_withinLimit_deep :
    (∀ m ∈ Forge.LocalGM.moves (quotes 1500) [⟨quotes 1500, [.market .buy 1500]⟩], m.Positive) ∧
      ¬ Forge.LocalGM.WithinLimit (quotes 1500) [⟨quotes 1500, [.market .buy 1500]⟩] ∧
      ¬ WithinLimit { BotConfig.default with MM := (30 : Rat) } 150000 calm
        ([⟨calm, [.marketBuy 1000, .marketBuy 1000]⟩].map TickInput.limit) := by
  refine ⟨by decide, fun h => ?_, fun h => ?_⟩
  · exact absurd (h _ List.prefix_rfl) (by decide)
  · exact absurd (h _ List.prefix_rfl) (by decide +kernel)

end VidhiArena.Browser
