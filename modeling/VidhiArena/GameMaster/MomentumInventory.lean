import VidhiArena.GameMaster.Settlement

/-!
# The inventory of the momentum bot

The momentum bot trades at market only, caps its `position` at 200 either way and unwinds
it when the signal is neutral. `position` is moved by `on_fill`, and `on_fill` is fed the
list that step 6 collects: the fills of the contestant's market orders. The fills of the
bot's own orders are returned inside `BotFleet::step` and dropped there.

So `position` is zero at every tick (`tick_position`), whatever the bot has bought. It is
the net volume of the bot's fills only as long as there are none.
-/

namespace VidhiArena.GameMaster

open VidhiArena.Foundation BookProg

/-! ## What the bot has taken -/

/-- Plus the volume if the momentum bot has bought, minus the volume if it has sold. -/
def MatchedFill.momVolume (f : MatchedFill) : Int :=
  if f.takerParticipant = botMOM then
    if f.takerIsBuy then f.volume.toInt else -f.volume.toInt
  else 0

/-- The net volume that the momentum bot has taken in a run. -/
def momNet (hs : List BookHistory) : Int :=
  ((BookHistory.fills hs.flatten).map MatchedFill.momVolume).sum

/-- `floor(30 * agg)`; an order for nothing or less trades nothing. -/
def BotConfig.momOrderSize (cfg : BotConfig) : Int := max 0 (cfg.mom.scaled 30).toInt

/-- The inventory is known and capped. -/
structure MomentumBot.InventoryRight (cfg : BotConfig) (hs : List BookHistory)
    (bot : MomentumBot) : Prop where
  position : bot.position.toInt = momNet hs
  lower : -(200 + cfg.momOrderSize) ≤ momNet hs
  upper : momNet hs ≤ 200 + cfg.momOrderSize

theorem momNet_eq_zero {hs : List BookHistory}
    (h : ∀ f ∈ BookHistory.fills hs.flatten, f.takerParticipant ≠ botMOM) : momNet hs = 0 := by
  refine List.sum_eq_zero fun v hv => ?_
  obtain ⟨f, hf, rfl⟩ := List.mem_map.mp hv
  exact if_neg (h f hf)

theorem MomentumBot.InventoryRight.of_zero {cfg : BotConfig} {hs : List BookHistory}
    {bot : MomentumBot} (hpos : bot.position = 0) (hnet : momNet hs = 0) :
    bot.InventoryRight cfg hs := by
  have hsize : 0 ≤ cfg.momOrderSize := le_max_left _ _
  refine ⟨?_, ?_, ?_⟩
  · rw [hpos, hnet]
    rfl
  · rw [hnet]
    omega
  · rw [hnet]
    omega

/-! ## One call -/

/-- A market order of the momentum bot meets no order. -/
def BookOp.MomIdle (B : Book) : BookOp → Prop
  | .marketOrder isBuy volume taker =>
      taker = botMOM → Book.reached volume (Book.priority (B.side !isBuy)) = []
  | _ => True

instance : ∀ (B : Book) (op : BookOp), Decidable (op.MomIdle B)
  | _, .addLimit .. => inferInstanceAs (Decidable True)
  | _, .cancel _ => inferInstanceAs (Decidable True)
  | _, .marketOrder .. => inferInstanceAs (Decidable (_ → _))

/-- The call comes back, and if it is a market order of the momentum bot, with nothing. -/
def PersistentLOB.MomIdle (lob : PersistentLOB) (op : BookOp) : Prop :=
  lob.Survives op ∧ op.MomIdle lob.view

instance (lob : PersistentLOB) (op : BookOp) : Decidable (lob.MomIdle op) :=
  inferInstanceAs (Decidable (_ ∧ _))

/-- The fills of a call name its sender as the taker, and that is not the momentum bot. -/
def FillsElsewhere (op : BookOp) (r : Reply) : Prop :=
  ∀ f ∈ r.matched, f.takerParticipant ≠ botMOM ∧ ∀ who, op.By who → who f.takerParticipant

theorem Refines.fillsElsewhere {lob : PersistentLOB} (href : ∃ B, Refines lob B) {op : BookOp}
    (hop : lob.MomIdle op) :
    ∃ r lob', lob.apply op = .ok (r, lob') ∧ (∃ B, Refines lob' B) ∧ FillsElsewhere op r := by
  obtain ⟨B, href⟩ := href
  obtain ⟨hsurvives, hidle⟩ := hop
  rw [href.view_eq] at hidle
  obtain ⟨lob', hcall, href'⟩ := href.survives hsurvives
  refine ⟨_, lob', hcall, ⟨_, href'⟩, ?_⟩
  cases op with
  | addLimit isBid p v who => exact fun f hf => nomatch hf
  | cancel id => exact fun f hf => nomatch hf
  | marketOrder isBuy v taker =>
      intro f hf
      have hf : f ∈ (B.marketOrder isBuy v taker).1 := hf
      have htaker : f.takerParticipant = taker := (B.fills_taker isBuy v taker f hf).1
      refine ⟨fun hmom => ?_, fun who hwho => htaker ▸ hwho⟩
      -- each fill has an order that it met
      have hmaker := List.mem_map_of_mem (f := fun f : MatchedFill =>
        (f.makerOrderId, f.makerParticipant)) hf
      rw [Book.fills_makers, hidle (htaker.symm.trans hmom)] at hmaker
      exact absurd hmaker List.not_mem_nil

/-! ## One tick -/

theorem MomentumBot.compute_position (bot : MomentumBot) (agg : Aggression) (threshold : Int64)
    (snap : MarketSnapshot) (lob : PersistentLOB) :
    Prog.Ensures PersistentLOB.apply (fun _ _ => True) (fun bot' _ => bot'.position = bot.position)
      (bot.compute agg threshold snap) lob := by
  unfold MomentumBot.compute
  refine Prog.ensures_ite (fun _ => Prog.ensures_ret rfl) fun _ => ?_
  refine Prog.ensures_skip (a := []) fun _ _ => ?_
  refine Prog.ensures_skip (a := []) fun _ _ => ?_
  refine Prog.ensures_skip (a := []) fun _ _ => ?_
  exact Prog.ensures_ret rfl

theorem BotFleet.step_position (bots : BotFleet) (cfg : BotConfig) (snap : MarketSnapshot)
    (lob : PersistentLOB) :
    Prog.Ensures PersistentLOB.apply (fun _ _ => True)
      (fun bots' _ => bots'.mom.position = bots.mom.position) (bots.step cfg snap) lob := by
  unfold BotFleet.step
  refine Prog.ensures_skip fun _ _ => ?_
  refine Prog.ensures_when (Q := fun mom _ => mom.position = bots.mom.position)
    (fun _ => bots.mom.compute_position cfg.mom cfg.threshold snap _) (fun _ => rfl) fun _ _ hmom => ?_
  refine Prog.ensures_skip fun _ _ => ?_
  refine Prog.ensures_skip fun _ _ => ?_
  refine Prog.ensures_skip (a := ()) fun _ _ => ?_
  exact Prog.ensures_ret hmom

theorem BotFleet.distributeFills_mom : ∀ (fills : List MatchedFill) (bots : BotFleet),
    (∀ f ∈ fills, f.takerParticipant ≠ botMOM) → (bots.distributeFills fills).mom = bots.mom
  | [], _, _ => rfl
  | f :: fills, bots, h => by
      obtain ⟨hf, hfills⟩ := List.forall_mem_cons.mp h
      have hmom : bots.mom.onFill f = bots.mom := if_neg hf
      have hrest := distributeFills_mom fills
        { bots with mm := bots.mm.onFill f, mom := bots.mom.onFill f } hfills
      exact hrest.trans hmom

section Ticks

variable {cfg : SimConfig} {input : TickInput} {s s' : SimState} {h : BookHistory}

/-- A tick does not move `position`: step 6 collects what the contestant has taken. -/
theorem tick_position (hfills : ∀ c ∈ h, ∀ f ∈ c.2.matched, ∀ who, c.1.By who →
      who f.takerParticipant)
    (hstep : SimState.step cfg s input = .ok (h, s')) :
    s'.2.bots.mom.position = s.2.bots.mom.position := by
  obtain ⟨bots, h₁, lob₁, h₂, allFills, shm, hbots, -, hwords, rfl, heq⟩ :=
    Master.tick_run (SimState.step_eq_ok.mp hstep)
  have hcontestant : ∀ f ∈ allFills, f.takerParticipant ≠ botMOM := by
    rw [processOrders_fills hwords]
    intro f hf
    obtain ⟨c, hc, hf⟩ := mem_fills.mp hf
    have hby := (processOrders_by _).history hwords c hc
    have htaker : f.takerParticipant = contestant :=
      hfills c (List.mem_append_right _ hc) f hf (· = contestant) hby
    rw [htaker]
    decide
  rw [heq]
  show (bots.distributeFills allFills).mom.position = s.2.bots.mom.position
  rw [BotFleet.distributeFills_mom allFills bots hcontestant]
  have hstay := s.2.bots.step_position cfg.bots (input.price.snapshot s.1.bestBid s.1.bestAsk) s.1
  exact hstay.of_run hbots

theorem ticks_position : ∀ {inputs : List TickInput} {s s' : SimState} {hs : List BookHistory},
    (∀ c ∈ hs.flatten, ∀ f ∈ c.2.matched, ∀ who, c.1.By who → who f.takerParticipant) →
    runFrom (SimState.step cfg) s inputs = .ok (hs, s') →
    s'.2.bots.mom.position = s.2.bots.mom.position
  | [], _, _, _, _, hrun => by
      cases hrun
      rfl
  | input :: inputs, s, s', hs, hfills, hrun => by
      obtain ⟨⟨h, s₁⟩, hstep, hrun⟩ := bind_eq_ok.mp hrun
      obtain ⟨⟨hs₁, s₂⟩, hticks, hrun⟩ := bind_eq_ok.mp hrun
      cases hrun
      rw [List.flatten_cons] at hfills
      have hfirst := tick_position (fun c hc => hfills c (List.mem_append_left _ hc)) hstep
      exact (ticks_position (fun c hc => hfills c (List.mem_append_right _ hc)) hticks).trans hfirst

end Ticks

/-! ## Runs -/

/-- The inventory is right at every tick of every run in which the market orders of the
momentum bot meet no order. -/
theorem inventory_right {cfg : SimConfig} {inputs : List TickInput}
    (hadm : RunAdmitted cfg PersistentLOB.MomIdle inputs) :
    ∀ pre, pre <+: inputs → ∃ hs s, runSimulation cfg pre = .ok (hs, s) ∧
      s.2.bots.mom.InventoryRight cfg.bots hs := by
  intro pre hpre
  have hadm := hadm.of_initial hpre
  obtain ⟨hs, s, hrun, -⟩ := hadm.defined (fun lob => ∃ B, Refines lob B) ⟨_, init_refines⟩
    fun lob op href hop => by
      obtain ⟨r, lob', hcall, href', -⟩ := Refines.fillsElsewhere href hop
      exact ⟨r, lob', hcall, href'⟩
  refine ⟨hs, s, hrun, ?_⟩
  -- every call of the run, and its reply
  obtain ⟨hreplay, hcalls⟩ := hadm.replay hrun
  obtain ⟨-, helsewhere⟩ := runFrom_steps (fun lob => ∃ B, Refines lob B) FillsElsewhere
    (fun lob op r lob' href hop hcall => by
      obtain ⟨r', lob₁, hcall', href', hfills⟩ := Refines.fillsElsewhere href hop
      rw [hcall] at hcall'
      cases hcall'
      exact ⟨href', hfills⟩)
    _ _ ⟨_, init_refines⟩ hcalls hreplay
  rw [List.forall₂_map_left_iff, List.forall₂_map_right_iff, List.forall₂_same] at helsewhere
  refine MomentumBot.InventoryRight.of_zero ?_ (momNet_eq_zero fun f hf => ?_)
  · obtain ⟨h, lob, hs', -, hticks, rfl⟩ := runSimulation_eq_ok.mp hrun
    rw [List.flatten_cons] at helsewhere
    have hstay := ticks_position (fun c hc f hf =>
      (helsewhere c (List.mem_append_right _ hc) f hf).2) hticks
    exact hstay
  · obtain ⟨c, hc, hf⟩ := mem_fills.mp hf
    exact (helsewhere c hc f hf).1

/-- Two ticks at the same price: the signal is zero and the bot holds still. -/
theorem inventory_right_flat :
    ∃ hs s, runSimulation ⟨BotConfig.default, 1000, fun _ _ => 0⟩
        [⟨.gbm 100050000 450000 false, .absent⟩, ⟨.gbm 100050000 450000 false, .absent⟩] =
          .ok (hs, s) ∧ s.2.bots.mom.InventoryRight BotConfig.default hs := by
  have hadm : RunAdmitted ⟨BotConfig.default, 1000, fun _ _ => 0⟩ PersistentLOB.MomIdle
      [⟨.gbm 100050000 450000 false, .absent⟩, ⟨.gbm 100050000 450000 false, .absent⟩] := by
    decide +kernel
  exact inventory_right hadm _ (List.prefix_refl _)

/-- A row of a dataset around a mid price, with a tight spread and no news. -/
def quietRow (midFp : Int64) : TickInput :=
  ⟨.row (midFp - oneCent) (midFp + oneCent) midFp (2 * oneCent) midFp 450000 false, .absent⟩

/-- A price that rises by one every tick. -/
def risingRows (n : Nat) : List TickInput :=
  (List.range n).map fun i => quietRow (100050000 + Int64.ofNat i * fixedPoint)

/-- The bot buys without end: in ten ticks of a rising price it has bought 270, past
any cap, and `position` is zero. -/
theorem inventory_lost :
    ∃ hs s, runSimulation ⟨BotConfig.default, 1000, fun _ _ => 0⟩ (risingRows 10) = .ok (hs, s) ∧
      momNet hs = 270 ∧ s.2.bots.mom.position = 0 ∧
      ¬ s.2.bots.mom.InventoryRight BotConfig.default hs := by
  have hrun : (runSimulation ⟨BotConfig.default, 1000, fun _ _ => 0⟩ (risingRows 10)).map
      (fun r => (momNet r.1, r.2.2.bots.mom.position)) = .ok (270, 0) := by decide +kernel
  obtain ⟨⟨hs, s⟩, hrun, heq⟩ := map_eq_ok hrun
  obtain ⟨hnet, hpos⟩ := Prod.mk.inj heq
  refine ⟨hs, s, hrun, hnet, hpos, fun hright => ?_⟩
  have hupper : momNet hs ≤ 200 + 30 := hright.upper
  rw [hnet] at hupper
  omega

end VidhiArena.GameMaster
