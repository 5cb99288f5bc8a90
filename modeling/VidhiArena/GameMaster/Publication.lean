import VidhiArena.GameMaster.MidPrice

/-!
# What the contestant is shown

Steps 3 and 4 of the tick: the market block of shared memory at the moment of
`gm_signal`. `fill_snapshot` writes nine of its fields and `run_simulation` four
more; `mid_price_fp` and `contestant_cash_fp` are written by nobody and keep the
zero of the constructor through the whole run.
-/

namespace VidhiArena.GameMaster

open VidhiArena.Foundation BookProg

/-- The depth slot `i` of a side: its level `i`, if there is one. -/
def LOBSide.slot (s : LOBSide) (i : Fin depthLevels) : LOBLevel :=
  (s.levels.map fun lv => (⟨lv.priceFp, lv.totalVolume⟩ : LOBLevel)).getD i.val ⟨0, 0⟩

namespace SharedMem

/-- The fields that are written show the book and the account. -/
structure Shows (sm : SharedMem) (lob : PersistentLOB) (pnl : PnLTracker) : Prop where
  bid : sm.bidPriceFp = lob.bestBid
  ask : sm.askPriceFp = lob.bestAsk
  spread : sm.spreadFp = lob.spread
  bidDepth : ∀ i, sm.bidDepth i = lob.bids.slot i
  askDepth : ∀ i, sm.askDepth i = lob.asks.slot i
  lastTrade : sm.lastTradePriceFp = lob.lastTradeFp
  position : sm.contestantPosition = pnl.position

/-- A faithful market block: the fields that nobody writes are right as well. -/
structure Faithful (sm : SharedMem) (lob : PersistentLOB) (pnl : PnLTracker) : Prop
    extends Shows sm lob pnl where
  mid : sm.midPriceFp = lob.mid
  cash : sm.contestantCashFp = pnl.cashFpSafe

/-- The mid price and the cash are as the constructor left them. -/
def Unwritten (sm : SharedMem) : Prop := sm.midPriceFp = 0 ∧ sm.contestantCashFp = 0

theorem Unwritten.receive {sm : SharedMem} (h : sm.Unwritten) (r : Response) :
    (sm.receive r).Unwritten := by
  cases r with
  | absent => exact h
  | timeout => exact h
  | answer orderCount orders => exact h

theorem Unwritten.faithful_iff {sm : SharedMem} {lob : PersistentLOB} {pnl : PnLTracker}
    (h : sm.Unwritten) (hshows : sm.Shows lob pnl) :
    sm.Faithful lob pnl ↔ lob.mid = 0 ∧ pnl.cashFpSafe = 0 := by
  constructor
  · exact fun hf => ⟨hf.mid.symm.trans h.1, hf.cash.symm.trans h.2⟩
  · rintro ⟨hmid, hcash⟩
    exact ⟨hshows, h.1.trans hmid.symm, h.2.trans hcash.symm⟩

end SharedMem

theorem depth_eq_slot (s : LOBSide) (i : Fin depthLevels) : PersistentLOB.depth s i = s.slot i := by
  unfold PersistentLOB.depth LOBSide.slot
  rw [List.getD_eq_getElem?_getD, List.getElem?_map]
  cases s.levels[i.val]? with
  | none => rfl
  | some lv => rfl

section Publish

variable (cfg : SimConfig) (lob : PersistentLOB) (snap : MarketSnapshot) (pnl : PnLTracker)

theorem publish_shows (sm : SharedMem) : (Master.publish cfg lob snap pnl sm).Shows lob pnl where
  bid := rfl
  ask := rfl
  spread := rfl
  bidDepth := depth_eq_slot lob.bids
  askDepth := depth_eq_slot lob.asks
  lastTrade := rfl
  position := rfl

theorem publish_unwritten {sm : SharedMem} (h : sm.Unwritten) :
    (Master.publish cfg lob snap pnl sm).Unwritten := h

end Publish

/-! ## Over a run -/

variable {cfg : SimConfig}

theorem SimState.step_unwritten {s s' : SimState} {input : TickInput} {h : BookHistory}
    (hu : s.2.shm.Unwritten) (hstep : SimState.step cfg s input = .ok (h, s')) :
    s'.2.shm.Unwritten := by
  obtain ⟨bots, h₁, lob₁, h₂, allFills, shm, -, rfl, -, -, heq⟩ :=
    Master.tick_run (SimState.step_eq_ok.mp hstep)
  rw [heq]
  exact (publish_unwritten cfg lob₁ _ _ hu).receive input.response

theorem runSimulation_unwritten {inputs : List TickInput} {hs : List BookHistory} {s : SimState}
    (hrun : runSimulation cfg inputs = .ok (hs, s)) : s.2.shm.Unwritten := by
  obtain ⟨h, lob, hs', -, hticks, rfl⟩ := runSimulation_eq_ok.mp hrun
  have hstep : ∀ (s : SimState) (input : TickInput) (h : BookHistory) (s' : SimState),
      s.2.shm.Unwritten → True → SimState.step cfg s input = .ok (h, s') → s'.2.shm.Unwritten :=
    fun _ _ _ _ hu _ hstep => SimState.step_unwritten hu hstep
  exact runFrom_inv hstep inputs _ ⟨rfl, rfl⟩ (fun _ _ _ _ _ _ _ => trivial) hticks

/-- In the tick `input` after `pre`, this is the content of shared memory when
`gm_signal` is stored, with the book and the account of that moment. -/
def Published (cfg : SimConfig) (pre : List TickInput) (input : TickInput) (lob : PersistentLOB)
    (pnl : PnLTracker) (sm : SharedMem) : Prop :=
  ∃ hs s bots h, runSimulation cfg pre = .ok (hs, s) ∧
    (s.2.bots.step cfg.bots (input.price.of s.1)).run PersistentLOB.apply s.1 =
      .ok (bots, h, lob) ∧
    pnl = s.2.pnl.resetTickState ∧ sm = Master.publish cfg lob (input.price.of s.1) pnl s.2.shm

/-- Every tick of a run publishes, and the orders of step 6 are those of the answer to
what it has published. -/
theorem Published.of_tick {pre : List TickInput} {input : TickInput} {hs : List BookHistory}
    {s s' : SimState} {h : BookHistory} (hrun : runSimulation cfg pre = .ok (hs, s))
    (hstep : SimState.step cfg s input = .ok (h, s')) :
    ∃ lob sm allFills h₂, Published cfg pre input lob s.2.pnl.resetTickState sm ∧
      (processOrders (sm.receive input.response).pending).run PersistentLOB.apply lob =
        .ok (allFills, h₂, s'.1) := by
  obtain ⟨bots, h₁, lob₁, h₂, allFills, shm, hbots, rfl, hwords, -, -⟩ :=
    Master.tick_run (SimState.step_eq_ok.mp hstep)
  exact ⟨lob₁, _, allFills, h₂, ⟨hs, s, bots, h₁, hrun, hbots, rfl, rfl⟩, hwords⟩

theorem create_cash (limit : Int64) :
    (PnLTracker.create limit).resetTickState.cashFpSafe = startingCash := rfl

/-- What is published is faithful but for the two unwritten fields: it is faithful
altogether if and only if zero happens to be the mid price of the book and the cash of
the contestant. In the first tick of a run it never is. -/
theorem published_faithful_iff {pre : List TickInput} {input : TickInput} {lob : PersistentLOB}
    {pnl : PnLTracker} {sm : SharedMem} (hpub : Published cfg pre input lob pnl sm) :
    sm.Shows lob pnl ∧ (sm.Faithful lob pnl ↔ lob.mid = 0 ∧ pnl.cashFpSafe = 0) ∧
      (pre = [] → ¬ sm.Faithful lob pnl) := by
  obtain ⟨hs, s, bots, h, hrun, hbots, rfl, rfl⟩ := hpub
  have hshows := publish_shows cfg lob (input.price.of s.1) s.2.pnl.resetTickState s.2.shm
  have hu := publish_unwritten cfg lob (input.price.of s.1) s.2.pnl.resetTickState
    (runSimulation_unwritten hrun)
  refine ⟨hshows, hu.faithful_iff hshows, ?_⟩
  rintro rfl hfaithful
  obtain ⟨_, _, _, _, hticks, -⟩ := runSimulation_eq_ok.mp hrun
  cases hticks
  have hcash := ((hu.faithful_iff hshows).mp hfaithful).2
  exact absurd (hcash.symm.trans (create_cash cfg.positionLimit)) (by decide)

/-- What the second tick publishes, after the contestant has bought ten. -/
theorem published_faithful_second_tick :
    let cfg : SimConfig := ⟨BotConfig.default, 1000, fun _ _ => 0⟩
    let pre : List TickInput := [⟨.gbm 100050000 450000 false, .answer 1 fun _ => ⟨3, 0, 10, 0⟩⟩]
    let input : TickInput := ⟨.gbm 100060000 450000 false, .timeout⟩
    ∃ lob pnl sm, Published cfg pre input lob pnl sm ∧ sm.Shows lob pnl ∧
      (sm.Faithful lob pnl ↔ lob.mid = 0 ∧ pnl.cashFpSafe = 0) := by
  intro cfg pre input
  have hboth : (runSimulation cfg pre >>= fun r => (r.2.2.bots.step cfg.bots
      (input.price.of r.2.1)).run PersistentLOB.apply r.2.1).map (fun _ => true) = .ok true := by
    decide +kernel
  obtain ⟨⟨bots, h, lob⟩, hboth, -⟩ := map_eq_ok hboth
  obtain ⟨⟨hs, s⟩, hrun, hstep⟩ := bind_eq_ok.mp hboth
  have hpub : Published cfg pre input lob _ _ := ⟨hs, s, bots, h, hrun, hstep, rfl, rfl⟩
  exact ⟨lob, _, _, hpub, (published_faithful_iff hpub).1, (published_faithful_iff hpub).2.1⟩

/-- The first tick shows a mid price of zero and no cash, with the book at 100.05 and
100000 dollars in the account. -/
theorem mid_and_cash_unpublished :
    ∃ lob pnl sm, Published ⟨BotConfig.default, 1000, fun _ _ => 0⟩ []
        ⟨.gbm 100050000 450000 false, .timeout⟩ lob pnl sm ∧
      sm.midPriceFp = 0 ∧ lob.mid = 100050000 ∧
      sm.contestantCashFp = 0 ∧ pnl.cashFpSafe = 100000000000 := by
  have hboth : (runSimulation ⟨BotConfig.default, 1000, fun _ _ => 0⟩ [] >>= fun r =>
      ((r.2.2.bots.step BotConfig.default
        ((PriceTick.gbm 100050000 450000 false).of r.2.1)).run PersistentLOB.apply r.2.1).map
        fun r' => decide (r'.2.2.mid = 100050000 ∧ r.2.2.shm.midPriceFp = 0 ∧
          r.2.2.shm.contestantCashFp = 0 ∧
          r.2.2.pnl.resetTickState.cashFpSafe = 100000000000)) = .ok true := by
    decide +kernel
  obtain ⟨⟨hs, s⟩, hrun, hboth⟩ := bind_eq_ok.mp hboth
  obtain ⟨⟨bots, h, lob⟩, hstep, hshown⟩ := map_eq_ok hboth
  obtain ⟨hmid, hshm, hcash, hsafe⟩ := of_decide_eq_true hshown
  exact ⟨lob, _, _, ⟨hs, s, bots, h, hrun, hstep, rfl, rfl⟩, hshm, hmid, hcash, hsafe⟩

end VidhiArena.GameMaster
