import VidhiArena.GameMaster.BotFleet

/-!
# The tick loop

`run_simulation` in `game-master/main.cpp`, steps 1 to 7, with the market
snapshot of `game-master/price_signal.hpp`. A tick is a program over the book;
the loop runs one program after the other and keeps the calls of each.

The price signal is computed in `double`: a tick gets the fixed-point values that
`to_fp` returns for it (`PriceTick`). What the sandbox leaves in shared memory is
an input as well, any words at all (`Response`). `pnlFp` stands for the `double`
view of the account that is published and never read again.
-/

namespace VidhiArena.GameMaster

open VidhiArena.Foundation BookProg

/-! ## The price signal -/

/-- The signal of one tick: a row of the dataset or a step of the fallback. -/
inductive PriceTick where
  | row (bidFp askFp midFp spreadFp fairValueFp volatilityFp : Int64) (isNewsEvent : Bool)
  | gbm (fairValueFp volatilityFp : Int64) (isNewsEvent : Bool)
deriving DecidableEq

/-- `TickDataset::snapshot` and `PriceSignalGBM::next`. -/
def PriceTick.snapshot (curBidFp curAskFp : Int64) : PriceTick → MarketSnapshot
  | row bidFp askFp midFp spreadFp fairValueFp volatilityFp isNewsEvent =>
      { bidFp := if 0 < bidFp then bidFp else curBidFp
        askFp := if 0 < askFp then askFp else curAskFp
        midFp := if 0 < midFp then midFp else (curBidFp + curAskFp) / 2
        spreadFp, fairValueFp, volatilityFp, isNewsEvent }
  | gbm fairValueFp volatilityFp isNewsEvent =>
      { bidFp := curBidFp
        askFp := curAskFp
        midFp := (curBidFp + curAskFp) / 2
        spreadFp := curAskFp - curBidFp
        fairValueFp, volatilityFp, isNewsEvent }

/-! ## Shared memory -/

/-- What becomes of the order zone between `gm_signal` and step 6. -/
inductive Response where
  /-- no sandbox runs: the zone stays as it is -/
  | absent
  /-- the spin budget ran out: the tick is treated as HOLD -/
  | timeout
  | answer (orderCount : Int64) (orders : Fin orderSlots → OrderWord)

namespace SharedMem

def receive (sm : SharedMem) : Response → SharedMem
  | .absent => sm
  | .timeout => { sm with orderCount := 0 }
  | .answer orderCount orders => { sm with orderCount, orders }

/-- The words that step 6 processes: the first `min(order_count, 4)`. -/
def pending (sm : SharedMem) : List OrderWord :=
  ((List.finRange orderSlots).map sm.orders).take (min sm.orderCount 4).toInt.toNat

/-- `write_fills_to_shm`: the fills of the contestant, four at most. -/
def writeFills (sm : SharedMem) (fills : List MatchedFill) : SharedMem :=
  let words := ((fills.filter fun f => f.contestantIsTaker || f.contestantIsMaker).map
    fun f : MatchedFill => (⟨if f.contestantIsTaker then 0 else f.makerOrderId.toInt64,
      f.priceFp, f.volume,
      if f.contestantIsTaker = f.takerIsBuy then 0 else 1⟩ : FillWord)).take orderSlots
  { sm with
    fills := fun i => words.getD i.val (sm.fills i)
    fillCount := Int64.ofNat words.length }

end SharedMem

/-! ## Step 6: the contestant's orders -/

namespace OrderWord

/-- One pass of the dispatch loop; unknown types are skipped. -/
def dispatch (w : OrderWord) : BookProg (List MatchedFill) :=
  if w.type = 1 then do
    let _ ← addLimit true w.priceFp w.volume contestant
    return []
  else if w.type = 2 then do
    let _ ← addLimit false w.priceFp w.volume contestant
    return []
  else if w.type = 3 then marketOrder true w.volume contestant
  else if w.type = 4 then marketOrder false w.volume contestant
  else if w.type = 5 then do
    let _ ← cancel w.orderId.toUInt64
    return []
  else return []

theorem dispatch_cases (w : OrderWord) :
    w.dispatch = .ret [] ∨
    (∃ isBid, w.dispatch = .call (.addLimit isBid w.priceFp w.volume contestant)
      fun _ => .ret []) ∨
    (∃ isBuy, w.dispatch = .call (.marketOrder isBuy w.volume contestant)
      fun r => .ret r.matched) ∨
    w.dispatch = .call (.cancel w.orderId.toUInt64) fun _ => .ret [] := by
  have hadd : ∀ isBid, (addLimit isBid w.priceFp w.volume contestant >>= fun _ => .ret []) =
      (.call (.addLimit isBid w.priceFp w.volume contestant) fun _ => .ret [] :
        BookProg (List MatchedFill)) := by
    intro isBid
    refine congrArg (Prog.call _) (funext fun r => ?_)
    cases r <;> rfl
  have hcancel : (cancel w.orderId.toUInt64 >>= fun _ => .ret []) =
      (.call (.cancel w.orderId.toUInt64) fun _ => .ret [] : BookProg (List MatchedFill)) := by
    refine congrArg (Prog.call _) (funext fun r => ?_)
    cases r <;> rfl
  have hmarket : ∀ isBuy, marketOrder isBuy w.volume contestant =
      .call (.marketOrder isBuy w.volume contestant) fun r => .ret r.matched := by
    intro isBuy
    refine congrArg (Prog.call _) (funext fun r => ?_)
    cases r <;> rfl
  unfold dispatch
  split_ifs
  · exact Or.inr (Or.inl ⟨true, hadd true⟩)
  · exact Or.inr (Or.inl ⟨false, hadd false⟩)
  · exact Or.inr (Or.inr (Or.inl ⟨true, hmarket true⟩))
  · exact Or.inr (Or.inr (Or.inl ⟨false, hmarket false⟩))
  · exact Or.inr (Or.inr (Or.inr hcancel))
  · exact Or.inl rfl

end OrderWord

/-- The dispatch loop: `all_fills` collects what the market orders return. -/
def processOrders : List OrderWord → BookProg (List MatchedFill)
  | [] => return []
  | w :: ws => do
      let f ← w.dispatch
      let fs ← processOrders ws
      return f ++ fs

theorem PersistentLOB.apply_matched {lob lob' : PersistentLOB} {op : BookOp} {r : Reply}
    (h : lob.apply op = .ok (r, lob')) :
    (∃ isBuy volume taker, op = .marketOrder isBuy volume taker) ∨ r.matched = [] := by
  cases op with
  | addLimit isBid priceFp volume participant =>
      obtain ⟨⟨id, lob₁⟩, _, h⟩ := bind_eq_ok.mp h
      cases h
      exact Or.inr rfl
  | cancel id =>
      obtain ⟨⟨ok, lob₁⟩, _, h⟩ := bind_eq_ok.mp h
      cases h
      exact Or.inr rfl
  | marketOrder isBuy volume taker => exact Or.inl ⟨isBuy, volume, taker, rfl⟩

/-- The fills that the book has produced, whoever sent the market order. -/
def BookHistory.fills (h : BookHistory) : List MatchedFill :=
  h.flatMap fun c => c.2.matched

theorem BookHistory.fills_append (h h' : BookHistory) :
    BookHistory.fills (h ++ h') = BookHistory.fills h ++ BookHistory.fills h' :=
  List.flatMap_append

theorem OrderWord.dispatch_fills {w : OrderWord} {lob lob' : PersistentLOB}
    {fs : List MatchedFill} {h : BookHistory}
    (hrun : w.dispatch.run PersistentLOB.apply lob = .ok (fs, h, lob')) :
    fs = BookHistory.fills h := by
  have hcall : ∀ {op : BookOp} {g : Reply → List MatchedFill},
      (Prog.call op fun r => .ret (g r) : BookProg _).run PersistentLOB.apply lob =
        .ok (fs, h, lob') →
      ∃ r, lob.apply op = .ok (r, lob') ∧ fs = g r ∧ BookHistory.fills h = r.matched := by
    intro op g hrun
    obtain ⟨⟨r, lob₁⟩, hstep, hrun⟩ := bind_eq_ok.mp hrun
    cases hrun
    exact ⟨r, hstep, rfl, List.append_nil _⟩
  rcases w.dispatch_cases with heq | ⟨isBid, heq⟩ | ⟨isBuy, heq⟩ | heq
  · rw [heq] at hrun
    cases hrun
    rfl
  · rw [heq] at hrun
    obtain ⟨r, hstep, rfl, hfills⟩ := hcall (g := fun _ => []) hrun
    rcases PersistentLOB.apply_matched hstep with ⟨_, _, _, hop⟩ | hnone
    · cases hop
    · rw [hfills, hnone]
  · rw [heq] at hrun
    obtain ⟨r, -, rfl, hfills⟩ := hcall hrun
    exact hfills.symm
  · rw [heq] at hrun
    obtain ⟨r, hstep, rfl, hfills⟩ := hcall (g := fun _ => []) hrun
    rcases PersistentLOB.apply_matched hstep with ⟨_, _, _, hop⟩ | hnone
    · cases hop
    · rw [hfills, hnone]

theorem processOrders_fills : ∀ {ws : List OrderWord} {lob lob' : PersistentLOB}
    {fs : List MatchedFill} {h : BookHistory},
    (processOrders ws).run PersistentLOB.apply lob = .ok (fs, h, lob') → fs = BookHistory.fills h
  | [], _, _, _, _, hrun => by
      cases hrun
      rfl
  | w :: ws, _, _, _, _, hrun => by
      obtain ⟨f, h₁, lob₁, h₂, hword, hrun₁, rfl⟩ := Prog.run_bind_eq_ok.mp hrun
      obtain ⟨fs, h₃, lob₂, h₄, hrest, hrun₂, rfl⟩ := Prog.run_bind_eq_ok.mp hrun₁
      cases hrun₂
      rw [List.append_nil, BookHistory.fills_append, OrderWord.dispatch_fills hword,
        processOrders_fills hrest]

theorem processOrders_by (ws : List OrderWord) :
    (processOrders ws).All (BookOp.By (· = contestant)) := by
  induction ws with
  | nil => trivial
  | cons w ws ih =>
      have hrest : ∀ f : List MatchedFill, Prog.All (BookOp.By (· = contestant))
          (processOrders ws >>= fun fs => pure (f ++ fs)) :=
        fun f => Prog.all_bind ih fun _ => trivial
      refine Prog.all_bind ?_ hrest
      rcases w.dispatch_cases with h | ⟨isBid, h⟩ | ⟨isBuy, h⟩ | h
      · rw [h]
        trivial
      · rw [h]
        exact ⟨rfl, fun _ => trivial⟩
      · rw [h]
        exact ⟨rfl, fun _ => trivial⟩
      · rw [h]
        exact ⟨trivial, fun _ => trivial⟩

/-! ## One tick -/

structure Master where
  bots : BotFleet
  pnl : PnLTracker
  shm : SharedMem

/-- What comes from outside in one tick. -/
structure TickInput where
  price : PriceTick
  response : Response

structure SimConfig where
  bots : BotConfig
  positionLimit : Int64
  /-- `to_fp(pnl.pnl(last_trade_fp))` -/
  pnlFp : PnLTracker → Int64 → Int64

namespace Master

def init (cfg : SimConfig) : Master :=
  ⟨BotFleet.init, PnLTracker.create cfg.positionLimit, default⟩

/-- Step 3: the market state that the contestant sees. -/
def publish (cfg : SimConfig) (lob : PersistentLOB) (snap : MarketSnapshot) (pnl : PnLTracker)
    (sm : SharedMem) : SharedMem :=
  { lob.fillSnapshot sm with
    underlyingSignalFp := snap.fairValueFp
    volatilityFp := snap.volatilityFp
    contestantPosition := pnl.position
    contestantPnlFp := cfg.pnlFp pnl lob.lastTradeFp }

/-- Step 7: fills of the contestant reach its account. -/
def applyFills (pnl : PnLTracker) (fills : List MatchedFill) : PnLTracker :=
  fills.foldl (fun pnl f =>
    let cTaker : Bool := f.takerParticipant = contestant
    let cMaker : Bool := f.makerParticipant = contestant
    if cTaker || cMaker then pnl.applyFill f cTaker else pnl) pnl

def tick (cfg : SimConfig) (gm : Master) (input : TickInput) : BookProg Master := do
  let pnl := gm.pnl.resetTickState
  let lob ← book
  let snap := input.price.snapshot lob.bestBid lob.bestAsk
  let bots ← gm.bots.step cfg.bots snap
  let lob ← book
  let shm := (publish cfg lob snap pnl gm.shm).receive input.response
  let allFills ← processOrders shm.pending
  return ⟨bots.distributeFills allFills, applyFills pnl allFills, shm.writeFills allFills⟩

theorem tick_run {cfg : SimConfig} {gm gm' : Master} {input : TickInput}
    {lob lob' : PersistentLOB} {h : BookHistory}
    (hrun : (gm.tick cfg input).run PersistentLOB.apply lob = .ok (gm', h, lob')) :
    ∃ bots h₁ lob₁ h₂ allFills shm,
      (gm.bots.step cfg.bots (input.price.snapshot lob.bestBid lob.bestAsk)).run
        PersistentLOB.apply lob = .ok (bots, h₁, lob₁) ∧
      shm = (publish cfg lob₁ (input.price.snapshot lob.bestBid lob.bestAsk)
        gm.pnl.resetTickState gm.shm).receive input.response ∧
      (processOrders shm.pending).run PersistentLOB.apply lob₁ = .ok (allFills, h₂, lob') ∧
      h = h₁ ++ h₂ ∧ gm' = ⟨bots.distributeFills allFills,
        applyFills gm.pnl.resetTickState allFills, shm.writeFills allFills⟩ := by
  obtain ⟨_, _, _, _, hbook, hrun₁, rfl⟩ := Prog.run_bind_eq_ok.mp hrun
  cases hbook
  obtain ⟨bots, h₁, lob₁, _, hbots, hrun₂, rfl⟩ := Prog.run_bind_eq_ok.mp hrun₁
  obtain ⟨_, _, _, _, hbook, hrun₃, rfl⟩ := Prog.run_bind_eq_ok.mp hrun₂
  cases hbook
  obtain ⟨allFills, h₃, lob₂, h₄, hwords, hrun₄, rfl⟩ := Prog.run_bind_eq_ok.mp hrun₃
  cases hrun₄
  rw [List.nil_append, List.nil_append, List.append_nil]
  exact ⟨bots, h₁, lob₁, h₃, allFills, _, hbots, rfl, hwords, rfl, rfl⟩

theorem tick_eq_ok {cfg : SimConfig} {gm gm' : Master} {input : TickInput}
    {lob lob' : PersistentLOB} {h : BookHistory}
    (hrun : (gm.tick cfg input).run PersistentLOB.apply lob = .ok (gm', h, lob')) :
    ∃ bots h₁ lob₁ h₂ allFills,
      (gm.bots.step cfg.bots (input.price.snapshot lob.bestBid lob.bestAsk)).run
        PersistentLOB.apply lob = .ok (bots, h₁, lob₁) ∧
      (processOrders ((publish cfg lob₁ (input.price.snapshot lob.bestBid lob.bestAsk)
        gm.pnl.resetTickState gm.shm).receive input.response).pending).run
        PersistentLOB.apply lob₁ = .ok (allFills, h₂, lob') ∧
      h = h₁ ++ h₂ ∧ gm'.pnl = applyFills gm.pnl.resetTickState allFills := by
  obtain ⟨bots, h₁, lob₁, h₂, allFills, _, hbots, rfl, hwords, rfl, rfl⟩ := tick_run hrun
  exact ⟨bots, h₁, lob₁, h₂, allFills, hbots, hwords, rfl, rfl⟩

end Master

/-! ## The run -/

/-- The two quotes that the book is seeded with. -/
def seedBook : BookProg Unit := do
  let _ ← addLimit true 100000000 100 botMM
  let _ ← addLimit false 100100000 100 botMM

/-- The book and the Game Master between two ticks. -/
abbrev SimState := PersistentLOB × Master

namespace SimState

/-- One tick of the loop, and the calls it made. -/
def step (cfg : SimConfig) (s : SimState) (input : TickInput) :
    Except Fault (BookHistory × SimState) := do
  let (gm, h, lob) ← (s.2.tick cfg input).run PersistentLOB.apply s.1
  return (h, lob, gm)

end SimState

/-- A run of the tick loop: the calls before the first tick, those of every
tick, and the state after the last one. -/
def runSimulation (cfg : SimConfig) (inputs : List TickInput) :
    Except Fault (List BookHistory × SimState) := do
  let ((), h, lob) ← seedBook.run PersistentLOB.apply PersistentLOB.init
  let (hs, s) ← runFrom (SimState.step cfg) (lob, Master.init cfg) inputs
  return (h :: hs, s)

/-! ## Runs of the loop as runs of the book -/

section Runs

variable {cfg : SimConfig} {inputs : List TickInput} {hs : List BookHistory} {s s' : SimState}
  {h : BookHistory} {adm : PersistentLOB → BookOp → Prop}

theorem SimState.step_eq_ok {input : TickInput} : SimState.step cfg s input = .ok (h, s') ↔
    (s.2.tick cfg input).run PersistentLOB.apply s.1 = .ok (s'.2, h, s'.1) := by
  rw [SimState.step, bind_eq_ok]
  constructor
  · rintro ⟨⟨gm, h', lob⟩, hrun, heq⟩
    cases heq
    exact hrun
  · exact fun hrun => ⟨_, hrun, rfl⟩

theorem runSimulation_eq_ok : runSimulation cfg inputs = .ok (hs, s) ↔
    ∃ h lob hs', seedBook.run PersistentLOB.apply PersistentLOB.init = .ok ((), h, lob) ∧
      runFrom (SimState.step cfg) (lob, Master.init cfg) inputs = .ok (hs', s) ∧
      hs = h :: hs' := by
  rw [runSimulation, bind_eq_ok]
  constructor
  · rintro ⟨⟨_, h, lob⟩, hseed, hrest⟩
    obtain ⟨⟨hs', s'⟩, hticks, hrest⟩ := bind_eq_ok.mp hrest
    cases hrest
    exact ⟨h, lob, hs', hseed, hticks, rfl⟩
  · rintro ⟨h, lob, hs', hseed, hticks, rfl⟩
    refine ⟨_, hseed, ?_⟩
    simp only [hticks, ok_bind, pure_ok]

theorem runSimulation_snoc {input : TickInput} (hrun : runSimulation cfg inputs = .ok (hs, s))
    (hstep : SimState.step cfg s input = .ok (h, s')) :
    runSimulation cfg (inputs ++ [input]) = .ok (hs ++ [h], s') := by
  obtain ⟨h₀, lob, hs', hseed, hticks, rfl⟩ := runSimulation_eq_ok.mp hrun
  refine runSimulation_eq_ok.mpr ⟨h₀, lob, hs' ++ [h], hseed, runFrom_trans hticks ?_, rfl⟩
  simp only [runFrom, hstep, ok_bind, pure_ok]

/-- Every call of the tick is admitted. -/
def TickAdmitted (cfg : SimConfig) (adm : PersistentLOB → BookOp → Prop) (s : SimState)
    (input : TickInput) : Prop :=
  Prog.AdmittedIn PersistentLOB.apply adm (s.2.tick cfg input) s.1

instance [∀ lob op, Decidable (adm lob op)] (s : SimState) (input : TickInput) :
    Decidable (TickAdmitted cfg adm s input) :=
  Prog.AdmittedIn.decidable PersistentLOB.apply adm _ _

/-- Every call of the run, by whoever makes it, is admitted in the book that it
meets. -/
def RunAdmitted (cfg : SimConfig) (adm : PersistentLOB → BookOp → Prop)
    (inputs : List TickInput) : Prop :=
  Prog.AdmittedIn PersistentLOB.apply adm seedBook PersistentLOB.init ∧
    match seedBook.run PersistentLOB.apply PersistentLOB.init with
    | .ok r =>
        AdmittedFrom (SimState.step cfg) (TickAdmitted cfg adm) (r.2.2, Master.init cfg) inputs
    | .error _ => True

instance RunAdmitted.decidable [∀ lob op, Decidable (adm lob op)] :
    Decidable (RunAdmitted cfg adm inputs) :=
  have : Decidable (Prog.AdmittedIn PersistentLOB.apply adm seedBook PersistentLOB.init) :=
    Prog.AdmittedIn.decidable PersistentLOB.apply adm _ _
  have : Decidable (match seedBook.run PersistentLOB.apply PersistentLOB.init with
      | .ok r =>
          AdmittedFrom (SimState.step cfg) (TickAdmitted cfg adm) (r.2.2, Master.init cfg) inputs
      | .error _ => True) :=
    match seedBook.run PersistentLOB.apply PersistentLOB.init with
    | .ok _ => AdmittedFrom.decidable (SimState.step cfg) (TickAdmitted cfg adm) _ inputs
    | .error _ => inferInstanceAs (Decidable True)
  inferInstanceAs (Decidable (_ ∧ _))

theorem RunAdmitted.of_initial {pre : List TickInput} (hadm : RunAdmitted cfg adm inputs)
    (hpre : pre <+: inputs) : RunAdmitted cfg adm pre := by
  obtain ⟨post, rfl⟩ := hpre
  obtain ⟨hadm₀, hrest⟩ := hadm
  refine ⟨hadm₀, ?_⟩
  cases hseed : seedBook.run PersistentLOB.apply PersistentLOB.init with
  | error e => trivial
  | ok r =>
      simp only [hseed] at hrest
      exact hrest.of_append

/-- Every tick of the run satisfies `P` in the state that it meets. -/
def TicksAdmitted (cfg : SimConfig) (P : SimState → TickInput → Prop)
    (inputs : List TickInput) : Prop :=
  match seedBook.run PersistentLOB.apply PersistentLOB.init with
  | .ok r => AdmittedFrom (SimState.step cfg) P (r.2.2, Master.init cfg) inputs
  | .error _ => True

instance TicksAdmitted.decidable {P : SimState → TickInput → Prop}
    [∀ s input, Decidable (P s input)] : Decidable (TicksAdmitted cfg P inputs) :=
  show Decidable (match seedBook.run PersistentLOB.apply PersistentLOB.init with
      | .ok r => AdmittedFrom (SimState.step cfg) P (r.2.2, Master.init cfg) inputs
      | .error _ => True) from
    match seedBook.run PersistentLOB.apply PersistentLOB.init with
    | .ok _ => AdmittedFrom.decidable (SimState.step cfg) P _ inputs
    | .error _ => inferInstanceAs (Decidable True)

/-- The invariant rule for the loop: a reached state satisfies the invariant,
and the next tick its own condition. -/
theorem TicksAdmitted.reached {P : SimState → TickInput → Prop} (Inv : SimState → Prop)
    (hinit : ∀ h lob, seedBook.run PersistentLOB.apply PersistentLOB.init = .ok ((), h, lob) →
      Inv (lob, Master.init cfg))
    (hstep : ∀ s input h s', Inv s → P s input → SimState.step cfg s input = .ok (h, s') → Inv s')
    {pre post : List TickInput} {input : TickInput}
    (hadm : TicksAdmitted cfg P (pre ++ input :: post))
    (hrun : runSimulation cfg pre = .ok (hs, s)) : Inv s ∧ P s input := by
  obtain ⟨h, lob, hs', hseed, hticks, rfl⟩ := runSimulation_eq_ok.mp hrun
  simp only [TicksAdmitted, hseed] at hadm
  refine ⟨?_, (hadm.rest hticks).1⟩
  exact (runFrom_steps Inv (fun _ _ => True) (fun s i o s' hi hp hs => ⟨hstep s i o s' hi hp hs,
    trivial⟩) pre _ (hinit h lob hseed) hadm.of_append hticks).1

theorem ticks_replay : ∀ {inputs : List TickInput} {hs : List BookHistory} {s s' : SimState},
    AdmittedFrom (SimState.step cfg) (TickAdmitted cfg adm) s inputs →
    runFrom (SimState.step cfg) s inputs = .ok (hs, s') →
      runFrom PersistentLOB.apply s.1 (hs.flatten.map Prod.fst) =
          .ok (hs.flatten.map Prod.snd, s'.1) ∧
        AdmittedFrom PersistentLOB.apply adm s.1 (hs.flatten.map Prod.fst)
  | [], _, _, _, _, hrun => by
      cases hrun
      exact ⟨rfl, trivial⟩
  | input :: inputs, hs, s, s', ⟨hadm, hrest⟩, hrun => by
      obtain ⟨⟨h, s₁⟩, hstep, hrun⟩ := bind_eq_ok.mp hrun
      obtain ⟨⟨hs₁, s₂⟩, hticks, hrun⟩ := bind_eq_ok.mp hrun
      cases hrun
      simp only [hstep] at hrest
      have htick := SimState.step_eq_ok.mp hstep
      obtain ⟨hreplay, hadms⟩ := ticks_replay hrest hticks
      simp only [List.flatten_cons, List.map_append]
      exact ⟨runFrom_trans (Prog.run_replay htick) hreplay,
        (Prog.AdmittedIn.replay hadm htick).append (Prog.run_replay htick) hadms⟩

/-- The calls of an admitted run of the loop are an admitted run of the book. -/
theorem RunAdmitted.replay (hadm : RunAdmitted cfg adm inputs)
    (hrun : runSimulation cfg inputs = .ok (hs, s)) :
    PersistentLOB.run (hs.flatten.map Prod.fst) = .ok (hs.flatten.map Prod.snd, s.1) ∧
      AdmittedFrom PersistentLOB.apply adm PersistentLOB.init (hs.flatten.map Prod.fst) := by
  obtain ⟨h, lob, hs', hseed, hticks, rfl⟩ := runSimulation_eq_ok.mp hrun
  obtain ⟨hadm₀, hrest⟩ := hadm
  simp only [hseed] at hrest
  obtain ⟨hreplay, hadms⟩ := ticks_replay hrest hticks
  simp only [List.flatten_cons, List.map_append]
  exact ⟨runFrom_trans (Prog.run_replay hseed) hreplay,
    (Prog.AdmittedIn.replay hadm₀ hseed).append (Prog.run_replay hseed) hadms⟩

/-- Ticks whose calls are an admitted run of the book are admitted. -/
theorem ticks_of_replay : ∀ {inputs : List TickInput} {hs : List BookHistory} {s s' : SimState},
    runFrom (SimState.step cfg) s inputs = .ok (hs, s') →
    AdmittedFrom PersistentLOB.apply adm s.1 (hs.flatten.map Prod.fst) →
      AdmittedFrom (SimState.step cfg) (TickAdmitted cfg adm) s inputs
  | [], _, _, _, _, _ => trivial
  | input :: inputs, hs, s, s', hrun, hadm => by
      obtain ⟨⟨h, s₁⟩, hstep, hrun⟩ := bind_eq_ok.mp hrun
      obtain ⟨⟨hs₁, s₂⟩, hticks, hrun⟩ := bind_eq_ok.mp hrun
      cases hrun
      have htick := SimState.step_eq_ok.mp hstep
      simp only [List.flatten_cons, List.map_append] at hadm
      refine ⟨Prog.AdmittedIn.of_replay htick hadm.of_append, ?_⟩
      simp only [hstep]
      exact ticks_of_replay hticks (hadm.rest (Prog.run_replay htick))

/-- A run of the loop is admitted if and only if its calls are an admitted run of the
book. -/
theorem runAdmitted_iff (hrun : runSimulation cfg inputs = .ok (hs, s)) :
    RunAdmitted cfg adm inputs ↔
      AdmittedFrom PersistentLOB.apply adm PersistentLOB.init (hs.flatten.map Prod.fst) := by
  constructor
  · exact fun hadm => (hadm.replay hrun).2
  · intro hadm
    obtain ⟨h, lob, hs', hseed, hticks, rfl⟩ := runSimulation_eq_ok.mp hrun
    simp only [List.flatten_cons, List.map_append] at hadm
    refine ⟨Prog.AdmittedIn.of_replay hseed hadm.of_append, ?_⟩
    simp only [hseed]
    exact ticks_of_replay hticks (hadm.rest (Prog.run_replay hseed))

theorem runSimulation_replay (hrun : runSimulation cfg inputs = .ok (hs, s)) :
    PersistentLOB.run (hs.flatten.map Prod.fst) = .ok (hs.flatten.map Prod.snd, s.1) := by
  have hall : RunAdmitted cfg (fun _ _ => True) inputs :=
    (runAdmitted_iff hrun).mpr (admittedFrom_true _)
  exact (hall.replay hrun).1

theorem RunAdmitted.defined (Inv : PersistentLOB → Prop) (hinit : Inv PersistentLOB.init)
    (hstep : ∀ lob op, Inv lob → adm lob op →
      ∃ r lob', lob.apply op = .ok (r, lob') ∧ Inv lob')
    (hadm : RunAdmitted cfg adm inputs) :
    ∃ hs s, runSimulation cfg inputs = .ok (hs, s) ∧ Inv s.1 := by
  obtain ⟨hadm₀, hrest⟩ := hadm
  obtain ⟨_, h, lob, hseed, hi⟩ := Prog.run_defined Inv hstep hinit hadm₀
  simp only [hseed] at hrest
  have htick : ∀ (s : SimState) input, Inv s.1 → TickAdmitted cfg adm s input →
      ∃ h s', SimState.step cfg s input = .ok (h, s') ∧ Inv s'.1 := by
    intro s input hi hadm
    obtain ⟨gm, h, lob', hrun, hi'⟩ := Prog.run_defined Inv hstep hi hadm
    exact ⟨h, (lob', gm), SimState.step_eq_ok.mpr hrun, hi'⟩
  obtain ⟨hs, s, hticks, hi'⟩ :=
    runFrom_defined (fun s : SimState => Inv s.1) htick inputs (lob, Master.init cfg) hi hrest
  exact ⟨h :: hs, s, runSimulation_eq_ok.mpr ⟨h, lob, hs, hseed, hticks, rfl⟩, hi'⟩

end Runs

end VidhiArena.GameMaster
