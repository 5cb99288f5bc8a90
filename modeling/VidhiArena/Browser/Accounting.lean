import VidhiArena.Browser.Engine
import VidhiArena.Browser.Matching

/-!
# The contestant's account in the browser

`runBatch` books the fills of the contestant's own market orders: as a taker with the
right signs, as a maker with the wrong sign of the cash. Fills of the bots' market
orders are booked nowhere. Both matter only when a market order reaches a resting
order of the contestant (`Spares` is the condition that it does not).

What the account should show is a sum over all fills of the run: `bought` and `paid`.
-/

namespace VidhiArena.Browser

open Foundation OrderedMap PersistentLOB

/-! ## What a market order reaches -/

section Reached

variable {ρ : Type} {base : Int} {lob : PersistentLOB ρ} {side : Side} {l : Levels ρ}

/-- The orders that `remaining` shares meet in a queue. -/
def reached : Int → List (Order ρ) → List (Order ρ)
  | _, [] => []
  | remaining, o :: os =>
      if 0 < remaining then o :: reached (remaining - min o.volume remaining) os else []

/-- What is left of the shares behind a queue. -/
def left : Int → List (Order ρ) → Int
  | remaining, [] => remaining
  | remaining, o :: os =>
      if 0 < remaining then left (remaining - min o.volume remaining) os else remaining

theorem reached_of_not_pos {remaining : Int} (h : ¬ 0 < remaining) (os : List (Order ρ)) :
    reached remaining os = [] := by
  cases os with
  | nil => rfl
  | cons o os => exact if_neg h

theorem reached_append (os' : List (Order ρ)) : ∀ (os : List (Order ρ)) (remaining : Int),
    reached remaining (os ++ os') = reached remaining os ++ reached (left remaining os) os' := by
  intro os
  induction os with
  | nil => exact fun _ => rfl
  | cons o os ih =>
      intro remaining
      rw [List.cons_append, reached, reached, left]
      split
      · rw [ih, List.cons_append]
      · rename_i hrem
        rw [List.nil_append, reached_of_not_pos hrem]

theorem takeOrders_makers (side : Side) (participantId : ρ) (price : Int) :
    ∀ (os : List (Order ρ)) (remaining volume : Int),
      ((takeOrders side participantId price remaining volume os).1.map Fill.makerParticipantId =
          (reached remaining os).map Order.participantId) ∧
        (takeOrders side participantId price remaining volume os).2.1 = left remaining os ∧
        ∀ f ∈ (takeOrders side participantId price remaining volume os).1,
          f.participantId = participantId := by
  intro os
  induction os with
  | nil => exact fun _ _ => ⟨rfl, rfl, fun _ hf => absurd hf List.not_mem_nil⟩
  | cons o os ih =>
      intro remaining volume
      rw [takeOrders, reached, left]
      split
      · obtain ⟨hmakers, hleft, htakers⟩ :=
          ih (remaining - min o.volume remaining) (volume - min o.volume remaining)
        refine ⟨congrArg (o.participantId :: ·) hmakers, hleft, fun f hf => ?_⟩
        rcases List.mem_cons.mp hf with rfl | hf
        · rfl
        · exact htakers f hf
      · exact ⟨rfl, rfl, fun _ hf => absurd hf List.not_mem_nil⟩

theorem takeListing_makers (side : Side) (participantId : ρ) :
    ∀ (l : Levels ρ) (remaining : Int),
      ((takeListing side participantId remaining l).1.map Fill.makerParticipantId =
          (reached remaining (l.flatMap fun entry => entry.2.orders)).map Order.participantId) ∧
        ∀ f ∈ (takeListing side participantId remaining l).1, f.participantId = participantId := by
  intro l
  induction l with
  | nil => exact fun _ => ⟨rfl, fun _ hf => absurd hf List.not_mem_nil⟩
  | cons entry l ih =>
      obtain ⟨price, level⟩ := entry
      intro remaining
      rw [takeListing, List.flatMap_cons, reached_append]
      split
      · obtain ⟨hmakers, hleft, htakers⟩ :=
          takeOrders_makers side participantId price level.orders remaining level.volume
        obtain ⟨hmakers', htakers'⟩ := ih (left remaining level.orders)
        simp only [hleft, List.map_append, hmakers, hmakers']
        refine ⟨trivial, fun f hf => ?_⟩
        rcases List.mem_append.mp hf with hf | hf
        · exact htakers f hf
        · exact htakers' f hf
      · rename_i hrem
        have hleft : ¬ 0 < left remaining level.orders := by
          cases level.orders with
          | nil => exact hrem
          | cons o os =>
              rw [left, if_neg hrem]
              exact hrem
        rw [reached_of_not_pos hrem, reached_of_not_pos hleft]
        exact ⟨rfl, fun _ hf => absurd hf List.not_mem_nil⟩

/-- The resting orders in the order in which a market order of `side` meets them. -/
def queue (lob : PersistentLOB ρ) (side : Side) : List (Order ρ) :=
  (lob.sortedPrices side).flatMap fun p =>
    ((find (lob.book side.other) p).map Level.orders).getD []

theorem queue_listed (h : lob.Listed side.other l) :
    queue lob side = l.flatMap fun entry => entry.2.orders := by
  rw [queue, sortedPrices_listed h, keys, List.flatMap_map]
  refine List.flatMap_congr fun entry hentry => ?_
  rw [h.same, find_of_mem h.nodup_listing hentry]
  rfl

/-- The makers of a market order are the orders that it reaches. -/
theorem marketOrder_makers (base : Int) (h : lob.Listed side.other l) (volume : Int)
    (participantId : ρ) :
    ((marketOrder base lob side volume participantId).1.map Fill.makerParticipantId =
        (reached volume (queue lob side)).map Order.participantId) ∧
      ∀ f ∈ (marketOrder base lob side volume participantId).1,
        f.participantId = participantId := by
  rw [(marketOrder_listed base h volume participantId).1, queue_listed h]
  exact takeListing_makers side participantId l volume

end Reached

/-! ## Books whose sides are maps -/

/-- Every side has a listing: no price occurs twice. -/
def Keyed (lob : Book) : Prop := ∀ side, ∃ l, lob.Listed side l

theorem keyed_new (base : Int) : Keyed (PersistentLOB.new base) :=
  fun side => ⟨[], by cases side <;> exact Lists.empty⟩

theorem Keyed.of_sides {lob lob' : Book} (h : Keyed lob) {side : Side} {l : Levels Name}
    (hside : lob'.Listed side l) (hother : lob'.book side.other = lob.book side.other) :
    Keyed lob' := by
  intro s
  by_cases hs : s = side
  · exact ⟨l, hs ▸ hside⟩
  · obtain rfl : s = side.other := by cases s <;> cases side <;> first | rfl | exact absurd rfl hs
    obtain ⟨l', hl'⟩ := h side.other
    exact ⟨l', by unfold Listed at hl' ⊢; rw [hother]; exact hl'⟩

theorem Keyed.apply {lob : Book} (h : Keyed lob) (base : Int) (call : BookCall Name) :
    Keyed (lob.apply base call).2 := by
  cases call with
  | addOrder side key volume participantId =>
      obtain ⟨l, hl⟩ := h side
      exact h.of_sides (hl.addOrder key volume participantId)
        (addOrder_book_other lob side.other_ne key volume participantId)
  | cancelOrder side key orderId =>
      obtain ⟨l, hl⟩ := h side
      obtain ⟨hside, hother, -⟩ := cancelOrder_listed base hl key orderId
      exact h.of_sides hside hother
  | marketOrder side volume participantId =>
      obtain ⟨l, hl⟩ := h side.other
      obtain ⟨-, hside, hother, -⟩ := marketOrder_listed base hl volume participantId
      refine h.of_sides hside ?_
      rw [Side.other_other]
      exact hother

/-! ## What the account should show -/

/-- `1` for a role in which the contestant bought, `-1` for one in which it sold. -/
def roles (f : Fill Name) : Int :=
  let sign := if f.side = .buy then 1 else -1
  (if f.participantId = CONTESTANT then sign else 0) +
    (if f.makerParticipantId = CONTESTANT then -sign else 0)

def bought (fills : List (Fill Name)) : Int := (fills.map fun f => roles f * f.volume).sum

def paid (fills : List (Fill Name)) : Int :=
  (fills.map fun f => roles f * f.volume * f.price).sum

theorem bought_append (fs fs' : List (Fill Name)) : bought (fs ++ fs') = bought fs + bought fs' := by
  rw [bought, List.map_append, List.sum_append]
  rfl

theorem paid_append (fs fs' : List (Fill Name)) : paid (fs ++ fs') = paid fs + paid fs' := by
  rw [paid, List.map_append, List.sum_append]
  rfl

theorem roles_self {f : Fill Name} (htaker : f.participantId = CONTESTANT)
    (hmaker : f.makerParticipantId = CONTESTANT) : roles f = 0 := by
  rw [roles, if_pos htaker, if_pos hmaker, Int.add_right_neg]

theorem bought_paid_others {fills : List (Fill Name)}
    (h : ∀ f ∈ fills, f.participantId ≠ CONTESTANT ∧ f.makerParticipantId ≠ CONTESTANT) :
    bought fills = 0 ∧ paid fills = 0 := by
  induction fills with
  | nil => exact ⟨rfl, rfl⟩
  | cons f fills ih =>
      obtain ⟨⟨htaker, hmaker⟩, hrest⟩ := List.forall_mem_cons.mp h
      obtain ⟨hb, hp⟩ := ih hrest
      have hroles : roles f = 0 := by rw [roles, if_neg htaker, if_neg hmaker]; rfl
      rw [bought, paid] at *
      simp [hroles, hb, hp]

/-- The fills that the calls of a history have produced. -/
def EngineHistory.fills (h : EngineHistory) : List (Fill Name) :=
  h.flatMap fun c =>
    match c.2 with
    | .fills fs => fs
    | _ => []

theorem fills_append (h h' : EngineHistory) :
    EngineHistory.fills (h ++ h') = EngineHistory.fills h ++ EngineHistory.fills h' :=
  List.flatMap_append

/-- The account is right: position and cash are those of all fills so far. -/
structure Accounted {D : Doubles} (engine : Engine D) (fills : List (Fill Name)) : Prop where
  position : engine.position = bought fills
  cash : engine.cash = Engine.startingCash - paid fills

/-! ## One tick -/

/-- The condition on a call: a market order reaches no order of the contestant. -/
def Spares (lob : Book) : BookCall Name → Prop
  | .marketOrder side volume _ =>
      ∀ o ∈ reached volume (queue lob side), o.participantId ≠ CONTESTANT
  | .addOrder .. => True
  | .cancelOrder .. => True

instance (lob : Book) : ∀ call : BookCall Name, Decidable (Spares lob call)
  | .marketOrder side volume _ =>
      inferInstanceAs (Decidable (∀ o ∈ reached volume (queue lob side), _))
  | .addOrder .. => inferInstanceAs (Decidable True)
  | .cancelOrder .. => inferInstanceAs (Decidable True)

/-- What follows for the fills of a call. -/
def Spared (call : BookCall Name) (answer : Answer Name) : Prop :=
  ∀ fs, answer = .fills fs → ∀ f ∈ fs, f.makerParticipantId ≠ CONTESTANT ∧
    ∃ side volume, call = .marketOrder side volume f.participantId

theorem apply_spared {lob : Book} (h : Keyed lob) (base : Int) {call : BookCall Name}
    (hspares : Spares lob call) : Spared call (lob.apply base call).1 := by
  intro fs hfs f hf
  cases call with
  | addOrder side key volume participantId => cases hfs
  | cancelOrder side key orderId => cases hfs
  | marketOrder side volume participantId =>
      obtain ⟨l, hl⟩ := h side.other
      obtain ⟨hmakers, htakers⟩ := marketOrder_makers base hl volume participantId
      cases hfs
      refine ⟨fun hmaker => ?_, side, volume, by rw [htakers f hf]⟩
      have hmem : CONTESTANT ∈ (reached volume (queue lob side)).map Order.participantId := by
        rw [← hmakers, ← hmaker]
        exact List.mem_map_of_mem hf
      obtain ⟨o, ho, hname⟩ := List.mem_map.mp hmem
      exact hspares o ho hname

section Tick

variable {D : Doubles} {base : Int} {lob : Book}

/-- The calls are all admitted by `Spares`, each in the book that it meets. -/
def SparesAll (base : Int) (lob : Book) (h : EngineHistory) : Prop :=
  Along (fun lob call => (lob.apply base call).2) Spares lob (h.map Prod.fst)

instance (base : Int) (lob : Book) (h : EngineHistory) : Decidable (SparesAll base lob h) :=
  Along.decidable _ Spares lob _

theorem exec_spared {α : Type} {p : EngineProg α} (hkeyed : Keyed lob)
    (hspares : SparesAll base lob (p.exec (PersistentLOB.apply base) lob).2.1) :
    Keyed (p.exec (PersistentLOB.apply base) lob).2.2 ∧
      ∀ c ∈ (p.exec (PersistentLOB.apply base) lob).2.1, Spared c.1 c.2 :=
  Prog.exec_steps Keyed Spared
    (fun _ call h hs => ⟨h.apply base call, apply_spared h base hs⟩) hkeyed hspares

theorem mem_fills {h : EngineHistory} {f : Fill Name} (hf : f ∈ EngineHistory.fills h) :
    ∃ c ∈ h, ∃ fs, c.2 = .fills fs ∧ f ∈ fs := by
  obtain ⟨⟨call, answer⟩, hc, hf⟩ := List.mem_flatMap.mp hf
  cases answer with
  | orderId id => exact absurd hf List.not_mem_nil
  | cancelled ok => exact absurd hf List.not_mem_nil
  | fills fs => exact ⟨_, hc, fs, rfl, hf⟩

/-! ### The bots -/

/-- The call is made in the name of somebody with `who`. -/
def BookCall.By (who : Name → Prop) : BookCall Name → Prop
  | .addOrder _ _ _ participantId => who participantId
  | .marketOrder _ _ participantId => who participantId
  | .cancelOrder .. => True

/-- Calls in the name of somebody else. -/
abbrev ByOthers : BookCall Name → Prop := BookCall.By (· ≠ CONTESTANT)

theorem addOrder_by {who : Name → Prop} {side : Side} {key volume : Int} {name : Name}
    (h : who name) : (EngineProg.addOrder side key volume name).All (BookCall.By who) :=
  ⟨h, fun r => by cases r <;> trivial⟩

theorem cancelOrder_by {who : Name → Prop} {side : Side} {key : Int} {id : Nat} :
    (EngineProg.cancelOrder side key id).All (BookCall.By who) :=
  ⟨trivial, fun r => by cases r <;> trivial⟩

theorem marketOrder_by {who : Name → Prop} {side : Side} {volume : Int} {name : Name}
    (h : who name) : (EngineProg.marketOrder side volume name).All (BookCall.By who) :=
  ⟨h, fun r => by cases r <;> trivial⟩

theorem lob_by {who : Name → Prop} : EngineProg.lob.All (BookCall.By who) := fun _ => trivial

theorem cancelQuote_by {who : Name → Prop} (side : Side) (price : Int) (id : Option Nat) :
    (cancelQuote side price id).All (BookCall.By who) := by
  cases id with
  | none => trivial
  | some id => exact Prog.all_bind cancelOrder_by fun _ => trivial

theorem cancelEvicted_by {who : Name → Prop} (side : Side) (evicted : Option (Nat × D.Num)) :
    (cancelEvicted side evicted).All (BookCall.By who) := by
  cases evicted with
  | none => trivial
  | some evicted => exact Prog.all_bind cancelOrder_by fun _ => trivial

theorem MarketMaker.compute_by (bot : MarketMaker) (scale : D.Num) (snap : Snapshot D)
    (signal : Signal D) : (bot.compute scale snap signal).All ByOthers := by
  refine Prog.all_bind (cancelQuote_by _ _ _) fun _ => ?_
  refine Prog.all_bind (cancelQuote_by _ _ _) fun _ => ?_
  refine Prog.all_ite trivial ?_
  refine Prog.all_bind (addOrder_by (by decide)) fun _ => ?_
  exact Prog.all_bind (addOrder_by (by decide)) fun _ => trivial

theorem MomentumBot.compute_by (bot : MomentumBot D) (scale : D.Num) (snap : Snapshot D) :
    (bot.compute scale snap).All ByOthers := by
  refine Prog.all_ite trivial ?_
  refine Prog.all_when (a := []) (marketOrder_by (by decide)) fun _ => ?_
  exact Prog.all_when (a := []) (marketOrder_by (by decide)) fun _ => trivial

theorem MeanReversionBot.place_by (side : Side) (ring : OrderRing D) (price scale : D.Num) :
    (place side ring price scale).All ByOthers := by
  refine Prog.all_bind (addOrder_by (by decide)) fun _ => ?_
  exact Prog.all_bind (cancelEvicted_by side _) fun _ => trivial

theorem MeanReversionBot.compute_by (bot : MeanReversionBot D) (scale : D.Num)
    (snap : Snapshot D) (signal : Signal D) : (bot.compute scale snap signal).All ByOthers := by
  refine Prog.all_ite trivial ?_
  refine Prog.all_when (a := bot.askRing) (place_by .sell _ _ scale) fun askRing => ?_
  exact Prog.all_when (a := bot.bidRing) (place_by .buy _ _ scale) fun bidRing => trivial

theorem NoiseTrader.compute_by (bot : NoiseTrader D) (scale : D.Num) (snap : Snapshot D) :
    (bot.compute scale snap).All ByOthers := by
  refine Prog.all_ite trivial (Prog.all_ite trivial ?_)
  refine Prog.all_bind (addOrder_by (by decide)) fun _ => ?_
  exact Prog.all_bind (cancelEvicted_by _ _) fun _ => trivial

theorem SniperBot.compute_by (scale : D.Num) (snap : Snapshot D) (signal : Signal D) :
    (SniperBot.compute scale snap signal).All ByOthers := by
  have hsnipe : ∀ side depth, (snipe side depth).All ByOthers := by
    intro side depth
    cases depth with
    | none => trivial
    | some depth => exact Prog.all_bind (marketOrder_by (by decide)) fun _ => trivial
  refine Prog.all_ite trivial ?_
  refine Prog.all_when (a := ()) (hsnipe _ _) fun _ => ?_
  exact Prog.all_ite (hsnipe _ _) trivial

theorem Engine.botsCompute_by (cfg : BotConfig D) (base : Int) (engine : Engine D)
    (signal : Signal D) : (engine.botsCompute cfg base signal).All ByOthers := by
  refine Prog.all_bind lob_by fun lob => ?_
  refine Prog.all_bind (engine.mm.compute_by cfg.MM _ signal) fun _ => ?_
  refine Prog.all_bind (engine.mom.compute_by cfg.MOM _) fun _ => ?_
  refine Prog.all_bind (engine.mr.compute_by cfg.MR _ signal) fun _ => ?_
  refine Prog.all_bind (engine.noise.compute_by cfg.NOISE _) fun _ => ?_
  exact Prog.all_bind (SniperBot.compute_by cfg.SNIPER _ signal) fun _ => trivial

theorem initSimulation_by (cfg : BotConfig D) (base : Int) (seedSignal : Signal D) :
    (initSimulation cfg base seedSignal).All ByOthers := by
  refine Prog.all_ite (Prog.all_bind lob_by fun lob => ?_) trivial
  exact Prog.all_bind (MarketMaker.new.compute_by cfg.MM _ seedSignal) fun _ => trivial

/-! ### The contestant -/

/-- The program returns the fills of its own calls. -/
def Collects {α : Type} (base : Int) (p : EngineProg (List (Fill Name) × α)) : Prop :=
  ∀ lob, (p.exec (PersistentLOB.apply base) lob).1.1 =
    EngineHistory.fills (p.exec (PersistentLOB.apply base) lob).2.1

def Quiet {α : Type} (base : Int) (p : EngineProg α) : Prop :=
  ∀ lob, EngineHistory.fills (p.exec (PersistentLOB.apply base) lob).2.1 = []

theorem collects_process (base position : Int) (order : ContestantOrder D) :
    Collects base (order.process position) := by
  intro lob
  cases order with
  | limitBuy price volume => rfl
  | limitSell price volume => rfl
  | marketBuy volume =>
      rw [ContestantOrder.process]
      split
      · rfl
      · exact (List.append_nil _).symm
  | marketSell volume =>
      rw [ContestantOrder.process]
      split
      · rfl
      · exact (List.append_nil _).symm
  | cancel orderId =>
      have hread : ∀ f : Book → EngineProg (List (Fill Name) × List (Queued D)),
          (EngineProg.lob >>= f).exec (PersistentLOB.apply base) lob =
            (f lob).exec (PersistentLOB.apply base) lob := fun _ => rfl
      rw [ContestantOrder.process, hread]
      cases findOwn lob orderId with
      | none => rfl
      | some found => rfl

theorem collects_processOrders (base position : Int) (orders : List (ContestantOrder D)) :
    Collects base (processOrders position orders) := by
  induction orders with
  | nil => exact fun _ => rfl
  | cons order orders ih =>
      intro lob
      simp only [processOrders, Prog.exec_bind, Prog.pure_eq, Prog.exec, fills_append]
      rw [← collects_process base position order lob, ← ih]
      exact congrArg _ (List.append_nil _).symm

theorem quiet_cancelOldest (base : Int) (queue : List (Queued D)) :
    Quiet base (cancelOldest queue) := by
  induction queue with
  | nil => exact fun _ => rfl
  | cons old rest ih =>
      intro lob
      rw [cancelOldest, Prog.exec_bind, fills_append, ih]
      rfl

/-- Step 6 is right about fills in which the contestant is no maker. -/
theorem settle_foldl : ∀ {fills : List (Fill Name)} (engine : Engine D),
    (∀ f ∈ fills, f.makerParticipantId ≠ CONTESTANT) →
      (fills.foldl Engine.settle engine).position = engine.position + bought fills ∧
        (fills.foldl Engine.settle engine).cash = engine.cash - paid fills := by
  intro fills
  induction fills with
  | nil => exact fun engine _ => ⟨(Int.add_zero _).symm, (Int.sub_zero _).symm⟩
  | cons f fills ih =>
      intro engine h
      obtain ⟨hmaker, hrest⟩ := List.forall_mem_cons.mp h
      obtain ⟨hposition, hcash⟩ := ih (engine.settle f) hrest
      have hroles : roles f =
          if f.participantId = CONTESTANT then if f.side = .buy then 1 else -1 else 0 := by
        rw [roles, if_neg hmaker, Int.add_zero]
      have hsettle : (engine.settle f).position = engine.position + roles f * f.volume ∧
          (engine.settle f).cash = engine.cash - roles f * f.volume * f.price := by
        rw [hroles]
        unfold Engine.settle Engine.account
        rw [if_neg hmaker]
        split
        · exact ⟨rfl, rfl⟩
        · simp
      have hbought : bought (f :: fills) = roles f * f.volume + bought fills := rfl
      have hpaid : paid (f :: fills) = roles f * f.volume * f.price + paid fills := rfl
      rw [List.foldl_cons, hposition, hcash, hsettle.1, hsettle.2, hbought, hpaid]
      exact ⟨by omega, by omega⟩

/-! ### The tick -/

/-- The first part of a spared history is spared, and the second from where it leads. -/
theorem sparesAll_bind {α β : Type} {p : EngineProg α} {f : α → EngineProg β}
    (h : SparesAll base lob ((p >>= f).exec (PersistentLOB.apply base) lob).2.1) :
    SparesAll base lob (p.exec (PersistentLOB.apply base) lob).2.1 ∧
      SparesAll base (p.exec (PersistentLOB.apply base) lob).2.2
        ((f (p.exec (PersistentLOB.apply base) lob).1).exec (PersistentLOB.apply base)
          (p.exec (PersistentLOB.apply base) lob).2.2).2.1 := by
  unfold SparesAll at h ⊢
  rw [Prog.exec_bind, List.map_append, along_append] at h
  rw [Prog.exec_foldl]
  rw [Prog.exec_foldl] at h
  exact h

theorem botsCompute_account (cfg : BotConfig D) (base : Int) (engine : Engine D)
    (signal : Signal D) (lob : Book) :
    ((engine.botsCompute cfg base signal).exec (PersistentLOB.apply base) lob).1.position =
        engine.position ∧
      ((engine.botsCompute cfg base signal).exec (PersistentLOB.apply base) lob).1.cash =
        engine.cash := by
  simp only [Engine.botsCompute, Prog.exec_bind, Prog.pure_eq, Prog.exec, and_self]

/-- The bots' fills do not concern the contestant when it is spared. -/
theorem others_fills {α : Type} {p : EngineProg α} (hkeyed : Keyed lob) (hby : p.All ByOthers)
    (hspares : SparesAll base lob (p.exec (PersistentLOB.apply base) lob).2.1) :
    bought (EngineHistory.fills (p.exec (PersistentLOB.apply base) lob).2.1) = 0 ∧
      paid (EngineHistory.fills (p.exec (PersistentLOB.apply base) lob).2.1) = 0 := by
  refine bought_paid_others fun f hf => ?_
  obtain ⟨c, hc, fs, hfs, hf⟩ := mem_fills hf
  obtain ⟨hmaker, side, volume, hcall⟩ := (exec_spared hkeyed hspares).2 c hc fs hfs f hf
  have hother := hby.exec c hc
  rw [hcall] at hother
  exact ⟨hother, hmaker⟩

theorem contestantTrades_collects (base : Int) (engine : Engine D) (orders : List (ContestantOrder D)) :
    Collects base (engine.contestantTrades orders) := by
  intro lob
  have hquiet := quiet_cancelOldest (D := D) base
  simp only [Engine.contestantTrades, Prog.exec_bind, Prog.pure_eq, Prog.exec, fills_append]
  rw [hquiet, ← collects_processOrders base engine.position orders lob, List.nil_append]
  exact (List.append_nil _).symm

theorem tick_exec (cfg : BotConfig D) (engine : Engine D) (input : TickInput D) :
    (engine.tick cfg base input).exec (PersistentLOB.apply base) lob =
      let r := (engine.botsCompute cfg base input.signal).exec (PersistentLOB.apply base) lob
      let t := (r.1.contestantTrades input.contestantOrders).exec (PersistentLOB.apply base) r.2.2
      (t.1.1.foldl Engine.settle { r.1 with contestantOrdersQueue := t.1.2 },
        r.2.1 ++ t.2.1, t.2.2) := by
  simp only [Engine.tick, Prog.exec_bind, Prog.pure_eq, Prog.exec, List.append_nil]

/-- One tick books all its fills, if its market orders spare the contestant. -/
theorem tick_settles (cfg : BotConfig D) (engine : Engine D) (input : TickInput D)
    (hkeyed : Keyed lob)
    (hspares : SparesAll base lob ((engine.tick cfg base input).result base lob).1) :
    Keyed ((engine.tick cfg base input).result base lob).2.1 ∧
      ((engine.tick cfg base input).result base lob).2.2.position = engine.position +
        bought (EngineHistory.fills ((engine.tick cfg base input).result base lob).1) ∧
      ((engine.tick cfg base input).result base lob).2.2.cash = engine.cash -
        paid (EngineHistory.fills ((engine.tick cfg base input).result base lob).1) := by
  obtain ⟨hbots, hrest⟩ := sparesAll_bind hspares
  obtain ⟨hown, -⟩ := sparesAll_bind hrest
  refine ⟨(exec_spared hkeyed hspares).1, ?_⟩
  obtain ⟨hposition, hcash⟩ := botsCompute_account cfg base engine input.signal lob
  obtain ⟨hbought, hpaid⟩ := others_fills hkeyed (engine.botsCompute_by cfg base input.signal) hbots
  obtain ⟨hkeyed₁, -⟩ := exec_spared hkeyed hbots
  obtain ⟨-, hspared⟩ := exec_spared hkeyed₁ hown
  unfold EngineProg.result
  rw [tick_exec]
  generalize (engine.botsCompute cfg base input.signal).exec (PersistentLOB.apply base) lob = r at *
  obtain ⟨engine₁, h₁, lob₁⟩ := r
  dsimp only at hspared hposition hcash hbought hpaid ⊢
  have hcollects := contestantTrades_collects base engine₁ input.contestantOrders lob₁
  generalize (engine₁.contestantTrades input.contestantOrders).exec (PersistentLOB.apply base)
    lob₁ = t at *
  obtain ⟨⟨newFills, queue⟩, h₂, lob₂⟩ := t
  dsimp only at hcollects hspared ⊢
  have hmakers : ∀ f ∈ newFills, f.makerParticipantId ≠ CONTESTANT := by
    intro f hf
    rw [hcollects] at hf
    obtain ⟨c, hc, fs, hfs, hf⟩ := mem_fills hf
    exact (hspared c hc fs hfs f hf).1
  obtain ⟨hposition₂, hcash₂⟩ :=
    settle_foldl { engine₁ with contestantOrdersQueue := queue } hmakers
  rw [fills_append, bought_append, paid_append, hbought, hpaid, ← hcollects, hposition₂, hcash₂,
    hposition, hcash, Int.zero_add, Int.zero_add]
  exact ⟨rfl, rfl⟩

/-! ## The run -/

def ticks (cfg : BotConfig D) (base : Int) (s : EngineState D) (inputs : List (TickInput D)) :
    List EngineHistory × EngineState D :=
  traceFrom (fun s input => (s.2.tick cfg base input).result base s.1) s inputs

theorem result_leads (base : Int) (p : EngineProg (Engine D)) (lob : Book) :
    (p.result base lob).2.1 =
      ((p.result base lob).1.map Prod.fst).foldl (fun lob call => (lob.apply base call).2) lob :=
  Prog.exec_foldl _ _

theorem ticks_settle (cfg : BotConfig D) : ∀ (inputs : List (TickInput D)) (s : EngineState D),
    Keyed s.1 → SparesAll base s.1 (ticks cfg base s inputs).1.flatten →
      (ticks cfg base s inputs).2.2.position = s.2.position +
          bought (EngineHistory.fills (ticks cfg base s inputs).1.flatten) ∧
        (ticks cfg base s inputs).2.2.cash = s.2.cash -
          paid (EngineHistory.fills (ticks cfg base s inputs).1.flatten) := by
  intro inputs
  induction inputs with
  | nil => exact fun s _ _ => ⟨(Int.add_zero _).symm, (Int.sub_zero _).symm⟩
  | cons input inputs ih =>
      intro s hkeyed hspares
      have hticks : ticks cfg base s (input :: inputs) =
          (((s.2.tick cfg base input).result base s.1).1 ::
              (ticks cfg base ((s.2.tick cfg base input).result base s.1).2 inputs).1,
            (ticks cfg base ((s.2.tick cfg base input).result base s.1).2 inputs).2) := rfl
      rw [hticks, List.flatten_cons] at hspares
      unfold SparesAll at hspares
      rw [List.map_append, along_append, ← result_leads] at hspares
      obtain ⟨hfirst, hrest⟩ := hspares
      obtain ⟨hkeyed', hposition, hcash⟩ := tick_settles cfg s.2 input hkeyed hfirst
      obtain ⟨hposition', hcash'⟩ := ih _ hkeyed' hrest
      rw [hticks]
      simp only [List.flatten_cons]
      rw [fills_append, bought_append, paid_append, hposition', hcash', hposition, hcash]
      exact ⟨by omega, by omega⟩

theorem runBatch_eq (cfg : BotConfig D) (base : Int) (seedSignal : Signal D)
    (inputs : List (TickInput D)) : runBatch cfg base seedSignal inputs =
      let r := (initSimulation cfg base seedSignal).result base (PersistentLOB.new base)
      (r.1 :: (ticks cfg base r.2 inputs).1, (ticks cfg base r.2 inputs).2) := rfl

theorem runBatch_prefix (cfg : BotConfig D) (base : Int) (seedSignal : Signal D)
    {pre inputs : List (TickInput D)} (hpre : pre <+: inputs) :
    (runBatch cfg base seedSignal pre).1.flatten <+:
      (runBatch cfg base seedSignal inputs).1.flatten := by
  obtain ⟨post, rfl⟩ := hpre
  simp only [runBatch_eq, ticks, traceFrom_append, List.flatten_cons, List.flatten_append]
  rw [List.prefix_append_right_inj]
  exact List.prefix_append _ _

theorem initSimulation_account (cfg : BotConfig D) (base : Int) (seedSignal : Signal D)
    (lob : Book) :
    ((initSimulation cfg base seedSignal).exec (PersistentLOB.apply base) lob).1.position = 0 ∧
      ((initSimulation cfg base seedSignal).exec (PersistentLOB.apply base) lob).1.cash =
        Engine.startingCash := by
  unfold initSimulation
  dsimp only
  split
  · simp only [Prog.exec_bind, Prog.pure_eq, Prog.exec]
    exact ⟨rfl, rfl⟩
  · exact ⟨rfl, rfl⟩

theorem initSimulation_settles (cfg : BotConfig D) (base : Int) (seedSignal : Signal D)
    (hspares : SparesAll base (PersistentLOB.new base)
      ((initSimulation cfg base seedSignal).result base (PersistentLOB.new base)).1) :
    Keyed ((initSimulation cfg base seedSignal).result base (PersistentLOB.new base)).2.1 ∧
      Accounted ((initSimulation cfg base seedSignal).result base (PersistentLOB.new base)).2.2
        (EngineHistory.fills
          ((initSimulation cfg base seedSignal).result base (PersistentLOB.new base)).1) := by
  have hkeyed := keyed_new base
  obtain ⟨hposition, hcash⟩ := initSimulation_account cfg base seedSignal (PersistentLOB.new base)
  obtain ⟨hbought, hpaid⟩ := others_fills hkeyed (initSimulation_by cfg base seedSignal) hspares
  refine ⟨(exec_spared hkeyed hspares).1, hposition.trans hbought.symm, hcash.trans ?_⟩
  exact ((congrArg (Engine.startingCash - ·) hpaid).trans (Int.sub_zero _)).symm

/-- The books are right after every tick of a run in which no market order reaches a
resting order of the contestant. -/
theorem accounts_right (cfg : BotConfig D) (base : Int) (seedSignal : Signal D)
    (inputs : List (TickInput D))
    (hspares : SparesAll base (PersistentLOB.new base)
      (runBatch cfg base seedSignal inputs).1.flatten) :
    ∀ pre, pre <+: inputs → Accounted (runBatch cfg base seedSignal pre).2.2
      (EngineHistory.fills (runBatch cfg base seedSignal pre).1.flatten) := by
  intro pre hpre
  obtain ⟨later, hlater⟩ := runBatch_prefix cfg base seedSignal hpre
  unfold SparesAll at hspares
  rw [← hlater, List.map_append, along_append] at hspares
  have hrun := hspares.1
  rw [runBatch_eq] at hrun ⊢
  dsimp only at hrun ⊢
  rw [List.flatten_cons, List.map_append, along_append] at hrun
  rw [List.flatten_cons, fills_append]
  obtain ⟨hinit, hticks⟩ := hrun
  obtain ⟨hkeyed, hposition, hcash⟩ := initSimulation_settles cfg base seedSignal hinit
  rw [← result_leads] at hticks
  obtain ⟨hposition', hcash'⟩ := ticks_settle cfg pre _ hkeyed hticks
  constructor
  · rw [hposition', hposition, bought_append]
  · rw [hcash', hcash, paid_append, Int.sub_sub]

end Tick

/-! ## Two ticks, and what goes wrong -/

/-- Every bot with its default size. -/
def BotConfig.default : BotConfig Doubles.exact :=
  ⟨(1 : Rat), (1 : Rat), (1 : Rat), (1 : Rat), (1 : Rat)⟩

/-- A fair value of 1500 dollars that does not move. -/
def calm : Signal Doubles.exact := ⟨(1500 : Rat), (0 : Rat)⟩

/-- The contestant bids far below the market, buys three and sells two. -/
theorem accounts_right_two_ticks :
    let inputs : List (TickInput Doubles.exact) :=
      [⟨calm, [.limitBuy (1490 : Rat) 1, .marketBuy 3]⟩, ⟨calm, [.marketSell 2]⟩]
    SparesAll 150000 (PersistentLOB.new 150000)
        (runBatch BotConfig.default 150000 calm inputs).1.flatten ∧
      ∀ pre, pre <+: inputs → Accounted (runBatch BotConfig.default 150000 calm pre).2.2
        (EngineHistory.fills (runBatch BotConfig.default 150000 calm pre).1.flatten) := by
  intro inputs
  have hspares : SparesAll 150000 (PersistentLOB.new 150000)
      (runBatch BotConfig.default 150000 calm inputs).1.flatten := by
    decide +kernel
  exact ⟨hspares, accounts_right BotConfig.default 150000 calm inputs hspares⟩

/-- The contestant as a maker: buying its own share back, it loses twice the price;
and a share that the sniper buys from it leaves its account as it was. -/
theorem maker_fills_misbooked :
    let own := runBatch BotConfig.default 150000 calm
      [⟨calm, [.limitSell (1500 : Rat) 1, .marketBuy 1]⟩]
    let sniped := runBatch BotConfig.default 150000 calm
      [⟨calm, [.limitSell (14999 / 10 : Rat) 1]⟩, ⟨calm, []⟩]
    (own.2.2.cash = 9700000 ∧
        Engine.startingCash - paid (EngineHistory.fills own.1.flatten) = 10000000) ∧
      (sniped.2.2.position = 0 ∧ bought (EngineHistory.fills sniped.1.flatten) = -1) := by
  decide +kernel

end VidhiArena.Browser
