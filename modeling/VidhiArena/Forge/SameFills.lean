import VidhiArena.Forge.PriceLadder
import VidhiArena.GameMaster.LevelTotals

/-!
# The local tester and the engine

The book of `forge/local_gm.py` knows a volume for each price, the engine's book knows every
order. Given the same calls, both keep the same volume at every price, and a market order
takes the same at each price, in the same order (`SameBook`, `same_fills`).

A price of the tester is a number of ticks, one of the engine is `FIXED_POINT` times as many
dollars.
-/

namespace VidhiArena.Forge.LocalGM

open Foundation OrderedMap GameMaster

/-! ## Calls -/

/-- `FIXED_POINT * TICK_SIZE`. -/
def tickFp : Int := 10000

def priceFp (price : Int) : Int64 := Int64.ofInt (tickFp * price)

def Side.isBuy : Side → Bool
  | buy => true
  | sell => false

/-- The calls that both books have. -/
inductive Call where
  | addOrder (side : Side) (price : Int) (volume : Int64) (participant : ParticipantID)
  | marketOrder (side : Side) (volume : Int64) (taker : ParticipantID)

/-- The price fits into the engine, the volume is positive. -/
def Call.Valid : Call → Prop
  | addOrder _ price volume _ => GameMaster.Fits (tickFp * price) ∧ 0 < volume
  | marketOrder .. => True

instance : ∀ c, Decidable (Call.Valid c)
  | .addOrder .. => inferInstanceAs (Decidable (_ ∧ _))
  | .marketOrder .. => inferInstanceAs (Decidable True)

def Call.op : Call → BookOp
  | addOrder side price volume who => .addLimit side.isBuy (priceFp price) volume who
  | marketOrder side volume who => .marketOrder side.isBuy volume who

def SimpleLOB.apply (lob : SimpleLOB) : Call → List Fill × SimpleLOB
  | .addOrder side price volume _ => ([], lob.addOrder side price volume.toInt)
  | .marketOrder side volume _ => lob.marketOrder side volume.toInt

/-! ## Prices -/

theorem toInt_priceFp {p : Int} (h : GameMaster.Fits (tickFp * p)) :
    (priceFp p).toInt = tickFp * p :=
  toInt_ofInt_of_fits h

theorem priceFp_lt_iff {p q : Int} (hp : GameMaster.Fits (tickFp * p))
    (hq : GameMaster.Fits (tickFp * q)) : priceFp p < priceFp q ↔ p < q := by
  rw [Int64.lt_iff_toInt_lt, toInt_priceFp hp, toInt_priceFp hq, tickFp]
  omega

theorem priceFp_inj {p q : Int} (hp : GameMaster.Fits (tickFp * p))
    (hq : GameMaster.Fits (tickFp * q)) : priceFp p = priceFp q ↔ p = q := by
  rw [← Int64.toInt_inj, toInt_priceFp hp, toInt_priceFp hq, tickFp]
  omega

/-- A level of the tester, as one of the engine. -/
def scaled (x : Int × Int) : Int64 × Int := (priceFp x.1, x.2)

def Fill.scaled (f : Fill) : Int64 × Int := (priceFp f.price, f.volume)

/-- What a reply fills at each price. -/
def filledAt (r : Reply) : List (Int64 × Int) := merged (r.matched.map MatchedFill.priced)

/-! ## The two books -/

/-- One side of the engine's book, and a ladder. -/
structure SameSide (ls : List BookLevel) (ladder : List (Int × Int)) : Prop where
  totals : ls.map Book.total = ladder.map scaled
  fits : ∀ p ∈ keys ladder, GameMaster.Fits (tickFp * p)
  tidy : Book.Tidy ls

structure SameBook (B : Book) (lob : SimpleLOB) : Prop where
  side : ∀ side : Side, SameSide (B.side !side.isBuy) (lob.levels side)
  lastTrade : B.lastTradeFp = priceFp lob.lastTradePrice

theorem SameBook.empty : SameBook Book.empty SimpleLOB.new where
  side side := by
    cases side with
    | buy => exact ⟨rfl, fun x hx => absurd hx List.not_mem_nil,
        fun lv hlv => absurd hlv List.not_mem_nil, fun lv hlv => absurd hlv List.not_mem_nil⟩
    | sell => exact ⟨rfl, fun x hx => absurd hx List.not_mem_nil,
        fun lv hlv => absurd hlv List.not_mem_nil, fun lv hlv => absurd hlv List.not_mem_nil⟩
  lastTrade := rfl

theorem prices_of_totals {ls : List BookLevel} {ladder : List (Int × Int)}
    (h : ls.map Book.total = ladder.map scaled) :
    ls.map BookLevel.priceFp = (keys ladder).map priceFp := by
  rw [keys, List.map_map]
  have hkeys := congrArg (List.map Prod.fst) h
  rwa [List.map_map, List.map_map] at hkeys

/-! ## A market order -/

theorem scaled_sweep (ladder : List (Int × Int)) (volume : Int) :
    sweep (ladder.map scaled) volume = (sweep ladder volume).map scaled :=
  sweep_renamed priceFp ladder volume

theorem scaled_leftover (ladder : List (Int × Int)) (volume : Int) :
    leftover (ladder.map scaled) volume = (leftover ladder volume).map scaled :=
  leftover_renamed priceFp ladder volume

theorem isBuy_other (side : Side) : side.other.isBuy = !side.isBuy := by cases side <;> rfl

/-- A market order fills the same at each price, and the books stay the same. -/
theorem SameBook.marketOrder {B : Book} {lob : SimpleLOB} (h : SameBook B lob) {side : Side}
    (hnodup : ((B.side !side.isBuy).map BookLevel.priceFp).Nodup) (volume : Int64)
    (taker : ParticipantID) :
    merged ((B.marketOrder side.isBuy volume taker).1.map MatchedFill.priced) =
        (lob.marketOrder side volume.toInt).1.map Fill.scaled ∧
      SameBook (B.marketOrder side.isBuy volume taker).2
        (lob.marketOrder side volume.toInt).2 := by
  obtain ⟨htotals, hfits, htidy⟩ := h.side side
  have hmatched := @Book.matchLevels_matched side.isBuy taker _ volume htidy hnodup
  obtain ⟨hfills, -, hleft, htidy'⟩ := hmatched
  rw [htotals, scaled_sweep] at hfills
  rw [htotals, scaled_leftover, ← lob.levels_marketOrder side] at hleft
  have hsame : merged ((B.marketOrder side.isBuy volume taker).1.map MatchedFill.priced) =
      (lob.marketOrder side volume.toInt).1.map Fill.scaled := by
    rw [SimpleLOB.marketOrder_fills, List.map_map]
    exact hfills
  refine ⟨hsame, fun s => ?_, ?_⟩
  · by_cases hs : s = side
    · subst hs
      have hside : (B.marketOrder s.isBuy volume taker).2.side (!s.isBuy) =
          (Book.matchLevels s.isBuy taker volume (B.side !s.isBuy)).2 := by cases s <;> rfl
      rw [hside]
      refine ⟨hleft, fun p hp => hfits p ?_, htidy'⟩
      rw [lob.levels_marketOrder] at hp
      exact (leftover_keys _ _).subset hp
    · obtain rfl := Side.eq_other hs
      have hside : (B.marketOrder side.isBuy volume taker).2.side (!side.other.isBuy) =
          B.side (!side.other.isBuy) := by cases side <;> rfl
      rw [hside, lob.levels_marketOrder_other]
      exact h.side side.other
  · have hlast := congrArg (fun xs => xs.getLast?.map Prod.fst) hsame
    rw [merged_getLast?, List.getLast?_map, List.getLast?_map, Option.map_map,
      Option.map_map] at hlast
    show Book.lastPrice B.lastTradeFp (B.marketOrder side.isBuy volume taker).1 = _
    rw [SimpleLOB.marketOrder, SimpleLOB.lastTradePrice_takeLevels, ← SimpleLOB.marketOrder,
      Book.lastPrice, h.lastTrade]
    have hprice : (B.marketOrder side.isBuy volume taker).1.getLast?.map MatchedFill.priceFp =
        ((lob.marketOrder side volume.toInt).1.getLast?.map Fill.price).map priceFp := by
      rw [Option.map_map]
      exact hlast
    rw [hprice]
    cases (lob.marketOrder side volume.toInt).1.getLast? <;> rfl

/-! ## An order more -/

theorem meets_of_before {side : Side} {p q : Int} (hp : GameMaster.Fits (tickFp * p))
    (hq : GameMaster.Fits (tickFp * q))
    (h : LOBSide.before side.isBuy (priceFp p) (priceFp q) = true) :
    side.other.Meets p q := by
  cases side with
  | buy => exact (priceFp_lt_iff hq hp).mp (of_decide_eq_true h)
  | sell => exact (priceFp_lt_iff hp hq).mp (of_decide_eq_true h)

theorem SimpleLOB.volume_of_ladder {lob : SimpleLOB} {side : Side} {p n : Int}
    {pre mid post : List (Int × Int)} (hladder : lob.levels side.other = pre ++ mid ++ post)
    (hpre : p ∉ keys pre) (hpost : p ∉ keys post)
    (hmid : mid = [(p, n)] ∨ mid = [] ∧ n = 0) : (lob.book side).volume p = n := by
  have hfind := lob.find_levels side.other p
  rw [other_other, hladder, find_append, find_append, find_eq_none.mpr hpre,
    find_eq_none.mpr hpost] at hfind
  rw [PriceMap.volume, ← hfind]
  rcases hmid with rfl | ⟨rfl, rfl⟩
  · rw [find, if_pos rfl]
    rfl
  · rfl

theorem SimpleLOB.levels_addOrder (lob : SimpleLOB) {side : Side} {p n : Int} (volume : Int)
    {pre mid post : List (Int × Int)} (hladder : lob.levels side.other = pre ++ mid ++ post)
    (hkeys : ∀ x ∈ mid, x.1 = p) (hmid : mid = [(p, n)] ∨ mid = [] ∧ n = 0)
    (hmeets : (keys (pre ++ (p, n + volume) :: post)).Pairwise side.other.Meets) :
    (lob.addOrder side p volume).levels side.other = pre ++ (p, n + volume) :: post := by
  have hfresh : p ∉ keys pre ++ keys post := by
    have hall := Side.Meets.nodup hmeets
    rw [keys, List.map_append, List.map_cons, List.nodup_middle, List.nodup_cons] at hall
    exact hall.1
  have hpre : p ∉ keys pre := fun hmem => hfresh (List.mem_append_left _ hmem)
  have hpost : p ∉ keys post := fun hmem => hfresh (List.mem_append_right _ hmem)
  refine levels_eq hmeets fun r => ?_
  rw [find_middle hpre hkeys, ← hladder, lob.find_levels, other_other, find_addOrder,
    volume_of_ladder hladder hpre hpost hmid]

theorem joined_level {b : Bool} {p : Int} {q : List RestingOrder}
    {lmid : List (Int × Int)} (hp : GameMaster.Fits (tickFp * p))
    (hfits : ∀ r ∈ keys lmid, GameMaster.Fits (tickFp * r))
    (hmid : lmid.map scaled = (if b then [(⟨priceFp p, q⟩ : BookLevel)] else []).map Book.total)
    (hq : b = false → q = []) :
    lmid = [(p, Book.exactVolume q)] ∨ lmid = [] ∧ Book.exactVolume q = 0 := by
  cases b with
  | false =>
      rw [hq rfl]
      exact .inr ⟨List.map_eq_nil_iff.mp hmid, rfl⟩
  | true =>
      obtain ⟨⟨p', n⟩, rfl, hx⟩ := List.map_eq_singleton_iff.mp hmid
      obtain ⟨hprice, rfl⟩ := Prod.mk.inj hx
      rw [(priceFp_inj (hfits p' List.mem_cons_self) hp).mp hprice]
      exact .inl rfl

theorem SameBook.joined {B : Book} {lob : SimpleLOB} (h : SameBook B lob) {side : Side}
    {p : Int} {volume : Int64} {who : ParticipantID} (hp : GameMaster.Fits (tickFp * p))
    (hv : 0 < volume) (hnodup : ((B.side side.isBuy).map BookLevel.priceFp).Nodup)
    (hsorted : LOBSide.Sorted side.isBuy
      (((B.addLimit side.isBuy (priceFp p) volume who).2.side side.isBuy).map
        BookLevel.priceFp)) :
    SameSide ((B.addLimit side.isBuy (priceFp p) volume who).2.side side.isBuy)
      ((lob.addOrder side p volume.toInt).levels side.other) := by
  obtain ⟨pre, q, post, hside, hq, hnew⟩ := Book.addLimit_split (priceFp p) volume who hnodup
  obtain ⟨htotals, hfits, htidy⟩ := h.side side.other
  rw [isBuy_other, Bool.not_not] at htotals htidy
  rw [hnew] at hsorted
  -- the ladder, cut where the levels are cut
  rw [hside, List.map_append, List.map_append] at htotals
  obtain ⟨front, lpost, hladder, hfront, hlpost⟩ := List.map_eq_append_iff.mp htotals.symm
  obtain ⟨lpre, lmid, rfl, hlpre, hlmid⟩ := List.map_eq_append_iff.mp hfront
  rw [hladder, keys, List.map_append, List.map_append] at hfits
  have hmid := joined_level hp (fun r hr => hfits r
    (List.mem_append_left _ (List.mem_append_right _ hr))) hlmid hq
  have hkeys : ∀ x ∈ lmid, x.1 = p := by
    rcases hmid with rfl | ⟨rfl, -⟩
    · exact List.forall_mem_singleton.mpr rfl
    · exact fun x hx => absurd hx List.not_mem_nil
  -- the prices with the order, in the engine and on the ladder
  let ladder := lpre ++ (p, Book.exactVolume q + volume.toInt) :: lpost
  have htotals' : (pre ++ [(⟨priceFp p, q ++ [⟨B.nextOrderId, volume, who⟩]⟩ : BookLevel)] ++
      post).map Book.total = ladder.map scaled := by
    rw [List.map_append, List.map_append, ← hlpre, ← hlpost, List.append_assoc]
    simp [ladder, scaled, Book.total]
  have hfits' : ∀ r ∈ keys ladder, GameMaster.Fits (tickFp * r) := by
    intro r hr
    rw [keys, List.map_append, List.mem_append, List.map_cons, List.mem_cons] at hr
    rcases hr with hr | rfl | hr
    · exact hfits r (List.mem_append_left _ (List.mem_append_left _ hr))
    · exact hp
    · exact hfits r (List.mem_append_right _ hr)
  rw [prices_of_totals htotals', LOBSide.Sorted, List.pairwise_map] at hsorted
  have hmeets : (keys ladder).Pairwise side.other.Meets :=
    hsorted.imp_of_mem fun hr hr' => meets_of_before (hfits' _ hr) (hfits' _ hr')
  have hlevels := lob.levels_addOrder volume.toInt hladder hkeys hmid hmeets
  rw [hnew, hlevels]
  refine ⟨htotals', hfits', ?_⟩
  have hmem : ∀ lv ∈ pre ++ post, lv ∈ B.side side.isBuy := by
    intro lv hlv
    rw [hside, List.append_assoc]
    rcases List.mem_append.mp hlv with hlv | hlv
    · exact List.mem_append_left _ hlv
    · exact List.mem_append_right _ (List.mem_append_right _ hlv)
  refine htidy.joined hmem (fun o ho => ?_) hv
  cases hhas : Book.hasLevel (B.side side.isBuy) (priceFp p) with
  | false =>
      rw [hq hhas] at ho
      exact absurd ho List.not_mem_nil
  | true =>
      refine htidy.positive ⟨priceFp p, q⟩ ?_ o ho
      rw [hside, if_pos hhas, List.append_assoc]
      exact List.mem_append_right _ List.mem_cons_self

theorem SameBook.addOrder {B : Book} {lob : SimpleLOB} (h : SameBook B lob) {side : Side}
    {p : Int} {volume : Int64} {who : ParticipantID} (hp : GameMaster.Fits (tickFp * p))
    (hv : 0 < volume) (hnodup : ((B.side side.isBuy).map BookLevel.priceFp).Nodup)
    (hsorted : LOBSide.Sorted side.isBuy
      (((B.addLimit side.isBuy (priceFp p) volume who).2.side side.isBuy).map
        BookLevel.priceFp)) :
    SameBook (B.addLimit side.isBuy (priceFp p) volume who).2
      (lob.addOrder side p volume.toInt) := by
  refine ⟨fun s => ?_, ?_⟩
  · by_cases hs : s = side
    · subst hs
      have hother : (B.addLimit s.isBuy (priceFp p) volume who).2.side (!s.isBuy) =
          B.side (!s.isBuy) := by cases s <;> rfl
      rw [hother, SimpleLOB.levels_congr (lob.book_addOrder_other s p _)]
      exact h.side s
    · obtain rfl := Side.eq_other hs
      rw [isBuy_other, Bool.not_not]
      exact h.joined hp hv hnodup hsorted
  · have hlast : (B.addLimit side.isBuy (priceFp p) volume who).2.lastTradeFp = B.lastTradeFp := by
      cases side <;> rfl
    have hlast' : (lob.addOrder side p volume.toInt).lastTradePrice = lob.lastTradePrice := by
      cases side <;> rfl
    rw [hlast, hlast', h.lastTrade]

/-! ## Runs -/

theorem uncapped_of_reply {B : Book} {op : BookOp}
    (h : (B.applyBounded op).1 ≠ .orderId nullOrderId) : B.Uncapped op := by
  cases op with
  | addLimit isBid price volume who =>
      refine ⟨fun htable => h ?_, fun hpool => h ?_⟩
      · rw [Book.applyBounded, Book.addLimitBounded, if_pos htable]
      · by_cases htable : B.TableFull isBid price
        · rw [Book.applyBounded, Book.addLimitBounded, if_pos htable]
        · rw [Book.applyBounded, Book.addLimitBounded, if_neg htable, if_pos hpool]
  | cancel id => trivial
  | marketOrder isBuy volume taker => trivial

theorem SameBook.apply {B : Book} {lob : SimpleLOB} (h : SameBook B lob) {c : Call}
    (hc : c.Valid) (hnodup : ∀ b, ((B.side b).map BookLevel.priceFp).Nodup)
    (hsorted : ∀ b, LOBSide.Sorted b (((B.apply c.op).2.side b).map BookLevel.priceFp)) :
    filledAt (B.apply c.op).1 = (lob.apply c).1.map Fill.scaled ∧
      SameBook (B.apply c.op).2 (lob.apply c).2 := by
  cases c with
  | addOrder side price volume who =>
      exact ⟨rfl, h.addOrder hc.1 hc.2 (hnodup side.isBuy) (hsorted side.isBuy)⟩
  | marketOrder side volume who => exact h.marketOrder (hnodup (!side.isBuy)) volume who

theorem bestPrice_eq (b : Bool) (ls : List BookLevel) :
    Book.bestPrice b ls =
      (ls.map BookLevel.priceFp).head?.getD (if b then 0 else Int64.maxValue) := by
  cases ls <;> rfl

theorem SameSide.bestPrice {ls : List BookLevel} {ladder : List (Int × Int)}
    (h : SameSide ls ladder) (b : Bool) :
    Book.bestPrice b ls = ((ladder.head?.map Prod.fst).map priceFp).getD
      (if b then 0 else Int64.maxValue) := by
  rw [bestPrice_eq, prices_of_totals h.totals, keys, List.head?_map, List.head?_map]

theorem SameBook.run : ∀ {calls : List Call} {lob lob' : PersistentLOB} {B : Book}
    {tester : SimpleLOB} {rs : List Reply}, Refines lob B → SameBook B tester →
    (∀ c ∈ calls, c.Valid) → B.nextOrderId.toNat + BookOp.adds (calls.map Call.op) < 2 ^ 64 →
    runFrom PersistentLOB.apply lob (calls.map Call.op) = .ok (rs, lob') →
    .orderId nullOrderId ∉ rs →
    rs.map filledAt = (traceFrom SimpleLOB.apply tester calls).1.map (List.map Fill.scaled) ∧
      ∃ B', Refines lob' B' ∧ SameBook B' (traceFrom SimpleLOB.apply tester calls).2
  | [], _, _, B, _, _, href, hsame, _, _, hrun, _ => by
      cases hrun
      exact ⟨rfl, B, href, hsame⟩
  | c :: calls, lob, lob', B, tester, rs, href, hsame, hvalid, hids, hrun, haccepted => by
      obtain ⟨⟨r, lob₁⟩, hcall, hrun⟩ := bind_eq_ok.mp hrun
      obtain ⟨⟨rs, lob₂⟩, hrest, hrun⟩ := bind_eq_ok.mp hrun
      cases hrun
      rw [List.mem_cons, not_or] at haccepted
      obtain ⟨hc, hcalls⟩ := List.forall_mem_cons.mp hvalid
      rw [List.map_cons, BookOp.adds_cons, ← Nat.add_assoc] at hids
      have hadd : c.op.isAdd = true → B.nextOrderId ≠ emptyKey := by
        intro hadd
        cases c with
        | addOrder side price volume who => exact BookOp.proper_of_counter hids (by simp [Call.op])
        | marketOrder side volume who => cases hadd
      obtain ⟨hr, href₁⟩ := href.apply_of_ok hadd hcall
      have hids₁ := B.applyBounded_counter c.op hids
      rw [hr] at haccepted
      rw [Book.applyBounded_eq_apply (uncapped_of_reply (Ne.symm haccepted.1))] at hr href₁ hids₁
      obtain ⟨hfills, hsame₁⟩ := hsame.apply hc (fun b => (href.prices_sorted b).nodup)
        href₁.prices_sorted
      obtain ⟨hrests, hend⟩ := SameBook.run href₁ hsame₁ hcalls hids₁ hrest haccepted.2
      refine ⟨?_, hend⟩
      rw [List.map_cons, hr, hfills, hrests]
      rfl

/-- The local tester and the engine agree: in every run of the engine in which no order is
refused, each call fills the same at each price in both books; at the end both rest the same
volume at every price, and show the same best prices and the same last trade. -/
theorem same_fills {calls : List Call} (hvalid : ∀ c ∈ calls, c.Valid)
    (hids : BookOp.adds (calls.map Call.op) < 2 ^ 64 - 1) {rs : List Reply} {lob : PersistentLOB}
    (hrun : PersistentLOB.run (calls.map Call.op) = .ok (rs, lob))
    (haccepted : .orderId nullOrderId ∉ rs) :
    let tester := traceFrom SimpleLOB.apply .new calls
    rs.map filledAt = tester.1.map (List.map Fill.scaled) ∧
      (∀ side : Side,
        (lob.view.side !side.isBuy).map Book.total = (tester.2.levels side).map scaled) ∧
      lob.bestBid = priceFp tester.2.bestBid ∧
      lob.bestAsk = (tester.2.bestAsk.map priceFp).getD Int64.maxValue ∧
      lob.lastTradeFp = priceFp tester.2.lastTradePrice := by
  intro tester
  obtain ⟨hfills, B, href, hsame⟩ := SameBook.run init_refines .empty hvalid (by
    rw [show Book.empty.nextOrderId.toNat = 1 from rfl]
    omega) hrun haccepted
  have hquotes := href.quotes
  refine ⟨hfills, fun side => ?_, ?_, ?_, ?_⟩
  · rw [href.view_eq]
    exact (hsame.side side).totals
  · rw [hquotes.bestBid, SimpleLOB.bestBid_eq]
    refine ((hsame.side .sell).bestPrice true).trans ?_
    cases (traceFrom SimpleLOB.apply .new calls).2.levels .sell <;> rfl
  · rw [hquotes.bestAsk, SimpleLOB.bestAsk_eq]
    exact (hsame.side .buy).bestPrice false
  · rw [hquotes.lastTradeFp]
    exact hsame.lastTrade

/-- Three offers at two prices, and a purchase that ends in the last of them. -/
def offersCalls : List Call :=
  [.addOrder .sell 10000 30 botMM, .addOrder .sell 10000 20 contestant,
    .addOrder .sell 10001 40 botMM, .marketOrder .buy 60 botSNIPER]

theorem same_fills_offers : ∃ rs lob,
    PersistentLOB.run (offersCalls.map Call.op) = .ok (rs, lob) ∧
      rs.map filledAt = [[], [], [], [(100000000, 50), (100010000, 10)]] ∧
      (lob.view.side false).map Book.total = [(100010000, 30)] ∧ lob.bestAsk = 100010000 := by
  have hids : BookOp.adds (offersCalls.map Call.op) < 2 ^ 64 - 1 := by decide
  obtain ⟨lob, hrun, -⟩ := run_defined (offersCalls.map Call.op) hids (by decide)
  obtain ⟨hfills, hlevels, -, hask, -⟩ :=
    same_fills (by decide +kernel) hids hrun (by decide +kernel)
  exact ⟨_, lob, hrun, hfills.trans (by decide +kernel), (hlevels .buy).trans (by decide +kernel),
    hask.trans (by decide +kernel)⟩

end VidhiArena.Forge.LocalGM
