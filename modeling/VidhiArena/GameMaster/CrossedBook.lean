import VidhiArena.GameMaster.Layout
import VidhiArena.GameMaster.Publication

/-!
# When the book is crossed

`add_limit` rests every order at its price; nothing asks whether the other side would
have taken it at once. So the best bid stays below the best ask exactly as long as
nobody prices a limit order through the other side. The proof needs of the memory
only the prices of its level tables: a cancel and a market order can take prices
away, an add can bring one.
-/

namespace VidhiArena.GameMaster

open VidhiArena.Foundation

/-! ## The prices of a side -/

namespace LOBSide

variable {s s' : LOBSide} {p : Int64}

def prices (s : LOBSide) : List Int64 := s.levels.map PriceLevel.priceFp

/-- The level table has no level at `p` and no room for one. -/
def Full (s : LOBSide) (p : Int64) : Prop := s.find p = none ∧ maxPriceLevels ≤ s.levels.length

instance (s : LOBSide) (p : Int64) : Decidable (s.Full p) := inferInstanceAs (Decidable (_ ∧ _))

theorem prices_setLevel {k : Nat} {lv : PriceLevel}
    (h : lv.priceFp = (s.levels.getD k default).priceFp) : (s.setLevel k lv).prices = s.prices := by
  unfold prices setLevel
  rw [List.map_set, h]
  by_cases hk : k < s.levels.length
  · rw [List.getD_eq_getElem _ _ hk, ← List.getElem_map PriceLevel.priceFp (h := by simpa using hk)]
    exact List.set_getElem_self _
  · exact List.set_eq_of_length_le (by simpa using hk)

theorem prices_erase (s : LOBSide) (k : Nat) : (s.erase k).prices.Sublist s.prices :=
  (List.eraseIdx_sublist _ _).map _

/-- What `get_or_create` does to the prices: `p` is among them, in its place. -/
theorem getOrCreate_prices {k : Nat} (hs : Sorted s.descending s.prices)
    (h : s.getOrCreate p = some (k, s')) : s'.descending = s.descending ∧ ¬ s.Full p ∧
      Sorted s.descending s'.prices ∧ ∀ x, x ∈ s'.prices ↔ x = p ∨ x ∈ s.prices := by
  unfold getOrCreate at h
  cases hfind : s.find p with
  | some i =>
      simp only [hfind] at h
      cases h
      have hmem : p ∈ s.prices := List.mem_of_getElem? (findLoop_some hfind)
      refine ⟨rfl, fun hfull => ?_, hs, fun x => ?_⟩
      · rw [hfull.1] at hfind
        cases hfind
      · constructor
        · exact Or.inr
        · rintro (rfl | hx)
          · exact hmem
          · exact hx
  | none =>
      simp only [hfind, insert] at h
      split at h
      · cases h
      · rename_i hroom
        cases h
        obtain ⟨pre, post, hlevels, hidx, hpre, hpost⟩ :=
          insertion_point PriceLevel.priceFp s.descending p s.levels
        have hprices : s.prices = pre.map PriceLevel.priceFp ++ post.map PriceLevel.priceFp := by
          rw [prices, hlevels, List.map_append]
        have hnew : p ∉ s.prices := find_none hs hfind
        refine ⟨rfl, fun hfull => hroom hfull.2, ?_, fun x => ?_⟩
        · rw [prices, hidx, hlevels, insertIdx_append, List.map_append, List.map_cons]
          rw [hprices] at hs hnew
          refine sorted_insertion hs hnew (fun x hx => ?_) fun x post' heq => ?_
          · obtain ⟨lv, hlv, rfl⟩ := List.mem_map.mp hx
            exact hpre lv hlv
          · cases post with
            | nil => cases heq
            | cons lv post =>
                cases heq
                exact hpost lv post rfl
        · rw [prices, hidx, hprices, hlevels, insertIdx_append, List.map_append, List.map_cons]
          simp only [List.mem_append, List.mem_cons]
          tauto

end LOBSide

/-! ## What the calls do to the prices -/

namespace PersistentLOB

variable {lob lob' : PersistentLOB} {b : Bool} {p v : Int64} {who : ParticipantID}

/-- Both level tables are in the order of their side. -/
structure Ordered (lob : PersistentLOB) : Prop where
  descending : ∀ b, (lob.side b).descending = b
  sorted : ∀ b, LOBSide.Sorted b (lob.side b).prices

def Narrows (lob lob' : PersistentLOB) : Prop :=
  ∀ b, (lob'.side b).descending = (lob.side b).descending ∧
    (lob'.side b).prices.Sublist (lob.side b).prices

theorem Narrows.refl (lob : PersistentLOB) : Narrows lob lob :=
  fun _ => ⟨rfl, List.Sublist.refl _⟩

theorem Narrows.trans {lob₁ : PersistentLOB} (h : Narrows lob lob₁) (h' : Narrows lob₁ lob') :
    Narrows lob lob' :=
  fun b => ⟨(h' b).1.trans (h b).1, (h' b).2.trans (h b).2⟩

theorem Narrows.ordered (h : Narrows lob lob') (hord : lob.Ordered) : lob'.Ordered :=
  ⟨fun b => (h b).1.trans (hord.descending b), fun b => (hord.sorted b).sublist (h b).2⟩

theorem Narrows.of_side {s : LOBSide} (hother : lob'.side (!b) = lob.side (!b))
    (hside : lob'.side b = s) (hdesc : s.descending = (lob.side b).descending)
    (hprices : s.prices.Sublist (lob.side b).prices) : Narrows lob lob' := by
  intro b'
  by_cases hb : b' = b
  · rw [hb, hside]
    exact ⟨hdesc, hprices⟩
  · rw [Bool.eq_not.mpr hb, hother]
    exact ⟨rfl, List.Sublist.refl _⟩

theorem Narrows.of_set {k : Nat} {lv : PriceLevel} (hother : lob'.side (!b) = lob.side (!b))
    (hside : lob'.side b = (lob.side b).setLevel k lv)
    (hprice : lv.priceFp = ((lob.side b).levels.getD k default).priceFp) : Narrows lob lob' := by
  refine Narrows.of_side hother hside rfl ?_
  rw [LOBSide.prices_setLevel hprice]

/-- A level is written back with its price, or erased (when it is empty). -/
theorem Narrows.of_put {c : Prop} [Decidable c] {k : Nat} {lv : PriceLevel}
    (hother : lob'.side (!b) = lob.side (!b))
    (hside : lob'.side b = if c then (lob.side b).erase k else (lob.side b).setLevel k lv)
    (hprice : lv.priceFp = ((lob.side b).levels.getD k default).priceFp) : Narrows lob lob' := by
  split at hside
  · exact Narrows.of_side hother hside rfl (LOBSide.prices_erase _ k)
  · exact Narrows.of_set hother hside hprice

theorem unlinkNode_price {pool pool' : OrderPool} {lv lv' : PriceLevel} {prev cur : UInt32}
    (h : unlinkNode pool lv prev cur v = .ok (pool', lv')) : lv'.priceFp = lv.priceFp := by
  obtain ⟨_, -, h⟩ := bind_eq_ok.mp h
  dsimp only at h
  split at h
  · obtain ⟨⟨_, head⟩, -, h⟩ := bind_eq_ok.mp h
    obtain ⟨_, -, h⟩ := bind_eq_ok.mp h
    cases h
    rfl
  · obtain ⟨_, -, h⟩ := bind_eq_ok.mp h
    obtain ⟨_, -, h⟩ := bind_eq_ok.mp h
    obtain ⟨⟨_, head⟩, -, h⟩ := bind_eq_ok.mp h
    obtain ⟨_, -, h⟩ := bind_eq_ok.mp h
    cases h
    rfl

theorem appendNode_price {pool pool' : OrderPool} {lv lv' : PriceLevel} {idx : UInt32}
    (h : appendNode pool lv idx v = .ok (pool', lv')) : lv'.priceFp = lv.priceFp := by
  unfold appendNode at h
  split at h
  · cases h
    rfl
  · obtain ⟨_, -, h⟩ := bind_eq_ok.mp h
    obtain ⟨_, -, h⟩ := bind_eq_ok.mp h
    cases h
    rfl

theorem cancel_narrows {id : UInt64} {ok : Bool} (h : lob.cancel id = .ok (ok, lob')) :
    Narrows lob lob' := by
  unfold cancel at h
  split at h
  · cases h
    exact Narrows.refl lob
  · split at h
    · cases h
      exact Narrows.refl lob
    · rename_i entry _
      obtain ⟨target, -, h⟩ := bind_eq_ok.mp h
      dsimp only at h
      split at h
      · cases h
        exact Narrows.refl lob
      · rename_i k _
        obtain ⟨found, -, h⟩ := bind_eq_ok.mp h
        split at h
        · cases h
          exact Narrows.refl lob
        · obtain ⟨⟨pool, lv⟩, hunlink, h⟩ := bind_eq_ok.mp h
          cases h
          exact Narrows.of_put (side_setSide_not ..) (side_setSide ..) (unlinkNode_price hunlink)

theorem matchHead_narrows {isBuy : Bool} {remaining r : Int64} {lv : PriceLevel} {f : MatchedFill}
    (hfront : lv.priceFp = ((lob.side !isBuy).levels.getD 0 default).priceFp)
    (h : lob.matchHead isBuy who remaining lv = .ok (f, r, lob')) : Narrows lob lob' := by
  obtain ⟨maker, -, h⟩ := bind_eq_ok.mp h
  obtain ⟨pool, -, h⟩ := bind_eq_ok.mp h
  dsimp only at h
  split at h
  · obtain ⟨pool', -, h⟩ := bind_eq_ok.mp h
    cases h
    cases isBuy with
    | true => exact Narrows.of_put (b := false) rfl rfl hfront
    | false => exact Narrows.of_put (b := true) rfl rfl hfront
  · cases h
    cases isBuy with
    | true => exact Narrows.of_set (b := false) rfl rfl hfront
    | false => exact Narrows.of_set (b := true) rfl rfl hfront

theorem matchLoop_narrows {isBuy : Bool} : ∀ {fuel : Nat} {lob lob' : PersistentLOB}
    {remaining : Int64} {fs : List MatchedFill},
    matchLoop isBuy who fuel lob remaining = .ok (fs, lob') → Narrows lob lob'
  | 0, _, _, _, _, h => by cases h
  | fuel + 1, lob, lob', remaining, fs, h => by
      unfold matchLoop at h
      split at h
      · split at h
        · cases h
          exact Narrows.refl _
        · rename_i lv rest hlevels
          have hfront : lv.priceFp = ((lob.side !isBuy).levels.getD 0 default).priceFp := by
            rw [hlevels]
            rfl
          split at h
          · refine Narrows.trans ?_ (matchLoop_narrows h)
            exact Narrows.of_side (b := !isBuy) (side_setSide_not ..) (side_setSide ..) rfl
              (LOBSide.prices_erase _ 0)
          · obtain ⟨⟨f, r, lob₁⟩, hmatch, h⟩ := bind_eq_ok.mp h
            obtain ⟨⟨fs', lob₂⟩, hloop, h⟩ := bind_eq_ok.mp h
            cases h
            exact (matchHead_narrows hfront hmatch).trans (matchLoop_narrows hloop)
      · cases h
        exact Narrows.refl _

/-- An add: the other side is as it was; its own side has its price, unless the
level table was full. -/
theorem addLimit_prices (hord : lob.Ordered) {id : UInt64}
    (h : lob.addLimit b p v who = .ok (id, lob')) : lob'.Ordered ∧
      lob'.side (!b) = lob.side (!b) ∧ ∀ x, x ∈ (lob'.side b).prices ↔
        (x = p ∧ ¬ (lob.side b).Full p) ∨ x ∈ (lob.side b).prices := by
  have hside : LOBSide.Sorted (lob.side b).descending (lob.side b).prices := by
    rw [hord.descending b]
    exact hord.sorted b
  unfold addLimit at h
  cases hcreate : (lob.side b).getOrCreate p with
  | none =>
      simp only [hcreate] at h
      cases h
      have hfull : (lob.side b).Full p := by
        unfold LOBSide.getOrCreate at hcreate
        split at hcreate
        · cases hcreate
        · rename_i hfind
          unfold LOBSide.insert at hcreate
          split at hcreate
          · rename_i hfull
            exact ⟨hfind, hfull⟩
          · cases hcreate
      exact ⟨hord, rfl, fun x => ⟨Or.inr, fun hx => hx.resolve_left fun hx => hx.2 hfull⟩⟩
  | some c =>
      obtain ⟨k, side⟩ := c
      obtain ⟨hdesc, hfull, hsorted, hmem⟩ := LOBSide.getOrCreate_prices hside hcreate
      -- whatever is written into the level, its price stays
      have hback : ∀ {side' : LOBSide}, lob'.side (!b) = lob.side (!b) → lob'.side b = side' →
          side'.descending = side.descending → side'.prices = side.prices →
          lob'.Ordered ∧ lob'.side (!b) = lob.side (!b) ∧ ∀ x, x ∈ (lob'.side b).prices ↔
            (x = p ∧ ¬ (lob.side b).Full p) ∨ x ∈ (lob.side b).prices := by
        intro side' hother hown hdesc' hprices
        refine ⟨⟨fun b' => ?_, fun b' => ?_⟩, hother, fun x => ?_⟩
        · by_cases hb : b' = b
          · rw [hb, hown, hdesc', hdesc, hord.descending b]
          · rw [Bool.eq_not.mpr hb, hother, hord.descending]
        · by_cases hb : b' = b
          · rw [hb, hown, hprices, ← hord.descending b]
            exact hsorted
          · rw [Bool.eq_not.mpr hb, hother]
            exact hord.sorted _
        · rw [hown, hprices, hmem]
          simp only [hfull, not_false_eq_true, and_true]
      simp only [hcreate] at h
      split at h
      · cases h
        exact hback (side_setSide_not ..) (side_setSide ..) rfl rfl
      · obtain ⟨pool, -, h⟩ := bind_eq_ok.mp h
        obtain ⟨⟨pool', lv⟩, happend, h⟩ := bind_eq_ok.mp h
        cases h
        exact hback (side_setSide_not ..) (side_setSide ..) rfl
          (LOBSide.prices_setLevel (appendNode_price happend))

/-! ## The touch -/

/-- `best_bid() < best_ask()`, if both sides have a level. -/
def Uncrossed (lob : PersistentLOB) : Prop :=
  lob.bids.levels ≠ [] → lob.asks.levels ≠ [] → lob.bestBid < lob.bestAsk

/-- The call is no limit order through the other side: it is priced behind the best
price there, or the other side is empty, or its own level table refuses it. -/
def StaysBehind (lob : PersistentLOB) : BookOp → Prop
  | .addLimit true p _ _ => lob.asks.levels.isEmpty ∨ p < lob.bestAsk ∨ lob.bids.Full p
  | .addLimit false p _ _ => lob.bids.levels.isEmpty ∨ lob.bestBid < p ∨ lob.asks.Full p
  | .cancel _ => True
  | .marketOrder _ _ _ => True

instance (lob : PersistentLOB) : (op : BookOp) → Decidable (lob.StaysBehind op)
  | .addLimit true _ _ _ => inferInstanceAs (Decidable (_ ∨ _ ∨ _))
  | .addLimit false _ _ _ => inferInstanceAs (Decidable (_ ∨ _ ∨ _))
  | .cancel _ => inferInstanceAs (Decidable True)
  | .marketOrder _ _ _ => inferInstanceAs (Decidable True)

/-- Every bid is priced below every ask. -/
def Apart (lob : PersistentLOB) : Prop := ∀ x ∈ lob.bids.prices, ∀ y ∈ lob.asks.prices, x < y

theorem Ordered.lt_bestAsk (hord : lob.Ordered) (hne : lob.asks.levels ≠ []) :
    p < lob.bestAsk ↔ ∀ y ∈ lob.asks.prices, p < y := by
  have hs := hord.sorted false
  have hdesc := hord.descending false
  simp only [side, Bool.false_eq_true, if_false] at hs hdesc
  unfold bestAsk LOBSide.bestPrice
  cases hl : lob.asks.levels with
  | nil => exact absurd hl hne
  | cons lv ls =>
      simp only [LOBSide.prices, hl, List.map_cons, List.forall_mem_cons] at hs ⊢
      refine ⟨fun h => ⟨h, fun y hy => ?_⟩, fun h => h.1⟩
      have hlt := (List.pairwise_cons.mp hs).1 y hy
      simp only [LOBSide.before, Bool.false_eq_true, if_false, decide_eq_true_eq] at hlt
      exact Int64.lt_trans h hlt

theorem Ordered.bestBid_lt (hord : lob.Ordered) (hne : lob.bids.levels ≠ []) :
    lob.bestBid < p ↔ ∀ x ∈ lob.bids.prices, x < p := by
  have hs := hord.sorted true
  simp only [side, if_true] at hs
  unfold bestBid LOBSide.bestPrice
  cases hl : lob.bids.levels with
  | nil => exact absurd hl hne
  | cons lv ls =>
      simp only [LOBSide.prices, hl, List.map_cons, List.forall_mem_cons] at hs ⊢
      refine ⟨fun h => ⟨h, fun y hy => ?_⟩, fun h => h.1⟩
      have hlt := (List.pairwise_cons.mp hs).1 y hy
      simp only [LOBSide.before, if_true, decide_eq_true_eq] at hlt
      exact Int64.lt_trans hlt h

theorem Ordered.uncrossed_iff (hord : lob.Ordered) : lob.Uncrossed ↔ lob.Apart := by
  by_cases hbids : lob.bids.levels = []
  · simp [Uncrossed, Apart, LOBSide.prices, hbids]
  · by_cases hasks : lob.asks.levels = []
    · simp [Uncrossed, Apart, LOBSide.prices, hasks]
    · have hall : ∀ x, x < lob.bestAsk ↔ ∀ y ∈ lob.asks.prices, x < y := fun x =>
        hord.lt_bestAsk hasks
      simp only [Uncrossed, hbids, hasks, ne_eq, not_false_eq_true, true_imp_iff,
        hord.bestBid_lt hbids, hall, Apart]

/-- One call: the sides keep their order, and an uncrossed book stays uncrossed
exactly if the call stays behind the other side. -/
theorem uncrossed_call {op : BookOp} {r : Reply} (hord : lob.Ordered) (huncrossed : lob.Uncrossed)
    (hcall : lob.apply op = .ok (r, lob')) :
    lob'.Ordered ∧ (lob'.Uncrossed ↔ lob.StaysBehind op) := by
  have hnarrow : Narrows lob lob' → lob.StaysBehind op →
      lob'.Ordered ∧ (lob'.Uncrossed ↔ lob.StaysBehind op) := by
    intro h hop
    have hord' := h.ordered hord
    refine ⟨hord', fun _ => hop, fun _ => hord'.uncrossed_iff.mpr fun x hx y hy => ?_⟩
    exact hord.uncrossed_iff.mp huncrossed x ((h true).2.subset hx) y ((h false).2.subset hy)
  cases op with
  | addLimit b p v who =>
      obtain ⟨⟨id, lob₁⟩, hadd, heq⟩ := bind_eq_ok.mp hcall
      cases heq
      obtain ⟨hord', hother, hmem⟩ := addLimit_prices hord hadd
      refine ⟨hord', ?_⟩
      have hapart := hord.uncrossed_iff.mp huncrossed
      rw [hord'.uncrossed_iff]
      cases b with
      | true =>
          simp only [side, if_true, Bool.not_true, Bool.false_eq_true, if_false] at hother hmem
          unfold Apart StaysBehind
          rw [hother]
          by_cases hasks : lob.asks.levels = []
          · simp [LOBSide.prices, hasks]
          · simp only [hmem, List.isEmpty_iff, hasks, false_or, hord.lt_bestAsk hasks]
            constructor
            · intro h
              by_cases hfull : lob.bids.Full p
              · exact Or.inr hfull
              · exact Or.inl (h p (Or.inl ⟨rfl, hfull⟩))
            · rintro h x (⟨rfl, hfull⟩ | hx) y hy
              · exact h.resolve_right hfull y hy
              · exact hapart x hx y hy
      | false =>
          simp only [side, if_true, Bool.not_false, Bool.false_eq_true, if_false] at hother hmem
          unfold Apart StaysBehind
          rw [hother]
          by_cases hbids : lob.bids.levels = []
          · simp [LOBSide.prices, hbids]
          · simp only [hmem, List.isEmpty_iff, hbids, false_or, hord.bestBid_lt hbids]
            constructor
            · intro h
              by_cases hfull : lob.asks.Full p
              · exact Or.inr hfull
              · exact Or.inl fun x hx => h x hx p (Or.inl ⟨rfl, hfull⟩)
            · rintro h x hx y (⟨rfl, hfull⟩ | hy)
              · exact h.resolve_right hfull x hx
              · exact hapart x hx y hy
  | cancel id =>
      obtain ⟨⟨ok, lob₁⟩, hcancel, heq⟩ := bind_eq_ok.mp hcall
      cases heq
      exact hnarrow (cancel_narrows hcancel) trivial
  | marketOrder isBuy v taker =>
      obtain ⟨⟨fs, lob₁⟩, hmarket, heq⟩ := bind_eq_ok.mp hcall
      cases heq
      exact hnarrow (matchLoop_narrows hmarket) trivial

/-- The published spread of an uncrossed book with two sides is positive, unless one
of the sentinels of an empty side happens to be the best price, or the difference
does not fit. -/
theorem Uncrossed.spread_pos_iff (h : lob.Uncrossed) (hbids : lob.bids.levels ≠ [])
    (hasks : lob.asks.levels ≠ []) (sm : SharedMem) : 0 < (lob.fillSnapshot sm).spreadFp ↔
      lob.bestBid ≠ 0 ∧ lob.bestAsk ≠ Int64.maxValue ∧
        lob.bestAsk.toInt - lob.bestBid.toInt < 2 ^ 63 := by
  have hlt := Int64.lt_iff_toInt_lt.mp (h hbids hasks)
  show 0 < spreadOf lob.bestBid lob.bestAsk ↔ _
  unfold spreadOf
  by_cases hbid : lob.bestBid = 0
  · simp [hbid]
  · by_cases hask : lob.bestAsk = Int64.maxValue
    · simp [hask]
    · rw [if_neg (by simp [hbid, hask]), Int64.lt_iff_toInt_lt, Int64.toInt_sub]
      simp only [hbid, hask, ne_eq, not_false_eq_true, true_and]
      have hb := lob.bestBid.toInt_lt
      have hb' := lob.bestBid.le_toInt
      have ha := lob.bestAsk.toInt_lt
      have ha' := lob.bestAsk.le_toInt
      rw [show (0 : Int64).toInt = 0 from rfl, Int.bmod_def]
      constructor <;> intro h <;> split at * <;> omega

end PersistentLOB

/-! ## Runs -/

/-- The book between two calls of a run. -/
def BetweenCalls (hs : List BookHistory) (lob : PersistentLOB) : Prop :=
  ∃ pre rs, pre <+: hs.flatten.map Prod.fst ∧ PersistentLOB.run pre = .ok (rs, lob)

/-- The book is never crossed exactly if every limit order of the run stays behind the
other side of the book that it meets. -/
theorem never_crossed_iff {cfg : SimConfig} {inputs : List TickInput} {hs : List BookHistory}
    {s : SimState} (hrun : runSimulation cfg inputs = .ok (hs, s)) :
    ((∀ lob, BetweenCalls hs lob → lob.Uncrossed) ↔
        RunAdmitted cfg PersistentLOB.StaysBehind inputs) ∧
      ∀ lob, BetweenCalls hs lob → lob.Uncrossed → lob.bids.levels ≠ [] →
        lob.asks.levels ≠ [] → ∀ sm, (0 < (lob.fillSnapshot sm).spreadFp ↔
          lob.bestBid ≠ 0 ∧ lob.bestAsk ≠ Int64.maxValue ∧
            lob.bestAsk.toInt - lob.bestBid.toInt < 2 ^ 63) := by
  refine ⟨?_, fun lob _ h hbids hasks sm => h.spread_pos_iff hbids hasks sm⟩
  have hinit : PersistentLOB.init.Ordered :=
    ⟨fun b => by cases b <;> rfl, fun b => by cases b <;> exact List.Pairwise.nil⟩
  have huncrossed : PersistentLOB.init.Uncrossed := fun h => absurd rfl h
  rw [runAdmitted_iff hrun, ← runFrom_inv_iff (fun lob op r lob' hord h hcall =>
    PersistentLOB.uncrossed_call hord h hcall) _ hinit huncrossed
    (runSimulation_replay hrun)]
  constructor
  · exact fun h pre rs lob hpre hpost => h lob ⟨pre, rs, hpre, hpost⟩
  · rintro h lob ⟨pre, rs, hpre, hpost⟩
    exact h pre rs lob hpre hpost

theorem betweenCalls_end {cfg : SimConfig} {inputs : List TickInput} {hs : List BookHistory}
    {s : SimState} (hrun : runSimulation cfg inputs = .ok (hs, s)) : BetweenCalls hs s.1 :=
  ⟨_, _, List.prefix_rfl, runSimulation_replay hrun⟩

/-- One tick at the fair value of the seeds, in which the contestant buys ten. -/
theorem never_crossed_one_tick :
    let cfg : SimConfig := ⟨BotConfig.default, 1000, fun _ _ => 0⟩
    let inputs : List TickInput := [⟨.gbm 100050000 450000 false, .answer 1 fun _ => ⟨3, 0, 10, 0⟩⟩]
    ∃ hs s, runSimulation cfg inputs = .ok (hs, s) ∧
      RunAdmitted cfg PersistentLOB.StaysBehind inputs ∧
      ∀ lob, BetweenCalls hs lob → lob.Uncrossed := by
  intro cfg inputs
  have hdone : (runSimulation cfg inputs).map (fun _ => true) = .ok true := by
    decide +kernel
  obtain ⟨⟨hs, s⟩, hrun, -⟩ := map_eq_ok hdone
  have hadm : RunAdmitted cfg PersistentLOB.StaysBehind inputs := by
    decide +kernel
  exact ⟨hs, s, hrun, hadm, (never_crossed_iff hrun).1.mpr hadm⟩

/-- A negative spread is published: the contestant bids 100.20 for a thousand, ten
cents above the best ask, and the order rests. The sniper of the next tick takes a
hundred of it. -/
theorem crossed_book_published :
    let cfg : SimConfig := ⟨BotConfig.default, 1000, fun _ _ => 0⟩
    let pre : List TickInput :=
      [⟨.gbm 100050000 450000 false, .answer 1 fun _ => ⟨1, 100200000, 1000, 0⟩⟩]
    (∃ hs s, runSimulation cfg pre = .ok (hs, s) ∧ BetweenCalls hs s.1 ∧ ¬ s.1.Uncrossed) ∧
      ∃ lob pnl sm, Published cfg pre ⟨.gbm 100050000 450000 false, .timeout⟩ lob pnl sm ∧
        lob.bestBid = 100200000 ∧ lob.bestAsk = 100100000 ∧ sm.spreadFp = -100000 := by
  intro cfg pre
  have hboth : (runSimulation cfg pre >>= fun r => ((r.2.2.bots.step BotConfig.default
      ((PriceTick.gbm 100050000 450000 false).of r.2.1)).run PersistentLOB.apply r.2.1).map
      fun r' => decide (r.2.1.bestAsk < r.2.1.bestBid ∧ ¬ r.2.1.bids.levels.isEmpty ∧
        ¬ r.2.1.asks.levels.isEmpty ∧ r'.2.2.bestBid = 100200000 ∧
        r'.2.2.bestAsk = 100100000 ∧ r'.2.2.spread = -100000)) = .ok true := by
    decide +kernel
  obtain ⟨⟨hs, s⟩, hrun, hboth⟩ := bind_eq_ok.mp hboth
  obtain ⟨⟨bots, h, lob⟩, hstep, hcrossed⟩ := map_eq_ok hboth
  obtain ⟨hlt, hbids, hasks, hbid, hask, hspread⟩ := of_decide_eq_true hcrossed
  refine ⟨⟨hs, s, hrun, betweenCalls_end hrun, fun h => ?_⟩, lob, _, _,
    ⟨hs, s, bots, h, hrun, hstep, rfl, rfl⟩, hbid, hask, hspread⟩
  refine Int64.lt_asymm hlt (h ?_ ?_)
  · rwa [List.isEmpty_iff] at hbids
  · rwa [List.isEmpty_iff] at hasks

/-- The bots do it alone: the mean-reversion bot sells a tick below the best bid, and
after its order the book is crossed. -/
example : ¬ RunAdmitted ⟨BotConfig.default, 1000, fun _ _ => 0⟩ PersistentLOB.StaysBehind
    [⟨.gbm 99900000 450000 false, .timeout⟩] := by
  decide +kernel

end VidhiArena.GameMaster
