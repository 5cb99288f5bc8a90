import Mathlib.Data.List.Forall2
import VidhiArena.GameMaster.Placed
import VidhiArena.GameMaster.ShadowCalls

/-!
# The shadow mirrors the live book

The shadow hears of a sweep only when the live book has finished it, fill by
fill. The simulation therefore goes round by round: `Mirrors S B` relates the
shadow to the naive book, and every fill that the shadow replays is one round of
the naive matching (`Book.fillHead`).
-/

namespace VidhiArena.GameMaster

open VidhiArena.Foundation

/-! ## The table of orders -/

/-- What the shadow keeps of a resting order. -/
def ShadowOrder.Shows (so : ShadowOrder) (x : Placement) : Prop :=
  so.isBid = x.1 ∧ so.priceFp = x.2.1 ∧ so.remainingVolume = x.2.2.volume ∧
    so.isCancelled = false ∧ so.isFullyFilled = false

/-- The table holds exactly the orders of `xs`. -/
structure TableShows (orders : UInt64 → Option ShadowOrder) (xs : List Placement) : Prop where
  ids : (xs.map fun x => x.2.2.orderId).Nodup
  positive : ∀ x ∈ xs, 0 < x.2.2.volume
  known : ∀ x ∈ xs, ∃ so, orders x.2.2.orderId = some so ∧ so.Shows x
  closed : ∀ id, (∀ x ∈ xs, x.2.2.orderId ≠ id) → orders id = none

namespace TableShows

variable {orders : UInt64 → Option ShadowOrder} {x : Placement} {xs ys : List Placement}

theorem perm (h : TableShows orders xs) (hp : xs.Perm ys) : TableShows orders ys where
  ids := (hp.map _).nodup_iff.mp h.ids
  positive := fun x hx => h.positive x (hp.mem_iff.mpr hx)
  known := fun x hx => h.known x (hp.mem_iff.mpr hx)
  closed := fun id hid => h.closed id fun x hx => hid x (hp.mem_iff.mp hx)

theorem ne_of_cons (h : TableShows orders (x :: xs)) :
    ∀ y ∈ xs, y.2.2.orderId ≠ x.2.2.orderId := by
  have := (List.nodup_cons.mp h.ids).1
  exact fun y hy heq => this (List.mem_map.mpr ⟨y, hy, heq⟩)

theorem insert {so : ShadowOrder} (h : TableShows orders xs)
    (hfresh : ∀ y ∈ xs, y.2.2.orderId ≠ x.2.2.orderId) (hpos : 0 < x.2.2.volume)
    (hso : so.Shows x) :
    TableShows (Function.update orders x.2.2.orderId (some so)) (x :: xs) where
  ids := by
    rw [List.map_cons, List.nodup_cons]
    refine ⟨fun hmem => ?_, h.ids⟩
    obtain ⟨y, hy, heq⟩ := List.mem_map.mp hmem
    exact hfresh y hy heq
  positive := List.forall_mem_cons.mpr ⟨hpos, h.positive⟩
  known := by
    refine List.forall_mem_cons.mpr ⟨⟨so, Function.update_self .., hso⟩, fun y hy => ?_⟩
    rw [Function.update_of_ne (hfresh y hy)]
    exact h.known y hy
  closed := by
    intro id hid
    obtain ⟨hne, hid⟩ := List.forall_mem_cons.mp hid
    rw [Function.update_of_ne hne.symm]
    exact h.closed id hid

theorem erase (h : TableShows orders (x :: xs)) :
    TableShows (Function.update orders x.2.2.orderId none) xs where
  ids := (List.nodup_cons.mp h.ids).2
  positive := fun y hy => h.positive y (List.mem_cons_of_mem _ hy)
  known := by
    intro y hy
    rw [Function.update_of_ne (h.ne_of_cons y hy)]
    exact h.known y (List.mem_cons_of_mem _ hy)
  closed := by
    intro id hid
    by_cases heq : id = x.2.2.orderId
    · rw [heq, Function.update_self]
    · rw [Function.update_of_ne heq]
      exact h.closed id (List.forall_mem_cons.mpr ⟨fun e => heq e.symm, hid⟩)

theorem replace {so : ShadowOrder} (h : TableShows orders (x :: xs)) (x' : Placement)
    (hid : x'.2.2.orderId = x.2.2.orderId) (hpos : 0 < x'.2.2.volume) (hso : so.Shows x') :
    TableShows (Function.update orders x.2.2.orderId (some so)) (x' :: xs) := by
  have := h.erase.insert (x := x') (fun y hy => hid ▸ h.ne_of_cons y hy) hpos hso
  rwa [hid, Function.update_idem] at this

end TableShows

/-! ## The levels -/

/-- What a level has to hold of an order. -/
def RestingOrder.share (o : RestingOrder) : UInt64 × Int := (o.orderId, o.volume.toInt)

def LevelShows (x : Int64 × ShadowLevel) (lv : BookLevel) : Prop :=
  x.1 = lv.priceFp ∧ x.2.Holds (lv.queue.map RestingOrder.share)

theorem LevelShows.keys_eq {m : List (Int64 × ShadowLevel)} {ls : List BookLevel}
    (h : List.Forall₂ LevelShows m ls) : OrderedMap.keys m = ls.map BookLevel.priceFp := by
  induction h with
  | nil => rfl
  | cons hx _ ih =>
      rw [OrderedMap.keys] at ih
      rw [OrderedMap.keys, List.map_cons, List.map_cons, hx.1, ih]

theorem LevelShows.queues_eq {m : List (Int64 × ShadowLevel)} {ls : List BookLevel}
    (h : List.Forall₂ LevelShows m ls) : m.map (fun x => (x.1, x.2.orderIds)) =
      ls.map fun lv => (lv.priceFp, lv.queue.map RestingOrder.orderId) := by
  induction h with
  | nil => rfl
  | cons hx _ ih =>
      rw [List.map_cons, List.map_cons, ih, hx.1, hx.2.1, List.map_map]
      rfl

theorem LevelShows.split {ls₁ ls₂ : List BookLevel} : ∀ {m : List (Int64 × ShadowLevel)},
    List.Forall₂ LevelShows m (ls₁ ++ ls₂) →
      ∃ m₁ m₂, m = m₁ ++ m₂ ∧ List.Forall₂ LevelShows m₁ ls₁ ∧ List.Forall₂ LevelShows m₂ ls₂ := by
  induction ls₁ with
  | nil => exact fun h => ⟨[], _, rfl, List.Forall₂.nil, h⟩
  | cons lv ls₁ ih =>
      intro m h
      obtain ⟨x, m', hx, hrest, rfl⟩ := List.forall₂_cons_right_iff.mp h
      obtain ⟨m₁, m₂, rfl, h₁, h₂⟩ := ih hrest
      exact ⟨x :: m₁, m₂, rfl, List.Forall₂.cons hx h₁, h₂⟩

theorem LevelShows.insert {b : Bool} {p : Int64} {m : List (Int64 × ShadowLevel)}
    {ls : List BookLevel} (h : List.Forall₂ LevelShows m ls) :
    List.Forall₂ LevelShows (OrderedMap.insert (LOBSide.before b) p ⟨[], 0⟩ m)
      (Book.insertLevel b ⟨p, []⟩ ls) := by
  have hnew : LevelShows (p, ⟨[], 0⟩) ⟨p, []⟩ := ⟨rfl, ShadowLevel.holds_nil⟩
  induction h with
  | nil => exact List.Forall₂.cons hnew List.Forall₂.nil
  | cons hx hrest ih =>
      rw [OrderedMap.insert, Book.insertLevel, hx.1]
      split
      · exact List.Forall₂.cons hnew (List.Forall₂.cons hx hrest)
      · exact List.Forall₂.cons hx ih

theorem LevelShows.find_isSome {p : Int64} {m : List (Int64 × ShadowLevel)} {ls : List BookLevel}
    (h : List.Forall₂ LevelShows m ls) :
    (OrderedMap.find m p).isSome = Book.hasLevel ls p := by
  rw [Bool.eq_iff_iff, OrderedMap.find_isSome, LevelShows.keys_eq h, Book.hasLevel,
    List.any_eq_true, List.mem_map]
  simp only [decide_eq_true_eq]

theorem LevelShows.enqueue {p : Int64} {o : RestingOrder} {m : List (Int64 × ShadowLevel)}
    {ls : List BookLevel} (h : List.Forall₂ LevelShows m ls)
    (hfit : ∀ x ∈ m, x.1 = p → Fits (x.2.totalVolume.toInt + o.volume.toInt)) :
    List.Forall₂ LevelShows
      (OrderedMap.modify m p fun level =>
        ⟨level.orderIds ++ [o.orderId], level.totalVolume + o.volume⟩)
      (Book.enqueue p o ls) := by
  induction h with
  | nil => exact List.Forall₂.nil
  | @cons x lv m ls hx hrest ih =>
      obtain ⟨hhead, htail⟩ := List.forall_mem_cons.mp hfit
      refine List.Forall₂.cons ?_ (ih htail)
      simp only [hx.1] at hhead ⊢
      split
      · rename_i hp
        refine ⟨rfl, ?_⟩
        rw [List.map_append]
        exact hx.2.push (hhead hp)
      · exact hx

theorem LevelShows.joined {b : Bool} {p : Int64} {o : RestingOrder}
    {m : List (Int64 × ShadowLevel)} {ls : List BookLevel} (h : List.Forall₂ LevelShows m ls)
    (hfit : ∀ x ∈ m, x.1 = p → Fits (x.2.totalVolume.toInt + o.volume.toInt)) :
    List.Forall₂ LevelShows (ShadowLOB.joined b p o.volume o.orderId m)
      (Book.enqueue p o (Book.openLevel b p ls)) := by
  refine LevelShows.enqueue ?_ ?_
  · rw [OrderedMap.access, Book.openLevel, LevelShows.find_isSome h]
    split
    · exact h
    · exact LevelShows.insert h
  · intro x hx hp
    rcases OrderedMap.mem_access hx with rfl | hx
    · simpa using fits_toInt o.volume
    · exact hfit x hx hp

theorem LevelShows.leftOf {level : ShadowLevel} {p : Int64} {q q' : List RestingOrder}
    {o : RestingOrder} (so : ShadowOrder) (h : LevelShows (p, level) ⟨p, q ++ o :: q'⟩)
    (hpos : ∀ o' ∈ q ++ o :: q', 0 < o'.volume) (hne : ∀ o' ∈ q, o'.orderId ≠ o.orderId)
    (hnonneg : 0 ≤ so.remainingVolume) (hle : so.remainingVolume ≤ o.volume) :
    List.Forall₂ LevelShows
      ((ShadowLOB.leftOf o.orderId so level).toList.map fun l => (p, l))
      (Book.keepLevel p (q ++ q')) := by
  have hholds := h.2
  have hposInt : ∀ y ∈ q.map RestingOrder.share ++ o.share :: q'.map RestingOrder.share,
      0 < y.2 := by
    rw [← List.map_cons, ← List.map_append]
    intro y hy
    obtain ⟨o', ho', rfl⟩ := List.mem_map.mp hy
    have := Int64.lt_iff_toInt_lt.mp (hpos o' ho')
    rwa [Int64.toInt_zero] at this
  have hle' : so.remainingVolume.toInt ≤ o.share.2 := Int64.le_iff_toInt_le.mp hle
  have hnonneg' : 0 ≤ so.remainingVolume.toInt := by
    have := Int64.le_iff_toInt_le.mp hnonneg
    rwa [Int64.toInt_zero] at this
  simp only [List.map_append, List.map_cons] at hholds
  have hleft := hholds.leftOf so ?_ ?_ hle' (hholds.fits_sub hposInt hnonneg' hle')
  · rw [← List.map_append] at hleft
    rcases hleft with ⟨hnil, hgone⟩ | ⟨hnil, level', hstays, hholds'⟩
    · rw [show ShadowLOB.leftOf o.orderId so level = none from hgone, Book.keepLevel,
        if_pos (List.map_eq_nil_iff.mp hnil)]
      exact List.Forall₂.nil
    · rw [show ShadowLOB.leftOf o.orderId so level = some level' from hstays, Book.keepLevel,
        if_neg fun hq => hnil (by rw [hq]; rfl)]
      exact List.Forall₂.cons ⟨rfl, hholds'⟩ List.Forall₂.nil
  · intro y hy
    refine hposInt y ?_
    rcases List.mem_append.mp hy with hy | hy
    · exact List.mem_append_left _ hy
    · exact List.mem_append_right _ (List.mem_cons_of_mem _ hy)
  · intro y hy
    obtain ⟨o', ho', rfl⟩ := List.mem_map.mp hy
    exact hne o' ho'

theorem LevelShows.firstKey_eq {m : List (Int64 × ShadowLevel)} {ls : List BookLevel} (b : Bool)
    (h : List.Forall₂ LevelShows m ls) :
    ShadowLOB.firstKey m (if b then 0 else Int64.maxValue) = Book.bestPrice b ls := by
  cases h with
  | nil => rfl
  | cons hx _ => exact hx.1

/-! ## What a market order meets -/

/-- The shadow hears of the fills of one market order. -/
def ShadowLOB.onFills (S : ShadowLOB) (fs : List MatchedFill) (t : Int64) : ShadowLOB :=
  fs.foldl (fun S f => S.onFill f f.makerOrderId t) S

/-- The price check of `on_fill` at the best price itself does not wrap. -/
def ShadowLOB.PriceClear (isBuy : Bool) (p : Int64) : Prop :=
  if isBuy then Fits (p.toInt + oneCent.toInt) else Fits (p.toInt - oneCent.toInt)

instance (isBuy : Bool) (p : Int64) : Decidable (ShadowLOB.PriceClear isBuy p) :=
  inferInstanceAs (Decidable (if isBuy then _ else _))

/-- The prices of the levels that a market order of volume `r` reaches: those
with less than `r` resting before them. -/
def Book.reachedPrices : Int → List BookLevel → List Int64
  | _, [] => []
  | r, lv :: ls =>
      if 0 < r then lv.priceFp :: reachedPrices (r - Book.exactVolume lv.queue) ls else []

/-! ## The mirror -/

structure Mirrors (S : ShadowLOB) (B : Book) : Prop where
  table : TableShows S.orders B.placed
  levels : ∀ b, List.Forall₂ LevelShows (S.side b) (B.side b)
  prices : ∀ b, LOBSide.Sorted b ((B.side b).map BookLevel.priceFp)
  queues : ∀ b, ∀ lv ∈ B.side b, lv.queue ≠ []
  bestBid : S.bestBid = B.bestBid
  bestAsk : S.bestAsk = B.bestAsk
  quiet : S.violations = []

theorem mirrors_init : Mirrors ShadowLOB.init Book.empty where
  table := ⟨List.nodup_nil, fun _ h => absurd h List.not_mem_nil,
    fun _ h => absurd h List.not_mem_nil, fun _ _ => rfl⟩
  levels := fun b => by cases b <;> exact List.Forall₂.nil
  prices := fun b => by cases b <;> exact List.Pairwise.nil
  queues := fun b lv h => by cases b <;> exact absurd h List.not_mem_nil
  bestBid := rfl
  bestAsk := rfl
  quiet := rfl

namespace Mirrors

variable {S : ShadowLOB} {B B' : Book}

theorem keys_nodup (h : Mirrors S B) (b : Bool) : (OrderedMap.keys (S.side b)).Nodup := by
  rw [LevelShows.keys_eq (h.levels b)]
  exact (h.prices b).nodup

/-- The level of the shadow that belongs to a level of the book. -/
theorem level_at (h : Mirrors S B) {b : Bool} (pre post : List BookLevel) {p : Int64}
    {q : List RestingOrder} (hside : B.side b = pre ++ [⟨p, q⟩] ++ post) :
    ∃ m₁ level m₂, S.side b = m₁ ++ (p, level) :: m₂ ∧ List.Forall₂ LevelShows m₁ pre ∧
      LevelShows (p, level) ⟨p, q⟩ ∧ List.Forall₂ LevelShows m₂ post := by
  have hlevels := h.levels b
  rw [hside, List.append_assoc] at hlevels
  obtain ⟨m₁, m', hm, hpre, hm'⟩ := LevelShows.split hlevels
  obtain ⟨⟨p', level⟩, m₂, hlevel, hpost, rfl⟩ := List.forall₂_cons_right_iff.mp hm'
  obtain rfl : p' = p := hlevel.1
  exact ⟨m₁, level, m₂, hm, hpre, hlevel, hpost⟩

theorem drop (h : Mirrors S B) {b : Bool} {pre post : List BookLevel} {p : Int64}
    {q q' : List RestingOrder} {o : RestingOrder} {so : ShadowOrder}
    (hside : B.side b = pre ++ [⟨p, q ++ o :: q'⟩] ++ post)
    (hside' : B'.side b = pre ++ Book.keepLevel p (q ++ q') ++ post)
    (hother : B'.side (!b) = B.side (!b))
    (hbid : so.isBid = b) (hprice : so.priceFp = p) (hnonneg : 0 ≤ so.remainingVolume)
    (hle : so.remainingVolume ≤ o.volume) :
    Mirrors (S.closeOrder o.orderId so) B' := by
  subst hbid hprice
  -- the resting orders, with `o` in front
  have hold : B.placed.Perm ((so.isBid, so.priceFp, o) ::
      ((q ++ q').map (fun o => (so.isBid, so.priceFp, o)) ++ B.besides so.isBid pre post)) := by
    refine (Book.placed_perm hside).trans ?_
    simp only [Book.placedSide, List.flatMap_cons, List.flatMap_nil, List.append_nil,
      List.map_append, List.map_cons, List.append_assoc, List.cons_append]
    exact List.perm_middle
  have hnew : B'.placed.Perm ((q ++ q').map (fun o => (so.isBid, so.priceFp, o)) ++
      B.besides so.isBid pre post) := by
    have := Book.placed_perm hside'
    rwa [Book.placedSide_keepLevel, Book.besides_congr hother] at this
  have htable := h.table.perm hold
  -- the levels around the one of `o`
  obtain ⟨m₁, level, m₂, hm, hpre, hlevel, hpost⟩ := h.level_at pre post hside
  have hclosed : List.Forall₂ LevelShows ((S.closeOrder o.orderId so).side so.isBid)
      (B'.side so.isBid) := by
    rw [ShadowLOB.closeOrder_side, hside', ShadowLOB.side_removeFromLevel S o.orderId so
      hm (h.keys_nodup so.isBid)]
    refine List.rel_append (List.rel_append hpre (hlevel.leftOf so ?_ ?_ hnonneg hle)) hpost
    · intro o' ho'
      refine h.table.positive (so.isBid, so.priceFp, o') (Book.mem_placed.mpr ?_)
      exact ⟨⟨so.priceFp, q ++ o :: q'⟩, by rw [hside]; simp, rfl, ho'⟩
    · intro o' ho'
      exact htable.ne_of_cons (so.isBid, so.priceFp, o') (List.mem_append_left _
        (List.mem_map_of_mem (List.mem_append_left _ ho')))
  have hopposite : (S.closeOrder o.orderId so).side (!so.isBid) = S.side (!so.isBid) := by
    rw [ShadowLOB.closeOrder_side, ShadowLOB.side_removeFromLevel_of_ne _ _ _ (by simp)]
  have hall : ∀ b, List.Forall₂ LevelShows ((S.closeOrder o.orderId so).side b) (B'.side b) := by
    intro b
    by_cases hb : b = so.isBid
    · rw [hb]
      exact hclosed
    · obtain rfl : b = !so.isBid := by cases b <;> cases hs : so.isBid <;> simp_all
      rw [hopposite, hother]
      exact h.levels _
  refine ⟨?_, hall, ?_, ?_, ?_, ?_, ?_⟩
  · rw [ShadowLOB.closeOrder_orders]
    exact htable.erase.perm hnew.symm
  · intro b
    by_cases hb : b = so.isBid
    · rw [hb, hside']
      have hprices := h.prices so.isBid
      rw [hside] at hprices
      refine hprices.sublist ?_
      simp only [List.map_append]
      exact List.Sublist.append_right (List.Sublist.append_left (Book.keepLevel_prices _ _) _) _
    · obtain rfl : b = !so.isBid := by cases b <;> cases hs : so.isBid <;> simp_all
      rw [hother]
      exact h.prices _
  · intro b lv hlv
    by_cases hb : b = so.isBid
    · rw [hb, hside'] at hlv
      rcases List.mem_append.mp hlv with hlv | hlv
      · rcases List.mem_append.mp hlv with hlv | hlv
        · exact h.queues so.isBid lv (by rw [hside]; simp [hlv])
        · exact Book.keepLevel_queue hlv
      · exact h.queues so.isBid lv (by rw [hside]; simp [hlv])
    · obtain rfl : b = !so.isBid := by cases b <;> cases hs : so.isBid <;> simp_all
      rw [hother] at hlv
      exact h.queues _ lv hlv
  · exact LevelShows.firstKey_eq true (hall true)
  · exact LevelShows.firstKey_eq false (hall false)
  · rw [ShadowLOB.closeOrder_violations]
    exact h.quiet

theorem shave (h : Mirrors S B) {b : Bool} {pre post : List BookLevel} {p v : Int64}
    {q q' : List RestingOrder} {o : RestingOrder} {so : ShadowOrder}
    (hside : B.side b = pre ++ [⟨p, q ++ o :: q'⟩] ++ post)
    (hside' : B'.side b = pre ++ [⟨p, q ++ { o with volume := v } :: q'⟩] ++ post)
    (hother : B'.side (!b) = B.side (!b)) (hpos : 0 < v) (hle : v ≤ o.volume)
    (hso : so.Shows (b, p, { o with volume := v })) :
    Mirrors { S with orders := Function.update S.orders o.orderId (some so) } B' := by
  have hperm : ∀ (x : RestingOrder) (rest : List Placement),
      (Book.placedSide b [⟨p, q ++ x :: q'⟩] ++ rest).Perm
        ((b, p, x) :: ((q ++ q').map (fun o => (b, p, o)) ++ rest)) := by
    intro x rest
    simp only [Book.placedSide, List.flatMap_cons, List.flatMap_nil, List.append_nil,
      List.map_append, List.map_cons, List.append_assoc, List.cons_append]
    exact List.perm_middle
  have hold := (Book.placed_perm hside).trans (hperm o _)
  have hnew := (Book.placed_perm hside').trans (hperm { o with volume := v } _)
  rw [Book.besides_congr hother] at hnew
  obtain ⟨m₁, level, m₂, hm, hpre, hlevel, hpost⟩ := h.level_at pre post hside
  have hshaved : LevelShows (p, level) ⟨p, q ++ { o with volume := v } :: q'⟩ := by
    obtain ⟨-, hids, hvol⟩ := hlevel
    refine ⟨rfl, ?_, ?_⟩
    · rw [hids]
      simp [RestingOrder.share]
    · have := Int64.le_iff_toInt_le.mp hle
      simp only [RestingOrder.share, List.map_append, List.map_cons, List.sum_append,
        List.sum_cons] at hvol ⊢
      omega
  have hall : ∀ b', List.Forall₂ LevelShows (S.side b') (B'.side b') := by
    intro b'
    by_cases hb : b' = b
    · subst hb
      rw [hside', hm, List.append_assoc]
      exact List.rel_append hpre (List.Forall₂.cons hshaved hpost)
    · obtain rfl : b' = !b := by cases b' <;> cases b <;> simp_all
      rw [hother]
      exact h.levels _
  have hprices : ∀ b', (B'.side b').map BookLevel.priceFp = (B.side b').map BookLevel.priceFp :=
    fun b' => by rw [← LevelShows.keys_eq (hall b'), LevelShows.keys_eq (h.levels b')]
  refine ⟨?_, hall, fun b' => (hprices b').symm ▸ h.prices b', ?_, ?_, ?_, h.quiet⟩
  · exact ((h.table.perm hold).replace (b, p, { o with volume := v }) rfl hpos hso).perm
      hnew.symm
  · intro b' lv hlv
    by_cases hb : b' = b
    · subst hb
      rw [hside'] at hlv
      rcases List.mem_append.mp hlv with hlv | hlv
      · rcases List.mem_append.mp hlv with hlv | hlv
        · exact h.queues b' lv (by rw [hside]; simp [hlv])
        · rw [List.mem_singleton.mp hlv]
          simp
      · exact h.queues b' lv (by rw [hside]; simp [hlv])
    · obtain rfl : b' = !b := by cases b' <;> cases b <;> simp_all
      rw [hother] at hlv
      exact h.queues _ lv hlv
  · have := LevelShows.firstKey_eq true (hall true)
    rw [LevelShows.firstKey_eq true (h.levels true)] at this
    exact h.bestBid.trans this
  · have := LevelShows.firstKey_eq false (hall false)
    rw [LevelShows.firstKey_eq false (h.levels false)] at this
    exact h.bestAsk.trans this

theorem sameBook {S' : ShadowLOB} (h : Mirrors S B) (hb : ShadowLOB.SameBook S S')
    (hquiet : S'.violations = []) : Mirrors S' B where
  table := by
    rw [hb.orders]
    exact h.table
  levels := fun b => by
    rw [hb.side]
    exact h.levels b
  prices := h.prices
  queues := h.queues
  bestBid := hb.bestBid.trans h.bestBid
  bestAsk := hb.bestAsk.trans h.bestAsk
  quiet := hquiet

/-! ## One fill -/

variable {isBuy : Bool} {taker : ParticipantID} {p v : Int64} {o : RestingOrder}
  {q : List RestingOrder} {ls : List BookLevel}

theorem priceLog_nil (h : Mirrors S B) (hside : B.side (!isBuy) = ⟨p, o :: q⟩ :: ls)
    (hclear : ShadowLOB.PriceClear isBuy p) (m : UInt64) (t : Int64) :
    S.priceLog (Book.fillOf isBuy taker p v o) m t = [] := by
  rw [ShadowLOB.priceLog, if_neg]
  unfold ShadowLOB.PriceClear at hclear
  cases isBuy
  · have hbest : S.bestBid = p := by
      rw [h.bestBid, Book.bestBid, show B.bids = ⟨p, o :: q⟩ :: ls from hside]
      rfl
    simp only [ShadowLOB.priceInvalid, Book.fillOf, hbest, Bool.false_eq_true, if_false,
      decide_eq_true_eq] at hclear ⊢
    rw [Int64.lt_iff_toInt_lt, toInt_sub_of_fits hclear]
    have : oneCent.toInt = 10000 := by decide
    omega
  · have hbest : S.bestAsk = p := by
      rw [h.bestAsk, Book.bestAsk, show B.asks = ⟨p, o :: q⟩ :: ls from hside]
      rfl
    simp only [ShadowLOB.priceInvalid, Book.fillOf, hbest, if_true, decide_eq_true_eq]
      at hclear ⊢
    rw [Int64.lt_iff_toInt_lt, toInt_add_of_fits hclear]
    have : oneCent.toInt = 10000 := by decide
    omega

theorem head_placed (hside : B.side (!isBuy) = ⟨p, o :: q⟩ :: ls) :
    (!isBuy, p, o) ∈ B.placed :=
  Book.mem_placed.mpr ⟨⟨p, o :: q⟩, by rw [hside]; simp, rfl, by simp⟩

/-- A fill of the front of a level jumps no queue and takes no more than there is. -/
theorem makerLog_nil (h : Mirrors S B) (hside : B.side (!isBuy) = ⟨p, o :: q⟩ :: ls)
    (hle : v ≤ o.volume) (t : Int64) :
    S.makerLog (Book.fillOf isBuy taker p v o) o.orderId t = [] := by
  obtain ⟨so, hso, hbid, hprice, hrem, hcancelled, -⟩ :=
    h.table.known _ (head_placed hside)
  obtain ⟨m₁, level, m₂, hm, -, ⟨-, hids, -⟩, -⟩ :=
    h.level_at [] ls (by rw [hside]; rfl)
  have hfind : OrderedMap.find (S.side (!isBuy)) p = some level := by
    refine OrderedMap.find_of_mem (h.keys_nodup _) ?_
    rw [hm]
    simp
  have hfront : S.olderFront so o.orderId = none := by
    have hid : S.frontId so = some o.orderId := by
      rw [ShadowLOB.frontId, hbid, hprice, hfind, Option.bind_some, hids]
      rfl
    simp only [ShadowLOB.olderFront, hid, if_true]
  have hvolume : ¬ so.remainingVolume < (Book.fillOf isBuy taker p v o).volume := by
    rw [hrem]
    exact Int64.not_lt.mpr hle
  simp only [ShadowLOB.makerLog, hso, ShadowLOB.volumeLog, hcancelled, Bool.false_eq_true,
    if_false, if_neg hvolume, ShadowLOB.fifoLog, hfront, List.append_nil]

/-- One fill: the shadow takes the round that the matching has taken. -/
theorem fill (taker : ParticipantID) (h : Mirrors S B) {r : Int64}
    (hside : B.side (!isBuy) = ⟨p, o :: q⟩ :: ls)
    (hr : 0 < r) (hclear : ShadowLOB.PriceClear isBuy p) (t : Int64) :
    Mirrors (S.onFill (Book.fillOf isBuy taker p (min r o.volume) o) o.orderId t)
      (B.fillHead isBuy p o q ls (min r o.volume)) := by
  obtain ⟨so, hso, hbid, hprice, hrem, hcancelled, hfilled⟩ :=
    h.table.known _ (head_placed hside)
  have hpos : 0 < o.volume := h.table.positive (!isBuy, p, o) (head_placed hside)
  have hle : min r o.volume ≤ o.volume := by
    rw [Book.min_ite]
    split
    · assumption
    · exact Int64.le_refl _
  set f := Book.fillOf isBuy taker p (min r o.volume) o with hf
  have hquiet : (S.onFill f o.orderId t).violations = [] := by
    have hlog : S.fillLog f o.orderId t = [] := by
      rw [ShadowLOB.fillLog, h.priceLog_nil hside hclear, h.makerLog_nil hside hle]
      rfl
    rw [ShadowLOB.onFill_violations, hlog, h.quiet]
    · rfl
    · rw [hlog, h.quiet]
      decide
  refine sameBook ?_ (ShadowLOB.sameBook_onFill t hso) hquiet
  have hside₁ : B.side (!isBuy) = [] ++ [⟨p, [] ++ o :: q⟩] ++ ls := by rw [hside]; rfl
  have hother : (B.fillHead isBuy p o q ls (min r o.volume)).side (!!isBuy) =
      B.side (!!isBuy) := by
    cases isBuy <;> rfl
  by_cases hfull : o.volume - min r o.volume = 0
  · -- the maker is filled and leaves
    rw [ShadowLOB.applyFill, if_pos (by
      show so.remainingVolume - min r o.volume ≤ 0
      rw [hrem, hfull]
      exact Int64.le_refl _)]
    refine h.drop hside₁ ?_ hother hbid hprice ?_ ?_
    · rw [Book.fillHead_side, Book.afterFill, if_pos hfull]
      rfl
    · show 0 ≤ so.remainingVolume - min r o.volume
      rw [hrem, hfull]
      exact Int64.le_refl _
    · show so.remainingVolume - min r o.volume ≤ o.volume
      rw [hrem, hfull]
      exact Int64.le_of_lt hpos
  · -- the maker stays with what is left of it
    obtain ⟨hmin, hlt⟩ := Book.min_of_survivor hfull
    have hleft := sub_between hr hlt
    rw [← hmin] at hleft
    rw [ShadowLOB.applyFill, if_neg (by
      show ¬ so.remainingVolume - min r o.volume ≤ 0
      rw [hrem]
      exact Int64.not_le.mpr hleft.1)]
    refine h.shave hside₁ ?_ hother hleft.1 (Int64.le_of_lt hleft.2)
      ⟨hbid, hprice, ?_, hcancelled, hfilled⟩
    · rw [Book.fillHead_side, Book.afterFill, if_neg hfull]
      rfl
    · show so.remainingVolume - min r o.volume = o.volume - min r o.volume
      rw [hrem]

/-! ## A sweep -/

theorem reachedPrices_zero (ls : List BookLevel) : Book.reachedPrices 0 ls = [] := by
  cases ls <;> rfl

theorem reachedPrices_round {r : Int64} (hr : 0 < r) (hpos : 0 < o.volume) :
    ∀ p' ∈ Book.reachedPrices (r - min r o.volume).toInt
        (Book.keepLevel p (Book.afterFill o q (min r o.volume)) ++ ls),
      p' ∈ Book.reachedPrices r.toInt (⟨p, o :: q⟩ :: ls) := by
  intro p' hp'
  have hr' : 0 < r.toInt := by simpa using Int64.lt_iff_toInt_lt.mp hr
  by_cases hfull : o.volume - min r o.volume = 0
  · have hmin : min r o.volume = o.volume := by grind
    have hle : o.volume ≤ r := by
      rw [Book.min_ite] at hmin
      split at hmin
      · rw [hmin]
        exact Int64.le_refl _
      · rename_i hnot
        exact Int64.le_of_lt (Int64.not_le.mp hnot)
    have hsub : (r - o.volume).toInt = r.toInt - o.volume.toInt := by
      have h₁ := Int64.le_iff_toInt_le.mp hle
      have h₂ := Int64.lt_iff_toInt_lt.mp hpos
      have h₃ := fits_toInt r
      rw [Int64.toInt_zero] at h₂
      unfold Fits at h₃
      exact toInt_sub_of_fits ⟨by omega, by omega⟩
    rw [Book.afterFill, if_pos hfull, hmin, hsub] at hp'
    rw [Book.reachedPrices, if_pos hr', Book.exactVolume_cons]
    cases q with
    | nil =>
        rw [Book.exactVolume_nil, add_zero]
        exact List.mem_cons_of_mem _ hp'
    | cons o' q =>
        rw [Book.keepLevel, if_neg (by simp), List.singleton_append, Book.reachedPrices] at hp'
        split at hp'
        · rwa [sub_sub] at hp'
        · cases hp'
  · rw [Book.remaining_of_survivor hfull, Int64.toInt_zero, reachedPrices_zero] at hp'
    cases hp'

/-- A whole sweep, replayed after the live book has finished it. -/
theorem sweep (t : Int64) : ∀ (n : Nat) {S : ShadowLOB} {B : Book} {r : Int64},
    Book.work (B.side (!isBuy)) < n → Mirrors S B →
    (∀ p ∈ Book.reachedPrices r.toInt (B.side (!isBuy)), ShadowLOB.PriceClear isBuy p) →
    Mirrors (S.onFills (B.marketOrder isBuy r taker).1 t) (B.marketOrder isBuy r taker).2
  | 0, _, _, _, hn, _, _ => absurd hn (Nat.not_lt_zero _)
  | n + 1, S, B, r, hn, h, hclear => by
      by_cases hdone : ¬ 0 < r ∨ B.side (!isBuy) = []
      · rw [Book.marketOrder_done hdone]
        exact h
      obtain ⟨hr, hne⟩ := not_or.mp hdone
      have hr := not_not.mp hr
      cases hside : B.side (!isBuy) with
      | nil => exact absurd hside hne
      | cons lv ls =>
          obtain ⟨p, queue⟩ := lv
          cases queue with
          | nil => exact absurd rfl (h.queues (!isBuy) ⟨p, []⟩ (by rw [hside]; simp))
          | cons o q =>
              have hpos := h.table.positive (!isBuy, p, o) (head_placed hside)
              have hr' : 0 < r.toInt := by simpa using Int64.lt_iff_toInt_lt.mp hr
              have hp : ShadowLOB.PriceClear isBuy p := by
                refine hclear p ?_
                rw [hside, Book.reachedPrices, if_pos hr']
                exact List.mem_cons_self
              have hfill := h.fill taker hside hr hp t
              rw [Book.marketOrder_round hr hside]
              by_cases hmore : 0 < r - min r o.volume
              · refine sweep t n ?_ hfill ?_
                · have := Book.work_round p q ls hmore
                  rw [Book.fillHead_side]
                  rw [hside] at hn
                  omega
                · rw [Book.fillHead_side]
                  rw [hside] at hclear
                  exact fun p' hp' => hclear p' (reachedPrices_round hr hpos p' hp')
              · rw [Book.marketOrder_done (Or.inl hmore)]
                exact hfill

/-! ## Adds and cancels -/

/-- An add changes the best price of its own side only, to a price in front. -/
theorem bestPrice_add (h : Mirrors S B) (b : Bool) {p : Int64} (v : Int64) (who : ParticipantID)
    (hlo : 0 < p) (hhi : p < Int64.maxValue) (b' : Bool) :
    Book.bestPrice b' ((B.addLimit b p v who).2.side b') =
      if b' = b ∧ LOBSide.before b' p (Book.bestPrice b' (B.side b')) then p
      else Book.bestPrice b' (B.side b') := by
  by_cases hb : b' = b
  · subst hb
    have hside : (B.addLimit b' p v who).2.side b' =
        Book.enqueue p ⟨B.nextOrderId, v, who⟩ (Book.openLevel b' p (B.side b')) := by
      cases b' <;> rfl
    rw [hside, Book.bestPrice_addLimit (h.prices b') hlo hhi]
    simp
  · have hother : (B.addLimit b p v who).2.side b' = B.side b' := by
      cases b <;> cases b' <;> first | rfl | exact absurd rfl hb
    rw [hother, if_neg fun hc => hb hc.1]

/-- No level is empty after an add. -/
theorem queues_add (h : Mirrors S B) (b : Bool) (p v : Int64) (who : ParticipantID) :
    ∀ lv ∈ (B.addLimit b p v who).2.side b, lv.queue ≠ [] := by
  intro lv hlv
  obtain ⟨pre, q, post, hsplit, -, hjoined⟩ := Book.addLimit_split p v who (h.prices b).nodup
  rw [hjoined] at hlv
  rcases List.mem_append.mp hlv with hlv | hlv
  · rcases List.mem_append.mp hlv with hlv | hlv
    · exact h.queues b lv (by rw [hsplit]; simp [hlv])
    · rw [List.mem_singleton.mp hlv]
      simp
  · exact h.queues b lv (by rw [hsplit]; simp [hlv])

theorem add (h : Mirrors S B) {b : Bool} {p v : Int64} {who : ParticipantID} (t : Int64)
    (hlo : 0 < p) (hhi : p < Int64.maxValue) (hv : 0 < v)
    (hfresh : ∀ o ∈ B.orders, o.orderId ≠ B.nextOrderId)
    (hsorted : LOBSide.Sorted b (((B.addLimit b p v who).2.side b).map BookLevel.priceFp))
    (hfit : ∀ level, OrderedMap.find (S.side b) p = some level →
      Fits (level.totalVolume.toInt + v.toInt)) :
    Mirrors (S.onLimitAdd b p v B.nextOrderId t) (B.addLimit b p v who).2 := by
  set o : RestingOrder := ⟨B.nextOrderId, v, who⟩ with ho
  have hside : (B.addLimit b p v who).2.side b =
      Book.enqueue p o (Book.openLevel b p (B.side b)) := by
    cases b <;> rfl
  have hother : (B.addLimit b p v who).2.side (!b) = B.side (!b) := by cases b <;> rfl
  have hcases : ∀ b', b' = b ∨ b' = !b := by
    intro b'
    cases b' <;> cases b <;> simp
  have hall : ∀ b', List.Forall₂ LevelShows ((S.onLimitAdd b p v B.nextOrderId t).side b')
      ((B.addLimit b p v who).2.side b') := by
    intro b'
    rw [ShadowLOB.onLimitAdd_side]
    rcases hcases b' with rfl | rfl
    · rw [if_pos rfl, hside]
      refine LevelShows.joined (o := o) (h.levels b') fun x hx hp => hfit x.2 ?_
      exact OrderedMap.find_of_mem (h.keys_nodup b') (hp ▸ hx)
    · rw [if_neg (by simp), hother]
      exact h.levels _
  have hbest := h.bestPrice_add b v who hlo hhi
  refine ⟨?_, hall, ?_, ?_, ?_, ?_, ?_⟩
  · rw [ShadowLOB.onLimitAdd_orders]
    refine TableShows.perm ?_ (Book.placed_addLimit (h.prices b).nodup).symm
    refine h.table.insert (x := (b, p, o)) (fun y hy => ?_) hv ⟨rfl, rfl, rfl, rfl, rfl⟩
    refine hfresh y.2.2 ?_
    rw [← Book.placed_orders]
    exact List.mem_map_of_mem hy
  · intro b'
    rcases hcases b' with rfl | rfl
    · exact hsorted
    · rw [hother]
      exact h.prices _
  · intro b' lv hlv
    rcases hcases b' with rfl | rfl
    · exact h.queues_add b' p v who lv hlv
    · rw [hother] at hlv
      exact h.queues _ lv hlv
  · rw [ShadowLOB.onLimitAdd_eq]
    show (if b = true ∧ S.bestBid < p then p else S.bestBid) =
      Book.bestPrice true ((B.addLimit b p v who).2.side true)
    rw [hbest, h.bestBid]
    cases b
    · simp only [Bool.false_eq_true, false_and, if_false, Bool.true_eq_false]
      rfl
    · simp only [LOBSide.before, if_true, true_and, decide_eq_true_eq]
      rfl
  · rw [ShadowLOB.onLimitAdd_eq]
    show (if ¬ b = true ∧ p < S.bestAsk then p else S.bestAsk) =
      Book.bestPrice false ((B.addLimit b p v who).2.side false)
    rw [hbest, h.bestAsk]
    cases b
    · simp only [LOBSide.before, Bool.false_eq_true, not_false_eq_true, if_false, true_and,
        decide_eq_true_eq]
      rfl
    · simp only [not_true_eq_false, false_and, if_false, Bool.false_eq_true]
      rfl
  · rw [ShadowLOB.onLimitAdd_violations]
    exact h.quiet

theorem ids_nodup (h : Mirrors S B) : (B.orders.map RestingOrder.orderId).Nodup := by
  rw [← Book.placed_orders, List.map_map]
  exact h.table.ids

theorem cancel (h : Mirrors S B) (id : UInt64) (t : Int64) :
    Mirrors (S.onCancel id (B.cancel id).1 t) (B.cancel id).2 := by
  by_cases hex : ∃ o ∈ B.orders, o.orderId = id
  · obtain ⟨b, pre, p, q, o, q', post, hside, rfl, hcancel⟩ := Book.cancel_split h.ids_nodup hex
    obtain ⟨so, hso, hbid, hprice, hrem, hcancelled, hfilled⟩ := h.table.known (b, p, o)
      (Book.mem_placed.mpr ⟨⟨p, q ++ o :: q'⟩, by rw [hside]; simp, rfl, by simp⟩)
    have hpos : 0 < o.volume := h.table.positive (b, p, o)
      (Book.mem_placed.mpr ⟨⟨p, q ++ o :: q'⟩, by rw [hside]; simp, rfl, by simp⟩)
    have hlive : ¬ (so.isCancelled = true ∨ so.isFullyFilled = true) := by
      rw [hcancelled, hfilled]
      simp
    rw [hcancel]
    simp only [ShadowLOB.onCancel, hso, if_neg hlive]
    refine h.drop hside (by simp) (by simp) hbid hprice ?_ ?_
    · show 0 ≤ so.remainingVolume
      rw [hrem]
      exact Int64.le_of_lt hpos
    · show so.remainingVolume ≤ o.volume
      rw [hrem]
      exact Int64.le_refl _
  · have habsent : ∀ o ∈ B.orders, o.orderId ≠ id := fun o ho heq => hex ⟨o, ho, heq⟩
    have hnone : S.orders id = none := h.table.closed id fun x hx => habsent x.2.2 (by
      rw [← Book.placed_orders]
      exact List.mem_map_of_mem hx)
    rw [Book.cancel_absent habsent]
    simp only [ShadowLOB.onCancel, hnone, Bool.false_eq_true, if_false]
    exact h

end Mirrors

/-! ## Runs of the two books -/

/-- What the shadow is told of a call and its reply. -/
def ShadowLOB.follow (S : ShadowLOB) (t : Int64) : BookOp → Reply → ShadowLOB
  | .addLimit isBid priceFp volume _, .orderId id => S.onLimitAdd isBid priceFp volume id t
  | .marketOrder .., .fills fs => S.onFills fs t
  | .cancel orderId, .cancelled ok => S.onCancel orderId ok t
  | _, _ => S

/-- The live book and the shadow that follows it. -/
abbrev Mirrored := PersistentLOB × ShadowLOB

namespace Mirrored

def init : Mirrored := (PersistentLOB.init, ShadowLOB.init)

/-- One live call with the tick it is made in, and then the calls of the shadow. -/
def step (s : Mirrored) (c : Int64 × BookOp) : Except Fault (Reply × Mirrored) := do
  let (reply, lob) ← s.1.apply c.2
  return (reply, lob, s.2.follow c.1 c.2 reply)

/-- Positive volumes, prices between 0 and `INT64_MAX`, no cancel of the empty marker. -/
def Legal : BookOp → Prop
  | .addLimit _ priceFp volume _ => 0 < volume ∧ 0 < priceFp ∧ priceFp < Int64.maxValue
  | .cancel orderId => orderId ≠ emptyKey
  | .marketOrder _ volume _ => 0 < volume

def Accepted (s : Mirrored) (op : BookOp) : Prop :=
  match s.1.apply op with
  | .ok (.orderId id, _) => id ≠ nullOrderId
  | _ => True

/-- No machine integer wraps: not the ids, not the total of the shadow level that
an order joins, not the price check at a level that a market order reaches. -/
def Clear (s : Mirrored) : BookOp → Prop
  | .addLimit isBid priceFp volume _ =>
      s.1.nextOrderId ≠ emptyKey ∧
        ∀ level ∈ OrderedMap.find (s.2.side isBid) priceFp,
          Fits (level.totalVolume.toInt + volume.toInt)
  | .cancel _ => True
  | .marketOrder isBuy volume _ =>
      ∀ p ∈ Book.reachedPrices volume.toInt (s.1.view.side (!isBuy)),
        ShadowLOB.PriceClear isBuy p

def Admits (s : Mirrored) (c : Int64 × BookOp) : Prop :=
  Legal c.2 ∧ s.Accepted c.2 ∧ s.Clear c.2

instance : ∀ op : BookOp, Decidable (Legal op)
  | .addLimit .. => inferInstanceAs (Decidable (_ ∧ _ ∧ _))
  | .cancel _ => inferInstanceAs (Decidable (_ ≠ _))
  | .marketOrder .. => inferInstanceAs (Decidable (_ < _))

instance (s : Mirrored) (op : BookOp) : Decidable (s.Accepted op) :=
  show Decidable (match s.1.apply op with
      | .ok (.orderId id, _) => id ≠ nullOrderId
      | _ => True) from
    match s.1.apply op with
    | .ok (.orderId _, _) => inferInstanceAs (Decidable (_ ≠ _))
    | .ok (.cancelled _, _) => inferInstanceAs (Decidable True)
    | .ok (.fills _, _) => inferInstanceAs (Decidable True)
    | .error _ => inferInstanceAs (Decidable True)

instance (s : Mirrored) : ∀ op : BookOp, Decidable (s.Clear op)
  | .addLimit .. => inferInstanceAs (Decidable (_ ∧ ∀ level ∈ _, _))
  | .cancel _ => inferInstanceAs (Decidable True)
  -- the search of the list, and not of all the prices there are
  | .marketOrder isBuy _ _ => List.decidableBAll (ShadowLOB.PriceClear isBuy) _

instance (s : Mirrored) (c : Int64 × BookOp) : Decidable (s.Admits c) :=
  inferInstanceAs (Decidable (_ ∧ _ ∧ _))

/-- A sound mirror: nothing logged, the same orders with the same volumes, the
same queues at the same prices, the same best prices. -/
structure Sound (s : Mirrored) : Prop where
  quiet : s.2.violations = []
  orders : ∀ id v, (∃ so, s.2.orders id = some so ∧ so.remainingVolume = v) ↔
    ∃ o ∈ s.1.view.orders, o.orderId = id ∧ o.volume = v
  queues : ∀ b, (s.2.side b).map (fun x => (x.1, x.2.orderIds)) =
    (s.1.view.side b).map fun lv => (lv.priceFp, lv.queue.map RestingOrder.orderId)
  bestBid : s.2.bestBid = s.1.bestBid
  bestAsk : s.2.bestAsk = s.1.bestAsk

/-- The live book holds a naive book that the shadow mirrors. -/
def Inv (s : Mirrored) : Prop := ∃ B, Refines s.1 B ∧ Mirrors s.2 B

theorem Inv.sound {s : Mirrored} (h : s.Inv) : s.Sound := by
  obtain ⟨B, href, hmir⟩ := h
  rw [← href.view_eq] at hmir
  refine ⟨hmir.quiet, ?_, ?_, ?_, ?_⟩
  · intro id v
    constructor
    · rintro ⟨so, hso, rfl⟩
      by_contra hnone
      have habsent : ∀ x ∈ s.1.view.placed, x.2.2.orderId ≠ id := by
        rintro ⟨b, p, o⟩ hx rfl
        obtain ⟨so', hso', -, -, hrem, -⟩ := hmir.table.known _ hx
        rw [hso] at hso'
        obtain rfl := Option.some.inj hso'
        refine hnone ⟨o, ?_, rfl, hrem.symm⟩
        rw [← Book.placed_orders]
        exact List.mem_map.mpr ⟨_, hx, rfl⟩
      rw [hmir.table.closed id habsent] at hso
      cases hso
    · rintro ⟨o, ho, rfl, rfl⟩
      rw [← Book.placed_orders] at ho
      obtain ⟨x, hx, rfl⟩ := List.mem_map.mp ho
      obtain ⟨so, hso, -, -, hrem, -⟩ := hmir.table.known x hx
      exact ⟨so, hso, hrem⟩
  · exact fun b => LevelShows.queues_eq (hmir.levels b)
  · rw [hmir.bestBid, href.view_eq, href.quotes.bestBid]
  · rw [hmir.bestAsk, href.view_eq, href.quotes.bestAsk]

theorem Inv.step {s : Mirrored} {c : Int64 × BookOp} (h : s.Inv) (hadm : s.Admits c) :
    ∃ r s', Mirrored.step s c = .ok (r, s') ∧ s'.Inv := by
  obtain ⟨t, op⟩ := c
  obtain ⟨lob, S⟩ := s
  obtain ⟨B, href, hmir⟩ := h
  obtain ⟨hlegal, haccepted, hclear⟩ := hadm
  have hproper : op.Proper B := by
    cases op with
    | addLimit isBid p v who =>
        have := hclear.1
        rwa [← show lob.view.nextOrderId = lob.nextOrderId from rfl, href.view_eq] at this
    | cancel id => exact hlegal
    | marketOrder isBuy v taker => trivial
  obtain ⟨lob', hcall, href'⟩ := href.apply hproper
  refine ⟨(B.applyBounded op).1, (lob', S.follow t op (B.applyBounded op).1), ?_, ?_⟩
  · simp only [Mirrored.step, hcall, ok_bind, pure_ok]
  refine ⟨(B.applyBounded op).2, href', ?_⟩
  cases op with
  | addLimit isBid p v who =>
      -- an accepted add is the add of the book without limits
      have hadd : B.addLimitBounded isBid p v who = B.addLimit isBid p v who := by
        have hid : (B.addLimitBounded isBid p v who).1 ≠ nullOrderId := by
          simp only [Accepted, hcall, Book.applyBounded] at haccepted
          exact haccepted
        unfold Book.addLimitBounded at hid ⊢
        split
        · rename_i hfull
          exact absurd (by rw [if_pos hfull]) hid
        · rename_i htable
          split
          · rename_i hfull
            exact absurd (by rw [if_neg htable, if_pos hfull]) hid
          · rfl
      have hsorted := href'.prices_sorted isBid
      simp only [Book.applyBounded, hadd] at hsorted ⊢
      exact hmir.add t hlegal.2.1 hlegal.2.2 hlegal.1 href.fresh hsorted hclear.2
  | cancel id => exact hmir.cancel id t
  | marketOrder isBuy v taker =>
      refine Mirrors.sweep t _ (Nat.lt_succ_self _) hmir ?_
      rw [← href.view_eq]
      exact hclear

/-- The shadow is a sound mirror of the live book: after every call of every
run of legal calls in which no add is refused and no machine integer wraps. -/
theorem shadow_mirrors_live {calls : List (Int64 × BookOp)}
    (hadm : AdmittedFrom step Admits init calls) :
    ∀ pre, pre <+: calls → ∃ rs s, runFrom step init pre = .ok (rs, s) ∧ s.Sound := by
  rintro pre ⟨post, rfl⟩
  obtain ⟨rs, s, hrun, hinv⟩ := runFrom_defined Inv (fun _ _ h hadm => h.step hadm) pre init
    ⟨Book.empty, init_refines, mirrors_init⟩ hadm.of_append
  exact ⟨rs, s, hrun, hinv.sound⟩

/-- Two asks at one price, a sweep into the second, and a cancel of what is left. -/
theorem shadow_mirrors_live_sweep :
    let calls : List (Int64 × BookOp) := [(0, .addLimit false 100 5 botMM),
      (0, .addLimit false 100 5 contestant), (1, .marketOrder true 7 botSNIPER), (2, .cancel 2)]
    AdmittedFrom step Admits init calls ∧
      ∃ rs s, runFrom step init calls = .ok (rs, s) ∧ s.Sound := by
  intro calls
  have hadm : AdmittedFrom step Admits init calls := by decide +kernel
  exact ⟨hadm, shadow_mirrors_live hadm calls (List.prefix_refl calls)⟩

/-- A false alarm: an ask at `INT64_MAX - 1` is bought at its own price, and
the tolerance of one tick wraps the best ask of the shadow below it. -/
theorem shadow_raises_false_alarm :
    let calls : List (Int64 × BookOp) :=
      [(0, .addLimit false (Int64.maxValue - 1) 1 botMM), (1, .marketOrder true 1 contestant)]
    AdmittedFrom step (fun s c => Legal c.2 ∧ s.Accepted c.2) init calls ∧
      ∃ rs s, runFrom step init calls = .ok (rs, s) ∧
        s.2.violations.map Violation.type = [.fillPriceInvalid] ∧ ¬ s.Sound := by
  intro calls
  have hlog : (runFrom step init calls).map (fun r => r.2.2.violations.map Violation.type) =
      .ok [.fillPriceInvalid] := by decide +kernel
  refine ⟨by decide +kernel, ?_⟩
  obtain ⟨⟨rs, s⟩, hrun, hlog⟩ := map_eq_ok hlog
  refine ⟨rs, s, hrun, hlog, fun hsound => ?_⟩
  simp only [hsound.quiet] at hlog
  cases hlog

end Mirrored

end VidhiArena.GameMaster
