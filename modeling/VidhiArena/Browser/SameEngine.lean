import VidhiArena.Browser.Matching
import VidhiArena.GameMaster.Conservation

/-!
# Two books, one matching engine

Practice runs are matched by the browser book, scored runs by the pool-allocated one. A
call made on both is a `Call`; the browser takes prices in whole ticks and is told where
the order it cancels was placed. `Same B desk` relates the naive book, which the pool
refines, to the browser book and to what its caller knows; every call keeps it and is
answered alike.
-/

namespace VidhiArena.Browser

open Foundation Foundation.OrderedMap
open GameMaster (ParticipantID RestingOrder BookLevel MatchedFill BookOp Reply LOBSide Refines)

variable {ρ : Type}

/-! ## The two vocabularies -/

def sideOf : Bool → Side
  | true => .buy
  | false => .sell

theorem sideOf_not (b : Bool) : sideOf (!b) = (sideOf b).other := by cases b <;> rfl

/-- `to_fp(0.01)`: one tick of the browser. -/
def tickFp : Int := 10000

def wholeTicks (priceFp : Int64) : Int := priceFp.toInt / tickFp

variable (name : ParticipantID → ρ)

def orderJs (o : RestingOrder) : Order ρ := ⟨o.orderId.toNat, name o.participant, o.volume.toInt⟩

def levelJs (q : List RestingOrder) : Level ρ :=
  ⟨GameMaster.Book.exactVolume q, q.map (orderJs name)⟩

/-- A level as an entry of a browser map. -/
def entry (lv : BookLevel) : Int × Level ρ := (wholeTicks lv.priceFp, levelJs name lv.queue)

def fillJs (f : MatchedFill) : Fill ρ :=
  ⟨wholeTicks f.priceFp, f.volume.toInt, name f.takerParticipant, name f.makerParticipant,
    sideOf f.takerIsBuy⟩

def replyJs : Reply → Answer ρ
  | .orderId id => .orderId id.toNat
  | .cancelled ok => .cancelled ok
  | .fills fs => .fills (fs.map (fillJs name))

/-- A call that is made on both books. -/
inductive Call where
  | addLimit (isBid : Bool) (priceFp volume : Int64) (participant : ParticipantID)
  | cancel (orderId : UInt64) (isBid : Bool) (priceFp : Int64)
  | marketOrder (isBuy : Bool) (volume : Int64) (taker : ParticipantID)
deriving DecidableEq

namespace Call

def toFlat : Call → BookOp
  | addLimit isBid priceFp volume participant => .addLimit isBid priceFp volume participant
  | cancel orderId _ _ => .cancel orderId
  | marketOrder isBuy volume taker => .marketOrder isBuy volume taker

def toJs : Call → BookCall ρ
  | addLimit isBid priceFp volume participant =>
      .addOrder (sideOf isBid) (wholeTicks priceFp) volume.toInt (name participant)
  | cancel orderId isBid priceFp => .cancelOrder (sideOf isBid) (wholeTicks priceFp) orderId.toNat
  | marketOrder isBuy volume taker => .marketOrder (sideOf isBuy) volume.toInt (name taker)

/-- Positive volumes, and prices that are whole ticks. -/
def Proper : Call → Prop
  | addLimit _ priceFp volume _ => tickFp ∣ priceFp.toInt ∧ 0 < volume
  | cancel .. => True
  | marketOrder _ volume _ => 0 < volume

instance : ∀ call : Call, Decidable call.Proper
  | addLimit .. => inferInstanceAs (Decidable (_ ∧ _))
  | cancel .. => inferInstanceAs (Decidable True)
  | marketOrder .. => inferInstanceAs (Decidable (_ < _))

end Call

/-! ## Levels and their entries -/

section Entries

theorem ticks_lt {p p' : Int64} (hp : tickFp ∣ p.toInt) (hp' : tickFp ∣ p'.toInt) :
    wholeTicks p < wholeTicks p' ↔ p < p' := by
  rw [Int64.lt_iff_toInt_lt]
  obtain ⟨t, ht⟩ := hp
  obtain ⟨t', ht'⟩ := hp'
  rw [wholeTicks, wholeTicks, ht, ht', tickFp]
  omega

theorem before_ticks {b : Bool} {p p' : Int64} (hp : tickFp ∣ p.toInt) (hp' : tickFp ∣ p'.toInt)
    (h : LOBSide.before b p p' = true) : (sideOf b).before (wholeTicks p) (wholeTicks p') := by
  cases b with
  | true => exact (ticks_lt hp' hp).mpr (of_decide_eq_true h)
  | false => exact (ticks_lt hp hp').mpr (of_decide_eq_true h)

theorem entries_sorted (name : ParticipantID → ρ) {b : Bool} {ls : List BookLevel}
    (hsorted : LOBSide.Sorted b (ls.map BookLevel.priceFp))
    (hticks : ∀ lv ∈ ls, tickFp ∣ lv.priceFp.toInt) :
    (keys (ls.map (entry name))).Pairwise (sideOf b).before := by
  unfold LOBSide.Sorted at hsorted
  rw [keys, List.map_map, List.pairwise_map]
  rw [List.pairwise_map] at hsorted
  exact hsorted.imp_of_mem fun hx hy h => before_ticks (hticks _ hx) (hticks _ hy) h

theorem entries_nodup (name : ParticipantID → ρ) {b : Bool} {ls : List BookLevel}
    (hsorted : LOBSide.Sorted b (ls.map BookLevel.priceFp))
    (hticks : ∀ lv ∈ ls, tickFp ∣ lv.priceFp.toInt) : (keys (ls.map (entry name))).Nodup :=
  (entries_sorted name hsorted hticks).imp
    fun {x y} (h : (sideOf b).before x y) (heq : x = y) => Std.Irrefl.irrefl y (heq ▸ h)

end Entries

/-! ## The desk -/

/-- The browser book, and what its caller knows of the orders: id, side and price. -/
structure Desk (ρ : Type) where
  lob : PersistentLOB ρ
  issued : List (Nat × Bool × Int64)

def Desk.init (base : Int) : Desk ρ := ⟨PersistentLOB.new base, []⟩

/-- The answer to an add tells the caller the id of the order. -/
def record : Call → Answer ρ → List (Nat × Bool × Int64) → List (Nat × Bool × Int64)
  | .addLimit isBid priceFp _ _, .orderId id, issued => (id, isBid, priceFp) :: issued
  | _, _, issued => issued

def Desk.step (base : Int) (desk : Desk ρ) (call : Call) : Answer ρ × Desk ρ :=
  let (answer, lob) := desk.lob.apply base (call.toJs name)
  (answer, ⟨lob, record call answer desk.issued⟩)

/-- A cancelled id that was ever issued is given with its side and price. -/
def Desk.Informed (desk : Desk ρ) : Call → Prop
  | .cancel orderId isBid priceFp =>
      ∀ x ∈ desk.issued, x.1 = orderId.toNat → x.2 = (isBid, priceFp)
  | _ => True

instance : ∀ (desk : Desk ρ) (call : Call), Decidable (desk.Informed call)
  | _, .addLimit .. => inferInstanceAs (Decidable True)
  | _, .cancel .. => inferInstanceAs (Decidable (∀ _ ∈ _, _))
  | _, .marketOrder .. => inferInstanceAs (Decidable True)

theorem traceFrom_desk (base : Int) : ∀ (calls : List Call) (desk : Desk ρ),
    traceFrom (PersistentLOB.apply base) desk.lob (calls.map (Call.toJs name)) =
      ((traceFrom (Desk.step name base) desk calls).1,
        (traceFrom (Desk.step name base) desk calls).2.lob)
  | [], _ => rfl
  | call :: calls, desk => by
      simp only [List.map_cons, traceFrom]
      rw [show ((desk.lob.apply base (call.toJs name)).2) =
        (desk.step name base call).2.lob from rfl, traceFrom_desk base calls]
      rfl

/-! ## The relation -/

/-- What a level needs to look the same from both sides: a queue of positive orders
that the caller knows of, at a price in whole ticks. -/
structure LevelOk (issued : List (Nat × Bool × Int64)) (b : Bool) (lv : BookLevel) : Prop where
  nonempty : lv.queue ≠ []
  ticks : tickFp ∣ lv.priceFp.toInt
  positive : ∀ o ∈ lv.queue, 0 < o.volume
  known : ∀ o ∈ lv.queue, (o.orderId.toNat, b, lv.priceFp) ∈ issued

/-- A level that keeps some orders of another, or parts of them. -/
theorem LevelOk.of_orders {issued : List (Nat × Bool × Int64)} {b : Bool} {lv lv' : BookLevel}
    (h : LevelOk issued b lv) (hprice : lv'.priceFp = lv.priceFp) (hne : lv'.queue ≠ [])
    (hpos : ∀ o ∈ lv'.queue, 0 < o.volume)
    (hids : ∀ o ∈ lv'.queue, ∃ o' ∈ lv.queue, o'.orderId = o.orderId) : LevelOk issued b lv' where
  nonempty := hne
  ticks := hprice ▸ h.ticks
  positive := hpos
  known := by
    intro o ho
    obtain ⟨o', ho', heq⟩ := hids o ho
    rw [← heq, hprice]
    exact h.known o' ho'

theorem LevelOk.mono {issued issued' : List (Nat × Bool × Int64)} {b : Bool} {lv : BookLevel}
    (h : LevelOk issued b lv) (hsub : issued ⊆ issued') : LevelOk issued' b lv :=
  ⟨h.nonempty, h.ticks, h.positive, fun o ho => hsub (h.known o ho)⟩

structure Same (B : GameMaster.Book) (desk : Desk ρ) : Prop where
  flat : ∃ lob, Refines lob B
  levels : ∀ b, ∀ lv ∈ B.side b, LevelOk desk.issued b lv
  listed : ∀ b, desk.lob.Listed (sideOf b) ((B.side b).map (entry name))
  next : desk.lob.nextOrderId = min B.nextOrderId.toNat (2 ^ 53)

section Step

variable {name : ParticipantID → ρ} {B : GameMaster.Book} {desk : Desk ρ} {base : Int}

theorem same_init (name : ParticipantID → ρ) (base : Int) :
    Same name GameMaster.Book.empty (Desk.init base) where
  flat := ⟨_, GameMaster.init_refines⟩
  levels := by
    intro b lv hlv
    cases b <;> exact absurd hlv List.not_mem_nil
  listed := by
    intro b
    cases b <;> exact Lists.empty
  next := rfl

theorem Same.whole_ticks (h : Same name B desk) (b : Bool) :
    ∀ lv ∈ B.side b, tickFp ∣ lv.priceFp.toInt :=
  fun lv hlv => (h.levels b lv hlv).ticks

theorem Same.nodup (h : Same name B desk) (b : Bool) :
    (keys ((B.side b).map (entry name))).Nodup := by
  obtain ⟨lob, href⟩ := h.flat
  exact entries_nodup name (href.prices_sorted b) (h.whole_ticks b)

/-- An order of the book is in the queue of an entry, and the caller knows where. -/
theorem Same.find_of_mem (h : Same name B desk) {b : Bool} {pre post : List BookLevel}
    {p : Int64} {q : List RestingOrder} (hside : B.side b = pre ++ ⟨p, q⟩ :: post) :
    find (desk.lob.book (sideOf b)) (wholeTicks p) = some (levelJs name q) := by
  have hnodup := h.nodup b
  rw [(h.listed b).same]
  rw [hside] at hnodup ⊢
  refine OrderedMap.find_of_mem hnodup ?_
  rw [List.map_append, List.map_cons]
  exact List.mem_append_right _ List.mem_cons_self

/-! ## Adding -/

theorem Same.levels_addLimit (h : Same name B desk) {b : Bool} {p v : Int64}
    {who : ParticipantID} (hp : tickFp ∣ p.toInt) (hv : 0 < v)
    {issued : List (Nat × Bool × Int64)} (hsub : desk.issued ⊆ issued)
    (hnew : (B.nextOrderId.toNat, b, p) ∈ issued) :
    ∀ s, ∀ lv ∈ (B.addLimit b p v who).2.side s, LevelOk issued s lv := by
  obtain ⟨lob, href⟩ := h.flat
  obtain ⟨pre, q, post, hside, hempty, hside'⟩ :=
    GameMaster.Book.addLimit_split p v who (href.prices_sorted b).nodup
  intro s lv hlv
  by_cases hs : s = b
  · subst hs
    rw [hside', List.mem_append, List.mem_append, List.mem_singleton] at hlv
    have hold : lv ∈ pre ∨ lv ∈ post → LevelOk issued s lv := by
      intro hmem
      refine (h.levels s lv ?_).mono hsub
      rw [hside, List.mem_append, List.mem_append]
      exact hmem.imp_left Or.inl
    rcases hlv with (hlv | rfl) | hlv
    · exact hold (Or.inl hlv)
    · have hqueue : ∀ o ∈ q, 0 < o.volume ∧ (o.orderId.toNat, s, p) ∈ issued := by
        cases hhas : GameMaster.Book.hasLevel (B.side s) p with
        | true =>
            have hlevel := h.levels s ⟨p, q⟩ (by rw [hside, if_pos hhas]; simp)
            exact fun o ho => ⟨hlevel.positive o ho, hsub (hlevel.known o ho)⟩
        | false =>
            rw [hempty hhas]
            exact fun o ho => absurd ho List.not_mem_nil
      refine ⟨by simp, hp, fun o ho => ?_, fun o ho => ?_⟩
      · rcases List.mem_append.mp ho with ho | ho
        · exact (hqueue o ho).1
        · rw [List.mem_singleton.mp ho]
          exact hv
      · rcases List.mem_append.mp ho with ho | ho
        · exact (hqueue o ho).2
        · rw [List.mem_singleton.mp ho]
          exact hnew
    · exact hold (Or.inr hlv)
  · obtain rfl : s = !b := Bool.eq_not_of_ne hs
    have hother : (B.addLimit b p v who).2.side (!b) = B.side (!b) := by cases b <;> rfl
    rw [hother] at hlv
    exact (h.levels _ lv hlv).mono hsub

theorem Same.listed_addLimit (h : Same name B desk) {b : Bool} {p v : Int64} {who : ParticipantID}
    (hsorted : LOBSide.Sorted b (((B.addLimit b p v who).2.side b).map BookLevel.priceFp))
    (hticks : ∀ lv ∈ (B.addLimit b p v who).2.side b, tickFp ∣ lv.priceFp.toInt)
    (hnext : desk.lob.nextOrderId = B.nextOrderId.toNat) :
    (desk.lob.addOrder (sideOf b) (wholeTicks p) v.toInt (name who)).2.Listed (sideOf b)
      (((B.addLimit b p v who).2.side b).map (entry name)) := by
  obtain ⟨lob, href⟩ := h.flat
  obtain ⟨pre, q, post, hside, hempty, hside'⟩ :=
    GameMaster.Book.addLimit_split p v who (href.prices_sorted b).nodup
  have hjoined : levelJs name (q ++ [⟨B.nextOrderId, v, who⟩]) =
      PersistentLOB.enqueue v.toInt ⟨desk.lob.nextOrderId, name who, v.toInt⟩ (levelJs name q) := by
    simp [levelJs, PersistentLOB.enqueue, orderJs, hnext]
  have hkeys := entries_sorted name hsorted hticks
  have hlisted := (h.listed b).addOrder (wholeTicks p) v.toInt (name who)
  rw [hside', List.append_assoc, List.singleton_append, List.map_append, List.map_cons] at hkeys ⊢
  have hkeys₀ : (keys (pre.map (entry name) ++ (wholeTicks p, levelJs name q) ::
      post.map (entry name))).Pairwise (sideOf b).before := by
    simpa [keys, entry] using hkeys
  have hnodup₀ : (keys (pre.map (entry name) ++ (wholeTicks p, levelJs name q) ::
      post.map (entry name))).Nodup :=
    hkeys₀.imp fun {x y} (hxy : (sideOf b).before x y) (heq : x = y) =>
      Std.Irrefl.irrefl y (heq ▸ hxy)
  have haccess : access (fun x y => decide ((sideOf b).before x y)) ((B.side b).map (entry name))
      (wholeTicks p) ⟨0, []⟩ = pre.map (entry name) ++ (wholeTicks p, levelJs name q) ::
        post.map (entry name) := by
    cases hhas : GameMaster.Book.hasLevel (B.side b) p with
    | true =>
        rw [if_pos hhas, List.append_assoc, List.singleton_append] at hside
        have hfind : find ((B.side b).map (entry name)) (wholeTicks p) = some (levelJs name q) := by
          rw [← (h.listed b).same]
          exact h.find_of_mem hside
        rw [access, if_pos (by rw [hfind]; rfl), hside, List.map_append, List.map_cons]
        rfl
    | false =>
        rw [hhas, if_neg Bool.false_ne_true, List.append_nil] at hside
        obtain rfl := hempty hhas
        have hfind : find ((B.side b).map (entry name)) (wholeTicks p) = none := by
          rw [find_eq_none, hside, List.map_append]
          intro hmem
          obtain ⟨x, hx, hkey⟩ := List.mem_map.mp hmem
          exact ne_of_middle hnodup₀ x hx hkey
        rw [access, if_neg (by rw [hfind]; exact Bool.false_ne_true), hside, List.map_append]
        exact insert_middle hkeys₀
  rw [haccess, modify_middle hnodup₀, ← hjoined] at hlisted
  exact hlisted

/-! ## Cancelling -/

theorem levelJs_volume_le (name : ParticipantID → ρ) {q : List RestingOrder}
    (h : ∀ o ∈ q, 0 < o.volume) :
    (levelJs name q).volume ≤ 0 ↔ q = [] := by
  constructor
  · intro hle
    cases q with
    | nil => rfl
    | cons o q =>
        obtain ⟨ho, hq⟩ := List.forall_mem_cons.mp h
        have hrest := GameMaster.Book.exactVolume_nonneg hq
        have hfirst := GameMaster.toInt_pos.mp ho
        have hsum : (levelJs name (o :: q)).volume = o.volume.toInt +
          GameMaster.Book.exactVolume q := GameMaster.Book.exactVolume_cons o q
        omega
  · rintro rfl
    exact le_refl _

theorem find?_levelJs (name : ParticipantID → ρ) {q : List RestingOrder} (q' : List RestingOrder)
    {o : RestingOrder} (h : ∀ x ∈ q, x.orderId ≠ o.orderId) :
    (levelJs name (q ++ o :: q')).orders.find? (·.id = o.orderId.toNat) = some (orderJs name o) ∧
      (levelJs name (q ++ o :: q')).orders.eraseP (·.id = o.orderId.toNat) =
        (levelJs name (q ++ q')).orders := by
  unfold levelJs
  have hother : ∀ x ∈ q.map (orderJs name), ¬ (decide (x.id = o.orderId.toNat) = true) := by
    intro x hx heq
    obtain ⟨y, hy, rfl⟩ := List.mem_map.mp hx
    exact h y hy (UInt64.toNat_inj.mp (of_decide_eq_true heq))
  constructor
  · rw [List.map_append, List.find?_append, List.find?_eq_none.mpr hother, List.map_cons,
      List.find?_cons_of_pos (by exact decide_eq_true rfl)]
    rfl
  · rw [List.map_append, List.eraseP_append_right _ hother, List.map_cons,
      List.eraseP_cons_of_pos (by exact decide_eq_true rfl), List.map_append]

theorem queue_ids_nodup (hids : (B.orders.map RestingOrder.orderId).Nodup) {b : Bool}
    {lv : BookLevel} (hlv : lv ∈ B.side b) : (lv.queue.map RestingOrder.orderId).Nodup := by
  obtain ⟨pre, post, hside⟩ := List.append_of_mem hlv
  have hsub : lv.queue.Sublist (GameMaster.Book.priority (B.side b)) := by
    rw [hside, GameMaster.Book.priority, List.flatMap_append, List.flatMap_cons]
    exact (List.sublist_append_left _ _).trans (List.sublist_append_right _ _)
  refine hids.sublist ((hsub.trans ?_).map _)
  cases b with
  | true => exact List.sublist_append_left _ _
  | false => exact List.sublist_append_right _ _

theorem Same.listed_cancel (h : Same name B desk) {b : Bool} {pre post : List BookLevel}
    {p : Int64} {q q' : List RestingOrder} {o : RestingOrder}
    (hside : B.side b = pre ++ [⟨p, q ++ o :: q'⟩] ++ post) :
    PersistentLOB.cancelListing (wholeTicks p) o.orderId.toNat ((B.side b).map (entry name)) =
      (pre ++ GameMaster.Book.keepLevel p (q ++ q') ++ post).map (entry name) := by
  rw [List.append_assoc, List.singleton_append] at hside
  have hmem : ⟨p, q ++ o :: q'⟩ ∈ B.side b := hside ▸ List.mem_append_right _ List.mem_cons_self
  have hnodup := h.nodup b
  have hlevel := h.levels b _ hmem
  have hfind := h.find_of_mem hside
  rw [(h.listed b).same] at hfind
  have hids : ∀ x ∈ q, x.orderId ≠ o.orderId := by
    obtain ⟨lob, href⟩ := h.flat
    have hnd := queue_ids_nodup href.orderIds_nodup hmem
    rw [List.map_append, List.map_cons] at hnd
    exact fun x hx => (List.nodup_append.mp hnd).2.2 _ (List.mem_map_of_mem hx) _ List.mem_cons_self
  obtain ⟨horder, herase⟩ := find?_levelJs name q' hids
  have hleft : ∀ x ∈ q ++ q', 0 < x.volume := by
    intro x hx
    refine hlevel.positive x ?_
    rcases List.mem_append.mp hx with hx | hx
    · exact List.mem_append_left _ hx
    · exact List.mem_append_right _ (List.mem_cons_of_mem _ hx)
  have hvolume : (levelJs name (q ++ o :: q')).volume - (orderJs name o).volume =
      (levelJs name (q ++ q')).volume := by
    simp only [levelJs, orderJs, GameMaster.Book.exactVolume_append,
      GameMaster.Book.exactVolume_cons]
    omega
  have hgone := levelJs_volume_le name hleft
  rw [hside, List.map_append, List.map_cons] at hnodup hfind ⊢
  unfold PersistentLOB.cancelListing
  simp only [hfind, horder, herase, hvolume, hgone]
  unfold GameMaster.Book.keepLevel
  split
  · rw [List.append_nil, List.map_append]
    exact erase_middle hnodup
  · rw [List.append_assoc, List.singleton_append, List.map_append, List.map_cons]
    exact modify_middle hnodup

/-! ## Matching -/

theorem toInt_min (x y : Int64) : (min x y).toInt = min y.toInt x.toInt := by
  rw [GameMaster.Book.min_ite]
  split
  · rename_i hle
    exact (min_eq_right (Int64.le_iff_toInt_le.mp hle)).symm
  · rename_i hlt
    rw [Int64.le_iff_toInt_le, not_le] at hlt
    exact (min_eq_left (le_of_lt hlt)).symm

theorem takeOrders_done (side : Side) (who : ρ) (price volume : Int) (orders : List (Order ρ)) :
    PersistentLOB.takeOrders side who price 0 volume orders = ([], 0, ⟨volume, orders⟩) := by
  cases orders with
  | nil => rfl
  | cons order orders => rw [PersistentLOB.takeOrders, if_neg (lt_irrefl 0)]

theorem takeListing_done (side : Side) (who : ρ) (l : Levels ρ) :
    PersistentLOB.takeListing side who 0 l = ([], l) := by
  cases l with
  | nil => rfl
  | cons x l => rw [PersistentLOB.takeListing, if_neg (lt_irrefl 0)]

/-- One queue. Both books take the same from it and leave the same behind. -/
theorem takeOrders_queue (name : ParticipantID → ρ) (isBuy : Bool) (taker : ParticipantID)
    (p : Int64) :
    ∀ (q : List RestingOrder) (r : Int64), (∀ o ∈ q, 0 < o.volume) → 0 ≤ r →
      PersistentLOB.takeOrders (sideOf isBuy) (name taker) (wholeTicks p) r.toInt
          (levelJs name q).volume (levelJs name q).orders =
        ((GameMaster.Book.matchQueue isBuy taker p r q).1.map (fillJs name),
          (GameMaster.Book.matchQueue isBuy taker p r q).2.1.toInt,
          levelJs name (GameMaster.Book.matchQueue isBuy taker p r q).2.2) ∧
      0 ≤ (GameMaster.Book.matchQueue isBuy taker p r q).2.1 ∧
      ((GameMaster.Book.matchQueue isBuy taker p r q).2.2 ≠ [] →
        (GameMaster.Book.matchQueue isBuy taker p r q).2.1 = 0) := by
  intro q
  induction q with
  | nil => exact fun r _ hr => ⟨rfl, hr, fun h => absurd rfl h⟩
  | cons o q ih =>
      intro r hpos hr
      obtain ⟨ho, hq⟩ := List.forall_mem_cons.mp hpos
      rw [GameMaster.Book.matchQueue]
      by_cases hrem : 0 < r
      · obtain ⟨hmin, hler, hleo⟩ := GameMaster.min_between hrem ho
        have hleft := GameMaster.toInt_sub_between hmin hler
        have hrest := GameMaster.toInt_sub_between hmin hleo
        have hfill : min (orderJs name o).volume r.toInt = (min r o.volume).toInt :=
          (toInt_min r o.volume).symm
        have hvolume : (levelJs name (o :: q)).volume = o.volume.toInt + (levelJs name q).volume :=
          GameMaster.Book.exactVolume_cons o q
        have horders : (levelJs name (o :: q)).orders =
          orderJs name o :: (levelJs name q).orders := rfl
        have hkept : (orderJs name o).volume - (min r o.volume).toInt =
          (o.volume - min r o.volume).toInt := hrest.symm
        rw [horders, PersistentLOB.takeOrders, if_pos (GameMaster.toInt_pos.mp hrem)]
        simp only [if_pos hrem, hfill, ← hleft, hkept]
        by_cases hfull : o.volume - min r o.volume = 0
        · -- the maker leaves, and matching goes on in its queue
          rw [hfull, Int64.toInt_zero] at hrest
          have hbehind : (levelJs name (o :: q)).volume - (min r o.volume).toInt =
            (levelJs name q).volume := by omega
          have hnonneg : 0 ≤ r - min r o.volume := by
            rw [Int64.le_iff_toInt_le, hleft, Int64.toInt_zero]
            omega
          obtain ⟨hjs, hr', hzero⟩ := ih (r - min r o.volume) hq hnonneg
          simp only [hbehind, hjs, hfull, Int64.toInt_zero, le_refl, if_true]
          exact ⟨rfl, hr', hzero⟩
        · -- the taker is used up
          have hzero := GameMaster.Book.remaining_of_survivor hfull
          have hsurvives : ¬ (o.volume - min r o.volume).toInt ≤ 0 := by
            intro hle
            have heq : (o.volume - min r o.volume).toInt = (0 : Int64).toInt := by
              rw [Int64.toInt_zero]
              omega
            exact hfull (Int64.toInt_inj.mp heq)
          simp only [if_neg hfull, hzero, Int64.toInt_zero, takeOrders_done, if_neg hsurvives]
          refine ⟨?_, Int64.le_refl 0, fun _ => trivial⟩
          refine congrArg (fun v => ([fillJs name (GameMaster.Book.fillOf isBuy taker p
            (min r o.volume) o)], 0,
              (⟨v, orderJs name { o with volume := o.volume - min r o.volume } ::
                (levelJs name q).orders⟩ : Level ρ))) ?_
          rw [GameMaster.Book.exactVolume_cons]
          change _ = (o.volume - min r o.volume).toInt + (levelJs name q).volume
          omega
      · have hzero : r = 0 := by
          refine Int64.toInt_inj.mp ?_
          rw [GameMaster.toInt_pos] at hrem
          rw [Int64.le_iff_toInt_le, Int64.toInt_zero] at hr
          rw [Int64.toInt_zero]
          omega
        simp only [if_neg hrem]
        rw [hzero]
        exact ⟨takeOrders_done _ _ _ _ _, Int64.le_refl 0, fun _ => rfl⟩

/-- One side. A market order is the same on the levels and on their entries. -/
theorem takeListing_levels (name : ParticipantID → ρ) (isBuy : Bool) (taker : ParticipantID) :
    ∀ (ls : List BookLevel) (r : Int64), (∀ lv ∈ ls, ∀ o ∈ lv.queue, 0 < o.volume) → 0 ≤ r →
      PersistentLOB.takeListing (sideOf isBuy) (name taker) r.toInt (ls.map (entry name)) =
        ((GameMaster.Book.matchLevels isBuy taker r ls).1.map (fillJs name),
          (GameMaster.Book.matchLevels isBuy taker r ls).2.map (entry name)) := by
  intro ls
  induction ls with
  | nil => exact fun _ _ _ => rfl
  | cons lv ls ih =>
      intro r hpos hr
      obtain ⟨hqueue, hls⟩ := List.forall_mem_cons.mp hpos
      have hentry : (lv :: ls).map (entry name) =
        (wholeTicks lv.priceFp, levelJs name lv.queue) :: ls.map (entry name) := rfl
      rw [hentry, PersistentLOB.takeListing, GameMaster.Book.matchLevels]
      by_cases hrem : 0 < r
      · obtain ⟨hjs, hr', hzero⟩ :=
          takeOrders_queue name isBuy taker lv.priceFp lv.queue r hqueue hr
        have hleft : ∀ o ∈ (GameMaster.Book.matchQueue isBuy taker lv.priceFp r lv.queue).2.2,
            0 < o.volume :=
          (GameMaster.Book.matchQueue_reduced isBuy taker lv.priceFp lv.queue r).positive hqueue
        simp only [if_pos (GameMaster.toInt_pos.mp hrem), if_pos hrem, hjs,
          levelJs_volume_le name hleft]
        generalize GameMaster.Book.matchQueue isBuy taker lv.priceFp r lv.queue = res at hr' hzero
        obtain ⟨fills, left, q⟩ := res
        simp only at hr' hzero ⊢
        by_cases hnil : q = []
        · simp only [if_pos hnil, ih left hls hr', List.map_append]
        · simp only [if_neg hnil, hzero hnil, Int64.toInt_zero, takeListing_done, List.append_nil]
          rfl
      · simp only [if_neg hrem, if_neg (mt GameMaster.toInt_pos.mpr hrem)]
        rfl

theorem matchLevels_nonempty (isBuy : Bool) (taker : ParticipantID) :
    ∀ (ls : List BookLevel) (r : Int64), (∀ lv ∈ ls, lv.queue ≠ []) →
      ∀ lv ∈ (GameMaster.Book.matchLevels isBuy taker r ls).2, lv.queue ≠ [] := by
  intro ls
  induction ls with
  | nil => exact fun _ _ lv hlv => absurd hlv List.not_mem_nil
  | cons lv ls ih =>
      intro r h
      obtain ⟨hlv, hls⟩ := List.forall_mem_cons.mp h
      rw [GameMaster.Book.matchLevels]
      split
      · split
        rename_i fills left q _
        by_cases hnil : q = []
        · simp only [if_pos hnil]
          exact ih left hls
        · simp only [if_neg hnil]
          exact List.forall_mem_cons.mpr ⟨hnil, hls⟩
      · exact h

theorem reduced_ids {q q' : List RestingOrder} (h : GameMaster.Book.Reduced q' q) :
    ∀ o ∈ q', ∃ o' ∈ q, o'.orderId = o.orderId := by
  intro o ho
  rcases h with hsuf | ⟨o₁, r, v, hsuf, rfl, -, -⟩
  · exact ⟨o, hsuf.subset ho, rfl⟩
  · rcases List.mem_cons.mp ho with rfl | ho
    · exact ⟨o₁, hsuf.subset List.mem_cons_self, rfl⟩
    · exact ⟨o, hsuf.subset (List.mem_cons_of_mem _ ho), rfl⟩

/-! ## One call -/

theorem Same.listed_of (h : Same name B desk) {B' : GameMaster.Book} {lob' : PersistentLOB ρ}
    (b : Bool) (hside : lob'.Listed (sideOf b) ((B'.side b).map (entry name)))
    (hflat : B'.side (!b) = B.side (!b))
    (hjs : lob'.book (sideOf b).other = desk.lob.book (sideOf b).other) :
    ∀ s, lob'.Listed (sideOf s) ((B'.side s).map (entry name)) := by
  intro s
  by_cases hs : s = b
  · rw [hs]
    exact hside
  · obtain rfl : s = !b := Bool.eq_not_of_ne hs
    unfold PersistentLOB.Listed
    rw [hflat, sideOf_not, hjs, ← sideOf_not]
    exact h.listed (!b)

theorem Same.addLimit (h : Same name B desk) {b : Bool} {p v : Int64} {who : ParticipantID}
    (hp : tickFp ∣ p.toInt) (hv : 0 < v)
    (hflat : ∃ lob, Refines lob (B.apply (.addLimit b p v who)).2)
    (hids : B.nextOrderId.toNat ≤ 2 ^ 53) :
    (desk.step name base (.addLimit b p v who)).1 =
        replyJs name (B.apply (.addLimit b p v who)).1 ∧
      Same name (B.apply (.addLimit b p v who)).2
        (desk.step name base (.addLimit b p v who)).2 := by
  have hnext : desk.lob.nextOrderId = B.nextOrderId.toNat := by
    rw [h.next, Nat.min_eq_left hids]
  have hlevels : ∀ s, ∀ lv ∈ (B.apply (.addLimit b p v who)).2.side s,
      LevelOk (desk.step name base (.addLimit b p v who)).2.issued s lv := by
    refine h.levels_addLimit hp hv (List.subset_cons_self _ _) ?_
    rw [← hnext]
    exact List.mem_cons_self
  refine ⟨congrArg Answer.orderId hnext, hflat, hlevels, ?_, ?_⟩
  · obtain ⟨lob, href⟩ := hflat
    refine h.listed_of b ?_ (by cases b <;> rfl) ?_
    · exact h.listed_addLimit (href.prices_sorted b) (fun lv hlv => (hlevels b lv hlv).ticks) hnext
    · exact PersistentLOB.addOrder_book_other desk.lob (sideOf b).other_ne _ _ _
  · have hincr : (desk.step name base (.addLimit b p v who)).2.lob.nextOrderId =
        PersistentLOB.incr desk.lob.nextOrderId := by cases b <;> rfl
    have hflatNext : (B.apply (.addLimit b p v who)).2.nextOrderId.toNat =
        B.nextOrderId.toNat + 1 := by
      refine GameMaster.Rep.toNat_next fun heq => ?_
      rw [heq] at hids
      exact absurd hids (by decide)
    rw [hincr, hnext, hflatNext, PersistentLOB.incr]
    split <;> omega

/-- A cancel of a resting order by a caller who knows where it rests. -/
theorem Same.cancel_resting (h : Same name B desk) {id : UInt64} {b : Bool} {p : Int64}
    (hinformed : desk.Informed (.cancel id b p))
    (hflat : ∃ lob, Refines lob (B.apply (.cancel id)).2)
    (hex : ∃ o ∈ B.orders, o.orderId = id) :
    (desk.step name base (.cancel id b p)).1 = replyJs name (B.apply (.cancel id)).1 ∧
      Same name (B.apply (.cancel id)).2 (desk.step name base (.cancel id b p)).2 := by
  obtain ⟨lob, href⟩ := h.flat
  obtain ⟨b', pre, p', q, o, q', post, hside, rfl, hcancel⟩ :=
    GameMaster.Book.cancel_split href.orderIds_nodup hex
  have hmem : ⟨p', q ++ o :: q'⟩ ∈ B.side b' := by rw [hside]; simp
  have ho : o ∈ q ++ o :: q' := List.mem_append_right _ List.mem_cons_self
  -- the caller knows where the order rests
  obtain ⟨rfl, rfl⟩ := Prod.mk.inj (hinformed _ ((h.levels b' _ hmem).known o ho) rfl)
  obtain ⟨hlisted, hother, hnext, hfound⟩ := PersistentLOB.cancelOrder_listed base (h.listed b')
    (wholeTicks p') o.orderId.toNat
  have hanswer : (PersistentLOB.cancelOrder base desk.lob (sideOf b') (wholeTicks p')
      o.orderId.toNat).1 = true := by
    refine hfound.mpr
      ⟨levelJs name (q ++ o :: q'), ?_, orderJs name o, List.mem_map_of_mem ho, rfl⟩
    rw [← (h.listed b').same]
    rw [List.append_assoc, List.singleton_append] at hside
    exact h.find_of_mem hside
  rw [h.listed_cancel hside] at hlisted
  have hnaive : B.apply (.cancel o.orderId) = (.cancelled true,
      B.setSide b' (pre ++ GameMaster.Book.keepLevel p' (q ++ q') ++ post)) := by
    simp only [GameMaster.Book.apply, hcancel]
  rw [hnaive] at hflat ⊢
  have hnextB : ∀ ls, (B.setSide b' ls).nextOrderId = B.nextOrderId := by
    intro ls
    cases b' <;> rfl
  refine ⟨congrArg Answer.cancelled hanswer, hflat, ?_, ?_, ?_⟩
  · intro s lv hlv
    by_cases hs : s = b'
    · subst hs
      rw [GameMaster.Book.side_setSide, List.mem_append, List.mem_append] at hlv
      have hold : lv ∈ pre ∨ lv ∈ post → LevelOk desk.issued s lv := by
        intro hmem
        refine h.levels s lv ?_
        rw [hside, List.mem_append, List.mem_append]
        exact hmem.imp_left Or.inl
      rcases hlv with (hlv | hlv) | hlv
      · exact hold (Or.inl hlv)
      · have hkept := GameMaster.Book.keepLevel_queue hlv
        unfold GameMaster.Book.keepLevel at hlv
        split at hlv
        · exact absurd hlv List.not_mem_nil
        · obtain rfl := List.mem_singleton.mp hlv
          have hsub : q ++ q' ⊆ q ++ o :: q' :=
            (List.Sublist.append_left (List.sublist_cons_self o q') q).subset
          have hlevel := h.levels s _ hmem
          exact hlevel.of_orders rfl hkept (fun x hx => hlevel.positive x (hsub hx))
            fun x hx => ⟨x, hsub hx, rfl⟩
      · exact hold (Or.inr hlv)
    · obtain rfl : s = !b' := Bool.eq_not_of_ne hs
      rw [GameMaster.Book.side_setSide_not] at hlv
      exact h.levels _ lv hlv
  · refine h.listed_of b' ?_ (GameMaster.Book.side_setSide_not _ _ _) hother
    rw [GameMaster.Book.side_setSide]
    exact hlisted
  · exact hnext.trans (h.next.trans (by rw [hnextB]))

theorem Same.cancel_absent (h : Same name B desk) {id : UInt64} (b : Bool) (p : Int64)
    (habsent : ∀ o ∈ B.orders, o.orderId ≠ id) :
    (desk.step name base (.cancel id b p)).1 = replyJs name (B.apply (.cancel id)).1 ∧
      Same name (B.apply (.cancel id)).2 (desk.step name base (.cancel id b p)).2 := by
  have hnaive : B.apply (.cancel id) = (.cancelled false, B) := by
    simp only [GameMaster.Book.apply, GameMaster.Book.cancel_absent habsent]
  have hjs : PersistentLOB.cancelOrder base desk.lob (sideOf b) (wholeTicks p) id.toNat =
      (false, desk.lob) := by
    refine PersistentLOB.cancelOrder_absent base (h.listed b) ?_
    intro level hlevel order horder heq
    obtain ⟨lv, hlv, hentry⟩ := List.mem_map.mp hlevel
    rw [← (Prod.mk.inj hentry).2] at horder
    obtain ⟨o, ho, rfl⟩ := List.mem_map.mp horder
    exact habsent o (GameMaster.Book.mem_orders_iff.mpr ⟨b, lv, hlv, ho⟩)
      (UInt64.toNat_inj.mp heq)
  have hdesk : desk.step name base (.cancel id b p) = (.cancelled false, desk) := by
    simp only [Desk.step, Call.toJs, PersistentLOB.apply, hjs]
    rfl
  rw [hdesk, hnaive]
  exact ⟨rfl, h⟩

theorem Same.cancel (h : Same name B desk) {id : UInt64} {b : Bool} {p : Int64}
    (hinformed : desk.Informed (.cancel id b p))
    (hflat : ∃ lob, Refines lob (B.apply (.cancel id)).2) :
    (desk.step name base (.cancel id b p)).1 = replyJs name (B.apply (.cancel id)).1 ∧
      Same name (B.apply (.cancel id)).2 (desk.step name base (.cancel id b p)).2 := by
  by_cases hex : ∃ o ∈ B.orders, o.orderId = id
  · exact h.cancel_resting hinformed hflat hex
  · exact h.cancel_absent b p fun o ho heq => hex ⟨o, ho, heq⟩

theorem Same.marketOrder (h : Same name B desk) {isBuy : Bool} {v : Int64}
    {taker : ParticipantID} (hv : 0 < v)
    (hflat : ∃ lob, Refines lob (B.apply (.marketOrder isBuy v taker)).2) :
    (desk.step name base (.marketOrder isBuy v taker)).1 =
        replyJs name (B.apply (.marketOrder isBuy v taker)).1 ∧
      Same name (B.apply (.marketOrder isBuy v taker)).2
        (desk.step name base (.marketOrder isBuy v taker)).2 := by
  have hother : (sideOf isBuy).other = sideOf (!isBuy) := (sideOf_not isBuy).symm
  have hpos : ∀ lv ∈ B.side (!isBuy), ∀ o ∈ lv.queue, 0 < o.volume :=
    fun lv hlv => (h.levels _ lv hlv).positive
  have hjs := takeListing_levels name isBuy taker (B.side !isBuy) v hpos (Int64.le_of_lt hv)
  have hlist : desk.lob.Listed (sideOf isBuy).other ((B.side !isBuy).map (entry name)) := by
    rw [hother]
    exact h.listed (!isBuy)
  obtain ⟨hfills, hlisted, hbook, hnext⟩ :=
    PersistentLOB.marketOrder_listed base hlist v.toInt (name taker)
  rw [hjs] at hfills hlisted
  have hside : (B.marketOrder isBuy v taker).2.side (!isBuy) =
      (GameMaster.Book.matchLevels isBuy taker v (B.side !isBuy)).2 := by cases isBuy <;> rfl
  refine ⟨congrArg Answer.fills hfills, hflat, ?_, ?_, ?_⟩
  · intro s lv' hlv'
    rcases GameMaster.Book.mem_side_marketOrder hlv' with hold | ⟨rfl, lv, hlv, hprice, hred⟩
    · exact h.levels s lv' hold
    · have hlevel := h.levels _ lv hlv
      rw [GameMaster.Book.apply, hside] at hlv'
      exact hlevel.of_orders hprice
        (matchLevels_nonempty isBuy taker _ v (fun lv hlv => (h.levels _ lv hlv).nonempty) lv' hlv')
        (hred.positive hlevel.positive) (reduced_ids hred)
  · refine h.listed_of (!isBuy) ?_ (by cases isBuy <;> rfl) ?_
    · rw [GameMaster.Book.apply, hside, ← hother]
      exact hlisted
    · rw [← hother, Side.other_other]
      exact hbook
  · refine hnext.trans (h.next.trans ?_)
    cases isBuy <;> rfl

theorem Same.step (h : Same name B desk) (base : Int) {call : Call} (hproper : call.Proper)
    (hcap : B.Uncapped call.toFlat) (hinformed : desk.Informed call)
    (hmark : call.toFlat ≠ .cancel GameMaster.emptyKey)
    (hids : call.toFlat.isAdd = true → B.nextOrderId.toNat ≤ 2 ^ 53) :
    (desk.step name base call).1 = replyJs name (B.apply call.toFlat).1 ∧
      Same name (B.apply call.toFlat).2 (desk.step name base call).2 := by
  have hflat : ∃ lob, Refines lob (B.apply call.toFlat).2 := by
    obtain ⟨lob, href⟩ := h.flat
    have hop : call.toFlat.Proper B := by
      cases call with
      | addLimit b p v who =>
          intro heq
          have hle := hids rfl
          rw [heq] at hle
          exact absurd hle (by decide)
      | cancel id b p => exact fun heq => hmark (congrArg BookOp.cancel heq)
      | marketOrder isBuy v taker => trivial
    obtain ⟨lob', -, href'⟩ := href.apply hop
    rw [GameMaster.Book.applyBounded_eq_apply hcap] at href'
    exact ⟨lob', href'⟩
  cases call with
  | addLimit b p v who => exact h.addLimit hproper.1 hproper.2 hflat (hids rfl)
  | cancel id b p => exact h.cancel hinformed hflat
  | marketOrder isBuy v taker => exact h.marketOrder hproper hflat

theorem Same.run (base : Int) : ∀ {calls : List Call} {B : GameMaster.Book} {desk : Desk ρ},
    Same name B desk → (∀ call ∈ calls, call.Proper) →
    Admitted GameMaster.Book.apply GameMaster.Book.Uncapped B (calls.map Call.toFlat) →
    Along (fun desk call => (desk.step name base call).2) Desk.Informed desk calls →
    (∀ call ∈ calls, call.toFlat ≠ .cancel GameMaster.emptyKey) →
    B.nextOrderId.toNat + BookOp.adds (calls.map Call.toFlat) ≤ 2 ^ 53 + 1 →
    (traceFrom (Desk.step name base) desk calls).1 =
        (traceFrom GameMaster.Book.apply B (calls.map Call.toFlat)).1.map (replyJs name) ∧
      Same name (traceFrom GameMaster.Book.apply B (calls.map Call.toFlat)).2
        (traceFrom (Desk.step name base) desk calls).2 := by
  intro calls
  induction calls with
  | nil => exact fun h _ _ _ _ _ => ⟨rfl, h⟩
  | cons call calls ih =>
      intro B desk h hproper hcap hinformed hmark hids
      obtain ⟨hproper₁, hproper⟩ := List.forall_mem_cons.mp hproper
      obtain ⟨hmark₁, hmark⟩ := List.forall_mem_cons.mp hmark
      rw [List.map_cons, BookOp.adds_cons, ← Nat.add_assoc] at hids
      have hadd : call.toFlat.isAdd = true → B.nextOrderId.toNat ≤ 2 ^ 53 := by
        intro hadd
        rw [BookOp.adds, List.countP_singleton, if_pos hadd] at hids
        omega
      obtain ⟨hanswer, h₁⟩ := h.step base hproper₁ hcap.1 hinformed.1 hmark₁ hadd
      have hnext := B.applyBounded_counter call.toFlat
        (n := 2 ^ 64 - 1 - (B.nextOrderId.toNat + BookOp.adds [call.toFlat])) (by omega)
      rw [GameMaster.Book.applyBounded_eq_apply hcap.1] at hnext
      obtain ⟨hanswers, h'⟩ := ih h₁ hproper hcap.2 hinformed.2 hmark (by omega)
      refine ⟨?_, h'⟩
      simp only [List.map_cons, traceFrom, hanswer, hanswers]

end Step

/-! ## The refinement theorem -/

/-- Both books answer the calls alike and hold the same orders in the end: per side the same
prices, best first, and per price the same queue. -/
def SameRun (base : Int) (calls : List Call) : Prop :=
  ∃ rs lob, GameMaster.PersistentLOB.run (calls.map Call.toFlat) = .ok (rs, lob) ∧
    (traceFrom (PersistentLOB.apply base) (PersistentLOB.new base)
      (calls.map (Call.toJs name))).1 = rs.map (replyJs name) ∧
    ∀ b, (traceFrom (PersistentLOB.apply base) (PersistentLOB.new base)
      (calls.map (Call.toJs name))).2.Listed (sideOf b) ((lob.view.side b).map (entry name))

/-- The browser book and the pool-allocated book are the same matching engine, as long as
the browser's ids are exact: for any calls of positive volume at prices in whole ticks that
hit no capacity limit, in which every cancel of an issued id is given its side and price,
nobody cancels the empty marker and at most `2^53` orders are added. -/
theorem engines_agree (base : Int) {calls : List Call} (hproper : ∀ call ∈ calls, call.Proper)
    (hcap : Admitted GameMaster.Book.apply GameMaster.Book.Uncapped GameMaster.Book.empty
      (calls.map Call.toFlat))
    (hinformed : Along (fun desk call => (Desk.step name base desk call).2) Desk.Informed
      (Desk.init base) calls)
    (hmark : ∀ call ∈ calls, call.toFlat ≠ .cancel GameMaster.emptyKey)
    (hids : BookOp.adds (calls.map Call.toFlat) ≤ 2 ^ 53) : SameRun name base calls := by
  obtain ⟨hanswers, hsame⟩ := (same_init name base).run base hproper hcap hinformed hmark (by
    rw [show GameMaster.Book.empty.nextOrderId.toNat = 1 from rfl]
    omega)
  obtain ⟨lob, hrun, href⟩ := GameMaster.run_defined (calls.map Call.toFlat) (by omega) (by
    intro op hop
    obtain ⟨call, hcall, rfl⟩ := List.mem_map.mp hop
    exact hmark call hcall)
  have hnaive : GameMaster.Book.runBounded (calls.map Call.toFlat) =
    traceFrom GameMaster.Book.apply GameMaster.Book.empty (calls.map Call.toFlat) :=
      GameMaster.Book.run_unbounded hcap
  have hdesk := traceFrom_desk name base calls (Desk.init base)
  rw [hnaive] at hrun href
  refine ⟨_, lob, hrun, ?_, ?_⟩
  · exact (congrArg Prod.fst hdesk).trans hanswers
  · intro b
    rw [href.view_eq]
    exact (congrArg Prod.snd hdesk) ▸ hsame.listed b

/-- Two orders at one price, a sweep into the second, and a cancel of what is left. -/
theorem engines_agree_sweep :
    let calls := [Call.addLimit false 100000000 5 GameMaster.contestant,
      .addLimit false 100000000 5 GameMaster.botMM, .marketOrder true 7 GameMaster.botSNIPER,
      .cancel 2 false 100000000, .cancel 7 true 100000000]
    (∀ call ∈ calls, call.Proper) ∧ SameRun (fun who => who) 10000 calls := by
  intro calls
  have hproper : ∀ call ∈ calls, call.Proper := by decide +kernel
  refine ⟨hproper, engines_agree _ 10000 hproper ?_ ?_ (by decide) (by decide)⟩
  · exact ⟨by decide +kernel, by decide +kernel, trivial, trivial, trivial, trivial⟩
  · decide +kernel

/-! ## When the browser's ids run out

The ids of the pool are 64 bits wide, the browser counts in a double. -/

/-- An order that rests and is taken at once. -/
def restAndTake : List Call :=
  [.addLimit false 10000 1 GameMaster.botMM, .marketOrder true 1 GameMaster.botSNIPER]

theorem toFlat_cycles (n : Nat) : ((List.replicate n restAndTake).flatten).map Call.toFlat =
    (List.replicate n (GameMaster.restAndTakeAt 10000)).flatten := by
  rw [List.map_flatten, List.map_replicate]
  rfl

theorem adds_cycles (n : Nat) :
    BookOp.adds (List.replicate n (GameMaster.restAndTakeAt 10000)).flatten = n := by
  induction n with
  | zero => rfl
  | succ n ih =>
      rw [List.replicate_succ, List.flatten_cons, BookOp.adds_append, ih]
      exact Nat.add_comm 1 n

theorem informed_of_no_cancel (base : Int) : ∀ {calls : List Call} {desk : Desk ρ},
    (∀ call ∈ calls, ∀ id b p, call ≠ .cancel id b p) →
    Along (fun desk call => (Desk.step name base desk call).2) Desk.Informed desk calls
  | [], _, _ => trivial
  | call :: calls, desk, h => by
      obtain ⟨hcall, hcalls⟩ := List.forall_mem_cons.mp h
      refine ⟨?_, informed_of_no_cancel base hcalls⟩
      cases call with
      | addLimit b p v who => trivial
      | cancel id b p => exact absurd rfl (hcall id b p)
      | marketOrder isBuy v taker => trivial

/-- `n` orders that are taken at once, and one more. -/
def oneMore (n : Nat) : List Call :=
  (List.replicate n restAndTake).flatten ++ [.addLimit false 10000 1 GameMaster.botMM]

theorem mem_oneMore {n : Nat} {call : Call} (h : call ∈ oneMore n) : call ∈ restAndTake := by
  rcases List.mem_append.mp h with h | h
  · exact GameMaster.mem_cycles h
  · rw [List.mem_singleton.mp h]
    exact List.mem_cons_self

theorem oneMore_properties (base : Int) (n : Nat) : (∀ call ∈ oneMore n, call.Proper) ∧
    (∀ call ∈ oneMore n, call.toFlat ≠ .cancel GameMaster.emptyKey) ∧
    Admitted GameMaster.Book.apply GameMaster.Book.Uncapped GameMaster.Book.empty
      ((oneMore n).map Call.toFlat) ∧
    Along (fun desk call => (Desk.step name base desk call).2) Desk.Informed (Desk.init base)
      (oneMore n) := by
  have hproper : ∀ call ∈ restAndTake, call.Proper := by decide +kernel
  have hmark : ∀ call ∈ restAndTake, call.toFlat ≠ .cancel GameMaster.emptyKey := by decide
  refine ⟨fun call h => hproper call (mem_oneMore h), fun call h => hmark call (mem_oneMore h),
    ?_, ?_⟩
  · obtain ⟨hcap, last, fills, hend⟩ := GameMaster.cycles_restAndTake GameMaster.noBids_room 10000 n 1 0 0
    rw [oneMore, List.map_append, toFlat_cycles]
    refine hcap.append ?_
    rw [hend]
    exact ⟨GameMaster.uncapped_noAsks GameMaster.noBids_room 10000 _ last fills, trivial⟩
  · refine informed_of_no_cancel name base fun call h id b p => ?_
    rcases List.mem_cons.mp (mem_oneMore h) with rfl | h
    · exact nofun
    · rw [List.mem_singleton.mp h]
      exact nofun

theorem oneMore_ids (base : Int) {n : Nat} (hn : n ≤ 2 ^ 53) :
    (GameMaster.Book.run ((oneMore n).map Call.toFlat)).1.getLast? =
        some (.orderId (1 + UInt64.ofNat n)) ∧
      (traceFrom (PersistentLOB.apply base) (PersistentLOB.new base)
        ((oneMore n).map (Call.toJs name))).1.getLast? =
        some (.orderId (min (1 + UInt64.ofNat n).toNat (2 ^ 53))) := by
  obtain ⟨hproper, hmark, hcap, hinformed⟩ := oneMore_properties name base n
  obtain ⟨-, last, fills, hend⟩ := GameMaster.cycles_restAndTake GameMaster.noBids_room 10000 n 1 0 0
  have hsame := ((same_init name base).run base
    (fun call (h : call ∈ (List.replicate n restAndTake).flatten) =>
      hproper call (List.mem_append_left _ h))
    (by rw [oneMore, List.map_append] at hcap; exact hcap.of_append)
    (by rw [oneMore, along_append] at hinformed; exact hinformed.1)
    (fun call h => hmark call (List.mem_append_left _ h))
    (by
      rw [toFlat_cycles, adds_cycles, show GameMaster.Book.empty.nextOrderId.toNat = 1 from rfl]
      omega)).2
  have hnext := hsame.next
  rw [toFlat_cycles, show GameMaster.Book.empty = ⟨[], [], 1, 0, 0⟩ from rfl, hend] at hnext
  constructor
  · rw [GameMaster.Book.run, oneMore, List.map_append, toFlat_cycles, traceFrom_append,
      show GameMaster.Book.empty = ⟨[], [], 1, 0, 0⟩ from rfl, hend]
    exact List.getLast?_concat
  · rw [show PersistentLOB.new base = (Desk.init base : Desk ρ).lob from rfl,
      traceFrom_desk, oneMore, traceFrom_append]
    refine List.getLast?_concat.trans ?_
    exact congrArg (fun id => some (Answer.orderId id)) hnext

/-- The bound on the ids is needed: after `2^53` orders, each taken at once, the browser
gives the next one an id that is already spent. -/
theorem browser_repeats_id : ¬ ∀ calls : List Call, (∀ call ∈ calls, call.Proper) →
    Admitted GameMaster.Book.apply GameMaster.Book.Uncapped GameMaster.Book.empty
      (calls.map Call.toFlat) →
    Along (fun desk call => (Desk.step (fun who => who) 150000 desk call).2) Desk.Informed
      (Desk.init 150000) calls →
    (∀ call ∈ calls, call.toFlat ≠ .cancel GameMaster.emptyKey) →
    SameRun (fun who => who) 150000 calls := by
  intro hall
  obtain ⟨n, hn⟩ : ∃ n : Nat, n = 2 ^ 53 := ⟨_, rfl⟩
  obtain ⟨hproper, hmark, hcap, hinformed⟩ := oneMore_properties (fun who => who) 150000 n
  obtain ⟨hflat, hjs⟩ := oneMore_ids (fun who => who) 150000 (le_of_eq hn)
  obtain ⟨rs, lob, hrun, hanswers, -⟩ := hall _ hproper hcap hinformed hmark
  have hids : BookOp.adds ((oneMore n).map Call.toFlat) < 2 ^ 64 - 1 := by
    rw [oneMore, List.map_append, toFlat_cycles, BookOp.adds_append, adds_cycles, hn]
    decide
  obtain ⟨rfl, -⟩ := GameMaster.run_bounded hids hrun
  rw [GameMaster.Book.runBounded, GameMaster.Book.run_unbounded hcap] at hanswers
  rw [GameMaster.Book.run] at hflat
  rw [hanswers, List.getLast?_map, hflat, hn] at hjs
  exact absurd hjs (by decide)

end VidhiArena.Browser
