import VidhiArena.GameMaster.ShadowLOB
import VidhiArena.GameMaster.Volumes

/-!
# What one replayed call does to the shadow

Two facts about every call: which entries it logs, and what it does to the
replayed book. Logging never touches the book (`SameBook`), so the checks of
`on_fill` all read the book as it was before the call.
-/

namespace VidhiArena.GameMaster

open VidhiArena.Foundation

namespace ShadowLOB

variable {S S' S'' : ShadowLOB}

/-! ## The replayed book -/

/-- Equal but for the log, the penalties and the account. -/
structure SameBook (S S' : ShadowLOB) : Prop where
  bestBid : S'.bestBid = S.bestBid
  bestAsk : S'.bestAsk = S.bestAsk
  bidLevels : S'.bidLevels = S.bidLevels
  askLevels : S'.askLevels = S.askLevels
  orders : S'.orders = S.orders
  globalSeq : S'.globalSeq = S.globalSeq

theorem SameBook.refl (S : ShadowLOB) : SameBook S S := ⟨rfl, rfl, rfl, rfl, rfl, rfl⟩

theorem SameBook.trans (h : SameBook S S') (h' : SameBook S' S'') : SameBook S S'' :=
  ⟨h'.bestBid.trans h.bestBid, h'.bestAsk.trans h.bestAsk, h'.bidLevels.trans h.bidLevels,
    h'.askLevels.trans h.askLevels, h'.orders.trans h.orders, h'.globalSeq.trans h.globalSeq⟩

theorem SameBook.side (h : SameBook S S') (b : Bool) : S'.side b = S.side b := by
  cases b
  · exact h.askLevels
  · exact h.bidLevels

theorem SameBook.setSide (h : SameBook S S') (b : Bool) (m : List (Int64 × ShadowLevel)) :
    SameBook (S.setSide b m) (S'.setSide b m) := by
  cases b
  · exact ⟨h.bestBid, h.bestAsk, h.bidLevels, rfl, h.orders, h.globalSeq⟩
  · exact ⟨h.bestBid, h.bestAsk, rfl, h.askLevels, h.orders, h.globalSeq⟩

theorem sameBook_report (S : ShadowLOB) (v : Violation) : SameBook S (S.report v) := by
  unfold report addViolation
  split <;> exact ⟨rfl, rfl, rfl, rfl, rfl, rfl⟩

theorem sameBook_checkPrice (S : ShadowLOB) (f : MatchedFill) (m : UInt64) (t : Int64) :
    SameBook S (S.checkPrice f m t) := by
  unfold checkPrice
  split
  · exact sameBook_report _ _
  · exact SameBook.refl S

theorem sameBook_checkVolume (S : ShadowLOB) (so : ShadowOrder) (f : MatchedFill) (m : UInt64)
    (t : Int64) : SameBook S (S.checkVolume so f m t) := by
  unfold checkVolume
  split
  · exact sameBook_report _ _
  · split
    · exact sameBook_report _ _
    · exact SameBook.refl S

theorem sameBook_checkPriority (S : ShadowLOB) (so : ShadowOrder) (m : UInt64) (t : Int64) :
    SameBook S (S.checkPriority so m t) := by
  unfold checkPriority
  split
  · exact SameBook.refl S
  · exact sameBook_report _ _

theorem sameBook_trackContestant (S : ShadowLOB) (f : MatchedFill) :
    SameBook S (S.trackContestant f) := by
  unfold trackContestant
  split
  · exact ⟨rfl, rfl, rfl, rfl, rfl, rfl⟩
  · exact SameBook.refl S

theorem SameBook.removeFromLevel (h : SameBook S S') (id : UInt64) (so : ShadowOrder) :
    SameBook (S.removeFromLevel id so) (S'.removeFromLevel id so) := by
  unfold ShadowLOB.removeFromLevel
  rw [h.side]
  split
  · exact h
  · simp only
    split <;> exact h.setSide _ _

theorem SameBook.closeOrder (h : SameBook S S') (id : UInt64) (so : ShadowOrder) :
    SameBook (S.closeOrder id so) (S'.closeOrder id so) := by
  have hr := h.removeFromLevel id so
  unfold ShadowLOB.closeOrder updateBest
  refine ⟨?_, ?_, hr.bidLevels, hr.askLevels, ?_, hr.globalSeq⟩
  · simp only [hr.bidLevels]
  · simp only [hr.askLevels]
  · simp only [hr.orders]

theorem SameBook.applyFill (h : SameBook S S') (so : ShadowOrder) (f : MatchedFill)
    (m : UInt64) : SameBook (S.applyFill so f m) (S'.applyFill so f m) := by
  simp only [ShadowLOB.applyFill]
  split
  · exact h.closeOrder m _
  · exact ⟨h.bestBid, h.bestAsk, h.bidLevels, h.askLevels, by simp only [h.orders], h.globalSeq⟩

variable {f : MatchedFill} {m : UInt64} {so : ShadowOrder}

theorem sameBook_onFill (t : Int64) (hso : S.orders m = some so) :
    SameBook (S.applyFill so f m) (S.onFill f m t) := by
  have hprice := sameBook_checkPrice S f m t
  have horders : (S.checkPrice f m t).orders m = some so := by rw [hprice.orders, hso]
  refine SameBook.trans ?_ (sameBook_trackContestant _ f)
  simp only [matchMaker, horders]
  refine SameBook.applyFill ?_ so f m
  refine SameBook.trans ?_ (sameBook_checkPriority _ so m t)
  refine SameBook.trans ?_ (sameBook_checkVolume _ so f m t)
  exact ⟨hprice.bestBid, hprice.bestAsk, hprice.bidLevels, hprice.askLevels, hprice.orders,
    hprice.globalSeq⟩

theorem sameBook_onFill_none (t : Int64) (hso : S.orders m = none) :
    SameBook S (S.onFill f m t) := by
  have hprice := sameBook_checkPrice S f m t
  have horders : (S.checkPrice f m t).orders m = none := by rw [hprice.orders, hso]
  refine SameBook.trans ?_ (sameBook_trackContestant _ f)
  simp only [matchMaker, horders]
  refine SameBook.trans ?_ (sameBook_report _ _)
  exact ⟨hprice.bestBid, hprice.bestAsk, hprice.bidLevels, hprice.askLevels, hprice.orders,
    hprice.globalSeq⟩

/-! ## The book after an add -/

section Add

variable (S : ShadowLOB) (b : Bool) (p v : Int64) (id : UInt64) (t : Int64)

/-- The level map with the order at the back of its level. -/
def joined (m : List (Int64 × ShadowLevel)) : List (Int64 × ShadowLevel) :=
  OrderedMap.modify (OrderedMap.access (LOBSide.before b) m p ⟨[], 0⟩) p fun level =>
    ⟨level.orderIds ++ [id], level.totalVolume + v⟩

theorem onLimitAdd_eq : S.onLimitAdd b p v id t =
    { S.setSide b (joined b p v id (S.side b)) with
      globalSeq := S.globalSeq + 1
      orders := Function.update S.orders id
        (some ⟨id, S.globalSeq + 1, p, v, v, b, false, false, t⟩)
      bestBid := if b ∧ S.bestBid < p then p else S.bestBid
      bestAsk := if ¬ b ∧ p < S.bestAsk then p else S.bestAsk } := by
  cases b
  · simp only [onLimitAdd, setSide, side, Bool.false_eq_true, false_and, if_false, not_false_eq_true,
      true_and]
    split <;> rfl
  · simp only [onLimitAdd, setSide, side, if_true, not_true_eq_false, false_and, if_false, true_and]
    split <;> rfl

theorem onLimitAdd_orders : (S.onLimitAdd b p v id t).orders =
    Function.update S.orders id (some ⟨id, S.globalSeq + 1, p, v, v, b, false, false, t⟩) := by
  rw [onLimitAdd_eq]

theorem onLimitAdd_globalSeq : (S.onLimitAdd b p v id t).globalSeq = S.globalSeq + 1 := by
  rw [onLimitAdd_eq]

theorem onLimitAdd_side (b' : Bool) : (S.onLimitAdd b p v id t).side b' =
    if b' = b then joined b p v id (S.side b) else S.side b' := by
  rw [onLimitAdd_eq]
  cases b <;> cases b' <;> rfl

theorem onLimitAdd_violations : (S.onLimitAdd b p v id t).violations = S.violations := by
  rw [onLimitAdd_eq]
  cases b <;> rfl

theorem find_joined (m : List (Int64 × ShadowLevel)) (p' : Int64) :
    OrderedMap.find (joined b p v id m) p' =
      if p = p' then
        some ⟨((OrderedMap.find m p).getD ⟨[], 0⟩).orderIds ++ [id],
          ((OrderedMap.find m p).getD ⟨[], 0⟩).totalVolume + v⟩
      else OrderedMap.find m p' := by
  rw [joined, OrderedMap.find_modify, OrderedMap.find_access]
  split <;> rfl

end Add

/-! ## The book after an order has left -/

section Close

variable (S : ShadowLOB) (id : UInt64) (so : ShadowOrder)

theorem removeFromLevel_orders : (S.removeFromLevel id so).orders = S.orders := by
  unfold removeFromLevel setSide
  split
  · rfl
  · simp only
    split <;> split <;> rfl

theorem removeFromLevel_globalSeq : (S.removeFromLevel id so).globalSeq = S.globalSeq := by
  unfold removeFromLevel setSide
  split
  · rfl
  · simp only
    split <;> split <;> rfl

@[simp] theorem side_setSide (b : Bool) (m : List (Int64 × ShadowLevel)) :
    (S.setSide b m).side b = m := by cases b <;> rfl

theorem side_setSide_of_ne {b b' : Bool} (h : b' ≠ b) (m : List (Int64 × ShadowLevel)) :
    (S.setSide b m).side b' = S.side b' := by
  cases b <;> cases b' <;> simp_all [setSide, side]

theorem closeOrder_orders :
    (S.closeOrder id so).orders = Function.update S.orders id none := by
  simp only [closeOrder, updateBest, removeFromLevel_orders]

theorem closeOrder_globalSeq : (S.closeOrder id so).globalSeq = S.globalSeq :=
  removeFromLevel_globalSeq S id so

theorem closeOrder_side (b : Bool) :
    (S.closeOrder id so).side b = (S.removeFromLevel id so).side b := by
  cases b <;> rfl

/-- What is left of a level: nothing, if its queue or its volume is gone. -/
def leftOf (level : ShadowLevel) : Option ShadowLevel :=
  if (level.without id so.remainingVolume).totalVolume ≤ 0 ∨
      (level.without id so.remainingVolume).orderIds = [] then none
  else some (level.without id so.remainingVolume)

/-- The level after an order has left it, in a map that holds its price once. -/
theorem side_removeFromLevel {level : ShadowLevel} {m₁ m₂ : List (Int64 × ShadowLevel)}
    (hside : S.side so.isBid = m₁ ++ (so.priceFp, level) :: m₂)
    (hkeys : (OrderedMap.keys (S.side so.isBid)).Nodup) :
    (S.removeFromLevel id so).side so.isBid =
      m₁ ++ ((leftOf id so level).toList.map fun l => (so.priceFp, l)) ++ m₂ := by
  have hfind : OrderedMap.find (S.side so.isBid) so.priceFp = some level := by
    refine OrderedMap.find_of_mem hkeys ?_
    rw [hside]
    simp
  rw [hside] at hkeys
  simp only [removeFromLevel, hfind, leftOf]
  split
  · rw [side_setSide, hside, OrderedMap.erase_middle hkeys]
    simp
  · rw [side_setSide, hside, OrderedMap.modify_middle hkeys]
    simp

theorem side_removeFromLevel_of_ne {b : Bool} (h : b ≠ so.isBid) :
    (S.removeFromLevel id so).side b = S.side b := by
  unfold removeFromLevel
  split
  · rfl
  · simp only
    split <;> rw [side_setSide_of_ne _ h]

theorem find_removeFromLevel (p : Int64) :
    OrderedMap.find ((S.removeFromLevel id so).side so.isBid) p =
      if so.priceFp = p then
        (OrderedMap.find (S.side so.isBid) p).bind (leftOf id so)
      else OrderedMap.find (S.side so.isBid) p := by
  unfold removeFromLevel
  cases hfind : OrderedMap.find (S.side so.isBid) so.priceFp with
  | none =>
      by_cases hp : so.priceFp = p
      · subst hp
        simp only [if_true, hfind, Option.bind_none]
      · simp only [if_neg hp]
  | some level =>
      by_cases hgone : (level.without id so.remainingVolume).totalVolume ≤ 0 ∨
          (level.without id so.remainingVolume).orderIds = []
      · simp only [if_pos hgone, side_setSide, OrderedMap.find_erase]
        by_cases hp : so.priceFp = p
        · subst hp
          simp only [if_true, hfind, Option.bind_some, leftOf, if_pos hgone]
        · simp only [if_neg hp]
      · simp only [if_neg hgone, side_setSide, OrderedMap.find_modify]
        by_cases hp : so.priceFp = p
        · subst hp
          simp only [if_true, hfind, Option.bind_some, leftOf, if_neg hgone, Option.map_some]
        · simp only [if_neg hp]

theorem find_closeOrder (b : Bool) (p : Int64) :
    OrderedMap.find ((S.closeOrder id so).side b) p =
      if so.isBid = b ∧ so.priceFp = p then
        (OrderedMap.find (S.side b) p).bind (leftOf id so)
      else OrderedMap.find (S.side b) p := by
  rw [closeOrder_side]
  by_cases hb : b = so.isBid
  · subst hb
    simp only [find_removeFromLevel, true_and]
  · rw [side_removeFromLevel_of_ne S id so hb, if_neg fun h => hb h.1.symm]

end Close

/-! ## What a level holds -/

end ShadowLOB

/-- The deque carries the ids of `q` in order, and the total bounds its volume.
Fills never lower the total, so it is not exact. -/
def ShadowLevel.Holds (level : ShadowLevel) (q : List (UInt64 × Int)) : Prop :=
  level.orderIds = q.map Prod.fst ∧ (q.map Prod.snd).sum ≤ level.totalVolume.toInt

namespace ShadowLevel

variable {level : ShadowLevel} {q q' : List (UInt64 × Int)} {x : UInt64 × Int}

theorem sum_nonneg : ∀ {q : List (UInt64 × Int)}, (∀ y ∈ q, 0 < y.2) → 0 ≤ (q.map Prod.snd).sum
  | [], _ => le_rfl
  | y :: q, h => by
      have ih := sum_nonneg fun z hz => h z (List.mem_cons_of_mem _ hz)
      have hy := h y List.mem_cons_self
      rw [List.map_cons, List.sum_cons]
      omega

theorem sum_pos (h : ∀ y ∈ q, 0 < y.2) (hne : q ≠ []) : 0 < (q.map Prod.snd).sum := by
  cases q with
  | nil => exact absurd rfl hne
  | cons y q =>
      have hrest := sum_nonneg fun z hz => h z (List.mem_cons_of_mem _ hz)
      have hy := h y List.mem_cons_self
      rw [List.map_cons, List.sum_cons]
      omega

theorem Holds.push (h : level.Holds q) {id : UInt64} {v : Int64}
    (hfit : Fits (level.totalVolume.toInt + v.toInt)) :
    Holds ⟨level.orderIds ++ [id], level.totalVolume + v⟩ (q ++ [(id, v.toInt)]) := by
  obtain ⟨hids, hvol⟩ := h
  refine ⟨by simp [hids], ?_⟩
  simp only [toInt_add_of_fits hfit, List.map_append, List.map_singleton, List.sum_append,
    List.sum_singleton]
  omega

theorem holds_nil : Holds ⟨[], 0⟩ [] := ⟨rfl, by simp⟩

theorem Holds.fits_sub (h : level.Holds (q ++ x :: q')) (hpos : ∀ y ∈ q ++ x :: q', 0 < y.2)
    {r : Int64} (hr : 0 ≤ r.toInt) (hle : r.toInt ≤ x.2) :
    Fits (level.totalVolume.toInt - r.toInt) := by
  have hrest : 0 ≤ ((q ++ q').map Prod.snd).sum :=
    sum_nonneg fun y hy => hpos y (by
      rcases List.mem_append.mp hy with hy | hy
      · exact List.mem_append_left _ hy
      · exact List.mem_append_right _ (List.mem_cons_of_mem _ hy))
  have hvol := h.2
  have hbound := fits_toInt level.totalVolume
  unfold Fits at hbound
  simp only [List.map_append, List.map_cons, List.sum_append, List.sum_cons] at hvol hrest
  exact ⟨by omega, by omega⟩

/-- An order leaves a level, with at most its volume taken off the total: the
level goes exactly when the queue is empty. -/
theorem Holds.leftOf (so : ShadowOrder) (h : level.Holds (q ++ x :: q'))
    (hpos : ∀ y ∈ q ++ q', 0 < y.2) (hne : ∀ y ∈ q, y.1 ≠ x.1)
    (hle : so.remainingVolume.toInt ≤ x.2)
    (hfit : Fits (level.totalVolume.toInt - so.remainingVolume.toInt)) :
    (q ++ q' = [] ∧ ShadowLOB.leftOf x.1 so level = none) ∨
      (q ++ q' ≠ [] ∧ ∃ level', ShadowLOB.leftOf x.1 so level = some level' ∧
        level'.Holds (q ++ q')) := by
  obtain ⟨hids, hvol⟩ := h
  have herase : level.orderIds.erase x.1 = (q ++ q').map Prod.fst := by
    rw [hids, List.map_append, List.map_cons, List.erase_append_right, List.erase_cons_head,
      List.map_append]
    rintro hmem
    obtain ⟨y, hy, heq⟩ := List.mem_map.mp hmem
    exact hne y hy heq
  have hmem : x.1 ∈ level.orderIds := by
    rw [hids]
    simp
  have hwithout : level.without x.1 so.remainingVolume =
      ⟨(q ++ q').map Prod.fst, level.totalVolume - so.remainingVolume⟩ := by
    rw [ShadowLevel.without, if_pos hmem, herase]
  have htotal := toInt_sub_of_fits hfit
  rw [ShadowLOB.leftOf, hwithout]
  by_cases hnil : q ++ q' = []
  · exact Or.inl ⟨hnil, if_pos (Or.inr (by rw [hnil]; rfl))⟩
  · have hrest := sum_pos hpos hnil
    simp only [List.map_append, List.map_cons, List.sum_append, List.sum_cons] at hvol hrest
    refine Or.inr ⟨hnil, _, if_neg ?_, rfl, ?_⟩
    · rintro (hzero | hempty)
      · rw [Int64.le_iff_toInt_le, Int64.toInt_zero, htotal] at hzero
        omega
      · exact hnil (List.map_eq_nil_iff.mp hempty)
    · simp only [htotal, List.map_append, List.sum_append]
      omega

end ShadowLevel

namespace ShadowLOB

variable {S S' S'' : ShadowLOB} {f : MatchedFill} {m : UInt64} {so : ShadowOrder}

/-! ## The log -/

theorem report_violations {v : Violation} (h : S.violations.length < maxViolations) :
    (S.report v).violations = S.violations ++ [v] := by
  simp [report, addViolation, h]

@[simp] theorem setSide_violations (S : ShadowLOB) (b : Bool)
    (m : List (Int64 × ShadowLevel)) : (S.setSide b m).violations = S.violations := by
  cases b <;> rfl

theorem removeFromLevel_violations (S : ShadowLOB) (id : UInt64) (so : ShadowOrder) :
    (S.removeFromLevel id so).violations = S.violations := by
  unfold removeFromLevel
  split
  · rfl
  · simp only
    split <;> rw [setSide_violations]

theorem closeOrder_violations (S : ShadowLOB) (id : UInt64) (so : ShadowOrder) :
    (S.closeOrder id so).violations = S.violations := removeFromLevel_violations S id so

theorem applyFill_violations (S : ShadowLOB) (so : ShadowOrder) (f : MatchedFill)
    (m : UInt64) : (S.applyFill so f m).violations = S.violations := by
  simp only [applyFill]
  split
  · rw [closeOrder_violations]
  · rfl

theorem trackContestant_violations (S : ShadowLOB) (f : MatchedFill) :
    (S.trackContestant f).violations = S.violations := by
  unfold trackContestant
  split <;> rfl

def priceLog (S : ShadowLOB) (f : MatchedFill) (m : UInt64) (t : Int64) : List Violation :=
  if S.priceInvalid f then
    [⟨.fillPriceInvalid, t, m,
      if f.takerIsBuy then .buyAboveAsk f.priceFp S.bestAsk
      else .sellBelowBid f.priceFp S.bestBid⟩]
  else []

/-- What section 2 logs for a known order. -/
def volumeLog (so : ShadowOrder) (f : MatchedFill) (m : UInt64) (t : Int64) : List Violation :=
  if so.isCancelled then [⟨.doubleFill, t, m, .cancelledFill⟩]
  else if so.remainingVolume < f.volume then
    [⟨.doubleFill, t, m, .overfill f.volume so.remainingVolume⟩]
  else []

def fifoLog (S : ShadowLOB) (so : ShadowOrder) (m : UInt64) (t : Int64) : List Violation :=
  match S.olderFront so m with
  | none => []
  | some front => [⟨.fifoPriorityBreach, t, m, .skippedOlder m front so.priceFp⟩]

def makerLog (S : ShadowLOB) (f : MatchedFill) (m : UInt64) (t : Int64) : List Violation :=
  match S.orders m with
  | some so => volumeLog so f m t ++ S.fifoLog so m t
  | none => [⟨.doubleFill, t, m, .unknownFill⟩]

/-- Everything that a call of `on_fill` has to log. -/
def fillLog (S : ShadowLOB) (f : MatchedFill) (m : UInt64) (t : Int64) : List Violation :=
  S.priceLog f m t ++ S.makerLog f m t

theorem checkPrice_violations {t : Int64}
    (h : S.violations.length + (S.priceLog f m t).length ≤ maxViolations) :
    (S.checkPrice f m t).violations = S.violations ++ S.priceLog f m t := by
  unfold checkPrice priceLog at *
  split
  · rename_i hbad
    rw [if_pos hbad, List.length_singleton] at h
    exact report_violations h
  · simp

theorem checkVolume_violations {t : Int64}
    (h : S.violations.length + (volumeLog so f m t).length ≤ maxViolations) :
    (S.checkVolume so f m t).violations = S.violations ++ volumeLog so f m t := by
  unfold checkVolume volumeLog at *
  split
  · rename_i hcancelled
    rw [if_pos hcancelled, List.length_singleton] at h
    exact report_violations h
  · rename_i hcancelled
    rw [if_neg hcancelled] at h
    split
    · rename_i hover
      rw [if_pos hover, List.length_singleton] at h
      exact report_violations h
    · simp

theorem checkPriority_violations {t : Int64}
    (h : S.violations.length + (S.fifoLog so m t).length ≤ maxViolations) :
    (S.checkPriority so m t).violations = S.violations ++ S.fifoLog so m t := by
  unfold checkPriority fifoLog at *
  cases hold : S.olderFront so m with
  | none => simp
  | some front =>
      rw [hold, List.length_singleton] at h
      exact report_violations h

theorem SameBook.fifoLog (h : SameBook S S') (so : ShadowOrder) (m : UInt64) (t : Int64) :
    S'.fifoLog so m t = S.fifoLog so m t := by
  unfold ShadowLOB.fifoLog olderFront frontId
  rw [h.side, h.orders]

/-- What a call of `on_fill` logs, when the log has room for all of it: every
check reads the book before the call. -/
theorem onFill_violations {t : Int64}
    (hroom : S.violations.length + (S.fillLog f m t).length ≤ maxViolations) :
    (S.onFill f m t).violations = S.violations ++ S.fillLog f m t := by
  rw [fillLog, List.length_append] at hroom
  have hprice := sameBook_checkPrice S f m t
  have hlog : (S.checkPrice f m t).violations = S.violations ++ S.priceLog f m t :=
    checkPrice_violations (by omega)
  -- the book of section 2, which only differs from `S` in what was logged
  set S₁ : ShadowLOB := { S.checkPrice f m t with lastTradeFp := f.priceFp } with hS₁
  have hbook : SameBook S S₁ := ⟨hprice.bestBid, hprice.bestAsk, hprice.bidLevels,
    hprice.askLevels, hprice.orders, hprice.globalSeq⟩
  have hv₁ : S₁.violations = S.violations ++ S.priceLog f m t := hlog
  rw [onFill, trackContestant_violations, matchMaker, fillLog]
  show (match S₁.orders m with
    | some so => ((S₁.checkVolume so f m t).checkPriority so m t).applyFill so f m
    | none => S₁.report ⟨.doubleFill, t, m, .unknownFill⟩).violations = _
  unfold makerLog at hroom ⊢
  rw [hbook.orders]
  cases hso : S.orders m with
  | none =>
      simp only [hso, List.length_singleton] at hroom ⊢
      rw [report_violations (by rw [hv₁, List.length_append]; omega), hv₁, List.append_assoc]
  | some so =>
      simp only [hso, List.length_append] at hroom ⊢
      have hv₂ : (S₁.checkVolume so f m t).violations =
          S.violations ++ S.priceLog f m t ++ volumeLog so f m t := by
        rw [checkVolume_violations (by rw [hv₁, List.length_append]; omega), hv₁]
      have hbook₂ := hbook.trans (sameBook_checkVolume S₁ so f m t)
      rw [applyFill_violations, checkPriority_violations, hv₂, hbook₂.fifoLog]
      · simp only [List.append_assoc]
      · rw [hv₂, hbook₂.fifoLog, List.length_append, List.length_append]
        omega

theorem onCancel_violations_grow (S : ShadowLOB) (id : UInt64) (ok : Bool) (t : Int64) :
    S.violations <+: (S.onCancel id ok t).violations := by
  have hreport : ∀ v, S.violations <+: (S.report v).violations := by
    intro v
    unfold report addViolation
    split
    · exact List.prefix_append _ _
    · exact List.prefix_rfl
  unfold onCancel
  cases S.orders id with
  | none =>
      simp only
      split
      · exact hreport _
      · exact List.prefix_rfl
  | some so =>
      simp only
      split
      · exact hreport _
      · rw [closeOrder_violations]

end ShadowLOB

end VidhiArena.GameMaster
