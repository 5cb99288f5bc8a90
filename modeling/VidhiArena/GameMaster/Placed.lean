import VidhiArena.GameMaster.CancelSafety

/-!
# What each call does to the resting orders

The book as the collection of its resting orders with side and price
(`Book.placed`): an add puts one in, a cancel takes one out, a fill takes one
out or replaces it by what is left of it. Every statement is about one split of
one side; the rest of the book is `Book.besides`.
-/

namespace VidhiArena.GameMaster

open VidhiArena.Foundation

/-- A resting order with its side and price. -/
abbrev Placement := Bool × Int64 × RestingOrder

namespace Book

variable {B B' : Book} {b : Bool}

theorem mem_placed {p : Int64} {o : RestingOrder} :
    (b, p, o) ∈ B.placed ↔ ∃ lv ∈ B.side b, lv.priceFp = p ∧ o ∈ lv.queue := by
  rw [placed, List.mem_append, placedSide, placedSide, List.mem_flatMap, List.mem_flatMap]
  simp only [List.mem_map, Prod.mk.injEq]
  constructor
  · rintro (⟨lv, hlv, o', ho', rfl, rfl, rfl⟩ | ⟨lv, hlv, o', ho', rfl, rfl, rfl⟩)
    · exact ⟨lv, hlv, rfl, ho'⟩
    · exact ⟨lv, hlv, rfl, ho'⟩
  · rintro ⟨lv, hlv, rfl, ho⟩
    cases b
    · exact Or.inr ⟨lv, hlv, o, ho, rfl, rfl, rfl⟩
    · exact Or.inl ⟨lv, hlv, o, ho, rfl, rfl, rfl⟩

theorem mem_orders_iff {o : RestingOrder} :
    o ∈ B.orders ↔ ∃ b, ∃ lv ∈ B.side b, o ∈ lv.queue := by
  rw [orders, List.mem_append, priority, priority, List.mem_flatMap, List.mem_flatMap]
  constructor
  · rintro (h | h)
    · exact ⟨true, h⟩
    · exact ⟨false, h⟩
  · rintro ⟨b, h⟩
    cases b
    · exact Or.inr h
    · exact Or.inl h

theorem placedSide_append (b : Bool) (ls ls' : List BookLevel) :
    placedSide b (ls ++ ls') = placedSide b ls ++ placedSide b ls' := List.flatMap_append

theorem placedSide_cons (b : Bool) (lv : BookLevel) (ls : List BookLevel) :
    placedSide b (lv :: ls) = (lv.queue.map fun o => (b, lv.priceFp, o)) ++ placedSide b ls := rfl

theorem placedSide_keepLevel (b : Bool) (p : Int64) (q : List RestingOrder) :
    placedSide b (keepLevel p q) = q.map fun o => (b, p, o) := by
  unfold keepLevel
  split
  · rename_i h
    rw [h]
    rfl
  · simp [placedSide]

theorem keepLevel_prices (p : Int64) (q : List RestingOrder) :
    ((keepLevel p q).map BookLevel.priceFp).Sublist [p] := by
  unfold keepLevel
  split
  · exact List.nil_sublist _
  · exact List.Sublist.refl _

theorem keepLevel_queue {p : Int64} {q : List RestingOrder} {lv : BookLevel}
    (h : lv ∈ keepLevel p q) : lv.queue ≠ [] := by
  unfold keepLevel at h
  split at h
  · cases h
  · rename_i hne
    rw [List.mem_singleton.mp h]
    exact hne

/-- The orders outside a stretch of side `b`. -/
def besides (B : Book) (b : Bool) (pre post : List BookLevel) :
    List Placement :=
  placedSide b (pre ++ post) ++ placedSide (!b) (B.side !b)

theorem placed_perm_sides (B : Book) (b : Bool) :
    B.placed.Perm (placedSide b (B.side b) ++ placedSide (!b) (B.side !b)) := by
  cases b
  · exact List.perm_append_comm
  · exact List.Perm.refl _

theorem placed_perm {pre mid post : List BookLevel} (hside : B.side b = pre ++ mid ++ post) :
    B.placed.Perm (placedSide b mid ++ B.besides b pre post) := by
  refine (B.placed_perm_sides b).trans ?_
  rw [hside, besides, ← List.append_assoc]
  refine List.Perm.append_right _ ?_
  simp only [placedSide_append, ← List.append_assoc]
  exact List.Perm.append_right _ List.perm_append_comm

theorem besides_congr (hother : B'.side (!b) = B.side (!b)) (pre post : List BookLevel) :
    B'.besides b pre post = B.besides b pre post := by
  rw [besides, besides, hother]

/-! ## Adding -/

theorem insertLevel_split (b : Bool) (lv : BookLevel) : ∀ ls : List BookLevel,
    ∃ pre post, ls = pre ++ post ∧ insertLevel b lv ls = pre ++ lv :: post
  | [] => ⟨[], [], rfl, rfl⟩
  | x :: xs => by
      rw [insertLevel]
      split
      · exact ⟨[], x :: xs, rfl, rfl⟩
      · obtain ⟨pre, post, rfl, h⟩ := insertLevel_split b lv xs
        exact ⟨x :: pre, post, rfl, by rw [h]; rfl⟩

/-- The level that an order joins: the one of its price, or a new one. -/
theorem addLimit_split (p v : Int64) (who : ParticipantID)
    (hprices : ((B.side b).map BookLevel.priceFp).Nodup) :
    ∃ pre q post, B.side b = pre ++ (if hasLevel (B.side b) p then [⟨p, q⟩] else []) ++ post ∧
      (hasLevel (B.side b) p = false → q = []) ∧
      (B.addLimit b p v who).2.side b = pre ++ [⟨p, q ++ [⟨B.nextOrderId, v, who⟩]⟩] ++ post := by
  have hside : (B.addLimit b p v who).2.side b =
      enqueue p ⟨B.nextOrderId, v, who⟩ (openLevel b p (B.side b)) := by
    cases b <;> rfl
  rw [hside, openLevel]
  cases hhas : hasLevel (B.side b) p
  · have habs : ∀ lv ∈ B.side b, lv.priceFp ≠ p := by
      rw [hasLevel, List.any_eq_false] at hhas
      exact fun lv hlv => by simpa using hhas lv hlv
    obtain ⟨pre, post, hsplit, hins⟩ := insertLevel_split b ⟨p, []⟩ (B.side b)
    refine ⟨pre, [], post, by simpa using hsplit, fun _ => rfl, ?_⟩
    rw [if_neg (by simp), hins, Rep.enqueue_eq ⟨p, []⟩ rfl (hsplit ▸ habs)]
    simp
  · rw [hasLevel, List.any_eq_true] at hhas
    obtain ⟨lv, hlv, hp⟩ := hhas
    obtain ⟨pre, post, hsplit⟩ := List.append_of_mem hlv
    have hp : lv.priceFp = p := of_decide_eq_true hp
    have hrest : ∀ x ∈ pre ++ post, x.priceFp ≠ p := by
      rw [hsplit, List.map_append, List.map_cons, List.nodup_middle, List.nodup_cons,
        ← List.map_append] at hprices
      exact fun x hx heq => hprices.1 (by rw [hp, ← heq]; exact List.mem_map_of_mem hx)
    refine ⟨pre, lv.queue, post, ?_, (fun h => by cases h), ?_⟩
    · rw [if_pos rfl, hsplit, ← hp]
      simp
    · rw [if_pos rfl, hsplit, Rep.enqueue_eq lv hp hrest, ← hp]
      simp

theorem enqueue_prices (p : Int64) (o : RestingOrder) (ls : List BookLevel) :
    (enqueue p o ls).map BookLevel.priceFp = ls.map BookLevel.priceFp := by
  rw [enqueue, List.map_map]
  refine List.map_congr_left fun lv _ => ?_
  simp only [Function.comp_apply]
  split <;> rfl

theorem bestPrice_congr {ls ls' : List BookLevel}
    (h : ls.map BookLevel.priceFp = ls'.map BookLevel.priceFp) (b : Bool) :
    bestPrice b ls = bestPrice b ls' := by
  cases ls with
  | nil => rw [List.map_eq_nil_iff.mp h.symm]
  | cons lv ls =>
      obtain ⟨lv', ls', rfl, hp, -⟩ := List.map_eq_cons_iff.mp h.symm
      exact hp.symm

theorem bestPrice_addLimit {p : Int64} {o : RestingOrder} {ls : List BookLevel}
    (hsorted : LOBSide.Sorted b (ls.map BookLevel.priceFp)) (hlo : 0 < p)
    (hhi : p < Int64.maxValue) :
    bestPrice b (enqueue p o (openLevel b p ls)) =
      if LOBSide.before b p (bestPrice b ls) then p else bestPrice b ls := by
  rw [bestPrice_congr (enqueue_prices p o _), openLevel]
  cases ls with
  | nil =>
      have hbefore : LOBSide.before b p (bestPrice b []) = true := by
        cases b
        · exact decide_eq_true hhi
        · exact decide_eq_true hlo
      rw [if_pos hbefore]
      rfl
  | cons lv ls =>
      show _ = if LOBSide.before b p lv.priceFp then p else lv.priceFp
      cases hhas : hasLevel (lv :: ls) p
      · rw [if_neg (by simp), insertLevel]
        split <;> rfl
      · rw [if_pos rfl]
        have hnot : LOBSide.before b p lv.priceFp = false := by
          rw [hasLevel, List.any_eq_true] at hhas
          obtain ⟨lv', hlv', hp⟩ := hhas
          have hp : lv'.priceFp = p := of_decide_eq_true hp
          rcases List.mem_cons.mp hlv' with rfl | hlv'
          · rw [hp]
            exact LOBSide.before_irrefl
          · refine LOBSide.before_asymm ?_
            rw [← hp]
            exact (List.pairwise_cons.mp hsorted).1 _ (List.mem_map_of_mem hlv')
        rw [hnot]
        rfl

theorem placed_addLimit {p v : Int64} {who : ParticipantID}
    (hprices : ((B.side b).map BookLevel.priceFp).Nodup) :
    (B.addLimit b p v who).2.placed.Perm ((b, p, ⟨B.nextOrderId, v, who⟩) :: B.placed) := by
  obtain ⟨pre, q, post, hside, hempty, hside'⟩ := addLimit_split p v who hprices
  have hother : (B.addLimit b p v who).2.side (!b) = B.side (!b) := by cases b <;> rfl
  have hold := placed_perm hside
  have hnew := placed_perm hside'
  rw [besides_congr hother] at hnew
  have hmid : placedSide b (if hasLevel (B.side b) p then [⟨p, q⟩] else []) =
      q.map fun o => (b, p, o) := by
    cases hhas : hasLevel (B.side b) p
    · rw [hempty hhas]
      rfl
    · simp [placedSide]
  rw [hmid] at hold
  refine hnew.trans (List.Perm.trans ?_ (hold.symm.cons _))
  simp only [placedSide, List.flatMap_cons, List.flatMap_nil, List.append_nil, List.map_append,
    List.map_cons, List.map_nil, List.append_assoc, List.cons_append, List.nil_append]
  exact List.perm_middle

theorem placed_openLevel (b : Bool) (p : Int64) :
    (B.setSide b (openLevel b p (B.side b))).placed.Perm B.placed := by
  have hopen : placedSide b (openLevel b p (B.side b)) = placedSide b (B.side b) := by
    unfold openLevel
    split
    · rfl
    · obtain ⟨pre, post, hsplit, hins⟩ := insertLevel_split b ⟨p, []⟩ (B.side b)
      rw [hins, hsplit, placedSide_append, placedSide_cons, placedSide_append]
      rfl
  refine (placed_perm_sides _ b).trans ?_
  rw [side_setSide, side_setSide_not, hopen]
  exact (B.placed_perm_sides b).symm

theorem placed_addLimitBounded (p v : Int64) (who : ParticipantID)
    (hprices : ((B.side b).map BookLevel.priceFp).Nodup) :
    (B.addLimitBounded b p v who).2.placed.Perm B.placed ∨
      (B.addLimitBounded b p v who).2.placed.Perm
        ((b, p, ⟨B.nextOrderId, v, who⟩) :: B.placed) := by
  unfold addLimitBounded
  split
  · exact Or.inl (List.Perm.refl _)
  · split
    · exact Or.inl (placed_openLevel b p)
    · exact Or.inr (placed_addLimit hprices)

/-! ## Cancelling -/

theorem cancel_split {id : UInt64} (hids : (B.orders.map RestingOrder.orderId).Nodup)
    (hex : ∃ o ∈ B.orders, o.orderId = id) :
    ∃ b pre p q o q' post, B.side b = pre ++ [⟨p, q ++ o :: q'⟩] ++ post ∧ o.orderId = id ∧
      B.cancel id = (true, B.setSide b (pre ++ keepLevel p (q ++ q') ++ post)) := by
  obtain ⟨o, ho, rfl⟩ := hex
  obtain ⟨b, lv, hlv, hq⟩ := mem_orders_iff.mp ho
  obtain ⟨pre, post, hsplit⟩ := List.append_of_mem hlv
  obtain ⟨q, q', hqueue⟩ := List.append_of_mem hq
  have hside : B.side b = pre ++ [⟨lv.priceFp, q ++ o :: q'⟩] ++ post := by
    rw [hsplit, ← hqueue]
    simp
  -- every other order has another id
  have hperm := placed_perm hside
  have hnd : ((placedSide b [⟨lv.priceFp, q ++ o :: q'⟩] ++ B.besides b pre post).map
      fun x => x.2.2.orderId).Nodup := by
    refine (hperm.map _).nodup_iff.mp ?_
    rw [← placed_orders, List.map_map] at hids
    exact hids
  have hne : ∀ x ∈ (q ++ q').map (fun o => (b, lv.priceFp, o)) ++ B.besides b pre post,
      x.2.2.orderId ≠ o.orderId := by
    have hcons : (placedSide b [⟨lv.priceFp, q ++ o :: q'⟩] ++ B.besides b pre post).Perm
        ((b, lv.priceFp, o) ::
          ((q ++ q').map (fun o => (b, lv.priceFp, o)) ++ B.besides b pre post)) := by
      simp only [placedSide, List.flatMap_cons, List.flatMap_nil, List.append_nil,
        List.map_append, List.map_cons, List.append_assoc, List.cons_append]
      exact List.perm_middle
    have := (List.nodup_cons.mp ((hcons.map fun x => x.2.2.orderId).nodup_iff.mp hnd)).1
    exact fun x hx heq => this (List.mem_map.mpr ⟨x, hx, heq⟩)
  have hfilter : (lv.queue.filter fun x => x.orderId ≠ o.orderId) = q ++ q' := by
    rw [hqueue, List.filter_append, List.filter_cons_of_neg (by simp), ← List.filter_append,
      List.filter_eq_self]
    intro x hx
    have := hne (b, lv.priceFp, x) (List.mem_append_left _ (List.mem_map_of_mem hx))
    simpa using this
  refine ⟨b, pre, lv.priceFp, q, o, q', post, hside, rfl, ?_⟩
  have hrest : ∀ x ∈ priority pre ++ priority post ++ priority (B.side !b),
      x.orderId ≠ o.orderId := by
    intro x hx
    have hx' : x ∈ (B.besides b pre post).map fun y => y.2.2 := by
      rw [besides, List.map_append, placedSide_orders, placedSide_orders, priority,
        List.flatMap_append]
      exact hx
    obtain ⟨y, hy, rfl⟩ := List.mem_map.mp hx'
    exact hne y (List.mem_append_right _ hy)
  rw [cancel_eq hsplit ⟨o, hq, rfl⟩ hrest]
  have hwithout : (withoutOrder o.orderId lv).toList = keepLevel lv.priceFp (q ++ q') := by
    have hany : (lv.queue.any fun x => x.orderId = o.orderId) = true :=
      List.any_eq_true.mpr ⟨o, hq, by simp⟩
    rw [withoutOrder, if_pos hany, hfilter, keepLevel]
    cases hnil : q ++ q' with
    | nil => rfl
    | cons x xs => simp
  rw [hwithout]

/-! ## Filling -/

/-- A fill takes the head of the best level out or leaves a part of it there. -/
theorem placed_fillHead {isBuy : Bool} {p : Int64} (fillVol : Int64) {o : RestingOrder}
    {q : List RestingOrder} {ls : List BookLevel} (hside : B.side (!isBuy) = ⟨p, o :: q⟩ :: ls) :
    ∃ rest, B.placed.Perm ((!isBuy, p, o) :: rest) ∧
      (B.fillHead isBuy p o q ls fillVol).placed.Perm
        (if o.volume - fillVol = 0 then rest
          else (!isBuy, p, { o with volume := o.volume - fillVol }) :: rest) := by
  have hold : B.placed.Perm
      (placedSide (!isBuy) [⟨p, o :: q⟩] ++ B.besides (!isBuy) [] ls) :=
    placed_perm (by rw [hside]; rfl)
  have hnew : (B.fillHead isBuy p o q ls fillVol).placed.Perm
      (placedSide (!isBuy) (keepLevel p (afterFill o q fillVol)) ++
        (B.fillHead isBuy p o q ls fillVol).besides (!isBuy) [] ls) :=
    placed_perm (by rw [fillHead_side]; rfl)
  have hother : (B.fillHead isBuy p o q ls fillVol).side (!!isBuy) = B.side (!!isBuy) := by
    cases isBuy <;> rfl
  rw [besides_congr hother, placedSide_keepLevel] at hnew
  refine ⟨(q.map fun o => (!isBuy, p, o)) ++ B.besides (!isBuy) [] ls, ?_, ?_⟩
  · simpa [placedSide] using hold
  · unfold afterFill at hnew
    split
    · rename_i hfull
      rwa [if_pos hfull] at hnew
    · rename_i hfull
      rwa [if_neg hfull] at hnew

end Book

/-! ## Facts about every reachable book -/

theorem Refines.prices_sorted {lob : PersistentLOB} {B : Book} (h : Refines lob B) (b : Bool) :
    LOBSide.Sorted b ((B.side b).map BookLevel.priceFp) := by
  obtain ⟨L, hrep, rfl⟩ := h
  rw [Layout.view_side, List.map_map]
  exact hrep.sorted b

theorem Refines.placed_nodup {lob : PersistentLOB} {B : Book} (h : Refines lob B) :
    (B.placed.map fun x => x.2.2.orderId).Nodup := by
  have := h.orderIds_nodup
  rwa [← Book.placed_orders, List.map_map] at this

theorem Refines.fresh {lob : PersistentLOB} {B : Book} (h : Refines lob B) :
    ∀ o ∈ B.orders, o.orderId ≠ B.nextOrderId := by
  obtain ⟨L, hrep, rfl⟩ := h
  rw [Layout.view_orders]
  intro o ho heq
  obtain ⟨i, hi, rfl⟩ := List.mem_map.mp ho
  have hlt := (hrep.issued i hi).2
  have heq' : (lob.pool.nodes i).orderId = lob.nextOrderId := heq
  rw [heq'] at hlt
  exact lt_irrefl _ hlt

end VidhiArena.GameMaster
