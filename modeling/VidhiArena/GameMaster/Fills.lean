import VidhiArena.GameMaster.Placed
import VidhiArena.GameMaster.Volumes

/-!
# The fills of a market order

`Book.market_rounds` is the induction over the rounds of a market order: it is
done, it drops an empty level, or it fills the head of the best level. From it:
which orders a market order meets, what it does to each resting order, and when
its volumes are right.
-/

namespace VidhiArena.GameMaster

open VidhiArena.Foundation

namespace Book

/-- The rounds of a market order. `Q B r fs B'`: with `r` left to match, book
`B` yields the fills `fs` and becomes `B'`. -/
theorem market_rounds (isBuy : Bool) (taker : ParticipantID)
    (Q : Book → Int64 → List MatchedFill → Book → Prop)
    (done : ∀ B r, ¬ 0 < r ∨ B.side (!isBuy) = [] → Q B r [] B)
    (empty : ∀ B r p ls fs B', 0 < r → B.side (!isBuy) = ⟨p, []⟩ :: ls →
      Q (B.setSide (!isBuy) ls) r fs B' → Q B r fs B')
    (round : ∀ B r p o q ls fs B', 0 < r → B.side (!isBuy) = ⟨p, o :: q⟩ :: ls →
      Q (B.fillHead isBuy p o q ls (min r o.volume)) (r - min r o.volume) fs B' →
      Q B r (fillOf isBuy taker p (min r o.volume) o :: fs) B') :
    ∀ B r, Q B r (B.marketOrder isBuy r taker).1 (B.marketOrder isBuy r taker).2 := by
  have hall : ∀ (n : Nat) (B : Book) (r : Int64), work (B.side (!isBuy)) < n →
      Q B r (B.marketOrder isBuy r taker).1 (B.marketOrder isBuy r taker).2 := by
    intro n
    induction n with
    | zero => exact fun B r h => absurd h (Nat.not_lt_zero _)
    | succ n ih =>
        intro B r hn
        by_cases hdone : ¬ 0 < r ∨ B.side (!isBuy) = []
        · rw [marketOrder_done hdone]
          exact done B r hdone
        obtain ⟨hr, hne⟩ := not_or.mp hdone
        have hr := not_not.mp hr
        cases hside : B.side (!isBuy) with
        | nil => exact absurd hside hne
        | cons lv ls =>
            obtain ⟨p, queue⟩ := lv
            rw [hside] at hn
            cases queue with
            | nil =>
                rw [marketOrder_empty hr hside]
                refine empty B r p ls _ _ hr hside (ih _ r ?_)
                rw [side_setSide]
                rw [work_cons] at hn
                omega
            | cons o q =>
                rw [marketOrder_round hr hside]
                refine round B r p o q ls _ _ hr hside ?_
                by_cases hmore : 0 < r - min r o.volume
                · refine ih _ _ ?_
                  have := work_round p q ls hmore
                  rw [fillHead_side]
                  omega
                · rw [marketOrder_done (Or.inl hmore)]
                  exact done _ _ (Or.inl hmore)
  exact fun B r => hall _ B r (Nat.lt_succ_self _)

/-! ## The orders that a market order meets -/

/-- The orders that a market order of volume `r` meets, best first. -/
def reached : Int64 → List RestingOrder → List RestingOrder
  | _, [] => []
  | r, o :: os => if 0 < r then o :: reached (r - min r o.volume) os else []

theorem reached_of_not_pos {r : Int64} (h : ¬ 0 < r) (os : List RestingOrder) :
    reached r os = [] := by
  cases os with
  | nil => rfl
  | cons o os => rw [reached, if_neg h]

theorem priority_cons (lv : BookLevel) (ls : List BookLevel) :
    priority (lv :: ls) = lv.queue ++ priority ls := rfl

theorem priority_keepLevel (p : Int64) (q : List RestingOrder) (ls : List BookLevel) :
    priority (keepLevel p q ++ ls) = q ++ priority ls := by
  unfold keepLevel
  split
  · rename_i h
    rw [h]
    rfl
  · rfl

theorem reached_round {r p : Int64} {o : RestingOrder} {q : List RestingOrder}
    {ls : List BookLevel} (hr : 0 < r) :
    reached r (priority (⟨p, o :: q⟩ :: ls)) =
      o :: reached (r - min r o.volume)
        (priority (keepLevel p (afterFill o q (min r o.volume)) ++ ls)) := by
  rw [priority_cons, List.cons_append, reached, if_pos hr, priority_keepLevel, afterFill]
  split
  · rfl
  · rename_i hfull
    rw [remaining_of_survivor hfull, reached_of_not_pos (by decide), reached_of_not_pos (by decide)]

/-- The makers of the fills are the orders met, in the order in which they are met. -/
theorem fills_makers (B : Book) (isBuy : Bool) (r : Int64) (taker : ParticipantID) :
    (B.marketOrder isBuy r taker).1.map (fun f => (f.makerOrderId, f.makerParticipant)) =
      (reached r (priority (B.side !isBuy))).map fun o => (o.orderId, o.participant) := by
  refine market_rounds isBuy taker (fun B r fs _ => fs.map (fun f => (f.makerOrderId, f.makerParticipant)) =
    (reached r (priority (B.side !isBuy))).map fun o => (o.orderId, o.participant)) ?_ ?_ ?_ B r
  · rintro B r (hr | hnil)
    · rw [reached_of_not_pos hr]
      rfl
    · rw [hnil]
      rfl
  · intro B r p ls fs B' _ hside ih
    rw [ih, side_setSide, hside]
    rfl
  · intro B r p o q ls fs B' hr hside ih
    rw [List.map_cons, ih, fillHead_side, hside, reached_round hr]
    rfl

theorem fills_taker (B : Book) (isBuy : Bool) (r : Int64) (taker : ParticipantID) :
    ∀ f ∈ (B.marketOrder isBuy r taker).1, f.takerParticipant = taker ∧ f.takerIsBuy = isBuy := by
  refine market_rounds isBuy taker (fun _ _ fs _ =>
    ∀ f ∈ fs, f.takerParticipant = taker ∧ f.takerIsBuy = isBuy) ?_ ?_ ?_ B r
  · exact fun B r _ f hf => absurd hf List.not_mem_nil
  · exact fun B r p ls fs B' _ _ ih => ih
  · exact fun B r p o q ls fs B' _ _ ih => List.forall_mem_cons.mpr ⟨⟨rfl, rfl⟩, ih⟩

/-! ## One resting order -/

/-- The fills against order `id`. -/
def filledOn (fs : List MatchedFill) (id : UInt64) : List MatchedFill :=
  fs.filter fun f => f.makerOrderId = id

def filledVolume (fs : List MatchedFill) : Int64 := (fs.map MatchedFill.volume).sum

def Absent (B : Book) (id : UInt64) : Prop := ∀ x ∈ B.placed, x.2.2.orderId ≠ id

/-- The order `x` rests with what the fills `fs` have left of it. -/
def Kept (B : Book) (fs : List MatchedFill) (x : Placement) : Prop :=
  (x.1, x.2.1, { x.2.2 with volume := x.2.2.volume - filledVolume fs }) ∈ B.placed ∧
    (fs ≠ [] → x.2.2.volume - filledVolume fs ≠ 0)

/-- The order `x` has left, and the fills `fs` have taken all of it. -/
def Spent (B : Book) (fs : List MatchedFill) (x : Placement) : Prop :=
  B.Absent x.2.2.orderId ∧ fs ≠ [] ∧ filledVolume fs = x.2.2.volume

theorem filledVolume_append (fs fs' : List MatchedFill) :
    filledVolume (fs ++ fs') = filledVolume fs + filledVolume fs' := by
  induction fs with
  | nil => simp [filledVolume]
  | cons f fs ih =>
      simp only [filledVolume, List.cons_append, List.map_cons, List.sum_cons] at ih ⊢
      rw [ih]
      grind

theorem kept_nil {B : Book} {x : Placement} (hx : x ∈ B.placed) : B.Kept [] x := by
  obtain ⟨b, p, o⟩ := x
  refine ⟨?_, fun h => absurd rfl h⟩
  have : o.volume - filledVolume [] = o.volume := by
    simp only [filledVolume, List.map_nil, List.sum_nil]
    grind
  simp only [this]
  exact hx

theorem kept_or_spent_trans {B B' : Book} {fs fs' : List MatchedFill} {x : Placement}
    (hkept : B.Kept fs x)
    (h : ∀ y ∈ B.placed, y.2.2.orderId = x.2.2.orderId → B'.Kept fs' y ∨ B'.Spent fs' y) :
    B'.Kept (fs ++ fs') x ∨ B'.Spent (fs ++ fs') x := by
  obtain ⟨hmem, hne⟩ := hkept
  have hsum : x.2.2.volume - filledVolume fs - filledVolume fs' =
      x.2.2.volume - filledVolume (fs ++ fs') := by
    rw [filledVolume_append]
    grind
  rcases h _ hmem rfl with ⟨hmem', hne'⟩ | ⟨hgone, hfs', hall⟩
  · refine Or.inl ⟨?_, fun happ => ?_⟩
    · rw [← hsum]
      exact hmem'
    · rw [← hsum]
      by_cases hnil : fs' = []
      · subst hnil
        have := hne (by simpa using happ)
        simp only [filledVolume, List.map_nil, List.sum_nil] at this ⊢
        grind
      · exact hne' hnil
  · refine Or.inr ⟨hgone, by simp [hfs'], ?_⟩
    have hall : filledVolume fs' = x.2.2.volume - filledVolume fs := hall
    rw [filledVolume_append, hall]
    grind

theorem filledOn_cons_self {f : MatchedFill} {fs : List MatchedFill} {id : UInt64}
    (h : f.makerOrderId = id) : filledOn (f :: fs) id = [f] ++ filledOn fs id := by
  simp [filledOn, h]

theorem filledOn_cons_of_ne {f : MatchedFill} {fs : List MatchedFill} {id : UInt64}
    (h : f.makerOrderId ≠ id) : filledOn (f :: fs) id = filledOn fs id := by
  simp [filledOn, h]

theorem placed_dropEmpty {B : Book} {isBuy : Bool} {p : Int64} {ls : List BookLevel}
    (hside : B.side (!isBuy) = ⟨p, []⟩ :: ls) : (B.setSide (!isBuy) ls).placed = B.placed := by
  cases isBuy
  · have hbids : B.bids = ⟨p, []⟩ :: ls := hside
    simp [placed, setSide, hbids, placedSide]
  · have hasks : B.asks = ⟨p, []⟩ :: ls := hside
    simp [placed, setSide, hasks, placedSide]

theorem fillHead_ids {B : Book} {isBuy : Bool} {p v : Int64} {o : RestingOrder}
    {q : List RestingOrder} {ls : List BookLevel} (hside : B.side (!isBuy) = ⟨p, o :: q⟩ :: ls) :
    ((B.placed.map fun x => x.2.2.orderId).Nodup →
      ((B.fillHead isBuy p o q ls v).placed.map fun x => x.2.2.orderId).Nodup) ∧
    ∀ id, B.Absent id → (B.fillHead isBuy p o q ls v).Absent id := by
  obtain ⟨rest, hold, hnew⟩ := placed_fillHead v hside
  refine ⟨fun hnd => ?_, fun id habs x hx => ?_⟩
  · have hnd := (hold.map fun x => x.2.2.orderId).nodup_iff.mp hnd
    refine (hnew.map fun x => x.2.2.orderId).nodup_iff.mpr ?_
    split
    · exact (List.nodup_cons.mp hnd).2
    · exact hnd
  · have hx := hnew.mem_iff.mp hx
    split at hx
    · exact habs x (hold.mem_iff.mpr (List.mem_cons_of_mem _ hx))
    · rcases List.mem_cons.mp hx with rfl | hx
      · exact habs (!isBuy, p, o) (hold.mem_iff.mpr List.mem_cons_self)
      · exact habs x (hold.mem_iff.mpr (List.mem_cons_of_mem _ hx))

theorem fillHead_tracked {B : Book} {isBuy : Bool} (taker : ParticipantID) {p r : Int64}
    {o : RestingOrder} {q : List RestingOrder} {ls : List BookLevel}
    (hside : B.side (!isBuy) = ⟨p, o :: q⟩ :: ls)
    (hids : (B.placed.map fun x => x.2.2.orderId).Nodup) (x : Placement) (hx : x ∈ B.placed) :
    (B.fillHead isBuy p o q ls (min r o.volume)).Kept
        (filledOn [fillOf isBuy taker p (min r o.volume) o] x.2.2.orderId) x ∨
      (B.fillHead isBuy p o q ls (min r o.volume)).Spent
        (filledOn [fillOf isBuy taker p (min r o.volume) o] x.2.2.orderId) x := by
  obtain ⟨rest, hold, hnew⟩ := placed_fillHead (min r o.volume) hside
  have hnd := (hold.map fun x => x.2.2.orderId).nodup_iff.mp hids
  have hne : ∀ y ∈ rest, y.2.2.orderId ≠ o.orderId := by
    have := (List.nodup_cons.mp hnd).1
    exact fun y hy heq => this (List.mem_map.mpr ⟨y, hy, heq⟩)
  rcases List.mem_cons.mp (hold.mem_iff.mp hx) with rfl | hx
  · -- the maker itself
    have hself : filledOn [fillOf isBuy taker p (min r o.volume) o] o.orderId =
        [fillOf isBuy taker p (min r o.volume) o] := filledOn_cons_self rfl
    have hvol : filledVolume [fillOf isBuy taker p (min r o.volume) o] = min r o.volume := by
      simp only [filledVolume, List.map_cons, List.map_nil, List.sum_cons, List.sum_nil]
      show min r o.volume + 0 = _
      grind
    simp only [hself]
    by_cases hfull : o.volume - min r o.volume = 0
    · rw [if_pos hfull] at hnew
      refine Or.inr ⟨fun y hy => hne y (hnew.mem_iff.mp hy), by simp, ?_⟩
      rw [hvol]
      grind
    · rw [if_neg hfull] at hnew
      refine Or.inl ⟨?_, fun _ => ?_⟩
      · rw [hvol]
        exact hnew.mem_iff.mpr List.mem_cons_self
      · rw [hvol]
        exact hfull
  · -- another order
    have hnone : filledOn [fillOf isBuy taker p (min r o.volume) o] x.2.2.orderId = [] :=
      filledOn_cons_of_ne (hne x hx).symm
    rw [hnone]
    refine Or.inl (kept_nil (hnew.mem_iff.mpr ?_))
    split
    · exact hx
    · exact List.mem_cons_of_mem _ hx

/-- What a market order does to each resting order: it fills it or leaves it
alone; and it fills nothing else. -/
theorem market_tracked (isBuy : Bool) (taker : ParticipantID) (B : Book) (r : Int64)
    (hids : (B.placed.map fun x => x.2.2.orderId).Nodup) :
    (∀ x ∈ B.placed,
      (B.marketOrder isBuy r taker).2.Kept
          (filledOn (B.marketOrder isBuy r taker).1 x.2.2.orderId) x ∨
        (B.marketOrder isBuy r taker).2.Spent
          (filledOn (B.marketOrder isBuy r taker).1 x.2.2.orderId) x) ∧
    ∀ id, B.Absent id → (B.marketOrder isBuy r taker).2.Absent id ∧
      filledOn (B.marketOrder isBuy r taker).1 id = [] := by
  revert hids
  refine market_rounds isBuy taker (fun B _ fs B' =>
    (B.placed.map fun x => x.2.2.orderId).Nodup →
      (∀ x ∈ B.placed, B'.Kept (filledOn fs x.2.2.orderId) x ∨
        B'.Spent (filledOn fs x.2.2.orderId) x) ∧
      ∀ id, B.Absent id → B'.Absent id ∧ filledOn fs id = []) ?_ ?_ ?_ B r
  · exact fun B r _ _ => ⟨fun x hx => Or.inl (kept_nil hx), fun id habs => ⟨habs, rfl⟩⟩
  · intro B r p ls fs B' _ hside ih hids
    unfold Absent at ih ⊢
    rw [placed_dropEmpty hside] at ih
    exact ih hids
  · intro B r p o q ls fs B' hr hside ih hids
    obtain ⟨hnodup, habsent⟩ := fillHead_ids (v := min r o.volume) hside
    obtain ⟨htracked, hother⟩ := ih (hnodup hids)
    refine ⟨fun x hx => ?_, fun id habs => ?_⟩
    · have hsplit : filledOn (fillOf isBuy taker p (min r o.volume) o :: fs) x.2.2.orderId =
          filledOn [fillOf isBuy taker p (min r o.volume) o] x.2.2.orderId ++
            filledOn fs x.2.2.orderId := by
        rw [filledOn, filledOn, filledOn, ← List.filter_append]
        rfl
      rw [hsplit]
      rcases fillHead_tracked taker (r := r) hside hids x hx with hkept | ⟨hgone, hfs, hall⟩
      · exact kept_or_spent_trans hkept fun y hy hid => hid ▸ htracked y hy
      · obtain ⟨hgone', hnone⟩ := hother x.2.2.orderId hgone
        rw [hnone, List.append_nil]
        exact Or.inr ⟨hgone', hfs, hall⟩
    · have hmaker : (fillOf isBuy taker p (min r o.volume) o).makerOrderId ≠ id :=
        habs (!isBuy, p, o) (mem_placed.mpr ⟨⟨p, o :: q⟩, by rw [hside]; simp, rfl, by simp⟩)
      rw [filledOn_cons_of_ne hmaker]
      exact hother id (habsent id habs)

end Book

end VidhiArena.GameMaster
