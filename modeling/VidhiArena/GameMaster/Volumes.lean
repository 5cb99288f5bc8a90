import VidhiArena.GameMaster.CancelSafety

/-!
# Volumes as integers

The book adds and subtracts `int64_t` volumes; this module relates its sums to
the exact ones. `Reduced` says what a market order can make of a queue: it
drops a stretch in front and may take part of the next order.
-/

namespace VidhiArena.GameMaster

open VidhiArena.Foundation

/-- `x` is a value of `int64_t`. -/
def Fits (x : Int) : Prop := -2 ^ 63 ≤ x ∧ x < 2 ^ 63

instance (x : Int) : Decidable (Fits x) := inferInstanceAs (Decidable (_ ∧ _))

theorem fits_toInt (x : Int64) : Fits x.toInt := ⟨x.le_toInt, x.toInt_lt⟩

theorem bmod_of_fits {x : Int} (h : Fits x) : x.bmod (2 ^ 64) = x := by
  obtain ⟨h₁, h₂⟩ := h
  exact Int.bmod_eq_of_le (by omega) (by omega)

theorem toInt_ofInt_of_fits {x : Int} (h : Fits x) : (Int64.ofInt x).toInt = x := by
  rw [Int64.toInt_ofInt]
  exact bmod_of_fits h

theorem toInt_add_of_fits {a b : Int64} (h : Fits (a.toInt + b.toInt)) :
    (a + b).toInt = a.toInt + b.toInt := by
  rw [Int64.toInt_add, bmod_of_fits h]

theorem toInt_sub_of_fits {a b : Int64} (h : Fits (a.toInt - b.toInt)) :
    (a - b).toInt = a.toInt - b.toInt := by
  rw [Int64.toInt_sub, bmod_of_fits h]

theorem toInt_sum (l : List Int64) :
    l.sum.toInt = (l.map Int64.toInt).sum.bmod (2 ^ 64) := by
  induction l with
  | nil => rfl
  | cons a l ih =>
      rw [List.sum_cons, Int64.toInt_add, ih, List.map_cons, List.sum_cons, Int.add_bmod_bmod]

theorem sub_between {a b : Int64} (ha : 0 < a) (hab : a < b) : 0 < b - a ∧ b - a < b := by
  rw [Int64.lt_iff_toInt_lt, Int64.toInt_zero] at ha
  rw [Int64.lt_iff_toInt_lt] at hab
  have hb := fits_toInt b
  unfold Fits at hb
  rw [Int64.lt_iff_toInt_lt, Int64.lt_iff_toInt_lt, Int64.toInt_zero,
    toInt_sub_of_fits ⟨by omega, by omega⟩]
  omega

namespace Book

/-- The volume of a queue as an exact integer. -/
def exactVolume (q : List RestingOrder) : Int := (q.map fun o => o.volume.toInt).sum

@[simp] theorem exactVolume_nil : exactVolume [] = 0 := rfl

@[simp] theorem exactVolume_cons (o : RestingOrder) (q : List RestingOrder) :
    exactVolume (o :: q) = o.volume.toInt + exactVolume q := by
  simp [exactVolume]

@[simp] theorem exactVolume_append (q q' : List RestingOrder) :
    exactVolume (q ++ q') = exactVolume q + exactVolume q' := by
  simp [exactVolume]

/-- Every level's exact volume is a value of `int64_t`. -/
def SumsFit (B : Book) : Prop := ∀ b, ∀ lv ∈ B.side b, Fits (exactVolume lv.queue)

/-! ## What a market order leaves of a queue -/

/-- A stretch in front is gone and the order behind it may have shrunk. -/
def Reduced (q' q : List RestingOrder) : Prop :=
  q' <:+ q ∨ ∃ o r v, o :: r <:+ q ∧ q' = { o with volume := v } :: r ∧ 0 < v ∧ v < o.volume

theorem Reduced.of_suffix {q q' q'' : List RestingOrder} (h : Reduced q' q) (hs : q <:+ q'') :
    Reduced q' q'' := by
  rcases h with h | ⟨o, r, v, h, heq, hv⟩
  · exact Or.inl (h.trans hs)
  · exact Or.inr ⟨o, r, v, h.trans hs, heq, hv⟩

theorem matchQueue_reduced (isBuy : Bool) (taker : ParticipantID) (p : Int64) :
    ∀ (q : List RestingOrder) (remaining : Int64),
      Reduced (matchQueue isBuy taker p remaining q).2.2 q
  | [], _ => Or.inl (List.suffix_refl _)
  | o :: q, remaining => by
      rw [matchQueue]
      by_cases hpos : 0 < remaining
      · rw [if_pos hpos]
        by_cases hfull : o.volume - min remaining o.volume = 0
        · simp only [if_pos hfull]
          exact (matchQueue_reduced isBuy taker p q _).of_suffix (List.suffix_cons o q)
        · simp only [if_neg hfull]
          obtain ⟨hmin, hlt⟩ := min_of_survivor hfull
          refine Or.inr ⟨o, q, _, List.suffix_refl _, rfl, ?_⟩
          rw [hmin]
          exact sub_between hpos hlt
      · rw [if_neg hpos]
        exact Or.inl (List.suffix_refl _)

theorem matchLevels_reduced (isBuy : Bool) (taker : ParticipantID) :
    ∀ (ls : List BookLevel) (remaining : Int64),
      ∀ lv' ∈ (matchLevels isBuy taker remaining ls).2,
        ∃ lv ∈ ls, lv'.priceFp = lv.priceFp ∧ Reduced lv'.queue lv.queue
  | [], _, _, h => absurd h List.not_mem_nil
  | lv :: ls, remaining, lv', h => by
      rw [matchLevels] at h
      by_cases hpos : 0 < remaining
      · rw [if_pos hpos] at h
        have hq := matchQueue_reduced isBuy taker lv.priceFp lv.queue remaining
        generalize matchQueue isBuy taker lv.priceFp remaining lv.queue = res at h hq
        obtain ⟨fills, left, q⟩ := res
        simp only at h hq
        split at h
        · obtain ⟨lv₁, hlv₁, hrest⟩ := matchLevels_reduced isBuy taker ls left lv' h
          exact ⟨lv₁, List.mem_cons_of_mem _ hlv₁, hrest⟩
        · rcases List.mem_cons.mp h with rfl | h
          · exact ⟨lv, List.mem_cons_self, rfl, hq⟩
          · exact ⟨lv', List.mem_cons_of_mem _ h, rfl, Or.inl (List.suffix_refl _)⟩
      · rw [if_neg hpos] at h
        exact ⟨lv', h, rfl, Or.inl (List.suffix_refl _)⟩

/-- If every tail of a queue has a fitting sum, so has what is left of it. -/
theorem Reduced.fits {q q' : List RestingOrder} (h : Reduced q' q)
    (hq : ∀ r, r <:+ q → Fits (exactVolume r)) : Fits (exactVolume q') := by
  rcases h with h | ⟨o, r, v, hs, rfl, hpos, hlt⟩
  · exact hq q' h
  · have h₁ := hq (o :: r) hs
    have h₂ := hq r ((List.suffix_cons o r).trans hs)
    rw [exactVolume_cons] at h₁ ⊢
    show Fits (v.toInt + exactVolume r)
    rw [Int64.lt_iff_toInt_lt] at hpos hlt
    simp only [Int64.toInt_zero] at hpos
    unfold Fits at *
    omega

/-! ## What a call leaves of a level -/

variable {B : Book} {lv' : BookLevel}

theorem mem_insertLevel {isBid : Bool} {lv : BookLevel} : ∀ {ls : List BookLevel},
    lv' ∈ insertLevel isBid lv ls → lv' = lv ∨ lv' ∈ ls
  | [], h => Or.inl (List.mem_singleton.mp h)
  | x :: xs, h => by
      rw [insertLevel] at h
      split at h
      · exact List.mem_cons.mp h
      · rcases List.mem_cons.mp h with rfl | h
        · exact Or.inr List.mem_cons_self
        · rcases mem_insertLevel h with h | h
          · exact Or.inl h
          · exact Or.inr (List.mem_cons_of_mem _ h)

theorem mem_openLevel {isBid : Bool} {p : Int64} {ls : List BookLevel}
    (h : lv' ∈ openLevel isBid p ls) : lv' = ⟨p, []⟩ ∨ lv' ∈ ls := by
  unfold openLevel at h
  split at h
  · exact Or.inr h
  · exact mem_insertLevel h

/-- After `add_limit` a level is as before, or it is the (possibly new) level of
the price, with the order appended or not. -/
theorem mem_side_addLimitBounded {isBid b : Bool} {p v : Int64} {participant : ParticipantID}
    (h : lv' ∈ (B.addLimitBounded isBid p v participant).2.side b) :
    lv' ∈ B.side b ∨ b = isBid ∧ lv'.priceFp = p ∧
      ∃ q, (q = [] ∨ ⟨p, q⟩ ∈ B.side b) ∧
        (lv'.queue = q ∨ lv'.queue = q ++ [⟨B.nextOrderId, v, participant⟩]) := by
  unfold addLimitBounded at h
  by_cases hb : b = isBid
  · subst hb
    have hopened : ∀ lv ∈ openLevel b p (B.side b), lv ∈ B.side b ∨ lv = ⟨p, []⟩ :=
      fun lv hlv => (mem_openLevel hlv).symm
    split at h
    · exact Or.inl h
    · split at h
      · rw [side_setSide] at h
        rcases hopened lv' h with h | rfl
        · exact Or.inl h
        · exact Or.inr ⟨rfl, rfl, [], Or.inl rfl, Or.inl rfl⟩
      · have hside : (B.addLimit b p v participant).2.side b =
            enqueue p ⟨B.nextOrderId, v, participant⟩ (openLevel b p (B.side b)) := by
          cases b <;> rfl
        rw [hside] at h
        obtain ⟨lv, hlv, rfl⟩ := List.mem_map.mp h
        by_cases hp : lv.priceFp = p
        · rw [if_pos hp]
          refine Or.inr ⟨rfl, hp, lv.queue, ?_, Or.inr rfl⟩
          rcases hopened lv hlv with hlv | rfl
          · exact Or.inr (hp ▸ hlv)
          · exact Or.inl rfl
        · rw [if_neg hp]
          rcases hopened lv hlv with hlv | rfl
          · exact Or.inl hlv
          · exact absurd rfl hp
  · obtain rfl : b = !isBid := by cases b <;> cases isBid <;> simp_all
    left
    split at h
    · exact h
    · split at h
      · rwa [side_setSide_not] at h
      · have hside : (B.addLimit isBid p v participant).2.side (!isBid) = B.side (!isBid) := by
          cases isBid <;> rfl
        rwa [hside] at h

theorem mem_side_cancel {b : Bool} {orderId : UInt64}
    (h : lv' ∈ (B.cancel orderId).2.side b) :
    ∃ lv ∈ B.side b, lv'.priceFp = lv.priceFp ∧
      (lv'.queue = lv.queue ∨ lv'.queue = lv.queue.filter fun o => o.orderId ≠ orderId) := by
  unfold cancel at h
  split at h
  · have hside : lv' ∈ removeOrder orderId (B.side b) := by cases b <;> exact h
    obtain ⟨lv, hlv, hsome⟩ := List.mem_filterMap.mp hside
    refine ⟨lv, hlv, ?_⟩
    unfold withoutOrder at hsome
    split at hsome
    · split at hsome
      · cases hsome
      · cases hsome
        exact ⟨rfl, Or.inr rfl⟩
    · cases hsome
      exact ⟨rfl, Or.inl rfl⟩
  · exact ⟨lv', h, rfl, Or.inl rfl⟩

theorem mem_side_marketOrder {b isBuy : Bool} {v : Int64} {taker : ParticipantID}
    (h : lv' ∈ (B.marketOrder isBuy v taker).2.side b) :
    lv' ∈ B.side b ∨ b = (!isBuy) ∧
      ∃ lv ∈ B.side b, lv'.priceFp = lv.priceFp ∧ Reduced lv'.queue lv.queue := by
  rw [marketOrder_eq] at h
  by_cases hb : b = isBuy
  · subst hb
    left
    cases b <;> exact h
  · obtain rfl : b = !isBuy := by cases b <;> cases isBuy <;> simp_all
    right
    have hmem : lv' ∈ (matchLevels isBuy taker v (B.side !isBuy)).2 := by
      cases isBuy <;> exact h
    exact ⟨rfl, matchLevels_reduced isBuy taker _ v lv' hmem⟩

end Book

end VidhiArena.GameMaster
