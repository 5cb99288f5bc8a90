import VidhiArena.Foundation.Merging
import VidhiArena.GameMaster.Placed
import VidhiArena.GameMaster.PositiveVolumes

/-!
# A book by its totals

What a market order does to the total volume at each price, and how much of each price its
fills take together, over orders with positive volumes.
-/

namespace VidhiArena.GameMaster

open VidhiArena.Foundation

/-- The price of a fill and what it takes there. -/
def MatchedFill.priced (f : MatchedFill) : Int64 × Int := (f.priceFp, f.volume.toInt)

namespace Book

def total (lv : BookLevel) : Int64 × Int := (lv.priceFp, exactVolume lv.queue)

/-- Orders at every price, with something to sell or to buy. -/
structure Tidy (ls : List BookLevel) : Prop where
  filled : ∀ lv ∈ ls, lv.queue ≠ []
  positive : ∀ lv ∈ ls, ∀ o ∈ lv.queue, 0 < o.volume

theorem Tidy.tail {lv : BookLevel} {ls : List BookLevel} (h : Tidy (lv :: ls)) : Tidy ls :=
  ⟨fun l hl => h.filled l (List.mem_cons_of_mem _ hl),
    fun l hl => h.positive l (List.mem_cons_of_mem _ hl)⟩

theorem Tidy.joined {ls pre post : List BookLevel} (h : Tidy ls)
    (hmem : ∀ lv ∈ pre ++ post, lv ∈ ls) {p : Int64} {q : List RestingOrder}
    (hq : ∀ o ∈ q, 0 < o.volume) {o : RestingOrder} (ho : 0 < o.volume) :
    Tidy (pre ++ [⟨p, q ++ [o]⟩] ++ post) := by
  have hcases : ∀ lv ∈ pre ++ [(⟨p, q ++ [o]⟩ : BookLevel)] ++ post,
      lv = ⟨p, q ++ [o]⟩ ∨ lv ∈ ls := by
    intro lv hlv
    rw [List.append_assoc, List.mem_append, List.singleton_append, List.mem_cons] at hlv
    rcases hlv with hlv | rfl | hlv
    · exact .inr (hmem lv (List.mem_append_left _ hlv))
    · exact .inl rfl
    · exact .inr (hmem lv (List.mem_append_right _ hlv))
  refine ⟨fun lv hlv => ?_, fun lv hlv => ?_⟩
  · rcases hcases lv hlv with rfl | hlv
    · exact List.append_ne_nil_of_right_ne_nil _ (List.cons_ne_nil _ _)
    · exact h.filled lv hlv
  · rcases hcases lv hlv with rfl | hlv
    · exact List.forall_mem_append.mpr ⟨hq, List.forall_mem_singleton.mpr ho⟩
    · exact h.positive lv hlv

theorem exactVolume_pos {q : List RestingOrder} (hne : q ≠ []) (h : ∀ o ∈ q, 0 < o.volume) :
    0 < exactVolume q := by
  obtain ⟨o, q, rfl⟩ := List.exists_cons_of_ne_nil hne
  obtain ⟨ho, hq⟩ := List.forall_mem_cons.mp h
  rw [exactVolume_cons]
  have := exactVolume_nonneg hq
  have := toInt_pos.mp ho
  omega

theorem toInt_min (a b : Int64) : (min a b).toInt = min a.toInt b.toInt := by
  rw [min_ite]
  split
  · rename_i h
    exact (min_eq_left (Int64.le_iff_toInt_le.mp h)).symm
  · rename_i h
    rw [Int64.le_iff_toInt_le, not_le] at h
    exact (min_eq_right h.le).symm

/-- A queue of positive volumes against a volume: the fills, what is left of the two. -/
structure Taken (p : Int64) (q : List RestingOrder) (remaining : Int)
    (r : List MatchedFill × Int64 × List RestingOrder) : Prop where
  stock : stock (r.1.map MatchedFill.priced) = min (exactVolume q) remaining
  price : ∀ f ∈ r.1, f.priceFp = p
  unfilled : r.2.1.toInt = remaining - min (exactVolume q) remaining
  queue : exactVolume r.2.2 = exactVolume q - min (exactVolume q) remaining
  positive : ∀ o ∈ r.2.2, 0 < o.volume

theorem Taken.none {p : Int64} {q : List RestingOrder} {r : Int64} (hq : ∀ o ∈ q, 0 < o.volume)
    (h : min (exactVolume q) r.toInt = 0) : Taken p q r.toInt ([], r, q) :=
  ⟨h.symm, fun _ hf => absurd hf List.not_mem_nil, by rw [h, sub_zero], by rw [h, sub_zero], hq⟩

theorem matchQueue_taken (isBuy : Bool) (taker : ParticipantID) (p : Int64) :
    ∀ {q : List RestingOrder} {remaining : Int64}, (∀ o ∈ q, 0 < o.volume) → 0 ≤ remaining.toInt →
      Taken p q remaining.toInt (matchQueue isBuy taker p remaining q)
  | [], _, hq, hr => .none hq (min_eq_left hr)
  | o :: q, remaining, hpos, hr => by
      obtain ⟨ho, hq⟩ := List.forall_mem_cons.mp hpos
      have hvol := exactVolume_nonneg hq
      rw [matchQueue]
      split
      · rename_i hmore
        obtain ⟨hmin, hle, hle'⟩ := min_between hmore ho
        have hleft := toInt_sub_between hmin hle
        have hkept := toInt_sub_between hmin hle'
        rw [toInt_min] at hleft hkept
        dsimp only
        split
        · -- the order is taken whole
          rename_i hwhole
          rw [hwhole, Int64.toInt_zero] at hkept
          have hmore' : 0 ≤ (remaining - min remaining o.volume).toInt := by omega
          have ih := matchQueue_taken isBuy taker p hq hmore'
          rw [hleft] at ih
          refine ⟨?_, List.forall_mem_cons.mpr ⟨rfl, ih.price⟩, ?_, ?_, ih.positive⟩
          · rw [List.map_cons, MatchedFill.priced, stock_cons, ih.stock, exactVolume_cons]
            show (min remaining o.volume).toInt + _ = _
            rw [toInt_min]
            omega
          · rw [ih.unfilled, exactVolume_cons]
            omega
          · rw [ih.queue, exactVolume_cons]
            omega
        · -- the order stays, the volume is used up
          rename_i hpart
          have hne : (o.volume - min remaining o.volume).toInt ≠ 0 :=
            fun h => hpart (Int64.toInt_inj.mp h)
          refine ⟨?_, List.forall_mem_singleton.mpr rfl, ?_, ?_, List.forall_mem_cons.mpr ⟨?_, hq⟩⟩
          · rw [List.map_singleton, MatchedFill.priced, stock_cons, stock_nil, exactVolume_cons]
            show (min remaining o.volume).toInt + _ = _
            rw [toInt_min]
            omega
          · rw [hleft, exactVolume_cons]
            omega
          · rw [exactVolume_cons, exactVolume_cons, hkept]
            omega
          · rw [toInt_pos, hkept]
            omega
      · rename_i hover
        refine .none hpos ?_
        rw [toInt_pos] at hover
        rw [exactVolume_cons]
        rw [toInt_pos] at ho
        omega

theorem matchQueue_ne_nil (isBuy : Bool) (taker : ParticipantID) (p : Int64)
    {q : List RestingOrder} {remaining : Int64} (hne : q ≠ []) (hr : 0 < remaining) :
    (matchQueue isBuy taker p remaining q).1 ≠ [] := by
  obtain ⟨o, q, rfl⟩ := List.exists_cons_of_ne_nil hne
  rw [matchQueue, if_pos hr]
  dsimp only
  split <;> exact List.cons_ne_nil _ _

/-- A market order by the totals: what it takes at each price, and what it leaves. -/
structure Matched (ls : List BookLevel) (remaining : Int)
    (r : List MatchedFill × List BookLevel) : Prop where
  fills : merged (r.1.map MatchedFill.priced) = sweep (ls.map total) remaining
  prices : ∀ f ∈ r.1, f.priceFp ∈ ls.map BookLevel.priceFp
  left : r.2.map total = leftover (ls.map total) remaining
  tidy : Tidy r.2

section

variable {lv : BookLevel} {ls : List BookLevel} {remaining : Int} {fills : List MatchedFill}
  {unfilled : Int64} {queue : List RestingOrder}

theorem sweep_total_cons (hmore : 0 < remaining) :
    sweep ((lv :: ls).map total) remaining = (lv.priceFp, min (exactVolume lv.queue) remaining) ::
      sweep (ls.map total) (remaining - min (exactVolume lv.queue) remaining) :=
  if_neg hmore.not_ge

theorem leftover_total_cons (hmore : 0 < remaining) :
    leftover ((lv :: ls).map total) remaining =
      if exactVolume lv.queue - min (exactVolume lv.queue) remaining ≤ 0 then
        leftover (ls.map total) (remaining - min (exactVolume lv.queue) remaining)
      else (lv.priceFp, exactVolume lv.queue - min (exactVolume lv.queue) remaining) ::
        leftover (ls.map total) (remaining - min (exactVolume lv.queue) remaining) :=
  if_neg hmore.not_ge

theorem Taken.merged_fills {stocks : List (Int64 × Int)}
    (h : Taken lv.priceFp lv.queue remaining (fills, unfilled, queue)) (hne : fills ≠ [])
    (hrest : ∀ y ∈ stocks.head?, lv.priceFp ≠ y.1) :
    merged (fills.map MatchedFill.priced ++ stocks) =
      (lv.priceFp, min (exactVolume lv.queue) remaining) :: merged stocks := by
  have hblock : ∀ x ∈ fills.map MatchedFill.priced, x.1 = lv.priceFp :=
    List.forall_mem_map.mpr h.price
  rw [merged_block hrest (fun hnil => hne (List.map_eq_nil_iff.mp hnil)) hblock, h.stock]

theorem Taken.matched_rest {r : List MatchedFill × List BookLevel}
    (h : Taken lv.priceFp lv.queue remaining (fills, unfilled, [])) (hmore : 0 < remaining)
    (hne : fills ≠ []) (hfresh : lv.priceFp ∉ ls.map BookLevel.priceFp)
    (hr : Matched ls unfilled.toInt r) : Matched (lv :: ls) remaining (fills ++ r.1, r.2) := by
  have hqueue : 0 = exactVolume lv.queue - min (exactVolume lv.queue) remaining := h.queue
  have hunfilled : unfilled.toInt = remaining - min (exactVolume lv.queue) remaining := h.unfilled
  have hother : ∀ y ∈ (r.1.map MatchedFill.priced).head?, lv.priceFp ≠ y.1 := by
    intro y hy heq
    obtain ⟨f, hf, rfl⟩ := List.mem_map.mp (List.mem_of_mem_head? hy)
    exact hfresh (heq ▸ hr.prices f hf)
  refine ⟨?_, fun f hf => ?_, ?_, hr.tidy⟩
  · rw [List.map_append, h.merged_fills hne hother, hr.fills, hunfilled, sweep_total_cons hmore]
  · rcases List.mem_append.mp hf with hf | hf
    · exact List.mem_cons.mpr (.inl (h.price f hf))
    · exact List.mem_cons_of_mem _ (hr.prices f hf)
  · rw [leftover_total_cons hmore, if_pos (by omega), ← hunfilled]
    exact hr.left

theorem Taken.matched_all (h : Taken lv.priceFp lv.queue remaining (fills, unfilled, queue))
    (hmore : 0 < remaining) (hne : fills ≠ []) (hleft : queue ≠ []) (htidy : Tidy ls) :
    Matched (lv :: ls) remaining (fills, ⟨lv.priceFp, queue⟩ :: ls) := by
  have hqueue : exactVolume queue = exactVolume lv.queue - min (exactVolume lv.queue) remaining :=
    h.queue
  have hover := exactVolume_pos hleft h.positive
  have hzero : remaining - min (exactVolume lv.queue) remaining ≤ 0 := by omega
  refine ⟨?_, fun f hf => List.mem_cons.mpr (.inl (h.price f hf)), ?_, ?_⟩
  · have hnone : ∀ y ∈ ([] : List (Int64 × Int)).head?, lv.priceFp ≠ y.1 := by simp
    have hmerged := h.merged_fills hne hnone
    rw [List.append_nil] at hmerged
    rw [hmerged, sweep_total_cons hmore, sweep_of_nonpos hzero]
    rfl
  · rw [leftover_total_cons hmore, leftover_of_nonpos hzero, if_neg (by omega), List.map_cons,
      total, hqueue]
  · exact ⟨List.forall_mem_cons.mpr ⟨hleft, htidy.filled⟩,
      List.forall_mem_cons.mpr ⟨h.positive, htidy.positive⟩⟩

end

theorem matchLevels_matched (isBuy : Bool) (taker : ParticipantID) :
    ∀ {ls : List BookLevel} {remaining : Int64}, Tidy ls → (ls.map BookLevel.priceFp).Nodup →
      Matched ls remaining.toInt (matchLevels isBuy taker remaining ls)
  | [], _, htidy, _ => ⟨rfl, fun _ hf => absurd hf List.not_mem_nil, rfl, htidy⟩
  | lv :: ls, remaining, htidy, hnodup => by
      obtain ⟨hfilled, -⟩ := List.forall_mem_cons.mp htidy.filled
      obtain ⟨hpositive, -⟩ := List.forall_mem_cons.mp htidy.positive
      obtain ⟨hfresh, hrest⟩ := List.nodup_cons.mp hnodup
      rw [matchLevels]
      split
      · rename_i hmore
        have htaken := matchQueue_taken isBuy taker lv.priceFp hpositive (toInt_pos.mp hmore).le
        have hsome := matchQueue_ne_nil isBuy taker lv.priceFp hfilled hmore
        rw [toInt_pos] at hmore
        revert htaken hsome
        generalize matchQueue isBuy taker lv.priceFp remaining lv.queue = m
        obtain ⟨fills, unfilled, queue⟩ := m
        intro htaken hsome
        dsimp only
        split
        · rename_i hempty
          subst hempty
          exact htaken.matched_rest hmore hsome hfresh
            (matchLevels_matched isBuy taker htidy.tail hrest)
        · rename_i hleft
          exact htaken.matched_all hmore hsome hleft htidy.tail
      · rename_i hover
        have hzero : remaining.toInt ≤ 0 := by
          rw [toInt_pos] at hover
          omega
        exact ⟨(sweep_of_nonpos hzero _).symm, fun _ hf => absurd hf List.not_mem_nil,
          (leftover_of_nonpos hzero _).symm, htidy⟩

end Book

end VidhiArena.GameMaster
