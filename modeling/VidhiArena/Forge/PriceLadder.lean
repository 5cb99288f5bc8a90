import VidhiArena.Foundation.Merging
import VidhiArena.Forge.LocalGM

/-!
# The ladder of a local book

The levels of a `SimpleLOB` in the order of a market order, as a value of their own: what the
operations of the book do to it. `levels_eq` says that a sorted row with the volumes of the
book is its ladder.
-/

namespace VidhiArena.Forge.LocalGM

open Foundation OrderedMap

/-- The order in which a market order meets two prices. -/
def Side.Meets : Side → Int → Int → Prop
  | buy, p, q => p < q
  | sell, p, q => q < p

theorem Side.Meets.nodup {side : Side} {ps : List Int} (h : ps.Pairwise side.Meets) :
    ps.Nodup := by
  refine h.imp fun {p q} h => ?_
  cases side with
  | buy => exact ne_of_lt h
  | sell => exact ne_of_gt h

namespace SimpleLOB

variable {lob : SimpleLOB} {side : Side}

theorem sortedPrices_perm (lob : SimpleLOB) (side : Side) :
    (lob.sortedPrices side).Perm (keys (lob.book side.other).entries) := by
  cases side with
  | buy => exact List.perm_insertionSort _ _
  | sell => exact List.perm_insertionSort _ _

theorem sortedPrices_nodup (lob : SimpleLOB) (side : Side) : (lob.sortedPrices side).Nodup :=
  (lob.sortedPrices_perm side).nodup_iff.mpr (lob.book side.other).nodup

theorem levels_eq {ls : List (Int × Int)} (hsorted : (keys ls).Pairwise side.Meets)
    (hfind : ∀ q, find ls q = find (lob.book side.other).entries q) : lob.levels side = ls := by
  have hnodup := Side.Meets.nodup hsorted
  have hperm : (lob.sortedPrices side).Perm (keys ls) := by
    refine (List.perm_ext_iff_of_nodup (lob.sortedPrices_nodup side) hnodup).mpr fun q => ?_
    rw [(lob.sortedPrices_perm side).mem_iff, ← find_isSome, ← find_isSome, hfind]
  have hprices : lob.sortedPrices side = keys ls := by
    cases side with
    | buy =>
        exact hperm.eq_of_pairwise (fun _ _ _ _ => le_antisymm)
          (List.pairwise_insertionSort _ _) (hsorted.imp le_of_lt)
    | sell =>
        exact hperm.eq_of_pairwise (fun _ _ _ _ h h' => le_antisymm h' h)
          (List.pairwise_insertionSort _ _) (hsorted.imp le_of_lt)
  rw [levels, hprices, keys, List.map_map]
  conv_rhs => rw [← List.map_id ls]
  refine List.map_congr_left fun x hx => ?_
  show (x.1, (find (lob.book side.other).entries x.1).getD 0) = x
  rw [← hfind, find_of_mem hnodup hx]
  rfl

/-! ## An order more -/

@[simp] theorem other_other (side : Side) : side.other.other = side := by cases side <;> rfl

theorem other_ne (side : Side) : side.other ≠ side := by cases side <;> decide

theorem book_setBook_of_ne {side side' : Side} (h : side ≠ side') (lob : SimpleLOB)
    (book : PriceMap) : (lob.setBook side book).book side' = lob.book side' := by
  cases side <;> cases side' <;> first | rfl | exact absurd rfl h

theorem find_set (book : PriceMap) (p q volume : Int) :
    find (book.set p volume).entries q = if p = q then some volume else find book.entries q := by
  show find (modify (push book.entries p 0) p fun _ => volume) q = _
  rw [find_modify, find_push]
  split
  · rfl
  · rfl

theorem find_addOrder (lob : SimpleLOB) (side : Side) (p q volume : Int) :
    find ((lob.addOrder side p volume).book side).entries q =
      if p = q then some ((lob.book side).volume p + volume)
      else find (lob.book side).entries q := by
  rw [addOrder, book_setBook, find_set]

theorem book_addOrder_other (lob : SimpleLOB) (side : Side) (p volume : Int) :
    (lob.addOrder side p volume).book side.other = lob.book side.other :=
  book_setBook_of_ne (other_ne side).symm lob _

/-! ## A market order -/

theorem book_fillLevel_other (lob : SimpleLOB) (side : Side) (p filled : Int) :
    (lob.fillLevel side.other p filled).book side = lob.book side := by
  cases side <;> rfl

theorem book_takeLevels_other (side : Side) : ∀ (prices : List Int) (remaining : Int)
    (lob : SimpleLOB), (takeLevels side prices remaining lob).2.book side = lob.book side
  | [], _, _ => rfl
  | p :: prices, remaining, lob => by
      rw [takeLevels]
      split
      · rfl
      · exact (book_takeLevels_other side prices _ _).trans (book_fillLevel_other lob side p _)

theorem find_fillLevel (lob : SimpleLOB) (side : Side) (p q filled : Int) :
    find ((lob.fillLevel side p filled).book side).entries q =
      if p = q then
        if (lob.book side).volume p - filled ≤ 0 then none
        else some ((lob.book side).volume p - filled)
      else find (lob.book side).entries q := by
  rw [book_fillLevel]
  split
  · exact find_erase
  · exact find_set _ p q _

theorem find_of_mem_keys {book : PriceMap} {p : Int} (h : p ∈ keys book.entries) :
    find book.entries p = some (book.volume p) := by
  obtain ⟨v, hv⟩ := Option.isSome_iff_exists.mp (find_isSome.mpr h)
  rw [PriceMap.volume, hv]
  rfl

/-- The prices of the loop keep what is left of them, the others are not touched. -/
theorem find_takeLevels (side : Side) : ∀ {prices : List Int}, prices.Nodup →
    ∀ (remaining : Int) (lob : SimpleLOB),
      (∀ p ∈ prices, p ∈ keys (lob.book side.other).entries) → ∀ q,
        find ((takeLevels side prices remaining lob).2.book side.other).entries q =
          if q ∈ prices then
            find (leftover (prices.map fun p => (p, (lob.book side.other).volume p)) remaining) q
          else find (lob.book side.other).entries q
  | [], _, _, _, _, _ => rfl
  | p :: prices, hnodup, remaining, lob, hmem, q => by
      obtain ⟨hfresh, hrest⟩ := List.nodup_cons.mp hnodup
      by_cases hdone : remaining ≤ 0
      · rw [takeLevels, if_pos hdone, leftover_of_nonpos hdone, find_graph]
        split
        · rename_i hq
          exact find_of_mem_keys (hmem q hq)
        · rfl
      · obtain ⟨-, hprices⟩ := List.forall_mem_cons.mp hmem
        generalize hfilled : min ((lob.book side.other).volume p) remaining = filled
        have hne : ∀ r ∈ prices, p ≠ r := fun r hr e => hfresh (e ▸ hr)
        -- the levels behind keep their volumes
        have hkeep : (prices.map fun r =>
              (r, ((lob.fillLevel side.other p filled).book side.other).volume r)) =
            prices.map fun r => (r, (lob.book side.other).volume r) :=
          List.map_congr_left fun r hr => by rw [volume_fillLevel (hne r hr)]
        have ih := find_takeLevels side hrest (remaining - filled)
          (lob.fillLevel side.other p filled) (fun r hr => by
            rw [← find_isSome, find_fillLevel, if_neg (hne r hr), find_isSome]
            exact hprices r hr) q
        rw [hkeep, find_fillLevel] at ih
        have hgone : p ∉ keys (prices.map fun r => (r, (lob.book side.other).volume r)) := by
          rw [keys, List.map_map]
          exact (List.map_id prices).symm ▸ hfresh
        rw [takeLevels, if_neg hdone, List.map_cons, leftover, if_neg hdone, hfilled]
        refine Eq.trans ih ?_
        by_cases hq : p = q
        · subst hq
          rw [if_neg hfresh, if_pos rfl, if_pos List.mem_cons_self]
          split
          · exact (find_leftover_of_notMem hgone _).symm
          · rw [find, if_pos rfl]
        · rw [if_neg hq]
          have hiff : q ∈ p :: prices ↔ q ∈ prices := by simp [Ne.symm hq]
          simp only [hiff]
          split
          · split
            · rfl
            · rw [find, if_neg hq]
          · rfl

theorem levels_keys (lob : SimpleLOB) (side : Side) :
    keys (lob.levels side) = lob.sortedPrices side := by
  rw [levels, keys, List.map_map]
  exact List.map_id _

theorem find_levels (lob : SimpleLOB) (side : Side) (q : Int) :
    find (lob.levels side) q = find (lob.book side.other).entries q := by
  rw [levels, find_graph]
  split
  · rename_i hq
    exact (find_of_mem_keys ((lob.sortedPrices_perm side).mem_iff.mp hq)).symm
  · rename_i hq
    rw [(lob.sortedPrices_perm side).mem_iff] at hq
    exact (find_eq_none.mpr hq).symm

theorem sortedPrices_sorted (lob : SimpleLOB) (side : Side) :
    (lob.sortedPrices side).Pairwise side.Meets := by
  have hnodup := lob.sortedPrices_nodup side
  cases side with
  | buy =>
      have hle := List.pairwise_insertionSort (· ≤ ·) (keys lob.asks.entries)
      exact (hnodup.and hle).imp fun {p q} h => lt_of_le_of_ne h.2 h.1
  | sell =>
      have hle := List.pairwise_insertionSort (· ≥ ·) (keys lob.bids.entries)
      exact (hnodup.and hle).imp fun {p q} h => lt_of_le_of_ne h.2 (Ne.symm h.1)

theorem levels_marketOrder (lob : SimpleLOB) (side : Side) (volume : Int) :
    (lob.marketOrder side volume).2.levels side = leftover (lob.levels side) volume := by
  have hkeys := leftover_keys (lob.levels side) volume
  rw [levels_keys] at hkeys
  refine levels_eq ((lob.sortedPrices_sorted side).sublist hkeys) fun q => ?_
  rw [marketOrder, find_takeLevels side (lob.sortedPrices_nodup side) volume lob
    fun p hp => (lob.sortedPrices_perm side).mem_iff.mp hp]
  split
  · rfl
  · rename_i hq
    rw [find_leftover_of_notMem (by rwa [levels_keys])]
    rw [(lob.sortedPrices_perm side).mem_iff] at hq
    exact (find_eq_none.mpr hq).symm

theorem levels_congr {lob lob' : SimpleLOB} (h : lob'.book side.other = lob.book side.other) :
    lob'.levels side = lob.levels side := by
  have hprices : lob'.sortedPrices side = lob.sortedPrices side := by
    cases side with
    | buy => exact congrArg (fun b => (keys b.entries).insertionSort (· ≤ ·)) h
    | sell => exact congrArg (fun b => (keys b.entries).insertionSort (· ≥ ·)) h
  rw [levels, levels, hprices, h]

theorem levels_marketOrder_other (lob : SimpleLOB) (side : Side) (volume : Int) :
    (lob.marketOrder side volume).2.levels side.other = lob.levels side.other := by
  refine levels_congr ?_
  rw [other_other]
  exact book_takeLevels_other side _ volume lob

theorem lastTradePrice_takeLevels (side : Side) : ∀ (prices : List Int) (remaining : Int)
    (lob : SimpleLOB), (takeLevels side prices remaining lob).2.lastTradePrice =
      ((takeLevels side prices remaining lob).1.getLast?.map Fill.price).getD lob.lastTradePrice
  | [], _, _ => rfl
  | p :: prices, remaining, lob => by
      rw [takeLevels]
      split
      · rfl
      · dsimp only
        generalize hfilled : min ((lob.book side.other).volume p) remaining = filled
        have ih := lastTradePrice_takeLevels side prices (remaining - filled)
          (lob.fillLevel side.other p filled)
        rw [ih]
        cases (takeLevels side prices (remaining - filled)
          (lob.fillLevel side.other p filled)).1 with
        | nil => rfl
        | cons f fs => rw [List.getLast?_cons_cons]; rfl

/-! ## The best prices -/

theorem bestBid_eq (lob : SimpleLOB) :
    lob.bestBid = ((lob.levels .sell).head?.map Prod.fst).getD 0 := by
  have hperm := lob.sortedPrices_perm .sell
  have hsorted := lob.sortedPrices_sorted .sell
  rw [← List.head?_map, ← keys, levels_keys, bestBid]
  congr 1
  cases hprices : lob.sortedPrices .sell with
  | nil =>
      rw [hprices] at hperm
      exact (List.max?_eq_none_iff.mpr hperm.nil_eq.symm)
  | cons p prices =>
      rw [hprices] at hperm hsorted
      refine List.max?_eq_some_iff.mpr ⟨hperm.subset List.mem_cons_self, fun q hq => ?_⟩
      rcases List.mem_cons.mp (hperm.symm.subset hq) with rfl | hq
      · exact le_rfl
      · exact le_of_lt (List.rel_of_pairwise_cons hsorted hq)

theorem bestAsk_eq (lob : SimpleLOB) :
    lob.bestAsk = (lob.levels .buy).head?.map Prod.fst := by
  have hperm := lob.sortedPrices_perm .buy
  have hsorted := lob.sortedPrices_sorted .buy
  rw [← List.head?_map, ← keys, levels_keys, bestAsk]
  cases hprices : lob.sortedPrices .buy with
  | nil =>
      rw [hprices] at hperm
      exact (List.min?_eq_none_iff.mpr hperm.nil_eq.symm)
  | cons p prices =>
      rw [hprices] at hperm hsorted
      refine List.min?_eq_some_iff.mpr ⟨hperm.subset List.mem_cons_self, fun q hq => ?_⟩
      rcases List.mem_cons.mp (hperm.symm.subset hq) with rfl | hq
      · exact le_rfl
      · exact le_of_lt (List.rel_of_pairwise_cons hsorted hq)

end SimpleLOB

end VidhiArena.Forge.LocalGM
