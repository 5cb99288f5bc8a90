import VidhiArena.Forge.LocalGM

/-!
# Limit prices in the Python Game Master

A limit order whose price reaches the snapshot is executed as a market order, which goes
through the book without looking at the price. `respectsLimits_iff` says which tick keeps to
the limits of its orders: at the turn of every such order, the levels within its limit
hold its volume, or the book has no others.
-/

namespace VidhiArena.Forge.LocalGM

open Foundation OrderedMap

namespace ContestantOrder

/-- The order is willing to trade at the price. -/
def Accepts : ContestantOrder → Int → Prop
  | limit .buy price _, p => p ≤ price
  | limit .sell price _, p => price ≤ p
  | market _ _, _ => True

instance : ∀ (o : ContestantOrder) (p : Int), Decidable (o.Accepts p)
  | limit .buy _ _, _ => inferInstanceAs (Decidable (_ ≤ _))
  | limit .sell _ _, _ => inferInstanceAs (Decidable (_ ≤ _))
  | market _ _, _ => inferInstanceAs (Decidable True)

/-- The levels within the limit, best first. -/
def within (o : ContestantOrder) (lob : SimpleLOB) : List (Int × Int) :=
  (lob.levels o.side).filter fun x => o.Accepts x.1

/-- The book has no level beyond the limit, or the levels within it hold the volume: all of
them or, where some are negative, the first few. -/
def Covered (o : ContestantOrder) (lob : SimpleLOB) : Prop :=
  (∀ x ∈ lob.levels o.side, o.Accepts x.1) ∨
    ∃ front, front <+: o.within lob ∧ o.volume ≤ stock front

/-- The condition on an order, at its turn. -/
def Safe (snap : Snapshot) (d : Desk) (o : ContestantOrder) : Prop :=
  d.HeldBack o.side ∨ ¬ o.Marketable snap ∨ o.Covered d.lob

end ContestantOrder

/-- No fill of any order of the tick is beyond the limit of the order. -/
def RespectsLimits (snap : Snapshot) (d : Desk) (orders : List ContestantOrder) : Prop :=
  ∀ pre o, pre ++ [o] <+: orders →
    ∀ f ∈ ((Desk.processAll snap d pre).process snap o).1, o.Accepts f.price

theorem levels_sorted (o : ContestantOrder) (lob : SimpleLOB) :
    (lob.levels o.side).Pairwise fun x y => o.Accepts y.1 → o.Accepts x.1 := by
  refine List.pairwise_map.mpr ?_
  cases o with
  | market side volume => exact List.pairwise_of_forall fun _ _ _ => trivial
  | limit side price volume =>
      cases side with
      | buy =>
          exact (List.pairwise_insertionSort (· ≤ ·) _).imp fun hle haccepts =>
            le_trans hle haccepts
      | sell =>
          exact (List.pairwise_insertionSort (· ≥ ·) _).imp fun hle haccepts =>
            le_trans haccepts hle

theorem marketOrder_accepts_iff (o : ContestantOrder) (lob : SimpleLOB) :
    (∀ f ∈ (lob.marketOrder o.side o.volume).1, o.Accepts f.price) ↔ o.Covered lob := by
  have hsplit := filter_append_filter_not (levels_sorted o lob)
  rw [SimpleLOB.marketOrder_fills, List.forall_mem_map]
  have hwithin : ∀ x ∈ o.within lob, o.Accepts x.1 :=
    fun x hx => of_decide_eq_true (List.mem_filter.mp hx).2
  have hbeyond : ∀ x ∈ (lob.levels o.side).filter (¬ o.Accepts ·.1), ¬ o.Accepts x.1 :=
    fun x hx => of_decide_eq_true (List.mem_filter.mp hx).2
  have hsweep := sweep_all_iff hbeyond hwithin o.volume
  rw [ContestantOrder.within, hsplit] at hsweep
  refine hsweep.trans (or_congr_left ?_)
  simp [List.filter_eq_nil_iff]

theorem process_accepts_iff (snap : Snapshot) (d : Desk) (o : ContestantOrder) :
    (∀ f ∈ (d.process snap o).1, o.Accepts f.price) ↔ o.Safe snap d := by
  unfold Desk.process ContestantOrder.Safe
  by_cases hheld : d.HeldBack o.side
  · simp [hheld]
  · by_cases hmarketable : o.Marketable snap
    · simp only [hheld, hmarketable, if_false, if_true, not_true, false_or]
      exact marketOrder_accepts_iff o d.lob
    · rw [if_neg hheld, if_neg hmarketable]
      refine iff_of_true ?_ (Or.inr (Or.inl hmarketable))
      cases o with
      | market side volume => exact absurd trivial hmarketable
      | limit side price volume => exact fun f hf => absurd hf List.not_mem_nil

/-- When a tick keeps to the limit prices: every order is held back, rests, or is covered by
the levels within its limit, in the state that the orders before it have left. -/
theorem respectsLimits_iff (snap : Snapshot) (d : Desk) (orders : List ContestantOrder) :
    RespectsLimits snap d orders ↔
      Along (fun d o => (d.process snap o).2) (ContestantOrder.Safe snap) d orders := by
  rw [along_iff]
  refine forall_congr' fun pre => forall_congr' fun o => imp_congr_right fun _ => ?_
  exact process_accepts_iff snap _ o

/-- Asks of one share at 100 and ten at 105: a bid of five at 100 pays 105 for four of
them. -/
theorem not_respectsLimits_deep :
    ¬ RespectsLimits
      ((SimpleLOB.new.addOrder .sell 100 1).addOrder .sell 105 10).snapshot
      { Desk.new with lob := (SimpleLOB.new.addOrder .sell 100 1).addOrder .sell 105 10 }
      [.limit .buy 100 5] := by
  intro h
  have hfill := h [] (.limit .buy 100 5) List.prefix_rfl ⟨105, 4⟩ (by decide)
  exact absurd hfill (by decide)

end VidhiArena.Forge.LocalGM
