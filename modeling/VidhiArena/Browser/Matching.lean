import VidhiArena.Browser.PersistentLOB
import VidhiArena.Foundation.SortedListing

/-!
# The calls of the browser book on a sorted listing

A side of the book is a map that is sorted for every market order. `Listed lob side l`
says that `l` is that side, best price first; the three operations are what they do to the
listing.
-/

namespace VidhiArena.Browser

open Foundation.OrderedMap

instance (side : Side) : IsStrictTotalOrder Int side.before := by
  cases side <;> unfold Side.before <;> infer_instance

@[simp] theorem Side.other_other (side : Side) : side.other.other = side := by
  cases side <;> rfl

theorem Side.other_ne (side : Side) : side.other ≠ side := by
  cases side <;> decide

namespace PersistentLOB

variable {ρ : Type} {base : Int} {lob : PersistentLOB ρ} {side : Side} {l : Levels ρ}

def Listed (lob : PersistentLOB ρ) (side : Side) (l : Levels ρ) : Prop :=
  Lists side.before (lob.book side) l

@[simp] theorem book_setBook (lob : PersistentLOB ρ) (side : Side) (book : Levels ρ) :
    (lob.setBook side book).book side = book := by
  cases side <;> rfl

theorem book_setBook_other (lob : PersistentLOB ρ) {side s : Side} (h : s ≠ side)
    (book : Levels ρ) : (lob.setBook side book).book s = lob.book s := by
  cases side <;> cases s <;> first | rfl | exact absurd rfl h

@[simp] theorem book_rebuildBest (base : Int) (lob : PersistentLOB ρ) (s : Side) :
    (_rebuildBest base lob).book s = lob.book s := by
  cases s <;> rfl

@[simp] theorem book_recordTrades (fills : List (Fill ρ)) (lob : PersistentLOB ρ) (s : Side) :
    (recordTrades fills lob).book s = lob.book s := by
  unfold recordTrades
  split
  · rfl
  · cases s <;> rfl

@[simp] theorem nextOrderId_setBook (lob : PersistentLOB ρ) (side : Side) (book : Levels ρ) :
    (lob.setBook side book).nextOrderId = lob.nextOrderId := by
  cases side <;> rfl

@[simp] theorem nextOrderId_recordTrades (fills : List (Fill ρ)) (lob : PersistentLOB ρ) :
    (recordTrades fills lob).nextOrderId = lob.nextOrderId := by
  unfold recordTrades
  split <;> rfl

/-! ## Adding and cancelling -/

/-- A new order at the end of its level. -/
def enqueue (volume : Int) (order : Order ρ) (level : Level ρ) : Level ρ :=
  ⟨level.volume + volume, level.orders ++ [order]⟩

theorem addOrder_book (lob : PersistentLOB ρ) (side : Side) (key volume : Int)
    (participantId : ρ) : (lob.addOrder side key volume participantId).2.book side =
      modify (push (lob.book side) key ⟨0, []⟩) key
        (enqueue volume ⟨lob.nextOrderId, participantId, volume⟩) := by
  cases side <;> rfl

theorem addOrder_book_other (lob : PersistentLOB ρ) {side s : Side} (h : s ≠ side)
    (key volume : Int) (participantId : ρ) :
    (lob.addOrder side key volume participantId).2.book s = lob.book s := by
  cases side <;> cases s <;> first | rfl | exact absurd rfl h

theorem Listed.addOrder (h : lob.Listed side l) (key volume : Int) (participantId : ρ) :
    (lob.addOrder side key volume participantId).2.Listed side
      (modify (access (fun a b => decide (side.before a b)) l key ⟨0, []⟩) key
        (enqueue volume ⟨lob.nextOrderId, participantId, volume⟩)) := by
  unfold Listed
  rw [addOrder_book]
  exact (h.push key _).modify key _

def cancelListing (key : Int) (orderId : Nat) (l : Levels ρ) : Levels ρ :=
  match find l key with
  | none => l
  | some level =>
      match level.orders.find? (·.id = orderId) with
      | none => l
      | some order =>
          if level.volume - order.volume ≤ 0 then erase l key
          else modify l key fun _ =>
            ⟨level.volume - order.volume, level.orders.eraseP (·.id = orderId)⟩

theorem cancelOrder_listed (base : Int) (h : lob.Listed side l) (key : Int) (orderId : Nat) :
    (cancelOrder base lob side key orderId).2.Listed side (cancelListing key orderId l) ∧
      (cancelOrder base lob side key orderId).2.book side.other = lob.book side.other ∧
      (cancelOrder base lob side key orderId).2.nextOrderId = lob.nextOrderId ∧
      ((cancelOrder base lob side key orderId).1 = true ↔
        ∃ level, find l key = some level ∧ ∃ o ∈ level.orders, o.id = orderId) := by
  unfold cancelListing
  rcases cancelOrder_cases base lob side key orderId with
    ⟨heq, hnone⟩ | ⟨level, order, hfind, horder, ⟨hgone, heq⟩ | ⟨hkept, heq⟩⟩
  · rw [heq]
    rw [h.same] at hnone
    refine ⟨?_, rfl, rfl, fun h => absurd h Bool.false_ne_true, ?_⟩
    · cases hfind : find l key with
      | none => exact h
      | some level =>
          have : level.orders.find? (·.id = orderId) = none :=
            List.find?_eq_none.mpr fun o ho => by simpa using hnone level hfind o ho
          simp only [this]
          exact h
    · rintro ⟨level, hfind, o, ho, hid⟩
      exact absurd hid (hnone level hfind o ho)
  · have hid : order.id = orderId := by simpa using List.find?_some horder
    have hmem := List.mem_of_find?_eq_some horder
    rw [h.same] at hfind
    simp only [heq, hfind, horder, if_pos hgone]
    refine ⟨?_, ?_, ?_, fun _ => ⟨level, rfl, order, hmem, hid⟩, fun _ => trivial⟩
    · unfold Listed
      split
      · rw [book_rebuildBest, book_setBook]
        exact h.erase key
      · rw [book_setBook]
        exact h.erase key
    · split
      · exact (book_rebuildBest _ _ _).trans (book_setBook_other lob side.other_ne _)
      · exact book_setBook_other lob side.other_ne _
    · split <;> exact nextOrderId_setBook lob side _
  · have hid : order.id = orderId := by simpa using List.find?_some horder
    have hmem := List.mem_of_find?_eq_some horder
    rw [h.same] at hfind
    simp only [heq, hfind, horder, if_neg hkept]
    refine ⟨?_, book_setBook_other lob side.other_ne _, nextOrderId_setBook lob side _,
      fun _ => ⟨level, rfl, order, hmem, hid⟩, fun _ => trivial⟩
    unfold Listed
    rw [book_setBook]
    exact h.modify key _

theorem cancelOrder_absent (base : Int) (h : lob.Listed side l) {key : Int} {orderId : Nat}
    (habs : ∀ level, (key, level) ∈ l → ∀ o ∈ level.orders, o.id ≠ orderId) :
    cancelOrder base lob side key orderId = (false, lob) := by
  rcases cancelOrder_cases base lob side key orderId with ⟨heq, -⟩ | ⟨level, order, hfind, horder, -⟩
  · exact heq
  · rw [h.same] at hfind
    exact absurd (by simpa using List.find?_some horder)
      (habs level (mem_of_find hfind) order (List.mem_of_find?_eq_some horder))

/-! ## Matching -/

/-- A market order on a listing: the fills, and the levels that are left. -/
def takeListing (side : Side) (participantId : ρ) :
    Int → Levels ρ → List (Fill ρ) × Levels ρ
  | _, [] => ([], [])
  | remaining, (price, level) :: l =>
      if 0 < remaining then
        let r := takeOrders side participantId price remaining level.volume level.orders
        let r' := takeListing side participantId r.2.1 l
        (r.1 ++ r'.1, if r.2.2.volume ≤ 0 then r'.2 else (price, r.2.2) :: r'.2)
      else ([], (price, level) :: l)

/-- The outer loop visits the listing; `pre` is what it has left behind. -/
theorem takeLevels_listed (base : Int) (side : Side) (participantId : ρ) :
    ∀ (l : Levels ρ) (pre : Levels ρ) (remaining : Int) {lob : PersistentLOB ρ},
      lob.Listed side.other (pre ++ l) →
      (takeLevels base side participantId (keys l) remaining lob).1 =
          (takeListing side participantId remaining l).1 ∧
        (takeLevels base side participantId (keys l) remaining lob).2.Listed side.other
          (pre ++ (takeListing side participantId remaining l).2) ∧
        (takeLevels base side participantId (keys l) remaining lob).2.book side =
          lob.book side ∧
        (takeLevels base side participantId (keys l) remaining lob).2.nextOrderId =
          lob.nextOrderId := by
  intro l
  induction l with
  | nil => exact fun pre remaining lob h => ⟨rfl, h, rfl, rfl⟩
  | cons entry l ih =>
      obtain ⟨price, level⟩ := entry
      intro pre remaining lob h
      have hnodup := h.nodup_listing
      have hfind : find (lob.book side.other) price = some level := by
        rw [h.same]
        exact find_of_mem hnodup (List.mem_append_right _ List.mem_cons_self)
      have hne : side ≠ side.other := side.other_ne.symm
      by_cases hrem : 0 < remaining
      · simp only [takeListing, if_pos hrem]
        rw [show keys ((price, level) :: l) = price :: keys l from rfl, takeLevels, if_pos hrem,
          hfind]
        simp only
        generalize hr : takeOrders side participantId price remaining level.volume level.orders = r
        obtain ⟨fills, remaining', level'⟩ := r
        simp only
        by_cases hgone : level'.volume ≤ 0
        · simp only [if_pos hgone]
          have hleft : (_rebuildBest base (lob.setBook side.other
              (erase (lob.book side.other) price))).Listed side.other (pre ++ l) := by
            unfold Listed
            rw [book_rebuildBest, book_setBook, ← erase_middle hnodup]
            exact h.erase price
          obtain ⟨hfills, hlisted, hbook, hnext⟩ := ih pre remaining' hleft
          refine ⟨congrArg (fills ++ ·) hfills, hlisted, hbook.trans ?_, hnext.trans ?_⟩
          · rw [book_rebuildBest, book_setBook_other _ hne]
          · exact nextOrderId_setBook lob side.other _
        · simp only [if_neg hgone]
          have hkept : (lob.setBook side.other (modify (lob.book side.other) price
              fun _ => level')).Listed side.other ((pre ++ [(price, level')]) ++ l) := by
            unfold Listed
            rw [book_setBook, List.append_assoc, List.singleton_append,
              ← modify_middle (f := fun _ => level') hnodup]
            exact h.modify price _
          obtain ⟨hfills, hlisted, hbook, hnext⟩ := ih _ remaining' hkept
          rw [List.append_assoc, List.singleton_append] at hlisted
          refine ⟨congrArg (fills ++ ·) hfills, hlisted, hbook.trans ?_, hnext.trans ?_⟩
          · rw [book_setBook_other _ hne]
          · exact nextOrderId_setBook lob side.other _
      · simp only [takeListing, if_neg hrem]
        rw [show keys ((price, level) :: l) = price :: keys l from rfl, takeLevels, if_neg hrem]
        exact ⟨rfl, h, rfl, rfl⟩

theorem sortedPrices_listed (h : lob.Listed side.other l) : lob.sortedPrices side = keys l := by
  cases side with
  | buy => exact h.sort fun _ _ => le_of_lt
  | sell => exact h.sort fun _ _ => le_of_lt

/-- A market order on the book is the market order on the listing. -/
theorem marketOrder_listed (base : Int) (h : lob.Listed side.other l) (volume : Int)
    (participantId : ρ) :
    (marketOrder base lob side volume participantId).1 =
        (takeListing side participantId volume l).1 ∧
      (marketOrder base lob side volume participantId).2.Listed side.other
        (takeListing side participantId volume l).2 ∧
      (marketOrder base lob side volume participantId).2.book side = lob.book side ∧
      (marketOrder base lob side volume participantId).2.nextOrderId = lob.nextOrderId := by
  obtain ⟨hfills, hlisted, hbook, hnext⟩ :=
    takeLevels_listed base side participantId l [] volume h
  rw [← sortedPrices_listed h] at hfills hlisted hbook hnext
  refine ⟨hfills, ?_, ?_, ?_⟩
  · unfold Listed
    rw [show (marketOrder base lob side volume participantId).2 = recordTrades _ _ from rfl,
      book_recordTrades]
    exact hlisted
  · exact (book_recordTrades _ _ _).trans hbook
  · exact (nextOrderId_recordTrades _ _).trans hnext

end PersistentLOB

end VidhiArena.Browser
