import Mathlib.Algebra.Order.BigOperators.Group.List
import Mathlib.Algebra.Order.Group.Unbundled.Int
import Mathlib.Algebra.Ring.Int.Defs

/-!
# Taking from a row of stocks

`sweep stocks amount` takes an amount from the front of a row of stocks, as much of each as
there is, until the amount is reached: what a market order does to the levels of a book.
`sweep_all_iff` says when it stays within a front part of the row, `sweep_total` how much it
gets.
-/

namespace VidhiArena.Foundation

variable {κ : Type}

def sweep : List (κ × Int) → Int → List (κ × Int)
  | [], _ => []
  | (k, avail) :: stocks, remaining =>
      if remaining ≤ 0 then []
      else (k, min avail remaining) :: sweep stocks (remaining - min avail remaining)

def stock (stocks : List (κ × Int)) : Int := (stocks.map Prod.snd).sum

@[simp] theorem stock_nil : stock ([] : List (κ × Int)) = 0 := rfl

@[simp] theorem stock_cons (k : κ) (avail : Int) (stocks : List (κ × Int)) :
    stock ((k, avail) :: stocks) = avail + stock stocks := List.sum_cons

theorem sweep_of_nonpos {remaining : Int} (h : remaining ≤ 0) (stocks : List (κ × Int)) :
    sweep stocks remaining = [] := by
  cases stocks with
  | nil => rfl
  | cons x stocks => exact if_pos h

/-- A sweep stays within the front part of the row, whose keys satisfy `P`, if and only if
there is nothing behind it, or stocks at its front hold the amount. Stocks may be negative. -/
theorem sweep_all_iff {P : κ → Prop} {beyond : List (κ × Int)} (hbeyond : ∀ x ∈ beyond, ¬ P x.1) :
    ∀ {within : List (κ × Int)}, (∀ x ∈ within, P x.1) → ∀ remaining : Int,
      (∀ x ∈ sweep (within ++ beyond) remaining, P x.1) ↔
        beyond = [] ∨ ∃ front, front <+: within ∧ remaining ≤ stock front
  | [], _, remaining => by
      simp only [List.nil_append, List.prefix_nil, exists_eq_left, stock_nil]
      cases beyond with
      | nil => simp [sweep]
      | cons x beyond =>
          by_cases hrem : remaining ≤ 0
          · simp [sweep_of_nonpos hrem, hrem]
          · simp only [reduceCtorEq, hrem, or_self, iff_false, sweep, if_false]
            intro h
            exact hbeyond x List.mem_cons_self (List.forall_mem_cons.mp h).1
  | (k, avail) :: within, hwithin, remaining => by
      by_cases hrem : remaining ≤ 0
      · rw [sweep_of_nonpos hrem]
        refine iff_of_true (fun x hx => absurd hx List.not_mem_nil) (Or.inr ⟨[], ?_, hrem⟩)
        exact List.nil_prefix
      · obtain ⟨hhead, htail⟩ := List.forall_mem_cons.mp hwithin
        rw [List.cons_append, sweep, if_neg hrem, List.forall_mem_cons, and_iff_right hhead,
          sweep_all_iff hbeyond htail]
        refine or_congr_right ⟨?_, ?_⟩
        · rintro ⟨front, hfront, hle⟩
          rcases le_total avail remaining with h | h
          · rw [min_eq_left h] at hle
            refine ⟨(k, avail) :: front, List.cons_prefix_cons.mpr ⟨rfl, hfront⟩, ?_⟩
            rw [stock_cons]
            exact sub_le_iff_le_add'.mp hle
          · refine ⟨[(k, avail)], List.cons_prefix_cons.mpr ⟨rfl, List.nil_prefix⟩, ?_⟩
            rw [stock_cons, stock_nil, add_zero]
            exact h
        · rintro ⟨front, hfront, hle⟩
          rcases le_total avail remaining with h | h
          · cases front with
            | nil => exact absurd hle hrem
            | cons x front =>
                obtain ⟨rfl, hrest⟩ := List.cons_prefix_cons.mp hfront
                rw [stock_cons] at hle
                refine ⟨front, hrest, ?_⟩
                rw [min_eq_left h]
                exact sub_le_iff_le_add'.mpr hle
          · refine ⟨[], List.nil_prefix, ?_⟩
            rw [min_eq_right h, sub_self]
            exact le_rfl

/-- What a sweep leaves of the amount. -/
def unmet : List (κ × Int) → Int → Int
  | [], remaining => remaining
  | (_, avail) :: stocks, remaining =>
      if remaining ≤ 0 then remaining else unmet stocks (remaining - min avail remaining)

theorem unmet_of_nonpos {remaining : Int} (h : remaining ≤ 0) (stocks : List (κ × Int)) :
    unmet stocks remaining = remaining := by
  cases stocks with
  | nil => rfl
  | cons x stocks => exact if_pos h

theorem sweep_append (stocks' : List (κ × Int)) : ∀ (stocks : List (κ × Int)) (remaining : Int),
    sweep (stocks ++ stocks') remaining =
      sweep stocks remaining ++ sweep stocks' (unmet stocks remaining)
  | [], _ => rfl
  | (k, avail) :: stocks, remaining => by
      by_cases hrem : remaining ≤ 0
      · rw [sweep_of_nonpos hrem, sweep_of_nonpos hrem, unmet_of_nonpos hrem,
          sweep_of_nonpos hrem, List.append_nil]
      · rw [List.cons_append, sweep, sweep, unmet, if_neg hrem, if_neg hrem, if_neg hrem,
          sweep_append stocks' stocks, List.cons_append]

theorem sweep_total : ∀ {stocks : List (κ × Int)}, (∀ x ∈ stocks, 0 ≤ x.2) →
    ∀ {amount : Int}, 0 ≤ amount → stock (sweep stocks amount) = min amount (stock stocks)
  | [], _, amount, hamount => (min_eq_right hamount).symm
  | (k, avail) :: stocks, hstocks, amount, hamount => by
      obtain ⟨havail, hrest⟩ := List.forall_mem_cons.mp hstocks
      have hstock : 0 ≤ stock stocks := by
        refine List.sum_nonneg fun n hn => ?_
        obtain ⟨x, hx, rfl⟩ := List.mem_map.mp hn
        exact hrest x hx
      by_cases hzero : amount ≤ 0
      · rw [sweep_of_nonpos hzero, stock_nil, stock_cons]
        rw [le_antisymm hzero hamount]
        exact (min_eq_left (add_nonneg havail hstock)).symm
      · rw [sweep, if_neg hzero, stock_cons, stock_cons,
          sweep_total hrest (sub_nonneg.mpr (min_le_right _ _))]
        omega

/-- A row in which the keys with `P` come first, cut where they end. -/
theorem filter_append_filter_not {α : Type} {P : α → Prop} [DecidablePred P] :
    ∀ {l : List α}, l.Pairwise (fun a b => P b → P a) →
      l.filter (P ·) ++ l.filter (¬ P ·) = l
  | [], _ => rfl
  | a :: l, h => by
      obtain ⟨hhead, htail⟩ := List.pairwise_cons.mp h
      by_cases ha : P a
      · rw [List.filter_cons_of_pos (by simpa using ha),
          List.filter_cons_of_neg (by simpa using ha), List.cons_append,
          filter_append_filter_not htail]
      · have hnone : l.filter (P ·) = [] := by
          refine List.filter_eq_nil_iff.mpr fun b hb => ?_
          simpa using fun hPb => ha (hhead b hb hPb)
        have hall : l.filter (¬ P ·) = l := by
          refine List.filter_eq_self.mpr fun b hb => ?_
          simpa using fun hPb => ha (hhead b hb hPb)
        rw [List.filter_cons_of_neg (by simpa using ha),
          List.filter_cons_of_pos (by simpa using ha), hnone, hall, List.nil_append]

end VidhiArena.Foundation
