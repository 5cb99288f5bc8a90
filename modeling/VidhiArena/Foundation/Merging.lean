import VidhiArena.Foundation.OrderedMap
import VidhiArena.Foundation.Sweeping

/-!
# Stocks that are added up

What a sweep leaves of a row of stocks (`leftover`), and a row in which neighbours of one key
are added up (`merged`): a queue of orders at one price is a single stock to a book that
knows prices only.
-/

namespace VidhiArena.Foundation

open OrderedMap

variable {κ κ' : Type}

/-! ## What is left -/

/-- A stock that is used up is gone. -/
def leftover : List (κ × Int) → Int → List (κ × Int)
  | [], _ => []
  | (k, avail) :: stocks, remaining =>
      if remaining ≤ 0 then (k, avail) :: stocks
      else if avail - min avail remaining ≤ 0 then
        leftover stocks (remaining - min avail remaining)
      else (k, avail - min avail remaining) :: leftover stocks (remaining - min avail remaining)

theorem leftover_of_nonpos {remaining : Int} (h : remaining ≤ 0) (stocks : List (κ × Int)) :
    leftover stocks remaining = stocks := by
  cases stocks with
  | nil => rfl
  | cons x stocks => exact if_pos h

theorem leftover_keys : ∀ (stocks : List (κ × Int)) (remaining : Int),
    (keys (leftover stocks remaining)).Sublist (keys stocks)
  | [], _ => List.Sublist.slnil
  | (k, avail) :: stocks, remaining => by
      rw [leftover]
      split
      · exact List.Sublist.refl _
      · split
        · exact (leftover_keys stocks _).cons _
        · exact (leftover_keys stocks _).cons_cons _

theorem find_leftover_of_notMem [DecidableEq κ] {k : κ} {stocks : List (κ × Int)}
    (h : k ∉ keys stocks) (remaining : Int) : find (leftover stocks remaining) k = none :=
  find_eq_none.mpr fun hmem => h ((leftover_keys stocks remaining).subset hmem)

theorem find_graph [DecidableEq κ] (f : κ → Int) (k : κ) : ∀ ks : List κ,
    find (ks.map fun k => (k, f k)) k = if k ∈ ks then some (f k) else none
  | [] => rfl
  | k' :: ks => by
      rw [List.map_cons, find, find_graph f k ks]
      by_cases h : k' = k
      · simp [h]
      · simp [h, Ne.symm h]

theorem find_middle [DecidableEq κ] {k : κ} {n : Int} {pre mid post : List (κ × Int)}
    (hpre : k ∉ keys pre) (hmid : ∀ x ∈ mid, x.1 = k) (k' : κ) :
    find (pre ++ (k, n) :: post) k' =
      if k = k' then some n else find (pre ++ mid ++ post) k' := by
  rw [find_append, find_append, find_append, find]
  split
  · rename_i heq
    subst heq
    rw [find_eq_none.mpr hpre]
    rfl
  · rename_i hne
    have hnone : find mid k' = none := by
      refine find_eq_none.mpr fun hmem => ?_
      obtain ⟨x, hx, rfl⟩ := List.mem_map.mp hmem
      exact hne (hmid x hx).symm
    rw [hnone, Option.or_none]

theorem sweep_renamed (f : κ → κ') : ∀ (stocks : List (κ × Int)) (remaining : Int),
    sweep (stocks.map fun x => (f x.1, x.2)) remaining =
      (sweep stocks remaining).map fun x => (f x.1, x.2)
  | [], _ => rfl
  | (k, avail) :: stocks, remaining => by
      simp only [List.map_cons, sweep]
      split
      · rfl
      · rw [sweep_renamed f stocks, List.map_cons]

theorem leftover_renamed (f : κ → κ') : ∀ (stocks : List (κ × Int)) (remaining : Int),
    leftover (stocks.map fun x => (f x.1, x.2)) remaining =
      (leftover stocks remaining).map fun x => (f x.1, x.2)
  | [], _ => rfl
  | (k, avail) :: stocks, remaining => by
      simp only [List.map_cons, leftover, leftover_renamed f stocks]
      split
      · rfl
      · split
        · rfl
        · rfl

/-! ## Adding up -/

variable [DecidableEq κ]

/-- One stock more in front of a row. -/
def stack (x : κ × Int) : List (κ × Int) → List (κ × Int)
  | [] => [x]
  | y :: stocks => if x.1 = y.1 then (x.1, x.2 + y.2) :: stocks else x :: y :: stocks

/-- Neighbours of one key are one stock. -/
def merged (stocks : List (κ × Int)) : List (κ × Int) := stocks.foldr stack []

theorem merged_head? (x : κ × Int) (stocks : List (κ × Int)) :
    (merged (x :: stocks)).head?.map Prod.fst = some x.1 := by
  rw [merged, List.foldr_cons]
  cases stocks.foldr stack [] with
  | nil => rfl
  | cons y rest =>
      rw [stack]
      split <;> rfl

theorem merged_cons_of_ne {x : κ × Int} {stocks : List (κ × Int)}
    (h : ∀ y ∈ stocks.head?, x.1 ≠ y.1) : merged (x :: stocks) = x :: merged stocks := by
  cases stocks with
  | nil => rfl
  | cons y stocks =>
      have hne : x.1 ≠ y.1 := h y rfl
      have hhead := merged_head? y stocks
      show stack x (merged (y :: stocks)) = _
      cases hmerged : merged (y :: stocks) with
      | nil => rfl
      | cons z rest =>
          rw [hmerged, List.head?_cons, Option.map_some, Option.some.injEq] at hhead
          exact if_neg (hhead ▸ hne)

theorem merged_block {k : κ} {stocks : List (κ × Int)} (hrest : ∀ y ∈ stocks.head?, k ≠ y.1) :
    ∀ {block : List (κ × Int)}, block ≠ [] → (∀ x ∈ block, x.1 = k) →
      merged (block ++ stocks) = (k, stock block) :: merged stocks
  | [], hne, _ => absurd rfl hne
  | [(k', n)], _, hkey => by
      obtain rfl : k' = k := hkey _ List.mem_cons_self
      rw [List.singleton_append, merged_cons_of_ne hrest, stock_cons, stock_nil, add_zero]
  | (k', n) :: x :: block, _, hkey => by
      obtain ⟨rfl, hkeys⟩ := List.forall_mem_cons.mp hkey
      have ih := merged_block hrest (List.cons_ne_nil x block) hkeys
      show stack (k', n) (merged (x :: block ++ stocks)) = _
      rw [ih, stack, if_pos rfl, stock_cons]
      rfl

theorem merged_getLast? : ∀ stocks : List (κ × Int),
    (merged stocks).getLast?.map Prod.fst = stocks.getLast?.map Prod.fst
  | [] => rfl
  | x :: stocks => by
      have ih := merged_getLast? stocks
      show (stack x (merged stocks)).getLast?.map Prod.fst = _
      cases stocks with
      | nil => rfl
      | cons y stocks =>
          rw [List.getLast?_cons_cons, ← ih]
          cases hmerged : merged (y :: stocks) with
          | nil =>
              have hhead := merged_head? y stocks
              rw [hmerged] at hhead
              cases hhead
          | cons z rest =>
              rw [stack]
              split
              · rename_i heq
                cases rest with
                | nil => exact congrArg some heq
                | cons w rest => rfl
              · rw [List.getLast?_cons_cons]

end VidhiArena.Foundation
