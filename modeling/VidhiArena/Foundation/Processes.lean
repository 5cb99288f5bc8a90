import Mathlib.Algebra.BigOperators.Group.List.Basic
import Mathlib.Data.List.Basic
import Mathlib.Order.Nat

/-!
# Lists of processes

A system of any number of processes is a list; a step of one of them sets its entry. How the
number of processes with a property changes then, and what the list holds. A system in which
some step brings the end nearer can come to its end; one process whose own steps count down
comes to its goal whatever the others do in between.
-/

namespace VidhiArena.Foundation

/-! ## Counting -/

section Counting

variable {α : Type} {p : α → Bool}

theorem countP_set {l : List α} : ∀ {i : Nat} {x : α}, l[i]? = some x → ∀ y,
    (l.set i y).countP p + (p x).toNat = l.countP p + (p y).toNat := by
  induction l with
  | nil => exact fun h => nomatch h
  | cons z l ih =>
      intro i x h y
      cases i with
      | zero =>
          cases h
          rw [List.set_cons_zero, List.countP_cons, List.countP_cons]
          cases p z <;> cases p y <;> simp
      | succ i =>
          have := ih (i := i) h y
          rw [List.set_cons_succ, List.countP_cons, List.countP_cons]
          omega

theorem countP_set_le {y : α} (hy : p y = false) (l : List α) (i : Nat) :
    (l.set i y).countP p ≤ l.countP p := by
  cases hx : l[i]? with
  | none => rw [List.set_eq_of_length_le (List.getElem?_eq_none_iff.mp hx)]
  | some x =>
      have hset := countP_set (p := p) hx y
      rw [hy] at hset
      exact (Nat.le_add_right _ _).trans (le_of_eq hset)

theorem countP_erase_add [DecidableEq α] {l : List α} {x : α} (h : x ∈ l) :
    (l.erase x).countP p + (p x).toNat = l.countP p := by
  rw [(List.perm_cons_erase h).countP_eq p, List.countP_cons]
  cases p x <;> rfl

theorem countP_erase_ge [DecidableEq α] (l : List α) (x : α) :
    l.countP p ≤ (l.erase x).countP p + (p x).toNat := by
  by_cases h : x ∈ l
  · exact le_of_eq (countP_erase_add h).symm
  · rw [List.erase_of_not_mem h]
    exact Nat.le_add_right _ _

theorem countP_append_singleton (l : List α) (x : α) :
    (l ++ [x]).countP p = l.countP p + (p x).toNat := by
  rw [List.countP_append, List.countP_singleton]
  cases p x <;> rfl

theorem eq_of_countP_le_one {l : List α} : ∀ {i j : Nat} {x y : α}, l.countP p ≤ 1 →
    l[i]? = some x → l[j]? = some y → p x = true → p y = true → i = j := by
  induction l with
  | nil => exact fun _ h => nomatch h
  | cons z l ih =>
      intro i j x y hle hi hj hx hy
      rw [List.countP_cons] at hle
      cases i with
      | zero =>
          cases hi
          rw [if_pos hx] at hle
          cases j with
          | zero => rfl
          | succ j =>
              have hmem : y ∈ l := List.mem_of_getElem? hj
              have hpos := List.countP_pos_iff.mpr ⟨y, hmem, hy⟩
              omega
      | succ i =>
          cases j with
          | zero =>
              cases hj
              rw [if_pos hy] at hle
              have hmem : x ∈ l := List.mem_of_getElem? hi
              have hpos := List.countP_pos_iff.mpr ⟨x, hmem, hx⟩
              omega
          | succ j => exact congrArg Nat.succ (ih (by omega) hi hj hx hy)

end Counting

/-! ## One entry set -/

section Entries

variable {α : Type} {xs : List α} {i j n : Nat} {x y : α}

theorem getElem?_set_cases (h : (xs.set i y)[j]? = some x) :
    j = i ∧ x = y ∨ j ≠ i ∧ xs[j]? = some x := by
  rw [List.getElem?_set] at h
  split at h
  · next heq =>
      split at h
      · exact Or.inl ⟨heq.symm, (Option.some.inj h).symm⟩
      · exact nomatch h
  · next hne => exact Or.inr ⟨Ne.symm hne, h⟩

theorem getElem?_concat_cases (h : (xs ++ [y])[j]? = some x) :
    j ≠ xs.length ∧ xs[j]? = some x ∨ j = xs.length ∧ x = y := by
  rw [List.getElem?_append] at h
  split at h
  · next hlt => exact Or.inl ⟨Nat.ne_of_lt hlt, h⟩
  · next hge =>
      obtain ⟨hj, hx⟩ := List.getElem?_eq_some_iff.mp h
      have hzero : j - xs.length = 0 := Nat.lt_one_iff.mp hj
      refine Or.inr ⟨Nat.le_antisymm (Nat.sub_eq_zero_iff_le.mp hzero) (Nat.not_lt.mp hge), ?_⟩
      exact hx.symm.trans (List.getElem_singleton hj)

theorem mem_drop_set (h : x ∈ (xs.set i y).drop n) : x = y ∨ x ∈ xs.drop n := by
  rw [List.drop_set] at h
  split at h
  · exact Or.inr h
  · exact (List.mem_or_eq_of_mem_set h).symm

theorem sum_map_set {M : Type*} [AddCommMonoid M] (f : α → M) : ∀ {xs : List α} {i : Nat} {x : α},
    xs[i]? = some x → ∀ y, ((xs.set i y).map f).sum + f x = (xs.map f).sum + f y := by
  intro xs
  induction xs with
  | nil => exact fun h => nomatch h
  | cons z xs ih =>
      intro i x h y
      cases i with
      | zero =>
          cases h
          rw [List.set_cons_zero, List.map_cons, List.map_cons, List.sum_cons, List.sum_cons]
          ac_rfl
      | succ i =>
          rw [List.set_cons_succ, List.map_cons, List.map_cons, List.sum_cons, List.sum_cons,
            add_assoc, add_assoc, ih (i := i) h y]

end Entries

/-! ## Coming to an end -/

/-- The rule of ends: if a step that keeps the invariant and reduces the measure exists as
long as the end is not reached, some run reaches it. -/
theorem exists_foldl_of_progress {σ ι : Type*} (step : σ → ι → σ) {Inv Done : σ → Prop}
    (μ : σ → Nat)
    (hprogress : ∀ s, Inv s → ¬ Done s → ∃ i, Inv (step s i) ∧ μ (step s i) < μ s) (s : σ)
    (hs : Inv s) : ∃ is : List ι, Inv (is.foldl step s) ∧ Done (is.foldl step s) := by
  induction hn : μ s using Nat.strong_induction_on generalizing s with
  | _ n ih =>
      subst hn
      by_cases hdone : Done s
      · exact ⟨[], hs, hdone⟩
      · obtain ⟨i, hinv, hlt⟩ := hprogress s hs hdone
        obtain ⟨is, hrun⟩ := ih _ hlt (step s i) hinv rfl
        exact ⟨i :: is, hrun⟩

/-- The steps of one process count down to a goal, and the steps of the others do not set it
back. -/
structure Countdown {σ ι : Type*} (step : σ → ι → σ) (mine : ι → Bool) (Inv Goal : σ → Prop)
    (Within : σ → Nat → Prop) : Prop where
  zero : ∀ s, Inv s → Within s 0 → Goal s
  stays : ∀ s i, Inv s → Goal s → Goal (step s i)
  own : ∀ s i n, Inv s → Inv (step s i) → mine i = true → Within s (n + 1) →
    Goal (step s i) ∨ Within (step s i) n
  other : ∀ s i n, Inv s → Inv (step s i) → mine i = false → Within s n →
    Goal (step s i) ∨ Within (step s i) n

section Countdown

variable {σ ι : Type*} {step : σ → ι → σ} {mine : ι → Bool} {Inv Goal : σ → Prop}
  {Within : σ → Nat → Prop}

theorem Countdown.goal_stays (h : Countdown step mine Inv Goal Within) : ∀ (is : List ι) (s : σ),
    (∀ k, Inv ((is.take k).foldl step s)) → Goal s → Goal (is.foldl step s)
  | [], _, _, hgoal => hgoal
  | i :: is, s, hinv, hgoal =>
      h.goal_stays is (step s i) (fun k => hinv (k + 1)) (h.stays s i (hinv 0) hgoal)

/-- The countdown rule: a process that takes as many steps as it has left has come to its
goal. -/
theorem Countdown.reaches (h : Countdown step mine Inv Goal Within) : ∀ (is : List ι) (s : σ)
    (n : Nat), (∀ k, Inv ((is.take k).foldl step s)) → Within s n → n ≤ is.countP mine →
      Goal (is.foldl step s)
  | [], s, n, hinv, hwithin, hn => by
      obtain rfl : n = 0 := Nat.le_zero.mp hn
      exact h.zero s (hinv 0) hwithin
  | i :: is, s, n, hinv, hwithin, hn => by
      have hrest : ∀ k, Inv ((is.take k).foldl step (step s i)) := fun k => hinv (k + 1)
      rw [List.countP_cons] at hn
      cases hmine : mine i with
      | false =>
          rw [hmine, if_neg Bool.false_ne_true] at hn
          rcases h.other s i n (hinv 0) (hrest 0) hmine hwithin with hgoal | hwithin
          · exact h.goal_stays is _ hrest hgoal
          · exact h.reaches is _ n hrest hwithin hn
      | true =>
          rw [hmine, if_pos rfl] at hn
          cases n with
          | zero =>
              have hgoal := h.zero s (hinv 0) hwithin
              exact h.goal_stays is _ hrest (h.stays s i (hinv 0) hgoal)
          | succ n =>
              rcases h.own s i n (hinv 0) (hrest 0) hmine hwithin with hgoal | hwithin
              · exact h.goal_stays is _ hrest hgoal
              · exact h.reaches is _ n hrest hwithin (Nat.le_of_succ_le_succ hn)

end Countdown

end VidhiArena.Foundation
