import Mathlib.Data.List.Sort
import Mathlib.Order.Basic

/-!
# Order statistics

The `t`-th smallest element of a list, and its two characteristic counts: at least `t`
elements are not greater, fewer than `t` are less. A scan over the values of a monotone map
of the elements, counting up to `t`, ends at the image of the `t`-th smallest.
-/

namespace VidhiArena.Foundation

variable {α : Type} [LinearOrder α]

def sorted (l : List α) : List α := l.mergeSort fun a b => decide (a ≤ b)

theorem sorted_perm (l : List α) : (sorted l).Perm l := List.mergeSort_perm l _

theorem sorted_pairwise (l : List α) : (sorted l).Pairwise (· ≤ ·) := by
  have h := @List.pairwise_mergeSort α (fun a b => decide (a ≤ b))
    (fun a b c hab hbc => by
      simp only [decide_eq_true_eq] at hab hbc ⊢
      exact hab.trans hbc)
    (fun a b => by
      simp only [Bool.or_eq_true, decide_eq_true_eq]
      exact le_total a b) l
  exact h.imp fun hab => of_decide_eq_true hab

theorem length_sorted (l : List α) : (sorted l).length = l.length := (sorted_perm l).length_eq

/-- `v` is the `t`-th smallest element of `l`; the smallest is the first. -/
def IsKth (l : List α) (t : ℕ) (v : α) : Prop := 0 < t ∧ (sorted l)[t - 1]? = some v

namespace IsKth

variable {l : List α} {t : ℕ} {v : α}

theorem exists_of_le (hlo : 0 < t) (hhi : t ≤ l.length) : ∃ v, IsKth l t v := by
  have hlt : t - 1 < (sorted l).length := by
    rw [length_sorted]
    omega
  exact ⟨(sorted l)[t - 1], hlo, List.getElem?_eq_getElem hlt⟩

theorem mem (h : IsKth l t v) : v ∈ l :=
  (sorted_perm l).mem_iff.mp (List.mem_of_getElem? h.2)

theorem split (h : IsKth l t v) : ∃ pre post, sorted l = pre ++ v :: post ∧ pre.length = t - 1 := by
  obtain ⟨hlt, rfl⟩ := List.getElem?_eq_some_iff.mp h.2
  refine ⟨(sorted l).take (t - 1), (sorted l).drop (t - 1 + 1), ?_, ?_⟩
  · rw [List.getElem_cons_drop, List.take_append_drop]
  · rw [List.length_take, Nat.min_eq_left hlt.le]

theorem le_countP_le (h : IsKth l t v) : t ≤ l.countP (· ≤ v) := by
  obtain ⟨pre, post, hsplit, hlen⟩ := h.split
  have hsorted := sorted_pairwise l
  rw [hsplit, List.pairwise_append] at hsorted
  have hpre : pre.countP (· ≤ v) = pre.length := by
    rw [List.countP_eq_length]
    exact fun a ha => decide_eq_true (hsorted.2.2 a ha v List.mem_cons_self)
  have hpos := h.1
  have hself : (v :: post).countP (· ≤ v) = post.countP (· ≤ v) + 1 :=
    List.countP_cons_of_pos (decide_eq_true le_rfl)
  rw [← (sorted_perm l).countP_eq, hsplit, List.countP_append, hpre, hself]
  omega

theorem countP_lt_lt (h : IsKth l t v) : l.countP (· < v) < t := by
  obtain ⟨pre, post, hsplit, hlen⟩ := h.split
  have hsorted := sorted_pairwise l
  rw [hsplit, List.pairwise_append, List.pairwise_cons] at hsorted
  have hpost : (v :: post).countP (· < v) = 0 := by
    rw [List.countP_eq_zero]
    intro a ha
    rw [decide_eq_true_eq, not_lt]
    rcases List.mem_cons.mp ha with rfl | ha
    · exact le_rfl
    · exact hsorted.2.1.1 a ha
  have hpre : pre.countP (· < v) ≤ pre.length := List.countP_le_length
  have hpos := h.1
  rw [← (sorted_perm l).countP_eq, hsplit, List.countP_append, hpost]
  omega

theorem mono {t' : ℕ} {v' : α} (h : IsKth l t v) (h' : IsKth l t' v') (hle : t ≤ t') : v ≤ v' := by
  by_contra hlt
  have hcount : l.countP (· ≤ v') ≤ l.countP (· < v) :=
    List.countP_mono_left fun a _ ha =>
      decide_eq_true ((of_decide_eq_true ha).trans_lt (not_le.mp hlt))
  have hlo := h'.le_countP_le
  have hhi := h.countP_lt_lt
  omega

/-- A monotone map keeps the counts: the image of `v` is where they reach `t`. -/
theorem le_countP_map {β : Type} [LinearOrder β] {f : α → β} (hf : Monotone f)
    (h : IsKth l t v) (b : β) : t ≤ l.countP (fun a => f a ≤ b) ↔ f v ≤ b := by
  constructor
  · intro ht
    by_contra hlt
    have hcount : l.countP (fun a => f a ≤ b) ≤ l.countP (· < v) := by
      refine List.countP_mono_left fun a _ ha => decide_eq_true ?_
      by_contra hva
      exact hlt ((hf (not_lt.mp hva)).trans (of_decide_eq_true ha))
    have hhi := h.countP_lt_lt
    omega
  · intro hle
    have hcount : l.countP (· ≤ v) ≤ l.countP (fun a => f a ≤ b) :=
      List.countP_mono_left fun a _ ha =>
        decide_eq_true ((hf (of_decide_eq_true ha)).trans hle)
    exact h.le_countP_le.trans hcount

end IsKth

end VidhiArena.Foundation
