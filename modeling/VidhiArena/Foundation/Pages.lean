import Mathlib.Data.List.Count
import Mathlib.Data.List.Sort

/-!
# Pages of a sorted listing

A listing in descending order of a key, cut into pages. Elements with the same key stand
together, in any order. A cut that does not go through such a group divides the elements in
the same way in every listing; one that does divides them in different ways.
-/

namespace VidhiArena.Foundation.Pages

variable {α κ : Type} [LinearOrder κ] {f : α → κ} {l m : List α} {a : α} {b c : Nat}

/-- How many elements have a greater key. -/
def above (f : α → κ) (l : List α) (a : α) : Nat := l.countP fun x => f a < f x

/-- How many elements have a key that is not less. -/
def upTo (f : α → κ) (l : List α) (a : α) : Nat := l.countP fun x => f a ≤ f x

def Descending (f : α → κ) (l : List α) : Prop := l.Pairwise fun a b => f b ≤ f a

/-- The cut in front of the element `b` goes through a group. -/
def Straddled (f : α → κ) (l : List α) (b : Nat) : Prop :=
  ∃ a ∈ l, above f l a < b ∧ b < upTo f l a

theorem above_perm (h : l.Perm m) (a : α) : above f l a = above f m a := h.countP_eq _

theorem upTo_perm (h : l.Perm m) (a : α) : upTo f l a = upTo f m a := h.countP_eq _

theorem straddled_perm (h : l.Perm m) : Straddled f l b ↔ Straddled f m b := by
  simp only [Straddled, above_perm h, upTo_perm h, h.mem_iff]

/-! ## Where an element stands -/

section Place

variable {pre post : List α}

theorem above_le (h : Descending f (pre ++ a :: post)) :
    above f (pre ++ a :: post) a ≤ pre.length := by
  obtain ⟨hbehind, -⟩ := List.pairwise_cons.mp (List.pairwise_append.mp h).2.1
  have hpost : post.countP (fun x => f a < f x) = 0 :=
    List.countP_eq_zero.mpr fun x hx => by simpa using hbehind x hx
  rw [above, List.countP_append, List.countP_cons, hpost]
  simpa using List.countP_le_length

theorem lt_upTo (h : Descending f (pre ++ a :: post)) :
    pre.length < upTo f (pre ++ a :: post) a := by
  have hfront := (List.pairwise_append.mp h).2.2
  have hpre : pre.countP (fun x => f a ≤ f x) = pre.length :=
    List.countP_eq_length.mpr fun x hx => by simpa using hfront x hx a List.mem_cons_self
  rw [upTo, List.countP_append, List.countP_cons, hpre, if_pos (decide_eq_true le_rfl)]
  exact Nat.lt_add_right_iff_pos.mpr (Nat.succ_pos _)

end Place

theorem above_lt_of_mem_take (h : Descending f l) (ha : a ∈ l.take b) : above f l a < b := by
  obtain ⟨pre, post, hsplit⟩ := List.append_of_mem ha
  have hl : l = pre ++ a :: (post ++ l.drop b) := by
    rw [← List.cons_append, ← List.append_assoc, ← hsplit, List.take_append_drop]
  have hlength : pre.length < b := by
    have := congrArg List.length hsplit
    rw [List.length_take, List.length_append, List.length_cons] at this
    omega
  rw [hl] at h ⊢
  exact (above_le h).trans_lt hlength

theorem lt_upTo_of_mem_drop (h : Descending f l) (ha : a ∈ l.drop b) : b < upTo f l a := by
  obtain ⟨pre, post, hsplit⟩ := List.append_of_mem ha
  have hl : l = (l.take b ++ pre) ++ a :: post := by
    rw [List.append_assoc, ← hsplit, List.take_append_drop]
  have hlength : b ≤ (l.take b ++ pre).length := by
    have hpos := List.length_pos_of_mem ha
    rw [List.length_drop] at hpos
    rw [List.length_append, List.length_take]
    omega
  have hplace := lt_upTo (hl ▸ h)
  rw [← hl] at hplace
  exact hlength.trans_lt hplace

theorem le_above_of_mem_drop (h : Descending f l) (hb : ¬ Straddled f l b) (ha : a ∈ l.drop b) :
    b ≤ above f l a :=
  not_lt.mp fun hlt => hb ⟨a, List.mem_of_mem_drop ha, hlt, lt_upTo_of_mem_drop h ha⟩

theorem mem_page {pre post : List α} {n : Nat} (hlow : b ≤ pre.length)
    (hhigh : pre.length < b + n) : a ∈ ((pre ++ a :: post).drop b).take n := by
  obtain ⟨d, hd⟩ : ∃ d, n - (pre.drop b).length = d + 1 := by
    refine Nat.exists_eq_add_one.mpr ?_
    rw [List.length_drop]
    omega
  rw [List.drop_append_of_le_length hlow, List.take_append, hd, List.take_succ_cons]
  exact List.mem_append_right _ List.mem_cons_self

/-- A page between two cuts through no group has the elements that stand between them in
any listing. -/
theorem page_eq_filter (h : Descending f l) (hb : ¬ Straddled f l b) (hc : ¬ Straddled f l c)
    (hbc : b ≤ c) : (l.drop b).take (c - b) =
      l.filter fun a => decide (b ≤ above f l a ∧ above f l a < c) := by
  have hsplit : l.take b ++ ((l.drop b).take (c - b) ++ l.drop c) = l := by
    have hrest : l.drop c = (l.drop b).drop (c - b) := by
      rw [List.drop_drop, Nat.add_sub_cancel' hbc]
    rw [hrest, List.take_append_drop, List.take_append_drop]
  have hfilter : ∀ P : α → Bool, l.filter P =
      (l.take b).filter P ++ (((l.drop b).take (c - b)).filter P ++ (l.drop c).filter P) := by
    intro P
    rw [← List.filter_append, ← List.filter_append, hsplit]
  have hinside : ∀ a ∈ (l.drop b).take (c - b), b ≤ above f l a ∧ above f l a < c := by
    intro a ha
    have hfront : (l.drop b).take (c - b) = (l.take c).drop b := (List.drop_take ..).symm
    exact ⟨le_above_of_mem_drop h hb (List.mem_of_mem_take ha),
      above_lt_of_mem_take h (List.mem_of_mem_drop (hfront ▸ ha))⟩
  rw [hfilter, List.filter_eq_nil_iff.mpr, List.filter_eq_self.mpr, List.filter_eq_nil_iff.mpr,
    List.nil_append, List.append_nil]
  · intro a ha hmem
    exact (le_above_of_mem_drop h hc ha).not_gt (of_decide_eq_true hmem).2
  · exact fun a ha => decide_eq_true (hinside a ha)
  · intro a ha hmem
    exact (of_decide_eq_true hmem).1.not_gt (above_lt_of_mem_take h ha)

/-! ## All pages -/

theorem pages_perm (f : α → κ) (m : List α) (limit : Nat) (n : Nat) :
    ((List.range n).flatMap fun k => m.filter fun a =>
      decide (k * limit ≤ above f m a ∧ above f m a < (k + 1) * limit)).Perm
        (m.filter fun a => decide (above f m a < n * limit)) := by
  induction n with
  | zero => simp
  | succ n ih =>
      rw [List.range_succ, List.flatMap_append, List.flatMap_singleton]
      have hsplit := List.filter_append_perm (fun a => decide (above f m a < n * limit))
        (m.filter fun a => decide (above f m a < (n + 1) * limit))
      rw [List.filter_filter, List.filter_filter] at hsplit
      refine (ih.append_right _).trans ((List.Perm.of_eq ?_).trans hsplit)
      rw [Nat.succ_mul]
      congr 1
      · refine List.filter_congr fun a _ => Bool.eq_iff_iff.mpr ?_
        rw [Bool.and_eq_true, decide_eq_true_iff, decide_eq_true_iff]
        exact ⟨fun h => ⟨h, h.trans_le (Nat.le_add_right _ _)⟩, fun h => h.1⟩
      · refine List.filter_congr fun a _ => Bool.eq_iff_iff.mpr ?_
        rw [Bool.and_eq_true, Bool.not_eq_true', decide_eq_true_iff, decide_eq_true_iff,
          decide_eq_false_iff_not, not_lt]

theorem eq_of_straddled {pre post : List α} {x y : α} (h : Descending f (pre ++ x :: y :: post))
    (hs : Straddled f (pre ++ x :: y :: post) (pre.length + 1)) : f x = f y := by
  obtain ⟨a, -, habove, hupTo⟩ := hs
  obtain ⟨-, hrest, hfront⟩ := List.pairwise_append.mp h
  obtain ⟨hx, hrest⟩ := List.pairwise_cons.mp hrest
  obtain ⟨hy, -⟩ := List.pairwise_cons.mp hrest
  have hxa : f x ≤ f a := by
    refine not_lt.mp fun hlt => habove.not_ge ?_
    have hpre : pre.countP (fun z => f a < f z) = pre.length :=
      List.countP_eq_length.mpr fun z hz =>
        decide_eq_true (hlt.trans_le (hfront z hz x List.mem_cons_self))
    rw [above, List.countP_append, List.countP_cons, hpre, if_pos (decide_eq_true hlt)]
    omega
  have hay : f a ≤ f y := by
    refine not_lt.mp fun hlt => hupTo.not_ge ?_
    have hpost : (y :: post).countP (fun z => f a ≤ f z) = 0 := by
      refine List.countP_eq_zero.mpr fun z hz hle => ?_
      rcases List.mem_cons.mp hz with rfl | hz
      · exact hlt.not_ge (of_decide_eq_true hle)
      · exact ((hy z hz).trans_lt hlt).not_ge (of_decide_eq_true hle)
    rw [upTo, List.countP_append, List.countP_cons, hpost, Nat.zero_add]
    have hpre : pre.countP (fun z => f a ≤ f z) ≤ pre.length := List.countP_le_length
    split <;> omega
  exact le_antisymm (hxa.trans hay) (hx y List.mem_cons_self)

theorem descending_swap {pre post : List α} {x y : α} (h : Descending f (pre ++ x :: y :: post))
    (hxy : f x = f y) : Descending f (pre ++ y :: x :: post) := by
  obtain ⟨hpre, hrest, hfront⟩ := List.pairwise_append.mp h
  obtain ⟨hx, hrest⟩ := List.pairwise_cons.mp hrest
  obtain ⟨hy, hpost⟩ := List.pairwise_cons.mp hrest
  refine List.pairwise_append.mpr ⟨hpre, ?_, fun z hz w hw => hfront z hz w ?_⟩
  · refine List.pairwise_cons.mpr ⟨fun w hw => ?_, List.pairwise_cons.mpr ⟨fun w hw => ?_, hpost⟩⟩
    · rcases List.mem_cons.mp hw with rfl | hw
      · exact hxy.le
      · exact hy w hw
    · exact hx w (List.mem_cons_of_mem _ hw)
  · exact (List.Perm.swap x y post).mem_iff.mp hw

theorem above_lt_length (ha : a ∈ m) : above f m a < m.length :=
  List.countP_lt_length_iff.mpr ⟨a, ha, decide_eq_false (lt_irrefl _)⟩

theorem exists_descending (f : α → κ) (m : List α) : ∃ l, l.Perm m ∧ Descending f l := by
  refine ⟨m.mergeSort fun x y => decide (f y ≤ f x), List.mergeSort_perm _ _, ?_⟩
  have hsorted : (m.mergeSort fun x y => decide (f y ≤ f x)).Pairwise
      fun x y => decide (f y ≤ f x) = true :=
    List.pairwise_mergeSort
      (fun x y z hxy hyz => decide_eq_true ((of_decide_eq_true hyz).trans (of_decide_eq_true hxy)))
      (fun x y => by
        rw [Bool.or_eq_true, decide_eq_true_iff, decide_eq_true_iff]
        exact le_total _ _) m
  exact hsorted.imp fun h => of_decide_eq_true h

/-- Two listings that a cut through a group divides differently. -/
theorem exists_swapped (h : Straddled f m b) : ∃ pre x y post, pre.length + 1 = b ∧
    (pre ++ x :: y :: post).Perm m ∧ Descending f (pre ++ x :: y :: post) ∧
      Descending f (pre ++ y :: x :: post) := by
  obtain ⟨l, hperm, hsorted⟩ := exists_descending f m
  have hl := (straddled_perm hperm).mpr h
  obtain ⟨a, -, habove, hupTo⟩ := hl
  have hlength : b < l.length := hupTo.trans_le List.countP_le_length
  obtain ⟨x, y, post, hdrop⟩ : ∃ x y post, l.drop (b - 1) = x :: y :: post := by
    have hlong : 2 ≤ (l.drop (b - 1)).length := by
      rw [List.length_drop]
      omega
    match l.drop (b - 1), hlong with
    | x :: y :: post, _ => exact ⟨x, y, post, rfl⟩
  have hsplit : l.take (b - 1) ++ x :: y :: post = l := by
    rw [← hdrop, List.take_append_drop]
  have hb : (l.take (b - 1)).length + 1 = b := by
    rw [List.length_take]
    omega
  rw [← hsplit] at hsorted hperm
  refine ⟨_, x, y, post, hb, hperm, hsorted, descending_swap hsorted (eq_of_straddled hsorted ?_)⟩
  rw [hb, straddled_perm hperm]
  exact h

end VidhiArena.Foundation.Pages
