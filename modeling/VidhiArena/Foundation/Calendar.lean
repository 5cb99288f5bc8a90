import Mathlib.Data.Nat.Digits.Defs
import Mathlib.Order.Monotone.Basic

/-!
# Days and their names

The Gregorian calendar as the successor of a day, and the name `YYYY-MM-DD` of a date. The
`n`-th day after 1 January 1970 has a date of its own, and a date a name of its own.
-/

namespace VidhiArena.Foundation.Calendar

/-! ## Dates -/

structure Date where
  year : Nat
  month : Nat
  day : Nat
deriving DecidableEq

def isLeap (year : Nat) : Bool := year % 4 = 0 && (year % 100 ≠ 0 || year % 400 = 0)

def daysIn (year month : Nat) : Nat :=
  if month = 2 then if isLeap year then 29 else 28
  else if month ∈ [4, 6, 9, 11] then 30
  else 31

namespace Date

def next (d : Date) : Date :=
  if d.day < daysIn d.year d.month then { d with day := d.day + 1 }
  else if d.month < 12 then ⟨d.year, d.month + 1, 1⟩
  else ⟨d.year + 1, 1, 1⟩

/-- The place of a date when every month has 31 days. -/
def ordinal (d : Date) : Nat := d.year * 372 + d.month * 31 + d.day

def InRange (d : Date) : Prop := d.month ≤ 12 ∧ d.day ≤ 31

theorem daysIn_le (year month : Nat) : daysIn year month ≤ 31 := by
  unfold daysIn
  repeat' split
  all_goals decide

theorem InRange.next {d : Date} (h : d.InRange) : d.next.InRange := by
  unfold Date.next
  split
  · next hday => exact ⟨h.1, Nat.succ_le_of_lt (Nat.lt_of_lt_of_le hday (daysIn_le _ _))⟩
  · split
    · next hmonth => exact ⟨hmonth, Nat.succ_le_succ (Nat.zero_le 30)⟩
    · exact ⟨Nat.succ_le_succ (Nat.zero_le 11), Nat.succ_le_succ (Nat.zero_le 30)⟩

theorem ordinal_lt_next {d : Date} (h : d.InRange) : d.ordinal < d.next.ordinal := by
  obtain ⟨hmonth, hday⟩ := h
  unfold Date.next ordinal
  split
  · exact Nat.lt_succ_self _
  · split <;> dsimp only <;> omega

end Date

/-- The date of the `n`-th day after 1 January 1970. -/
def utcDate : Nat → Date
  | 0 => ⟨1970, 1, 1⟩
  | n + 1 => (utcDate n).next

example : utcDate 59 = ⟨1970, 3, 1⟩ ∧ utcDate 789 = ⟨1972, 2, 29⟩ := by decide +kernel

theorem inRange_utcDate (n : Nat) : (utcDate n).InRange := by
  induction n with
  | zero => exact ⟨by decide, by decide⟩
  | succ n ih => exact ih.next

theorem utcDate_injective : Function.Injective utcDate := by
  have hmono : StrictMono fun n => (utcDate n).ordinal :=
    strictMono_nat_of_lt_succ fun n => Date.ordinal_lt_next (inRange_utcDate n)
  exact fun m n h => hmono.injective (congrArg Date.ordinal h)

/-! ## Names -/

/-- The decimal digits of `n`, with zeros in front up to `width`. -/
def padded (width n : Nat) : List Char :=
  (Nat.digits 10 n ++ List.replicate (width - (Nat.digits 10 n).length) 0).reverse.map Nat.digitChar

theorem digits_padded {width n d : Nat}
    (h : d ∈ Nat.digits 10 n ++ List.replicate (width - (Nat.digits 10 n).length) 0) : d < 10 := by
  rcases List.mem_append.mp h with h | h
  · exact Nat.digits_lt_base (by decide) h
  · rw [List.eq_of_mem_replicate h]
    decide

theorem padded_injective (width : Nat) : Function.Injective (padded width) := by
  -- read the number back from its digits
  have hread : ∀ n, Nat.ofDigits 10 ((padded width n).reverse.map fun c => c.toNat - 48) = n := by
    intro n
    have hdigit : ∀ d < 10, (Nat.digitChar d).toNat - 48 = d := by decide
    have hmap : (padded width n).reverse.map (fun c => c.toNat - 48) =
        Nat.digits 10 n ++ List.replicate (width - (Nat.digits 10 n).length) 0 := by
      rw [padded, ← List.map_reverse, List.reverse_reverse, List.map_map]
      exact (List.map_congr_left fun d hd => hdigit d (digits_padded hd)).trans (List.map_id _)
    rw [hmap, Nat.ofDigits_append_replicate_zero, Nat.ofDigits_digits]
  intro m n h
  rw [← hread m, h, hread n]

theorem mem_padded {width n : Nat} {c : Char} (h : c ∈ padded width n) : '0' ≤ c ∧ c ≤ '9' := by
  obtain ⟨d, hd, rfl⟩ := List.mem_map.mp h
  have hdigit : ∀ d < 10, '0' ≤ Nat.digitChar d ∧ Nat.digitChar d ≤ '9' := by decide
  exact hdigit d (digits_padded (List.mem_reverse.mp hd))

theorem append_cons_inj {α : Type*} {xs xs' ys ys' : List α} {c : α} (hys : c ∉ ys)
    (hys' : c ∉ ys') (h : xs ++ c :: ys = xs' ++ c :: ys') : xs = xs' ∧ ys = ys' := by
  rcases List.append_eq_append_iff.mp h with ⟨zs, hxs, hc⟩ | ⟨zs, hxs, hc⟩
  · cases zs with
    | nil => exact ⟨(hxs.trans (List.append_nil xs)).symm, (List.cons.inj hc).2⟩
    | cons z zs =>
        rw [(List.cons.inj hc).2] at hys
        exact absurd (List.mem_append_right _ List.mem_cons_self) hys
  · cases zs with
    | nil => exact ⟨hxs.trans (List.append_nil xs'), (List.cons.inj hc).2.symm⟩
    | cons z zs =>
        rw [(List.cons.inj hc).2] at hys'
        exact absurd (List.mem_append_right _ List.mem_cons_self) hys'

namespace Date

/-- `YYYY-MM-DD`. -/
def name (d : Date) : List Char :=
  padded 4 d.year ++ '-' :: padded 2 d.month ++ '-' :: padded 2 d.day

theorem dash_notMem (width n : Nat) : '-' ∉ padded width n :=
  fun h => absurd (mem_padded h).1 (by decide)

theorem name_injective : Function.Injective name := by
  intro d e h
  obtain ⟨hfront, hday⟩ := append_cons_inj (dash_notMem 2 _) (dash_notMem 2 _) h
  obtain ⟨hyear, hmonth⟩ := append_cons_inj (dash_notMem 2 _) (dash_notMem 2 _) hfront
  have hy : d.year = e.year := padded_injective 4 hyear
  have hm : d.month = e.month := padded_injective 2 hmonth
  have hd : d.day = e.day := padded_injective 2 hday
  cases d
  cases e
  cases hy
  cases hm
  cases hd
  rfl

theorem colon_notMem_name (d : Date) : ':' ∉ d.name := by
  have hdigits : ∀ width n, ':' ∉ padded width n :=
    fun width n h => absurd (mem_padded h).2 (by decide)
  intro h
  rcases List.mem_append.mp h with h | h
  · rcases List.mem_append.mp h with h | h
    · exact hdigits _ _ h
    · exact (List.mem_cons.mp h).elim (by decide) (hdigits _ _)
  · exact (List.mem_cons.mp h).elim (by decide) (hdigits _ _)

end Date

example : (utcDate 789).name = "1972-02-29".toList := by decide +kernel

end VidhiArena.Foundation.Calendar
