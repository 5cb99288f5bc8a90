import Mathlib.Data.Option.Basic
import Mathlib.Order.Nat

/-!
# Integers in a program text

Digits of a radix, with single underscores between them.
-/

namespace VidhiArena.Foundation

def digit? (radix : Nat) (c : Char) : Option Nat :=
  let d :=
    if c.isDigit then c.toNat - '0'.toNat
    else if 'a' ≤ c ∧ c ≤ 'f' then c.toNat - 'a'.toNat + 10
    else if 'A' ≤ c ∧ c ≤ 'F' then c.toNat - 'A'.toNat + 10
    else radix
  if d < radix then some d else none

/-- The value of the digits behind those of value `acc`. -/
def digitsFrom (radix : Nat) : Nat → List Char → Option Nat
  | acc, [] => some acc
  | acc, '_' :: c :: t => (digit? radix c).bind fun d => digitsFrom radix (acc * radix + d) t
  | acc, c :: t => (digit? radix c).bind fun d => digitsFrom radix (acc * radix + d) t

def digits (radix : Nat) : List Char → Option Nat
  | [] => none
  | c :: t => (digit? radix c).bind fun d => digitsFrom radix d t

/-- The letter behind the zero of `0x1f`, `0o17` and `0b11`. -/
def radixOf (c : Char) : Option Nat :=
  if c = 'x' ∨ c = 'X' then some 16
  else if c = 'o' ∨ c = 'O' then some 8
  else if c = 'b' ∨ c = 'B' then some 2
  else none

theorem le_of_digitsFrom {radix acc n : Nat} (hradix : 1 ≤ radix) {t : List Char}
    (h : digitsFrom radix acc t = some n) : acc ≤ n := by
  have hstep : ∀ {m d : Nat}, m ≤ m * radix + d := fun {m d} =>
    (Nat.le_mul_of_pos_right m hradix).trans (Nat.le_add_right _ d)
  fun_induction digitsFrom radix acc t with
  | case1 acc => exact (Option.some.inj h).le
  | case2 acc c t ih =>
      obtain ⟨d, -, hd⟩ := Option.bind_eq_some_iff.mp h
      exact hstep.trans (ih d hd)
  | case3 acc c t hne ih =>
      obtain ⟨d, -, hd⟩ := Option.bind_eq_some_iff.mp h
      exact hstep.trans (ih d hd)

theorem isAlphanum_of_digit? {radix d : Nat} {c : Char} (h : digit? radix c = some d) :
    c.isAlphanum = true := by
  unfold digit? at h
  obtain ⟨hlt, -⟩ := Option.ite_none_right_eq_some.mp h
  refine Bool.or_eq_true_iff.mpr ?_
  split at hlt
  · next hdigit => exact .inr hdigit
  · refine .inl (Bool.or_eq_true_iff.mpr ?_)
    split at hlt
    · next hlower =>
        have hz : c ≤ 'z' := Char.le_trans hlower.2 (by decide)
        exact .inr (Bool.and_eq_true_iff.mpr ⟨decide_eq_true hlower.1, decide_eq_true hz⟩)
    · split at hlt
      · next hupper =>
          have hz : c ≤ 'Z' := Char.le_trans hupper.2 (by decide)
          exact .inl (decide_eq_true ⟨hupper.1, hz⟩)
      · exact absurd hlt (Nat.lt_irrefl radix)

theorem isDigit_of_digit? {d : Nat} {c : Char} (h : digit? 10 c = some d) : c.isDigit = true := by
  unfold digit? at h
  obtain ⟨hlt, -⟩ := Option.ite_none_right_eq_some.mp h
  split at hlt
  · assumption
  · split at hlt
    · omega
    · split at hlt
      · omega
      · omega

theorem all_of_digitsFrom {radix acc n : Nat} {t : List Char}
    (h : digitsFrom radix acc t = some n) : ∀ c ∈ t, c.isAlphanum = true ∨ c = '_' := by
  fun_induction digitsFrom radix acc t with
  | case1 acc => exact fun c hc => absurd hc List.not_mem_nil
  | case2 acc c t ih =>
      obtain ⟨d, hdigit, hd⟩ := Option.bind_eq_some_iff.mp h
      exact List.forall_mem_cons.mpr ⟨.inr rfl, List.forall_mem_cons.mpr
        ⟨.inl (isAlphanum_of_digit? hdigit), ih d hd⟩⟩
  | case3 acc c t hne ih =>
      obtain ⟨d, hdigit, hd⟩ := Option.bind_eq_some_iff.mp h
      exact List.forall_mem_cons.mpr ⟨.inl (isAlphanum_of_digit? hdigit), ih d hd⟩

theorem all_of_digits {radix n : Nat} {t : List Char} (h : digits radix t = some n) :
    ∀ c ∈ t, c.isAlphanum = true ∨ c = '_' := by
  cases t with
  | nil => cases h
  | cons c t =>
      obtain ⟨d, hdigit, hd⟩ := Option.bind_eq_some_iff.mp h
      exact List.forall_mem_cons.mpr ⟨.inl (isAlphanum_of_digit? hdigit), all_of_digitsFrom hd⟩

theorem eq_zero_of_digit? {radix : Nat} {c : Char} (hradix : 1 ≤ radix)
    (h : digit? radix c = some 0) : c = '0' := by
  unfold digit? at h
  obtain ⟨-, hsome⟩ := Option.ite_none_right_eq_some.mp h
  have hzero := Option.some.inj hsome
  split at hzero
  · next hdigit =>
      have hge : '0'.toNat ≤ c.toNat := of_decide_eq_true (Bool.and_eq_true_iff.mp hdigit).1
      exact Char.toNat_inj.mp (Nat.le_antisymm (Nat.sub_eq_zero_iff_le.mp hzero) hge)
  · split at hzero
    · cases hzero
    · split at hzero
      · cases hzero
      · exact absurd hzero (Nat.pos_iff_ne_zero.mp hradix)

/-- A decimal zero without underscores is written with zeros only. -/
theorem all_zero_of_digits {t : List Char} (h : digitsFrom 10 0 t = some 0)
    (hplain : '_' ∉ t) : ∀ c ∈ t, c = '0' := by
  induction t with
  | nil => exact fun c hc => absurd hc List.not_mem_nil
  | cons c t ih =>
      obtain ⟨hc, ht⟩ := List.ne_and_not_mem_of_not_mem_cons hplain
      rw [digitsFrom.eq_3 _ _ _ _ fun _ _ heq => absurd heq.symm hc] at h
      obtain ⟨d, hdigit, hrest⟩ := Option.bind_eq_some_iff.mp h
      have hd : d = 0 := by
        have := le_of_digitsFrom (by decide) hrest
        omega
      subst hd
      exact List.forall_mem_cons.mpr ⟨eq_zero_of_digit? (by decide) hdigit, ih hrest ht⟩

theorem digitsFrom_zeros {radix : Nat} (hradix : 1 ≤ radix) {t : List Char}
    (h : ∀ c ∈ t, c = '0') : digitsFrom radix 0 t = some 0 := by
  induction t with
  | nil => rfl
  | cons c t ih =>
      obtain ⟨rfl, ht⟩ := List.forall_mem_cons.mp h
      have hdigit : digit? radix '0' = some 0 := if_pos hradix
      rw [digitsFrom.eq_3 _ _ _ _ (fun _ _ heq => absurd heq (by decide)), hdigit, Option.bind_some, Nat.zero_mul]
      exact ih ht

end VidhiArena.Foundation
