import Mathlib.Algebra.Order.Field.Rat
import Mathlib.Algebra.Order.Group.Nat
import Mathlib.Tactic.NormNum
import Mathlib.Tactic.Positivity
import Mathlib.Tactic.Ring

/-!
# Counts in doubles

A natural number stored in a `double` is rounded to 53 significant bits, ties to even; up
to `2 ^ 53` nothing is lost. A fraction of a count is the product with the double of the
fraction, rounded once more and cut off.
-/

namespace VidhiArena.Foundation.DoubleCount

/-- The nearest number of 53 significant bits. -/
def toDouble (n : Nat) : Nat :=
  let unit := 2 ^ (n.log2 - 52)
  let units := n / unit
  let rest := n % unit
  if unit < 2 * rest ∨ 2 * rest = unit ∧ units % 2 = 1 then (units + 1) * unit else units * unit

/-- `(int64_t)(n * p)` for the double `p = mantissa / 2 ^ 53`. -/
def fraction (mantissa n : Nat) : Nat := toDouble (toDouble n * mantissa) / 2 ^ 53

/-- `0.5`. -/
def half : Nat := 2 ^ 52

/-- `0.95`: the nearest double is a little less. -/
def ninetyFifth : Nat := 8556839292003942

/-- `0.99`: the nearest double is a little less. -/
def ninetyNinth : Nat := 8917127262193582

theorem toDouble_of_dvd {n : Nat} (h : 2 ^ (n.log2 - 52) ∣ n) : toDouble n = n := by
  have hunit : 0 < 2 ^ (n.log2 - 52) := Nat.two_pow_pos _
  have hrest : n % 2 ^ (n.log2 - 52) = 0 := Nat.mod_eq_zero_of_dvd h
  simp only [toDouble, hrest]
  rw [if_neg (by omega)]
  exact Nat.div_mul_cancel h

theorem toDouble_of_small {n : Nat} (h : n ≤ 2 ^ 53) : toDouble n = n := by
  rcases Nat.lt_or_eq_of_le h with hlt | rfl
  · refine toDouble_of_dvd ?_
    have hlog : n.log2 - 52 = 0 := by
      rcases Nat.eq_zero_or_pos n with rfl | hpos
      · rfl
      · have := (Nat.log2_lt (Nat.pos_iff_ne_zero.mp hpos)).mpr hlt
        omega
    rw [hlog, Nat.pow_zero]
    exact Nat.one_dvd n
  · decide

theorem toDouble_pos {n : Nat} (h : 0 < n) : 0 < toDouble n := by
  have hunit : 2 ^ (n.log2 - 52) ≤ n :=
    (Nat.pow_le_pow_right (by decide) (Nat.sub_le _ _)).trans (Nat.log2_self_le h.ne')
  have hunits : 0 < n / 2 ^ (n.log2 - 52) := Nat.div_pos hunit (Nat.two_pow_pos _)
  simp only [toDouble]
  split
  · exact Nat.mul_pos (Nat.succ_pos _) (Nat.two_pow_pos _)
  · exact Nat.mul_pos hunits (Nat.two_pow_pos _)

theorem toDouble_le (n : Nat) : toDouble n ≤ n + n / 2 ^ 52 := by
  rcases Nat.lt_or_ge n (2 ^ 53) with hlt | hge
  · rw [toDouble_of_small hlt.le]
    exact Nat.le_add_right _ _
  · have hlog : 53 ≤ n.log2 := (Nat.le_log2 (by omega)).mpr hge
    have hunit : 2 ^ (n.log2 - 52) ≤ n / 2 ^ 52 := by
      rw [Nat.le_div_iff_mul_le (by decide), ← Nat.pow_add, Nat.sub_add_cancel (by omega)]
      exact Nat.log2_self_le (by omega)
    have hfloor : n / 2 ^ (n.log2 - 52) * 2 ^ (n.log2 - 52) ≤ n := Nat.div_mul_le_self n _
    simp only [toDouble]
    split
    · rw [Nat.add_mul, Nat.one_mul]
      exact Nat.add_le_add hfloor hunit
    · exact hfloor.trans (Nat.le_add_right _ _)

/-! ## Rounding is monotone, and scales -/

/-- A rounded number has the top bit of the number, or is the next power of two. -/
theorem two_pow_log2_le_toDouble {n : Nat} (hn : n ≠ 0) : 2 ^ n.log2 ≤ toDouble n := by
  have hpos := Nat.two_pow_pos (n.log2 - 52)
  have hsplit : 2 ^ n.log2 = 2 ^ (n.log2 - (n.log2 - 52)) * 2 ^ (n.log2 - 52) := by
    rw [← Nat.pow_add, Nat.sub_add_cancel (Nat.sub_le _ _)]
  have hunits : 2 ^ (n.log2 - (n.log2 - 52)) ≤ n / 2 ^ (n.log2 - 52) := by
    rw [Nat.le_div_iff_mul_le hpos, ← hsplit]
    exact Nat.log2_self_le hn
  rw [hsplit]
  simp only [toDouble]
  split
  · exact Nat.mul_le_mul_right _ (hunits.trans (Nat.le_succ _))
  · exact Nat.mul_le_mul_right _ hunits

theorem toDouble_le_two_pow (n : Nat) : toDouble n ≤ 2 ^ (n.log2 + 1) := by
  have hlt : n < 2 ^ (n.log2 + 1) := Nat.lt_log2_self
  rcases Nat.lt_or_ge n (2 ^ 53) with hsmall | hlarge
  · rw [toDouble_of_small hsmall.le]
    exact hlt.le
  · have hlog : 53 ≤ n.log2 := (Nat.le_log2 (by omega)).mpr hlarge
    have hsplit : 2 ^ (n.log2 + 1) = 2 ^ 53 * 2 ^ (n.log2 - 52) := by
      rw [← Nat.pow_add]
      congr 1
      omega
    have hunits : n / 2 ^ (n.log2 - 52) < 2 ^ 53 := by
      rwa [Nat.div_lt_iff_lt_mul (Nat.two_pow_pos _), ← hsplit]
    rw [hsplit]
    simp only [toDouble]
    split
    · exact Nat.mul_le_mul_right _ hunits
    · exact Nat.mul_le_mul_right _ hunits.le

theorem toDouble_mono {m n : Nat} (h : m ≤ n) : toDouble m ≤ toDouble n := by
  rcases Nat.eq_zero_or_pos m with rfl | hm
  · exact Nat.zero_le _
  have hm0 := Nat.pos_iff_ne_zero.mp hm
  have hn0 : n ≠ 0 := by omega
  have hlog : m.log2 ≤ n.log2 := (Nat.le_log2 hn0).mpr ((Nat.log2_self_le hm0).trans h)
  rcases Nat.lt_or_eq_of_le hlog with hlt | heq
  · calc toDouble m ≤ 2 ^ (m.log2 + 1) := toDouble_le_two_pow m
      _ ≤ 2 ^ n.log2 := Nat.pow_le_pow_right (by decide) hlt
      _ ≤ toDouble n := two_pow_log2_le_toDouble hn0
  · -- the same unit: the units decide, and then the rest
    simp only [toDouble, heq]
    generalize hunit : 2 ^ (n.log2 - 52) = unit
    have hdiv : m / unit ≤ n / unit := Nat.div_le_div_right h
    have hm' := Nat.div_add_mod' m unit
    have hn' := Nat.div_add_mod' n unit
    rcases Nat.lt_or_eq_of_le hdiv with hunits | hunits
    · have hnext : (m / unit + 1) * unit ≤ n / unit * unit := Nat.mul_le_mul_right _ hunits
      have hleft : m / unit * unit ≤ (m / unit + 1) * unit :=
        Nat.mul_le_mul_right _ (Nat.le_succ _)
      have hright : n / unit * unit ≤ (n / unit + 1) * unit :=
        Nat.mul_le_mul_right _ (Nat.le_succ _)
      split <;> split <;> omega
    · have hrest : m % unit ≤ n % unit := by
        rw [hunits] at hm'
        omega
      rw [hunits, Nat.add_mul]
      split
      · rw [if_pos (by omega)]
      · split <;> omega

theorem toDouble_mul_two_pow (n j : Nat) : toDouble (n * 2 ^ j) = toDouble n * 2 ^ j := by
  rcases Nat.eq_zero_or_pos n with rfl | hn
  · simp [toDouble]
  have hn0 := Nat.pos_iff_ne_zero.mp hn
  have hj := Nat.two_pow_pos j
  have hlog : (n * 2 ^ j).log2 = n.log2 + j := by
    rw [Nat.log2_eq_iff (Nat.mul_pos hn hj).ne']
    constructor
    · rw [Nat.pow_add]
      exact Nat.mul_le_mul_right _ (Nat.log2_self_le hn0)
    · rw [Nat.add_right_comm, Nat.pow_add]
      exact Nat.mul_lt_mul_of_pos_right Nat.lt_log2_self hj
  rcases Nat.lt_or_ge n.log2 52 with hsmall | hlarge
  · have hlt : n < 2 ^ 53 :=
      (Nat.log2_lt hn0).mp (by omega)
    rw [toDouble_of_small hlt.le]
    refine toDouble_of_dvd ?_
    rw [hlog]
    exact Nat.dvd_trans (Nat.pow_dvd_pow 2 (by omega)) (Nat.dvd_mul_left _ _)
  · have hunit : 2 ^ ((n * 2 ^ j).log2 - 52) = 2 ^ (n.log2 - 52) * 2 ^ j := by
      rw [hlog, ← Nat.pow_add]
      congr 1
      omega
    simp only [toDouble, hunit]
    rw [Nat.mul_div_mul_right _ _ hj, Nat.mul_mod_mul_right, ← Nat.mul_assoc 2]
    have hlt : 2 ^ (n.log2 - 52) * 2 ^ j < 2 * (n % 2 ^ (n.log2 - 52)) * 2 ^ j ↔
        2 ^ (n.log2 - 52) < 2 * (n % 2 ^ (n.log2 - 52)) := Nat.mul_lt_mul_right hj
    have heq : 2 * (n % 2 ^ (n.log2 - 52)) * 2 ^ j = 2 ^ (n.log2 - 52) * 2 ^ j ↔
        2 * (n % 2 ^ (n.log2 - 52)) = 2 ^ (n.log2 - 52) := Nat.mul_left_inj hj.ne'
    simp only [hlt, heq]
    split
    · rw [Nat.mul_assoc]
    · rw [Nat.mul_assoc]

theorem fraction_half_of_small {n : Nat} (h : n < 2 ^ 53) : fraction half n = n / 2 := by
  have hexact : toDouble (n * half) = n * half := by
    refine toDouble_of_dvd ?_
    have hdvd : 2 ^ ((n * half).log2 - 52) ∣ 2 ^ 52 := by
      refine Nat.pow_dvd_pow 2 ?_
      rcases Nat.eq_zero_or_pos (n * half) with h0 | hpos
      · rw [h0]
        decide
      · have hlt : n * half < 2 ^ 105 := by
          unfold half
          omega
        have := (Nat.log2_lt (Nat.pos_iff_ne_zero.mp hpos)).mpr hlt
        omega
    exact Nat.dvd_trans hdvd (Nat.dvd_mul_left _ _)
  rw [fraction, toDouble_of_small h.le, hexact, half]
  omega

theorem fraction_half_le (n : Nat) : fraction half n ≤ n / 2 + n / 2 ^ 50 + 1 := by
  have hn := toDouble_le n
  have hprod := toDouble_le (toDouble n * half)
  unfold fraction half at *
  omega

/-- A number that is less than half a unit below a multiple of its unit is rounded to it. -/
theorem toDouble_of_near {n m : Nat} (hle : n ≤ m) (hdvd : 2 ^ (n.log2 - 52) ∣ m)
    (hnear : 2 * (m - n) < 2 ^ (n.log2 - 52)) : toDouble n = m := by
  obtain ⟨c, hc⟩ := hdvd
  generalize hunit : 2 ^ (n.log2 - 52) = unit at hnear hc
  have hpos : 0 < unit := by omega
  have hsplit := Nat.div_add_mod n unit
  have hrest := Nat.mod_lt n hpos
  simp only [toDouble, hunit]
  rcases Nat.lt_or_ge (n / unit) c with hlt | hge
  · -- the multiple is the next one
    have hc' : c = n / unit + 1 := by
      refine Nat.le_antisymm (Nat.le_of_lt_succ (Nat.lt_of_mul_lt_mul_left (a := unit) ?_)) hlt
      rw [← hc, Nat.mul_succ, Nat.mul_succ]
      omega
    subst hc'
    rw [Nat.mul_add, Nat.mul_one] at hc
    rw [if_pos (Or.inl (by omega)), Nat.mul_comm, Nat.mul_add, Nat.mul_one, hc]
  · have hmul := Nat.mul_le_mul_left unit hge
    have hzero : n % unit = 0 := by omega
    rw [if_neg (by omega), Nat.mul_comm]
    omega

/-- Where `p` is a whole number of units less a little, it is rounded up to that number. -/
theorem toDouble_whole {b p k δ : Nat} (hb : 0 < b) (hlog : p.log2 - 52 ≤ 53)
    (hwhole : b * p + δ = b * (k * 2 ^ 53)) (hδ : 2 * δ * 2 ^ 53 ≤ b * p) :
    toDouble p / 2 ^ 53 = k := by
  have hle : p ≤ k * 2 ^ 53 := Nat.le_of_mul_le_mul_left (by omega) hb
  obtain ⟨gap, hgap⟩ := Nat.le.dest hle
  have hgapδ : b * gap = δ := by
    rw [← hgap, Nat.mul_add] at hwhole
    omega
  have hclose : 2 * gap * 2 ^ 53 ≤ p := by
    refine Nat.le_of_mul_le_mul_left ?_ hb
    calc b * (2 * gap * 2 ^ 53) = 2 * (b * gap) * 2 ^ 53 := by ring
      _ ≤ b * p := by rw [hgapδ]; exact hδ
  have hunit : p < 2 ^ (p.log2 - 52) * 2 ^ 53 := by
    rw [← Nat.pow_add]
    exact Nat.lt_log2_self.trans_le (Nat.pow_le_pow_right (by decide) (by omega))
  have hdouble := toDouble_of_near hle
    (Nat.dvd_trans (Nat.pow_dvd_pow 2 hlog) (Nat.dvd_mul_left _ k)) (by
      rw [← hgap, Nat.add_sub_cancel_left]
      exact Nat.lt_of_mul_lt_mul_right (hclose.trans_lt hunit))
  rw [hdouble]
  exact Nat.mul_div_cancel k (by decide)

/-- Where `p` lies between two whole numbers of units, it is too far from both to be rounded
to one. -/
theorem toDouble_between {b n p k r δ : Nat} (hb : 0 < b) (hr : 0 < r) (hrb : r < b)
    (hp : p ≤ n * 2 ^ 53) (hn : b * n ≤ 2 ^ 51) (hsmall : n ≤ 2 ^ 51)
    (hsum : b * p + δ = b * (k * 2 ^ 53) + r * 2 ^ 53) (hδ : 2 * δ * 2 ^ 53 ≤ b * p) :
    toDouble p / 2 ^ 53 = k := by
  have hlow : k * 2 ^ 53 ≤ p := by
    have hδsmall : 2 * δ ≤ b * n := by
      refine Nat.le_of_mul_le_mul_right (c := 2 ^ 53) ?_ (by decide)
      rw [Nat.mul_assoc b]
      exact hδ.trans (Nat.mul_le_mul_left b hp)
    exact Nat.le_of_mul_le_mul_left (by omega) hb
  have hhigh : toDouble p ≤ p + 2 * n := by
    have := toDouble_le p
    omega
  have hkeep : k * 2 ^ 53 ≤ toDouble p := by
    have hk53 : k ≤ 2 ^ 53 := by omega
    calc k * 2 ^ 53 = toDouble (k * 2 ^ 53) := by
          rw [toDouble_mul_two_pow, toDouble_of_small hk53]
      _ ≤ toDouble p := toDouble_mono hlow
  -- the error is less than the distance to the next multiple
  refine Nat.div_eq_of_lt_le hkeep (Nat.lt_of_mul_lt_mul_left (a := b) ?_)
  calc b * toDouble p ≤ b * p + 2 * (b * n) := by
        have := Nat.mul_le_mul_left b hhigh
        rw [Nat.mul_add, Nat.mul_left_comm] at this
        exact this
    _ < b * ((k + 1) * 2 ^ 53) := by
        rw [Nat.add_mul, Nat.mul_add]
        omega

/-- A fraction of a small count is exact although its double is a little less than `a / b`. -/
theorem fraction_eq_of_below {a b mantissa n : Nat} (hab : a < b)
    (hbelow : b * mantissa ≤ a * 2 ^ 53)
    (hnear : 2 * (a * 2 ^ 53 - b * mantissa) * 2 ^ 53 ≤ b * mantissa) (hn : b * n ≤ 2 ^ 51) :
    fraction mantissa n = a * n / b := by
  obtain ⟨δ, hδ⟩ := Nat.le.dest hbelow
  rw [← hδ, Nat.add_sub_cancel_left] at hnear
  have hb : 0 < b := Nat.zero_lt_of_lt hab
  have hmantissa : mantissa < 2 ^ 53 := by
    refine Nat.lt_of_mul_lt_mul_left (a := b) (hbelow.trans_lt ?_)
    exact Nat.mul_lt_mul_of_pos_right hab (by decide)
  have hsmall : n ≤ 2 ^ 51 := (Nat.le_mul_of_pos_left n hb).trans hn
  have hp : n * mantissa ≤ n * 2 ^ 53 := Nat.mul_le_mul_left n hmantissa.le
  have hexact : b * (n * mantissa) + δ * n = a * n * 2 ^ 53 := by
    calc b * (n * mantissa) + δ * n = (b * mantissa + δ) * n := by ring
      _ = a * n * 2 ^ 53 := by rw [hδ]; ring
  have hδn : 2 * (δ * n) * 2 ^ 53 ≤ b * (n * mantissa) := by
    calc 2 * (δ * n) * 2 ^ 53 = 2 * δ * 2 ^ 53 * n := by ring
      _ ≤ b * mantissa * n := Nat.mul_le_mul_right n hnear
      _ = b * (n * mantissa) := by ring
  have hdiv := Nat.div_add_mod (a * n) b
  have hmod := Nat.mod_lt (a * n) hb
  rw [fraction, toDouble_of_small (n := n) (hsmall.trans (by decide))]
  generalize a * n / b = k at *
  generalize a * n % b = r at *
  generalize n * mantissa = p at *
  rw [← hdiv] at hexact
  have hlog : p.log2 - 52 ≤ 53 := by
    rcases Nat.eq_zero_or_pos p with rfl | hpos
    · decide
    · have hlt : p < 2 ^ 105 := by omega
      have := (Nat.log2_lt hpos.ne').mpr hlt
      omega
  have hsum : b * p + δ * n = b * (k * 2 ^ 53) + r * 2 ^ 53 := by
    rw [hexact, Nat.add_mul, Nat.mul_assoc]
  rcases Nat.eq_zero_or_pos r with rfl | hpos
  · exact toDouble_whole hb hlog (by rw [hsum, Nat.zero_mul, Nat.add_zero]) hδn
  · exact toDouble_between hb hpos hmod hp hn hsmall hsum hδn

/-! ## Parts of a count -/

/-- A positive double up to one. -/
structure UnitDouble where
  mantissa : Nat
  scale : Nat
  pos : 0 < mantissa
  fits : mantissa ≤ 2 ^ 53
  le_one : mantissa ≤ 2 ^ scale

namespace UnitDouble

def value (p : UnitDouble) : ℚ := p.mantissa / 2 ^ p.scale

/-- `(int64_t)(n * p)`. -/
def portion (p : UnitDouble) (n : Nat) : Nat :=
  toDouble (toDouble n * p.mantissa) / 2 ^ p.scale

theorem portion_le (p : UnitDouble) {n : Nat} (hn : n ≤ 2 ^ 53) : p.portion n ≤ n := by
  have hprod : toDouble (n * p.mantissa) ≤ n * 2 ^ p.scale :=
    calc toDouble (n * p.mantissa)
        ≤ toDouble (n * 2 ^ p.scale) := toDouble_mono (Nat.mul_le_mul_left n p.le_one)
      _ = n * 2 ^ p.scale := by rw [toDouble_mul_two_pow, toDouble_of_small hn]
  rw [portion, toDouble_of_small hn]
  exact Nat.div_le_of_le_mul (hprod.trans_eq (Nat.mul_comm _ _))

theorem portion_mono {p q : UnitDouble} (h : p.value ≤ q.value) (n : Nat) :
    p.portion n ≤ q.portion n := by
  have hp := Nat.two_pow_pos p.scale
  have hq := Nat.two_pow_pos q.scale
  have hcross : p.mantissa * 2 ^ q.scale ≤ q.mantissa * 2 ^ p.scale := by
    unfold value at h
    rw [div_le_div_iff₀ (by positivity) (by positivity)] at h
    exact_mod_cast h
  have hround : toDouble (toDouble n * p.mantissa) * 2 ^ q.scale ≤
      toDouble (toDouble n * q.mantissa) * 2 ^ p.scale := by
    rw [← toDouble_mul_two_pow, ← toDouble_mul_two_pow, Nat.mul_assoc, Nat.mul_assoc]
    exact toDouble_mono (Nat.mul_le_mul_left _ hcross)
  rw [portion, portion, Nat.le_div_iff_mul_le hq]
  refine Nat.le_of_mul_le_mul_right ?_ hp
  calc toDouble (toDouble n * p.mantissa) / 2 ^ p.scale * 2 ^ q.scale * 2 ^ p.scale
      = toDouble (toDouble n * p.mantissa) / 2 ^ p.scale * 2 ^ p.scale * 2 ^ q.scale := by
        rw [Nat.mul_right_comm]
    _ ≤ toDouble (toDouble n * p.mantissa) * 2 ^ q.scale :=
        Nat.mul_le_mul_right _ (Nat.div_mul_le_self _ _)
    _ ≤ toDouble (toDouble n * q.mantissa) * 2 ^ p.scale := hround

end UnitDouble

end VidhiArena.Foundation.DoubleCount
