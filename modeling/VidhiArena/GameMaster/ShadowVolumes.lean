import VidhiArena.GameMaster.ShadowAudit

/-!
# Shadow level volumes

A level of the shadow keeps a queue of order ids and a running total. An add
raises the total and `_remove_from_level` lowers it, by what the order has left
at that moment; `on_fill` lowers it nowhere. So a partial fill leaves the total
behind, and a full one takes nothing off it, because the fill has been applied to
the order before the order is removed.

`VolumesExact` is what the totals owe the orders. `Whole` says which events keep
it: an add that fits, a fill that empties the level, and every cancel.
-/

namespace VidhiArena.GameMaster

open VidhiArena.Foundation

namespace ShadowLOB

/-! ## What the totals owe -/

/-- `remaining_volume` of an order of the table. -/
def leftIn (S : ShadowLOB) (id : UInt64) : Int :=
  ((S.orders id).map fun so => so.remainingVolume.toInt).getD 0

def volumeOf (S : ShadowLOB) (ids : List UInt64) : Int := (ids.map S.leftIn).sum

/-- Exact volumes: every total is the sum over the orders of its level. -/
def VolumesExact (S : ShadowLOB) : Prop :=
  ∀ b p level, OrderedMap.find (S.side b) p = some level →
    level.totalVolume.toInt = S.volumeOf level.orderIds

def idsAt (S : ShadowLOB) (b : Bool) (p : Int64) : List UInt64 :=
  ((OrderedMap.find (S.side b) p).map ShadowLevel.orderIds).getD []

end ShadowLOB

namespace ShadowEvent

/-- A fresh id and a positive volume; a positive fill of what a known maker has left. -/
def Reported (S : ShadowLOB) : ShadowEvent → Prop
  | .limitAdd _ _ volume orderId _ => 0 < volume ∧ S.orders orderId = none
  | .fill f makerId _ => 0 < f.volume ∧ ∃ so ∈ S.orders makerId, f.volume ≤ so.remainingVolume
  | .cancel .. => True

/-- What keeps the totals: an add whose level has room for it, and a fill of all
that the only order of a level has left. -/
def Whole (S : ShadowLOB) : ShadowEvent → Prop
  | .limitAdd isBid priceFp volume _ _ =>
      Fits (S.volumeOf (S.idsAt isBid priceFp) + volume.toInt)
  | .fill f makerId _ => ∀ so ∈ S.orders makerId,
      f.volume = so.remainingVolume ∧ S.idsAt so.isBid so.priceFp = [makerId]
  | .cancel .. => True

instance (S : ShadowLOB) (e : ShadowEvent) : Decidable (e.Reported S) :=
  match e with
  | .limitAdd .. => inferInstanceAs (Decidable (_ ∧ _))
  | .fill .. => inferInstanceAs (Decidable (_ ∧ ∃ so ∈ _, _))
  | .cancel .. => inferInstanceAs (Decidable True)

instance (S : ShadowLOB) (e : ShadowEvent) : Decidable (e.Whole S) :=
  match e with
  | .limitAdd .. => inferInstanceAs (Decidable (Fits _))
  | .fill .. => inferInstanceAs (Decidable (∀ so ∈ _, _))
  | .cancel .. => inferInstanceAs (Decidable True)

end ShadowEvent

namespace ShadowLOB

variable {S S' : ShadowLOB} {m id : UInt64} {so so' : ShadowOrder} {level : ShadowLevel} {b : Bool}
  {p : Int64}

theorem leftIn_of (h : S.orders id = some so) : S.leftIn id = so.remainingVolume.toInt := by
  rw [leftIn, h]
  rfl

theorem volumeOf_congr {ids : List UInt64} (h : ∀ i ∈ ids, S'.orders i = S.orders i) :
    S'.volumeOf ids = S.volumeOf ids := by
  refine congrArg List.sum (List.map_congr_left fun i hi => ?_)
  rw [leftIn, leftIn, h i hi]

theorem volumeOf_append (ids ids' : List UInt64) :
    S.volumeOf (ids ++ ids') = S.volumeOf ids + S.volumeOf ids' := by
  rw [volumeOf, List.map_append, List.sum_append]
  rfl

theorem volumeOf_erase {ids : List UInt64} (h : m ∈ ids) :
    S.volumeOf ids = S.leftIn m + S.volumeOf (ids.erase m) :=
  ((List.perm_cons_erase h).map S.leftIn).sum_eq

/-! ## The invariant -/

/-- The table and the levels name the same orders, and the totals are exact. -/
structure Booked (S : ShadowLOB) : Prop where
  positive : ∀ id so, S.orders id = some so → 0 < so.remainingVolume
  active : ∀ id so, S.orders id = some so → so.isCancelled = false ∧ so.isFullyFilled = false
  placed : ∀ id so, S.orders id = some so → ∃ level,
    OrderedMap.find (S.side so.isBid) so.priceFp = some level ∧ id ∈ level.orderIds
  listed : ∀ b p level, OrderedMap.find (S.side b) p = some level →
    level.orderIds.Nodup ∧ ∀ id ∈ level.orderIds, ∃ so, S.orders id = some so ∧
      so.isBid = b ∧ so.priceFp = p
  exact : S.VolumesExact

theorem booked_init : Booked init where
  positive := fun _ _ h => nomatch h
  active := fun _ _ h => nomatch h
  placed := fun _ _ h => nomatch h
  listed := fun b p level h => by cases b <;> cases h
  exact := fun b p level h => by cases b <;> cases h

theorem Booked.congr (h : Booked S) (hb : SameBook S S') : Booked S' := by
  obtain ⟨hpos, hactive, hplaced, hlisted, hexact⟩ := h
  have hvol : ∀ ids, S'.volumeOf ids = S.volumeOf ids :=
    fun ids => volumeOf_congr fun i _ => by rw [hb.orders]
  refine ⟨?_, ?_, ?_, ?_, ?_⟩
  · rwa [hb.orders]
  · rwa [hb.orders]
  · simpa only [hb.orders, hb.side] using hplaced
  · simpa only [hb.orders, hb.side] using hlisted
  · intro b p level hfind
    rw [hb.side] at hfind
    rw [hvol]
    exact hexact b p level hfind

theorem Booked.volumeOf_pos (h : Booked S) {ids : List UInt64} (hne : ids ≠ [])
    (hids : ∀ i ∈ ids, ∃ so, S.orders i = some so) : 0 < S.volumeOf ids := by
  refine ShadowLevel.sum_pos (q := ids.map fun i => (i, S.leftIn i)) ?_ ?_ |>.trans_eq ?_
  · intro y hy
    obtain ⟨i, hi, rfl⟩ := List.mem_map.mp hy
    obtain ⟨so, hso⟩ := hids i hi
    have hpos := h.positive i so hso
    rw [Int64.lt_iff_toInt_lt, Int64.toInt_zero] at hpos
    rw [leftIn_of hso]
    exact hpos
  · exact fun hnil => hne (List.map_eq_nil_iff.mp hnil)
  · rw [List.map_map]
    rfl

theorem idsAt_of (h : OrderedMap.find (S.side b) p = some level) : S.idsAt b p = level.orderIds := by
  rw [idsAt, h]
  rfl

/-! ## An add -/

section Add

variable {v t : Int64}

theorem find_onLimitAdd (b' : Bool) (p' : Int64) :
    OrderedMap.find ((S.onLimitAdd b p v id t).side b') p' =
      if b' = b ∧ p = p' then
        some ⟨S.idsAt b p ++ [id],
          ((OrderedMap.find (S.side b) p).getD ⟨[], 0⟩).totalVolume + v⟩
      else OrderedMap.find (S.side b') p' := by
  have hids : ((OrderedMap.find (S.side b) p).getD ⟨[], 0⟩).orderIds = S.idsAt b p := by
    unfold idsAt
    cases OrderedMap.find (S.side b) p <;> rfl
  rw [onLimitAdd_side]
  by_cases hb : b' = b
  · subst hb
    simp only [if_true, find_joined, true_and, hids]
  · rw [if_neg hb, if_neg fun h => hb h.1]

theorem Booked.total_at (h : Booked S) (b : Bool) (p : Int64) :
    ((OrderedMap.find (S.side b) p).getD ⟨[], 0⟩).totalVolume.toInt = S.volumeOf (S.idsAt b p) := by
  cases hfind : OrderedMap.find (S.side b) p with
  | none =>
      rw [idsAt, hfind]
      rfl
  | some level =>
      rw [idsAt_of hfind]
      exact h.exact b p level hfind

theorem Booked.fresh_ne (h : Booked S) (hfresh : S.orders id = none)
    (hfind : OrderedMap.find (S.side b) p = some level) {i : UInt64} (hi : i ∈ level.orderIds) :
    i ≠ id := by
  rintro rfl
  obtain ⟨so, hso, -⟩ := (h.listed b p level hfind).2 i hi
  rw [hfresh] at hso
  cases hso

theorem Booked.fresh_notin (h : Booked S) (hfresh : S.orders id = none) : id ∉ S.idsAt b p := by
  unfold idsAt
  cases hfind : OrderedMap.find (S.side b) p with
  | none => exact List.not_mem_nil
  | some level => exact fun hi => h.fresh_ne hfresh hfind hi rfl

theorem Booked.volume_joined (h : Booked S) (hfresh : S.orders id = none) :
    (S.onLimitAdd b p v id t).volumeOf (S.idsAt b p ++ [id]) =
      S.volumeOf (S.idsAt b p) + v.toInt := by
  have hself : (S.onLimitAdd b p v id t).volumeOf [id] = v.toInt := by
    rw [volumeOf, List.map_singleton, List.sum_singleton, leftIn, onLimitAdd_orders,
      Function.update_self]
    rfl
  rw [volumeOf_append, hself, volumeOf_congr]
  intro i hi
  rw [onLimitAdd_orders, Function.update_of_ne]
  rintro rfl
  exact h.fresh_notin hfresh hi

/-- The level that a fresh order joins is exact again if its volume fits, and only then. -/
theorem Booked.add_exact_iff (h : Booked S) (hfresh : S.orders id = none) :
    (S.onLimitAdd b p v id t).VolumesExact ↔ Fits (S.volumeOf (S.idsAt b p) + v.toInt) := by
  constructor
  · intro hexact
    have hlevel := hexact b p _ ((find_onLimitAdd b p).trans (if_pos ⟨rfl, rfl⟩))
    rw [h.volume_joined hfresh] at hlevel
    rw [← hlevel]
    exact fits_toInt _
  · intro hfits b' p' level hfind
    rw [find_onLimitAdd] at hfind
    split at hfind
    · cases hfind
      rw [h.volume_joined hfresh, toInt_add_of_fits, h.total_at]
      rwa [h.total_at]
    · rw [h.exact b' p' level hfind]
      refine (volumeOf_congr fun i hi => ?_).symm
      rw [onLimitAdd_orders, Function.update_of_ne (h.fresh_ne hfresh hfind hi)]

theorem Booked.add (h : Booked S) (hv : 0 < v) (hfresh : S.orders id = none)
    (hexact : (S.onLimitAdd b p v id t).VolumesExact) : Booked (S.onLimitAdd b p v id t) := by
  have hother : ∀ i so, (S.onLimitAdd b p v id t).orders i = some so →
      i = id ∧ so = ⟨id, S.globalSeq + 1, p, v, v, b, false, false, t⟩ ∨
        i ≠ id ∧ S.orders i = some so := by
    intro i so hso
    rw [onLimitAdd_orders] at hso
    by_cases hi : i = id
    · subst hi
      rw [Function.update_self] at hso
      cases hso
      exact Or.inl ⟨rfl, rfl⟩
    · rw [Function.update_of_ne hi] at hso
      exact Or.inr ⟨hi, hso⟩
  refine ⟨fun i so hso => ?_, fun i so hso => ?_, fun i so hso => ?_, fun b' p' level hfind => ?_,
    hexact⟩
  · rcases hother i so hso with ⟨-, rfl⟩ | ⟨-, hso⟩
    · exact hv
    · exact h.positive i so hso
  · rcases hother i so hso with ⟨-, rfl⟩ | ⟨-, hso⟩
    · exact ⟨rfl, rfl⟩
    · exact h.active i so hso
  · rcases hother i so hso with ⟨rfl, rfl⟩ | ⟨-, hso⟩
    · exact ⟨_, (find_onLimitAdd b p).trans (if_pos ⟨rfl, rfl⟩), by simp⟩
    · obtain ⟨level, hfind, hmem⟩ := h.placed i so hso
      rw [find_onLimitAdd]
      split
      · rename_i hsame
        obtain ⟨rfl, rfl⟩ := hsame
        rw [idsAt_of hfind]
        exact ⟨_, rfl, List.mem_append_left _ hmem⟩
      · exact ⟨level, hfind, hmem⟩
  · have hkeep : ∀ {level : ShadowLevel}, OrderedMap.find (S.side b') p' = some level →
        ∀ i ∈ level.orderIds, ∃ so, (S.onLimitAdd b p v id t).orders i = some so ∧
          so.isBid = b' ∧ so.priceFp = p' := by
      intro level hfind i hi
      rw [onLimitAdd_orders, Function.update_of_ne (h.fresh_ne hfresh hfind hi)]
      exact (h.listed b' p' level hfind).2 i hi
    rw [find_onLimitAdd] at hfind
    split at hfind
    · rename_i hsame
      obtain ⟨rfl, rfl⟩ := hsame
      cases hfind
      have hqueue : (S.idsAt b' p).Nodup ∧ ∀ i ∈ S.idsAt b' p, ∃ so,
          (S.onLimitAdd b' p v id t).orders i = some so ∧ so.isBid = b' ∧ so.priceFp = p := by
        cases hold : OrderedMap.find (S.side b') p with
        | none =>
            rw [idsAt, hold]
            exact ⟨List.nodup_nil, fun i hi => absurd hi List.not_mem_nil⟩
        | some level =>
            rw [idsAt_of hold]
            exact ⟨(h.listed b' p level hold).1, hkeep hold⟩
      refine ⟨hqueue.1.append (List.nodup_singleton id) ?_, fun i hi => ?_⟩
      · exact List.disjoint_singleton.mpr (h.fresh_notin hfresh)
      · rcases List.mem_append.mp hi with hi | hi
        · exact hqueue.2 i hi
        · rw [List.mem_singleton.mp hi, onLimitAdd_orders, Function.update_self]
          exact ⟨_, rfl, rfl, rfl⟩
    · exact ⟨(h.listed b' p' level hfind).1, hkeep hfind⟩

end Add

/-! ## A close -/

theorem Booked.notin_elsewhere (h : Booked S) (hso : S.orders m = some so)
    (hfind : OrderedMap.find (S.side b) p = some level) (hne : ¬ (so.isBid = b ∧ so.priceFp = p)) :
    m ∉ level.orderIds := by
  intro hm
  obtain ⟨so₁, hso₁, hside, hprice⟩ := (h.listed b p level hfind).2 m hm
  rw [hso] at hso₁
  cases hso₁
  exact hne ⟨hside, hprice⟩

/-- What is left of the level of an order, with a part of its volume taken off the total. -/
theorem Booked.leftOf_eq (h : Booked S) (hso : S.orders m = some so)
    (hfind : OrderedMap.find (S.side so.isBid) so.priceFp = some level) (hm : m ∈ level.orderIds)
    (hlo : 0 ≤ so'.remainingVolume.toInt)
    (hhi : so'.remainingVolume.toInt ≤ so.remainingVolume.toInt) :
    leftOf m so' level = (if level.orderIds.erase m = [] then none
        else some ⟨level.orderIds.erase m, level.totalVolume - so'.remainingVolume⟩) ∧
      (level.totalVolume - so'.remainingVolume).toInt =
        S.volumeOf (level.orderIds.erase m) +
          (so.remainingVolume.toInt - so'.remainingVolume.toInt) := by
  have hlisted := (h.listed _ _ level hfind).2
  have htotal := h.exact _ _ level hfind
  rw [volumeOf_erase hm, leftIn_of hso] at htotal
  have hrest : level.orderIds.erase m = [] ∨ 0 < S.volumeOf (level.orderIds.erase m) := by
    refine or_iff_not_imp_left.mpr fun hne => h.volumeOf_pos hne fun i hi => ?_
    obtain ⟨so₁, hso₁, -⟩ := hlisted i (List.mem_of_mem_erase hi)
    exact ⟨so₁, hso₁⟩
  have hnonneg : 0 ≤ S.volumeOf (level.orderIds.erase m) := by
    rcases hrest with hnil | hpos
    · rw [hnil]
      exact le_rfl
    · exact hpos.le
  have hbound := fits_toInt level.totalVolume
  unfold Fits at hbound
  have hsub : (level.totalVolume - so'.remainingVolume).toInt =
      S.volumeOf (level.orderIds.erase m) +
        (so.remainingVolume.toInt - so'.remainingVolume.toInt) := by
    rw [toInt_sub_of_fits ⟨by omega, by omega⟩]
    omega
  refine ⟨?_, hsub⟩
  rw [leftOf, ShadowLevel.without, if_pos hm]
  refine if_congr ?_ rfl rfl
  simp only
  rw [Int64.le_iff_toInt_le, Int64.toInt_zero, hsub]
  constructor
  · rintro (hzero | hnil)
    · exact hrest.resolve_right (by omega)
    · exact hnil
  · exact Or.inr

/-- An order leaves with `so'.remainingVolume` taken off its level: the totals stay
exact if that is all it had, or if nobody is behind it. -/
theorem Booked.close_exact_iff (h : Booked S) (hso : S.orders m = some so)
    (hside : so'.isBid = so.isBid) (hprice : so'.priceFp = so.priceFp)
    (hlo : 0 ≤ so'.remainingVolume.toInt)
    (hhi : so'.remainingVolume.toInt ≤ so.remainingVolume.toInt) :
    (S.closeOrder m so').VolumesExact ↔
      so'.remainingVolume = so.remainingVolume ∨ S.idsAt so.isBid so.priceFp = [m] := by
  obtain ⟨level, hfind, hm⟩ := h.placed m so hso
  obtain ⟨hleft, hsub⟩ := h.leftOf_eq hso hfind hm hlo hhi
  have hnodup := (h.listed _ _ level hfind).1
  have hvol : (S.closeOrder m so').volumeOf (level.orderIds.erase m) =
      S.volumeOf (level.orderIds.erase m) := by
    refine volumeOf_congr fun i hi => ?_
    rw [closeOrder_orders, Function.update_of_ne]
    rintro rfl
    exact hnodup.not_mem_erase hi
  rw [idsAt_of hfind]
  constructor
  · intro hexact
    refine or_iff_not_imp_right.mpr fun hmore => ?_
    have hne : level.orderIds.erase m ≠ [] := by
      rw [Ne, List.erase_eq_nil_iff]
      rintro (hnil | hone)
      · rw [hnil] at hm
        exact absurd hm List.not_mem_nil
      · exact hmore hone
    rw [if_neg hne] at hleft
    have hlevel := hexact so.isBid so.priceFp ⟨level.orderIds.erase m,
      level.totalVolume - so'.remainingVolume⟩ (by
        rw [find_closeOrder, if_pos ⟨hside, hprice⟩, hfind]
        exact hleft)
    rw [hvol, hsub] at hlevel
    rw [← Int64.toInt_inj]
    omega
  · intro hor b' p' level' hfind'
    rw [find_closeOrder] at hfind'
    split at hfind'
    · rename_i hsame
      rw [hside, hprice] at hsame
      obtain ⟨rfl, rfl⟩ := hsame
      rw [hfind, Option.bind_some, hleft] at hfind'
      split at hfind'
      · cases hfind'
      · rename_i hne
        cases hfind'
        rw [hvol, hsub]
        rcases hor with heq | hone
        · rw [heq]
          omega
        · exact absurd (List.erase_eq_nil_iff.mpr (Or.inr hone)) hne
    · rename_i hne
      rw [hside, hprice] at hne
      rw [h.exact b' p' level' hfind']
      refine (volumeOf_congr fun i hi => ?_).symm
      rw [closeOrder_orders, Function.update_of_ne]
      rintro rfl
      exact h.notin_elsewhere hso hfind' hne hi

theorem Booked.close (h : Booked S) (hso : S.orders m = some so)
    (hside : so'.isBid = so.isBid) (hprice : so'.priceFp = so.priceFp)
    (hlo : 0 ≤ so'.remainingVolume.toInt)
    (hhi : so'.remainingVolume.toInt ≤ so.remainingVolume.toInt)
    (hexact : (S.closeOrder m so').VolumesExact) : Booked (S.closeOrder m so') := by
  obtain ⟨level, hfind, hm⟩ := h.placed m so hso
  obtain ⟨hleft, -⟩ := h.leftOf_eq hso hfind hm hlo hhi
  have hnodup := (h.listed _ _ level hfind).1
  have hother : ∀ {i so₁}, (S.closeOrder m so').orders i = some so₁ ↔
      i ≠ m ∧ S.orders i = some so₁ := by
    intro i so₁
    rw [closeOrder_orders]
    by_cases hi : i = m
    · subst hi
      simp
    · simp [hi]
  refine ⟨fun i so₁ hso₁ => h.positive i so₁ (hother.mp hso₁).2,
    fun i so₁ hso₁ => h.active i so₁ (hother.mp hso₁).2, fun i so₁ hso₁ => ?_,
    fun b' p' level' hfind' => ?_, hexact⟩
  · obtain ⟨hi, hso₁⟩ := hother.mp hso₁
    obtain ⟨level₁, hfind₁, hmem⟩ := h.placed i so₁ hso₁
    rw [find_closeOrder, hside, hprice]
    split
    · rename_i hsame
      rw [← hsame.1, ← hsame.2, hfind] at hfind₁ ⊢
      cases hfind₁
      have hrest := (List.mem_erase_of_ne hi).mpr hmem
      rw [if_neg (List.ne_nil_of_mem hrest)] at hleft
      exact ⟨_, hleft, hrest⟩
    · exact ⟨level₁, hfind₁, hmem⟩
  · rw [find_closeOrder, hside, hprice] at hfind'
    split at hfind'
    · rename_i hsame
      obtain ⟨rfl, rfl⟩ := hsame
      rw [hfind, Option.bind_some, hleft] at hfind'
      split at hfind'
      · cases hfind'
      · cases hfind'
        refine ⟨hnodup.erase m, fun i hi => ?_⟩
        obtain ⟨so₁, hso₁, hplace⟩ := (h.listed _ _ level hfind).2 i (List.mem_of_mem_erase hi)
        refine ⟨so₁, hother.mpr ⟨?_, hso₁⟩, hplace⟩
        rintro rfl
        exact hnodup.not_mem_erase hi
    · rename_i hne
      obtain ⟨hnodup', hlisted'⟩ := h.listed b' p' level' hfind'
      refine ⟨hnodup', fun i hi => ?_⟩
      obtain ⟨so₁, hso₁, hplace⟩ := hlisted' i hi
      refine ⟨so₁, hother.mpr ⟨?_, hso₁⟩, hplace⟩
      rintro rfl
      exact h.notin_elsewhere hso hfind' hne hi

/-! ## A fill and a cancel -/

theorem Booked.not_exact_of_part (h : Booked S) {f : MatchedFill} (hso : S.orders m = some so)
    (hv : 0 < f.volume) (hpart : f.volume < so.remainingVolume) :
    ¬ (S.applyFill so f m).VolumesExact := by
  intro hexact
  obtain ⟨hlo, hhi⟩ := sub_between hv hpart
  obtain ⟨after, hafter⟩ : ∃ after, after =
      { so with remainingVolume := so.remainingVolume - f.volume } := ⟨_, rfl⟩
  obtain ⟨T, hT⟩ : ∃ T, T = { S with orders := Function.update S.orders m (some after) } := ⟨_, rfl⟩
  have happly : S.applyFill so f m = T := by
    rw [hT, hafter]
    exact if_neg (Int64.not_le.mpr hlo)
  rw [happly] at hexact
  obtain ⟨level, hfind, hm⟩ := h.placed m so hso
  have hbefore := h.exact _ _ level hfind
  have hlevel := hexact so.isBid so.priceFp level (by rw [hT]; exact hfind)
  have hrest : T.volumeOf (level.orderIds.erase m) = S.volumeOf (level.orderIds.erase m) := by
    rw [hT]
    refine volumeOf_congr fun i hi => Function.update_of_ne ?_ _ _
    rintro rfl
    exact (h.listed _ _ level hfind).1.not_mem_erase hi
  have hleft : T.leftIn m = (so.remainingVolume - f.volume).toInt := by
    rw [hT, leftIn_of (Function.update_self m _ _), hafter]
  rw [volumeOf_erase hm, leftIn_of hso] at hbefore
  rw [volumeOf_erase hm, hrest, hleft] at hlevel
  rw [Int64.lt_iff_toInt_lt] at hhi
  omega

/-- A fill of all that the maker has left closes it, and takes nothing off its level. -/
theorem applyFill_whole {f : MatchedFill} (heq : f.volume = so.remainingVolume) :
    S.applyFill so f m = S.closeOrder m { so with remainingVolume := 0, isFullyFilled := true } := by
  unfold applyFill
  rw [heq, Int64.sub_self]
  exact if_pos (Int64.le_refl 0)

/-! ## Runs -/

theorem onCancel_of (h : Booked S) (hso : S.orders id = some so) (ok : Bool) (t : Int64) :
    S.onCancel id ok t = S.closeOrder id { so with isCancelled := true } := by
  obtain ⟨hcancelled, hfilled⟩ := h.active id so hso
  unfold onCancel
  rw [hso]
  exact if_neg (by simp [hcancelled, hfilled])

theorem sameBook_onCancel_none (hso : S.orders id = none) (ok : Bool) (t : Int64) :
    SameBook S (S.onCancel id ok t) := by
  unfold onCancel
  rw [hso]
  simp only
  split
  · exact sameBook_report S _
  · exact SameBook.refl S

theorem SameBook.exact_iff (hb : SameBook S S') : S'.VolumesExact ↔ S.VolumesExact := by
  have hvol : ∀ ids, S'.volumeOf ids = S.volumeOf ids :=
    fun ids => volumeOf_congr fun i _ => by rw [hb.orders]
  unfold VolumesExact
  simp only [hb.side, hvol]

/-- One event: exact volumes stay exact if the event is whole, and only then. -/
theorem Booked.replay_exact_iff (h : Booked S) {e : ShadowEvent} (he : e.Reported S) :
    (S.replay e).VolumesExact ↔ e.Whole S := by
  cases e with
  | limitAdd b p v id t => exact h.add_exact_iff he.2
  | fill f m t =>
      obtain ⟨hv, so, hso, hle⟩ := he
      have hso : S.orders m = some so := hso
      have hwhole : (ShadowEvent.fill f m t).Whole S ↔
          f.volume = so.remainingVolume ∧ S.idsAt so.isBid so.priceFp = [m] := by
        constructor
        · exact fun hw => hw so hso
        · intro hw so₁ hso₁
          rw [Option.mem_def, hso] at hso₁
          cases hso₁
          exact hw
      rw [hwhole]
      refine (sameBook_onFill t hso).exact_iff.trans ?_
      by_cases heq : f.volume = so.remainingVolume
      · have hpos := h.positive m so hso
        rw [Int64.lt_iff_toInt_lt, Int64.toInt_zero] at hpos
        rw [applyFill_whole heq, and_iff_right heq]
        refine (h.close_exact_iff hso ?_ ?_ ?_ ?_).trans (or_iff_right fun hzero => ?_)
        · rfl
        · rfl
        · exact le_rfl
        · exact hpos.le
        have hzero : (0 : Int64) = so.remainingVolume := hzero
        rw [← hzero, Int64.toInt_zero] at hpos
        exact absurd hpos (lt_irrefl 0)
      · have hpart : f.volume < so.remainingVolume := Int64.lt_of_le_of_ne hle heq
        exact iff_of_false (h.not_exact_of_part hso hv hpart) fun hw => heq hw.1
  | cancel id ok t =>
      refine iff_of_true ?_ trivial
      cases hso : S.orders id with
      | none => exact (sameBook_onCancel_none hso ok t).exact_iff.mpr h.exact
      | some so =>
          have hpos := h.positive id so hso
          rw [Int64.lt_iff_toInt_lt, Int64.toInt_zero] at hpos
          show (S.onCancel id ok t).VolumesExact
          rw [onCancel_of h hso]
          refine (h.close_exact_iff hso ?_ ?_ ?_ ?_).mpr (Or.inl ?_)
          · rfl
          · rfl
          · exact hpos.le
          · exact le_rfl
          · rfl

theorem Booked.replay (h : Booked S) {e : ShadowEvent} (he : e.Reported S)
    (hexact : (S.replay e).VolumesExact) : Booked (S.replay e) := by
  cases e with
  | limitAdd b p v id t => exact h.add he.1 he.2 hexact
  | fill f m t =>
      obtain ⟨hv, so, hso, hle⟩ := he
      have hso : S.orders m = some so := hso
      have hsame := sameBook_onFill (f := f) t hso
      have hexact := hsame.exact_iff.mp hexact
      refine Booked.congr ?_ hsame
      by_cases heq : f.volume = so.remainingVolume
      · have hpos := h.positive m so hso
        rw [Int64.lt_iff_toInt_lt, Int64.toInt_zero] at hpos
        rw [applyFill_whole heq] at hexact ⊢
        exact h.close hso rfl rfl le_rfl hpos.le hexact
      · exact absurd hexact (h.not_exact_of_part hso hv (Int64.lt_of_le_of_ne hle heq))
  | cancel id ok t =>
      cases hso : S.orders id with
      | none => exact h.congr (sameBook_onCancel_none hso ok t)
      | some so =>
          have hpos := h.positive id so hso
          rw [Int64.lt_iff_toInt_lt, Int64.toInt_zero] at hpos
          have hcancel := onCancel_of h hso ok t
          change (S.onCancel id ok t).VolumesExact at hexact
          change Booked (S.onCancel id ok t)
          rw [hcancel] at hexact ⊢
          exact h.close hso rfl rfl hpos.le le_rfl hexact

/-- The totals of a stream are exact in every state if and only if every event is whole. -/
theorem volumes_exact_iff {events : List ShadowEvent}
    (hreported : Along replay (fun S e => e.Reported S) init events) :
    (∀ pre, pre <+: events → (run pre).VolumesExact) ↔
      Along replay (fun S e => e.Whole S) init events :=
  foldl_obs_iff_along (fun _ h => h.exact)
    (fun _ _ h he hwhole => h.replay he ((h.replay_exact_iff he).mpr hwhole))
    (fun _ _ h he hexact => (h.replay_exact_iff he).mp hexact) events booked_init hreported

/-- Two orders at one price: the second leaves, and the first is filled at once. -/
theorem volumes_exact_iff_filled_alone :
    let fill : MatchedFill := ⟨100000000, 10, botMM, contestant, 1, false, false, true⟩
    let events : List ShadowEvent := [.limitAdd true 100000000 10 1 0, .limitAdd true 100000000 5 2 0,
      .cancel 2 true 1, .fill fill 1 2]
    (∀ pre, pre <+: events → (run pre).VolumesExact) ↔
      Along replay (fun S e => e.Whole S) init events := by
  intro fill events
  exact volumes_exact_iff (by decide)

/-- A partial fill: four of ten, and the level still shows ten. -/
theorem partial_fill_keeps_total :
    let fill : MatchedFill := ⟨100000000, 4, botMM, contestant, 1, false, false, true⟩
    let events : List ShadowEvent := [.limitAdd true 100000000 10 1 0, .fill fill 1 1]
    Along replay (fun S e => e.Reported S) init events ∧ ¬ (run events).VolumesExact := by
  intro fill events
  refine ⟨by decide, fun hexact => ?_⟩
  have hlevel := hexact true 100000000 ⟨[1], 10⟩ (by decide)
  revert hlevel
  decide

end ShadowLOB

end VidhiArena.GameMaster
