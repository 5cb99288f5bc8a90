import VidhiArena.GameMaster.Book

/-!
# Sorted price levels

The order of a side, binary search on it, and sorted insertion: `find` locates
a price exactly when a level carries it, and `insert` puts a new price where
the naive map has it.
-/

namespace VidhiArena.GameMaster

namespace LOBSide

variable {d : Bool} {a b c : Int64}

/-! ## The order of a side -/

theorem before_trans (hab : before d a b = true) (hbc : before d b c = true) :
    before d a c = true := by
  cases d <;> simp only [before, decide_eq_true_eq, if_true, if_false,
    Bool.false_eq_true] at * <;> grind

theorem before_irrefl : before d a a = false := by
  cases d <;> simp [before]

theorem before_asymm (hab : before d a b = true) : before d b a = false := by
  cases d <;> simp only [before, decide_eq_true_eq, decide_eq_false_iff_not, if_true,
    if_false, Bool.false_eq_true] at * <;> grind

theorem before_total (hne : a ≠ b) (hab : before d a b = false) : before d b a = true := by
  cases d <;> simp only [before, decide_eq_true_eq, decide_eq_false_iff_not, if_true,
    if_false, Bool.false_eq_true] at * <;> grind

theorem ne_of_before (hab : before d a b = true) : a ≠ b := by
  rintro rfl
  rw [before_irrefl] at hab
  exact Bool.noConfusion hab

/-- Prices in the order of a side, best first and each once. -/
def Sorted (d : Bool) (ps : List Int64) : Prop := ps.Pairwise fun a b => before d a b = true

theorem Sorted.nodup {ps : List Int64} (h : Sorted d ps) : ps.Nodup :=
  h.imp fun hab => ne_of_before hab

theorem Sorted.getElem? {ps : List Int64} (h : Sorted d ps) {i j : Nat} {x y : Int64}
    (hi : ps[i]? = some x) (hj : ps[j]? = some y) (hij : i < j) : before d x y = true := by
  obtain ⟨hi', rfl⟩ := List.getElem?_eq_some_iff.mp hi
  obtain ⟨hj', rfl⟩ := List.getElem?_eq_some_iff.mp hj
  exact List.pairwise_iff_getElem.mp h i j hi' hj' hij

/-! ## Binary search -/

variable {s : LOBSide} {p : Int64}

theorem findLoop_some : ∀ {fuel : Nat} {lo hi : Int} {k : Nat},
    s.findLoop p fuel lo hi = some k → (s.levels.map PriceLevel.priceFp)[k]? = some p
  | 0, _, _, _, h => by simp [findLoop] at h
  | fuel + 1, lo, hi, k, h => by
      simp only [findLoop] at h
      split at h
      · split at h
        · cases h
        · rename_i lv hlv
          split at h
          · rename_i hp
            cases h
            simp [List.getElem?_map, hlv, hp]
          · split at h
            · exact findLoop_some h
            · exact findLoop_some h
      · cases h

/-- The window `[lo, hi]` of the search always holds every index at which the
price can stand. -/
theorem findLoop_none (hs : Sorted s.descending (s.levels.map PriceLevel.priceFp)) :
    ∀ {fuel : Nat} {lo hi : Int}, 0 ≤ lo → hi < s.levels.length → hi - lo < fuel →
      (∀ k : Nat, (s.levels.map PriceLevel.priceFp)[k]? = some p → lo ≤ k ∧ k ≤ hi) →
      s.findLoop p fuel lo hi = none → p ∉ s.levels.map PriceLevel.priceFp := by
  intro fuel
  induction fuel with
  | zero =>
      intro lo hi _ _ hfuel hwin _ hmem
      obtain ⟨k, hk⟩ := List.mem_iff_getElem?.mp hmem
      have := hwin k hk
      omega
  | succ fuel ih =>
      intro lo hi hlo hhi hfuel hwin hnone hmem
      simp only [findLoop] at hnone
      by_cases hle : lo ≤ hi
      · rw [if_pos hle] at hnone
        set m := ((lo + hi) / 2).toNat with hm
        have hmid : ((lo + hi) / 2 : Int) = m := by omega
        have hmlt : m < s.levels.length := by omega
        rw [List.getElem?_eq_getElem hmlt] at hnone
        have hprice : (s.levels.map PriceLevel.priceFp)[m]? = some s.levels[m].priceFp := by
          rw [List.getElem?_map, List.getElem?_eq_getElem hmlt]
          rfl
        simp only at hnone
        by_cases hp : s.levels[m].priceFp = p
        · rw [if_pos hp] at hnone
          cases hnone
        · rw [if_neg hp] at hnone
          by_cases hb : before s.descending s.levels[m].priceFp p = true
          · -- everything up to `mid` is better than the price: it lies above
            rw [if_pos hb] at hnone
            refine ih (by omega) hhi (by omega) ?_ hnone hmem
            intro k hk
            have hkwin := hwin k hk
            rcases Nat.lt_trichotomy k m with hkm | hkm | hkm
            · have := hs.getElem? hk hprice hkm
              rw [before_asymm hb] at this
              cases this
            · subst hkm
              rw [hprice] at hk
              exact absurd (Option.some.inj hk) hp
            · omega
          · rw [if_neg hb] at hnone
            refine ih hlo (by omega) (by omega) ?_ hnone hmem
            intro k hk
            have hkwin := hwin k hk
            rcases Nat.lt_trichotomy k m with hkm | hkm | hkm
            · omega
            · subst hkm
              rw [hprice] at hk
              exact absurd (Option.some.inj hk) hp
            · exact absurd (hs.getElem? hprice hk hkm) hb
      · obtain ⟨k, hk⟩ := List.mem_iff_getElem?.mp hmem
        have := hwin k hk
        omega

theorem find_none (hs : Sorted s.descending (s.levels.map PriceLevel.priceFp))
    (h : s.find p = none) : p ∉ s.levels.map PriceLevel.priceFp := by
  refine findLoop_none hs le_rfl (by omega) (by omega) ?_ h
  intro k hk
  obtain ⟨hlt, _⟩ := List.getElem?_eq_some_iff.mp hk
  rw [List.length_map] at hlt
  omega

/-- A price that some level carries is found, at the level that carries it. -/
theorem find_of_mem (hs : Sorted s.descending (s.levels.map PriceLevel.priceFp))
    (h : p ∈ s.levels.map PriceLevel.priceFp) :
    ∃ k, s.find p = some k ∧ (s.levels.map PriceLevel.priceFp)[k]? = some p := by
  cases hf : s.find p with
  | none => exact absurd h (find_none hs hf)
  | some k => exact ⟨k, rfl, findLoop_some hf⟩

/-! ## Sorted insertion -/

/-- Where the insertion loop stops: behind everything the new price does not
precede, before the first level it does. -/
theorem insertion_point {α : Type} (f : α → Int64) (d : Bool) (p : Int64) :
    ∀ l : List α, ∃ pre post, l = pre ++ post ∧
      l.findIdx (fun x => before d p (f x)) = pre.length ∧
      (∀ x ∈ pre, before d p (f x) = false) ∧
      (∀ x post', post = x :: post' → before d p (f x) = true)
  | [] => ⟨[], [], rfl, rfl, by simp, by simp⟩
  | x :: l => by
      by_cases h : before d p (f x) = true
      · refine ⟨[], x :: l, rfl, by simp [List.findIdx_cons, h], by simp, ?_⟩
        rintro y post' heq
        cases heq
        exact h
      · obtain ⟨pre, post, rfl, hidx, hpre, hpost⟩ := insertion_point f d p l
        refine ⟨x :: pre, post, rfl, ?_, ?_, hpost⟩
        · simp only [List.findIdx_cons, h, hidx, List.length_cons, cond_false]
        · intro y hy
          rcases List.mem_cons.mp hy with rfl | hy
          · simpa using h
          · exact hpre y hy

theorem insertIdx_append {α : Type} : ∀ (pre post : List α) (x : α),
    (pre ++ post).insertIdx pre.length x = pre ++ x :: post
  | [], _, _ => rfl
  | y :: pre, post, x => congrArg (y :: ·) (insertIdx_append pre post x)

theorem sorted_insertion {pre post : List Int64} (hs : Sorted d (pre ++ post))
    (hp : p ∉ pre ++ post) (hpre : ∀ x ∈ pre, before d p x = false)
    (hpost : ∀ x post', post = x :: post' → before d p x = true) :
    Sorted d (pre ++ p :: post) := by
  obtain ⟨h₁, h₂, h₃⟩ := List.pairwise_append.mp hs
  have hlt : ∀ x ∈ post, before d p x = true := by
    intro x hx
    cases post with
    | nil => exact absurd hx List.not_mem_nil
    | cons y post' =>
        have hy := hpost y post' rfl
        rcases List.mem_cons.mp hx with rfl | hx
        · exact hy
        · exact before_trans hy ((List.pairwise_cons.mp h₂).1 x hx)
  refine List.pairwise_append.mpr ⟨h₁, List.pairwise_cons.mpr ⟨hlt, h₂⟩, ?_⟩
  intro x hx y hy
  rcases List.mem_cons.mp hy with rfl | hy
  · exact before_total (fun h => hp (h ▸ List.mem_append_left _ hx)) (hpre x hx)
  · exact h₃ x hx y hy

end LOBSide

namespace Book

theorem insertLevel_eq {d : Bool} {lv : BookLevel} : ∀ (pre post : List BookLevel),
    (∀ x ∈ pre, LOBSide.before d lv.priceFp x.priceFp = false) →
    (∀ x post', post = x :: post' → LOBSide.before d lv.priceFp x.priceFp = true) →
    insertLevel d lv (pre ++ post) = pre ++ lv :: post
  | [], [], _, _ => rfl
  | [], x :: post, _, hpost => by
      simp [insertLevel, hpost x post rfl]
  | x :: pre, post, hpre, hpost => by
      have ih := insertLevel_eq pre post
        (fun y hy => hpre y (List.mem_cons_of_mem _ hy)) hpost
      simp [insertLevel, hpre x List.mem_cons_self, ih]

end Book

end VidhiArena.GameMaster
