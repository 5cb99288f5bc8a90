import Mathlib.Data.List.Nodup
import Mathlib.Data.List.Perm.Subperm
import Mathlib.Data.Set.Insert
import Mathlib.Logic.Function.Basic

/-!
# Open addressing with markers inside the key space

A table `t : ι → ε` of entries whose keys live in `κ`. Two keys are markers:
`empty` (the slot was never used) and `deleted` (a tombstone). A key `k` owns a
probe sequence `seq k : ℕ → ι`; a lookup follows its first `n` slots until it
meets `k` or an empty slot, an insertion takes the first slot that is empty or
deleted, and an erasure overwrites the key with `deleted`.

`Represents` relates a table to the *set* of entries it stores. Its three
closure theorems (`find_of_mem`, `Represents.insert`, `Represents.erase`) are
all a client needs; no hypothesis is made on the hash beyond the probe
sequence itself. `exists_represents` is the converse: whatever is to be stored
has a table.
-/

namespace VidhiArena.Foundation.Probing

/-- The probing loop: the first of the slots `seq i, …, seq (i + n - 1)` on
which the test fires. -/
def scan {ι : Type} (stop : ι → Bool) (seq : ℕ → ι) : ℕ → ℕ → Option ι
  | 0, _ => none
  | n + 1, i => if stop (seq i) then some (seq i) else scan stop seq n (i + 1)

theorem scan_eq_none {ι : Type} {stop : ι → Bool} {seq : ℕ → ι} :
    ∀ {n i : ℕ}, scan stop seq n i = none ↔
      ∀ j, j < n → stop (seq (i + j)) = false
  | 0, i => by simp [scan]
  | n + 1, i => by
      by_cases h : stop (seq i) = true
      · simp only [scan, h, if_true, reduceCtorEq, false_iff, not_forall]
        exact ⟨0, Nat.succ_pos n, by simp [h]⟩
      · simp only [scan, h, if_false, Bool.false_eq_true]
        rw [scan_eq_none]
        constructor
        · intro hall j hj
          cases j with
          | zero => simpa using h
          | succ j =>
              have := hall j (by omega)
              rwa [show i + 1 + j = i + (j + 1) by omega] at this
        · intro hall j hj
          rw [show i + 1 + j = i + (j + 1) by omega]
          exact hall (j + 1) (by omega)

theorem scan_eq_some {ι : Type} {stop : ι → Bool} {seq : ℕ → ι} {s : ι} :
    ∀ {n i : ℕ}, scan stop seq n i = some s ↔
      ∃ j, j < n ∧ seq (i + j) = s ∧ stop s = true ∧
        ∀ l, l < j → stop (seq (i + l)) = false
  | 0, i => by simp [scan]
  | n + 1, i => by
      by_cases h : stop (seq i) = true
      · simp only [scan, h, if_true, Option.some.injEq]
        constructor
        · rintro rfl
          exact ⟨0, Nat.succ_pos n, rfl, h, fun l hl => absurd hl (Nat.not_lt_zero l)⟩
        · rintro ⟨j, _, hs, _, hbefore⟩
          cases j with
          | zero => exact hs
          | succ j =>
              have := hbefore 0 (Nat.succ_pos j)
              simp [h] at this
      · simp only [scan, h, if_false, Bool.false_eq_true]
        rw [scan_eq_some]
        constructor
        · rintro ⟨j, hj, hs, hstop, hbefore⟩
          refine ⟨j + 1, by omega, by rw [← hs]; congr 1; omega, hstop, ?_⟩
          intro l hl
          cases l with
          | zero => simpa using h
          | succ l =>
              have := hbefore l (by omega)
              rwa [show i + 1 + l = i + (l + 1) by omega] at this
        · rintro ⟨j, hj, hs, hstop, hbefore⟩
          cases j with
          | zero =>
              rw [Nat.add_zero] at hs
              rw [hs] at h
              exact absurd hstop h
          | succ j =>
              refine ⟨j, by omega, by rw [← hs]; congr 1; omega, hstop, ?_⟩
              intro l hl
              rw [show i + 1 + l = i + (l + 1) by omega]
              exact hbefore (l + 1) (by omega)

section Table

variable {ι κ ε : Type} (key : ε → κ) (empty deleted : κ) (seq : κ → ℕ → ι) (n : ℕ)

/-- Follow the probe sequence of `k` to its entry, or to an empty slot. The
test for `k` comes before the test for `empty`, so a lookup of the marker
`empty` itself reports the first empty slot as a hit. -/
def find [DecidableEq κ] (t : ι → ε) (k : κ) : Option ι :=
  match scan (fun s => key (t s) = k || key (t s) = empty) (seq k) n 0 with
  | some s => if key (t s) = k then some s else none
  | none => none

/-- The first slot on the probe sequence of `k` that may be overwritten. -/
def vacancy [DecidableEq κ] (t : ι → ε) (k : κ) : Option ι :=
  scan (fun s => key (t s) = empty || key (t s) = deleted) (seq k) n 0

/-- A slot that holds an entry rather than a marker. -/
def Live (e : ε) : Prop := key e ≠ empty ∧ key e ≠ deleted

/-- The table stores exactly the entries of `E`, each under its own key in one
slot, reachable from its key without crossing an empty slot. -/
structure Represents (t : ι → ε) (E : Set ε) : Prop where
  stored : ∀ s, Live key empty deleted (t s) → t s ∈ E
  live : ∀ e ∈ E, Live key empty deleted e
  placed : ∀ e ∈ E, ∃ i, i < n ∧ t (seq (key e) i) = e ∧
    ∀ j, j < i → key (t (seq (key e) j)) ≠ empty ∧ key (t (seq (key e) j)) ≠ key e
  unique : ∀ s s', Live key empty deleted (t s) → key (t s) = key (t s') → s = s'

variable {key empty deleted seq n}

namespace Represents

variable {t : ι → ε} {E : Set ε}

theorem find_of_mem [DecidableEq κ] (h : Represents key empty deleted seq n t E) {e : ε}
    (he : e ∈ E) : ∃ s, find key empty seq n t (key e) = some s ∧ t s = e := by
  obtain ⟨i, hi, hti, hpath⟩ := h.placed e he
  have hscan : scan (fun s => key (t s) = key e || key (t s) = empty)
      (seq (key e)) n 0 = some (seq (key e) i) := by
    rw [scan_eq_some]
    refine ⟨i, hi, by rw [Nat.zero_add], by simp [hti], ?_⟩
    intro l hl
    rw [Nat.zero_add]
    simp [hpath l hl]
  exact ⟨seq (key e) i, by simp [find, hscan, hti], hti⟩

/-- A key no stored entry carries is not found, unless it is a marker. -/
theorem find_of_not_mem [DecidableEq κ] (h : Represents key empty deleted seq n t E) {k : κ}
    (hk : ∀ e ∈ E, key e ≠ k) (hempty : k ≠ empty) (hdel : k ≠ deleted) :
    find key empty seq n t k = none := by
  unfold find
  split
  · rename_i s _
    have hne : key (t s) ≠ k := by
      intro hks
      exact hk (t s) (h.stored s ⟨by rw [hks]; exact hempty, by rw [hks]; exact hdel⟩) hks
    simp [hne]
  · rfl

/-- Writing an entry with a fresh key into the first vacant slot stores it. -/
theorem insert [DecidableEq ι] [DecidableEq κ] (h : Represents key empty deleted seq n t E) {e : ε} {s : ι}
    (hlive : Live key empty deleted e) (hfresh : ∀ e' ∈ E, key e' ≠ key e)
    (hs : vacancy key empty deleted seq n t (key e) = some s) :
    Represents key empty deleted seq n (Function.update t s e) (Set.insert e E) := by
  unfold vacancy at hs
  obtain ⟨i, hi, hsi, hstop, hbefore⟩ := scan_eq_some.mp hs
  rw [Nat.zero_add] at hsi
  have hvac : ¬ Live key empty deleted (t s) := by
    intro hl
    simp [hl.1, hl.2] at hstop
  have hold : ∀ e' ∈ E, ∀ r, t r = e' → r ≠ s := by
    rintro e' he' r hr rfl
    exact hvac (hr ▸ h.live e' he')
  refine ⟨?_, ?_, ?_, ?_⟩
  · intro r hr
    by_cases hrs : r = s
    · subst hrs
      rw [Function.update_self]
      exact Or.inl rfl
    · rw [Function.update_of_ne hrs] at hr ⊢
      exact Or.inr (h.stored r hr)
  · rintro e' (rfl | he')
    · exact hlive
    · exact h.live e' he'
  · rintro e' (rfl | he')
    · refine ⟨i, hi, by rw [hsi, Function.update_self], ?_⟩
      intro j hj
      have hb := hbefore j hj
      rw [Nat.zero_add] at hb
      simp only [Bool.or_eq_false_iff, decide_eq_false_iff_not] at hb
      have hne : seq (key e') j ≠ s := by
        intro heq
        rw [heq] at hb
        simp [hb.1, hb.2] at hstop
      rw [Function.update_of_ne hne]
      exact ⟨hb.1, hfresh _ (h.stored _ hb)⟩
    · obtain ⟨i', hi', hti', hpath⟩ := h.placed e' he'
      refine ⟨i', hi', by rw [Function.update_of_ne (hold e' he' _ hti'), hti'], ?_⟩
      intro j hj
      by_cases hjs : seq (key e') j = s
      · rw [hjs, Function.update_self]
        exact ⟨hlive.1, (hfresh e' he').symm⟩
      · rw [Function.update_of_ne hjs]; exact hpath j hj
  · intro r r' hr hk
    by_cases hrs : r = s <;> by_cases hrs' : r' = s
    · rw [hrs, hrs']
    · subst hrs
      rw [Function.update_self, Function.update_of_ne hrs'] at hk
      have hr' : Live key empty deleted (t r') :=
        ⟨by rw [← hk]; exact hlive.1, by rw [← hk]; exact hlive.2⟩
      exact absurd hk.symm (hfresh _ (h.stored r' hr'))
    · subst hrs'
      rw [Function.update_of_ne hrs] at hr
      rw [Function.update_self, Function.update_of_ne hrs] at hk
      exact absurd hk (hfresh _ (h.stored r hr))
    · rw [Function.update_of_ne hrs] at hr
      rw [Function.update_of_ne hrs, Function.update_of_ne hrs'] at hk
      exact h.unique r r' hr hk

/-- Overwriting the key of a stored entry with the tombstone removes exactly
that entry: the slot stays non-empty, so no probe path is cut. -/
theorem erase [DecidableEq ι] (h : Represents key empty deleted seq n t E) {e d : ε} {s : ι}
    (hmarkers : deleted ≠ empty) (hs : t s = e)
    (hd : key d = deleted) :
    Represents key empty deleted seq n (Function.update t s d)
      {x | x ∈ E ∧ key x ≠ key e} := by
  have hdead : ¬ Live key empty deleted d := fun hl => hl.2 hd
  have hslot : ∀ r, Live key empty deleted (t r) → key (t r) = key e → r = s := by
    intro r hr hk
    exact h.unique r s hr (by rw [hk, hs])
  refine ⟨?_, fun x hx => h.live x hx.1, ?_, ?_⟩
  · intro r hr
    by_cases hrs : r = s
    · subst hrs
      rw [Function.update_self] at hr
      exact absurd hr hdead
    · rw [Function.update_of_ne hrs] at hr ⊢
      exact ⟨h.stored r hr, fun hk => hrs (hslot r hr hk)⟩
  · rintro x ⟨hx, hk⟩
    obtain ⟨i, hi, hti, hpath⟩ := h.placed x hx
    have hne : seq (key x) i ≠ s := by
      intro heq
      rw [heq, hs] at hti
      exact hk (by rw [hti])
    refine ⟨i, hi, by rw [Function.update_of_ne hne, hti], ?_⟩
    intro j hj
    by_cases hjs : seq (key x) j = s
    · rw [hjs, Function.update_self, hd]
      exact ⟨hmarkers, (h.live x hx).2.symm⟩
    · rw [Function.update_of_ne hjs]; exact hpath j hj
  · intro r r' hr hk
    by_cases hrs : r = s
    · subst hrs
      rw [Function.update_self] at hr
      exact absurd hr hdead
    · rw [Function.update_of_ne hrs] at hr hk
      by_cases hrs' : r' = s
      · subst hrs'
        rw [Function.update_self, hd] at hk
        exact absurd hk hr.2
      · rw [Function.update_of_ne hrs'] at hk
        exact h.unique r r' hr hk

end Represents

theorem represents_empty {t : ι → ε} (h : ∀ s, key (t s) = empty) :
    Represents key empty deleted seq n t ∅ where
  stored := fun s hs => absurd (h s) hs.1
  live := fun _ he => absurd he (Set.notMem_empty _)
  placed := fun _ he => absurd he (Set.notMem_empty _)
  unique := fun s _ hs _ => absurd (h s) hs.1

/-- Fewer entries than slots leave a vacancy: live slots hold distinct entries. -/
theorem Represents.exists_vacancy [DecidableEq κ] {t : ι → ε} {l : List ε}
    (h : Represents key empty deleted seq n t {e | e ∈ l}) (hlen : l.length < n) (k : κ)
    (hinj : Set.InjOn (seq k) {i | i < n}) :
    ∃ s, vacancy key empty deleted seq n t k = some s := by
  cases hv : vacancy key empty deleted seq n t k with
  | some s => exact ⟨s, rfl⟩
  | none =>
      exfalso
      have hlive : ∀ j < n, Live key empty deleted (t (seq k j)) := by
        intro j hj
        have hstop := scan_eq_none.mp hv j hj
        rw [Nat.zero_add, Bool.or_eq_false_iff, decide_eq_false_iff_not,
          decide_eq_false_iff_not] at hstop
        exact hstop
      have hnodup : ((List.range n).map fun j => t (seq k j)).Nodup := by
        refine List.Nodup.map_on ?_ List.nodup_range
        intro i hi j hj heq
        rw [List.mem_range] at hi hj
        exact hinj hi hj (h.unique _ _ (hlive i hi) (congrArg key heq))
      have hsub : ((List.range n).map fun j => t (seq k j)) ⊆ l := by
        intro e he
        obtain ⟨j, hj, rfl⟩ := List.mem_map.mp he
        exact h.stored _ (hlive j (List.mem_range.mp hj))
      have hle := (hnodup.subperm hsub).length_le
      rw [List.length_map, List.length_range] at hle
      omega

/-- Any few entries with distinct live keys can be stored, and a slot that stores none of
them is as it was. -/
theorem exists_represents [DecidableEq ι] [DecidableEq κ] {t : ι → ε}
    (hblank : ∀ s, key (t s) = empty) (hinj : ∀ k, Set.InjOn (seq k) {i | i < n}) :
    ∀ {l : List ε}, (∀ e ∈ l, Live key empty deleted e) → (l.map key).Nodup → l.length ≤ n →
      ∃ t', Represents key empty deleted seq n t' {e | e ∈ l} ∧
        ∀ s, key (t' s) = empty → t' s = t s
  | [], _, _, _ => by
      refine ⟨t, ?_, fun _ _ => rfl⟩
      simpa using represents_empty hblank
  | e :: l, hlive, hnd, hlen => by
      obtain ⟨hlive, hlives⟩ := List.forall_mem_cons.mp hlive
      rw [List.map_cons, List.nodup_cons] at hnd
      obtain ⟨t', hrep, hkeep⟩ := exists_represents hblank hinj hlives hnd.2 (by
        rw [List.length_cons] at hlen
        omega)
      obtain ⟨s, hs⟩ := hrep.exists_vacancy hlen (key e) (hinj (key e))
      refine ⟨Function.update t' s e, ?_, fun r hr => ?_⟩
      · have hset : {x | x ∈ e :: l} = Set.insert e {x | x ∈ l} := by
          ext x
          exact List.mem_cons
        rw [hset]
        exact hrep.insert hlive (fun x hx heq => hnd.1 (heq ▸ List.mem_map_of_mem hx)) hs
      · by_cases hrs : r = s
        · subst hrs
          rw [Function.update_self] at hr
          exact absurd hr hlive.1
        · rw [Function.update_of_ne hrs] at hr ⊢
          exact hkeep r hr

end Table

end VidhiArena.Foundation.Probing
