import Mathlib.Data.List.Nodup

/-!
# Ordered maps as association lists

A map with a comparator, in iteration order: what `std::map` gives its user.
`access` is the lookup that creates a default value, `modify` a write through
the reference it returns, `erase` the removal of a key. The lemmas say what
`find` sees after each of them.
-/

namespace VidhiArena.Foundation.OrderedMap

variable {κ α : Type}

def keys (m : List (κ × α)) : List κ := m.map Prod.fst

theorem keys_eq_nil {m : List (κ × α)} : keys m = [] ↔ m = [] := List.map_eq_nil_iff

theorem ne_of_middle {k : κ} {a : α} {pre post : List (κ × α)}
    (h : (keys (pre ++ (k, a) :: post)).Nodup) : ∀ x ∈ pre ++ post, x.1 ≠ k := by
  rw [keys, List.map_append, List.map_cons, List.nodup_middle, List.nodup_cons,
    ← List.map_append] at h
  exact fun x hx heq => h.1 (List.mem_map.mpr ⟨x, hx, heq⟩)

/-- The key `k` with the value `d` at its place in the order. -/
def insert (before : κ → κ → Bool) (k : κ) (d : α) : List (κ × α) → List (κ × α)
  | [] => [(k, d)]
  | x :: m => if before k x.1 then (k, d) :: x :: m else x :: insert before k d m

theorem mem_insert {before : κ → κ → Bool} {k : κ} {d : α} {x : κ × α} :
    ∀ {m : List (κ × α)}, x ∈ insert before k d m → x = (k, d) ∨ x ∈ m
  | [], h => Or.inl (List.mem_singleton.mp h)
  | y :: m, h => by
      rw [insert] at h
      split at h
      · exact List.mem_cons.mp h
      · rcases List.mem_cons.mp h with rfl | h
        · exact Or.inr List.mem_cons_self
        · exact (mem_insert h).imp_right (List.mem_cons_of_mem _)

variable [DecidableEq κ]

def find : List (κ × α) → κ → Option α
  | [], _ => none
  | (k, a) :: m, k' => if k = k' then some a else find m k'

def access (before : κ → κ → Bool) (m : List (κ × α)) (k : κ) (d : α) : List (κ × α) :=
  if (find m k).isSome then m else insert before k d m

def modify (m : List (κ × α)) (k : κ) (f : α → α) : List (κ × α) :=
  m.map fun x => if x.1 = k then (x.1, f x.2) else x

def erase (m : List (κ × α)) (k : κ) : List (κ × α) := m.filter fun x => x.1 ≠ k

theorem find_eq_none {k : κ} : ∀ {m : List (κ × α)}, find m k = none ↔ k ∉ keys m
  | [] => by simp [find, keys]
  | (k', a) :: m => by
      have ih := find_eq_none (k := k) (m := m)
      by_cases h : k' = k
      · simp [find, keys, h]
      · have h' : ¬ k = k' := fun e => h e.symm
        simp only [keys] at ih
        simp [find, keys, h, h', ih]

theorem find_isSome {m : List (κ × α)} {k : κ} : (find m k).isSome = true ↔ k ∈ keys m := by
  rw [← not_iff_not, ← find_eq_none]
  cases find m k <;> simp

theorem find_insert_self {before : κ → κ → Bool} {k : κ} {d : α} :
    ∀ {m : List (κ × α)}, k ∉ keys m → find (insert before k d m) k = some d
  | [], _ => by simp [insert, find]
  | (k', a) :: m, h => by
      have hne : k' ≠ k := fun e => h (by simp [keys, e])
      have hrest : k ∉ keys m := fun hm => h (by simp only [keys] at hm ⊢; simp [hm])
      rw [insert]
      split
      · simp [find]
      · simp [find, hne, find_insert_self hrest]

theorem find_insert_of_ne {before : κ → κ → Bool} {k k' : κ} {d : α} (hne : k ≠ k') :
    ∀ {m : List (κ × α)}, find (insert before k d m) k' = find m k'
  | [] => by simp [insert, find, hne]
  | (k₁, a) :: m => by
      rw [insert]
      split
      · simp [find, hne]
      · simp [find, find_insert_of_ne hne]

theorem find_access {before : κ → κ → Bool} {m : List (κ × α)} {k k' : κ} {d : α} :
    find (access before m k d) k' =
      if k = k' then some ((find m k).getD d) else find m k' := by
  unfold access
  by_cases h : (find m k).isSome = true
  · rw [if_pos h]
    split
    · rename_i heq
      subst heq
      obtain ⟨a, ha⟩ := Option.isSome_iff_exists.mp h
      rw [ha, Option.getD_some]
    · rfl
  · rw [if_neg h]
    have hnone : find m k = none := by simpa using h
    split
    · rename_i heq
      subst heq
      rw [hnone, Option.getD_none, find_insert_self (find_eq_none.mp hnone)]
    · rename_i hne
      exact find_insert_of_ne hne

theorem mem_access {before : κ → κ → Bool} {m : List (κ × α)} {k : κ} {d : α} {x : κ × α}
    (h : x ∈ access before m k d) : x = (k, d) ∨ x ∈ m := by
  unfold access at h
  split at h
  · exact Or.inr h
  · exact mem_insert h

theorem find_modify {k k' : κ} {f : α → α} : ∀ {m : List (κ × α)},
    find (modify m k f) k' = if k = k' then (find m k').map f else find m k'
  | [] => by simp [modify, find]
  | (k₁, a) :: m => by
      have ih : find (modify m k f) k' = if k = k' then (find m k').map f else find m k' :=
        find_modify
      simp only [modify] at ih
      by_cases h₁ : k₁ = k
      · subst h₁
        by_cases h₂ : k₁ = k'
        · simp [modify, find, h₂]
        · simp [modify, find, h₂, ih]
      · by_cases h₂ : k₁ = k'
        · subst h₂
          have h₃ : ¬ k = k₁ := fun e => h₁ e.symm
          simp [modify, find, h₁, h₃]
        · simp [modify, find, h₁, h₂, ih]

theorem find_erase {k k' : κ} : ∀ {m : List (κ × α)},
    find (erase m k) k' = if k = k' then none else find m k'
  | [] => by simp [erase, find]
  | (k₁, a) :: m => by
      have ih : find (erase m k) k' = if k = k' then none else find m k' := find_erase
      simp only [erase] at ih
      by_cases h₁ : k₁ = k
      · subst h₁
        by_cases h₂ : k₁ = k'
        · subst h₂
          simpa [erase, find] using ih
        · simpa [erase, find, h₂] using ih
      · by_cases h₂ : k₁ = k'
        · subst h₂
          have h₃ : ¬ k = k₁ := fun e => h₁ e.symm
          simp [erase, find, h₁, h₃]
        · simpa [erase, find, h₁, h₂] using ih

/-! ## Insertion order

A map that iterates in the order in which its keys were inserted: a new key goes to
the end. -/

def push (m : List (κ × α)) (k : κ) (d : α) : List (κ × α) :=
  if (find m k).isSome then m else m ++ [(k, d)]

theorem find_append {k : κ} {m' : List (κ × α)} : ∀ {m : List (κ × α)},
    find (m ++ m') k = (find m k).or (find m' k)
  | [] => rfl
  | (k₁, a) :: m => by
      rw [List.cons_append, find, find]
      split
      · rfl
      · exact find_append

theorem find_push {m : List (κ × α)} {k k' : κ} {d : α} :
    find (push m k d) k' = if k = k' then some ((find m k).getD d) else find m k' := by
  unfold push
  cases hk : find m k with
  | some a =>
      rw [Option.isSome_some, if_pos rfl, Option.getD_some]
      split
      · rename_i heq
        rw [← heq, hk]
      · rfl
  | none =>
      rw [Option.isSome_none, if_neg Bool.false_ne_true, find_append, Option.getD_none, find, find]
      split
      · rename_i heq
        rw [← heq, hk]
        rfl
      · rw [Option.or_none]

theorem keys_push (m : List (κ × α)) (k : κ) (d : α) :
    keys (push m k d) = if k ∈ keys m then keys m else keys m ++ [k] := by
  unfold push
  by_cases h : k ∈ keys m
  · rw [if_pos (find_isSome.mpr h), if_pos h]
  · rw [if_neg (mt find_isSome.mp h), if_neg h, keys, List.map_append]
    rfl

theorem keys_modify (m : List (κ × α)) (k : κ) (f : α → α) : keys (modify m k f) = keys m := by
  rw [keys, modify, List.map_map]
  refine List.map_congr_left fun x _ => ?_
  by_cases h : x.1 = k
  · simp [h]
  · simp [h]

theorem keys_erase (m : List (κ × α)) (k : κ) :
    keys (erase m k) = (keys m).filter (· ≠ k) := by
  rw [keys, erase, keys, List.filter_map]
  rfl

theorem mem_of_find {k : κ} {a : α} : ∀ {m : List (κ × α)}, find m k = some a → (k, a) ∈ m
  | (k₁, a₁) :: m, h => by
      rw [find] at h
      split at h
      · rename_i heq
        cases h
        rw [heq]
        exact List.mem_cons_self
      · exact List.mem_cons_of_mem _ (mem_of_find h)

/-! ## A key that occurs once -/

theorem find_of_mem {k : κ} {a : α} : ∀ {m : List (κ × α)}, (keys m).Nodup → (k, a) ∈ m →
    find m k = some a
  | (k₁, a₁) :: m, hnd, hmem => by
      obtain ⟨hfresh, hnd⟩ := List.nodup_cons.mp hnd
      rcases List.mem_cons.mp hmem with heq | hmem
      · cases heq
        simp [find]
      · have hne : k₁ ≠ k := fun e => hfresh (List.mem_map.mpr ⟨(k, a), hmem, e.symm⟩)
        rw [find, if_neg hne, find_of_mem hnd hmem]

theorem modify_middle {k : κ} {a : α} {f : α → α} {pre post : List (κ × α)}
    (h : (keys (pre ++ (k, a) :: post)).Nodup) :
    modify (pre ++ (k, a) :: post) k f = pre ++ (k, f a) :: post := by
  have hne := ne_of_middle h
  have hkeep : ∀ l : List (κ × α), (∀ x ∈ l, x.1 ≠ k) →
      (l.map fun x => if x.1 = k then (x.1, f x.2) else x) = l := by
    intro l hl
    rw [List.map_congr_left fun x hx => if_neg (hl x hx), List.map_id']
  rw [modify, List.map_append, List.map_cons, if_pos rfl,
    hkeep pre fun x hx => hne x (List.mem_append_left _ hx),
    hkeep post fun x hx => hne x (List.mem_append_right _ hx)]

theorem erase_middle {k : κ} {a : α} {pre post : List (κ × α)}
    (h : (keys (pre ++ (k, a) :: post)).Nodup) :
    erase (pre ++ (k, a) :: post) k = pre ++ post := by
  have hne := ne_of_middle h
  rw [erase, List.filter_append, List.filter_cons_of_neg (by simp), ← List.filter_append,
    List.filter_eq_self]
  exact fun x hx => decide_eq_true (hne x hx)

end VidhiArena.Foundation.OrderedMap
