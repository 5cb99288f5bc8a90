import Mathlib.Data.List.Sort
import Mathlib.Order.RelClasses
import VidhiArena.Foundation.OrderedMap

/-!
# Sorted listings

A map that iterates in insertion order, and the list of its entries by key: `Lists r m l`
says that the sorted list `l` has the same lookups as `m`. A program that sorts the
keys of `m` before it visits them visits `l`; what `push`, `modify` and `erase` do to
`m` is what insertion in order, `modify` and `erase` do to `l`.
-/

namespace VidhiArena.Foundation.OrderedMap

variable {κ α : Type}

theorem keys_insert_sorted {r : κ → κ → Prop} [DecidableRel r] [IsStrictTotalOrder κ r] {k : κ}
    {d : α} : ∀ {l : List (κ × α)}, (keys l).Pairwise r → k ∉ keys l →
      (keys (insert (fun a b => decide (r a b)) k d l)).Pairwise r
  | [], _, _ => List.pairwise_singleton r k
  | x :: l, hsorted, hfresh => by
      obtain ⟨hhead, htail⟩ := List.pairwise_cons.mp hsorted
      have hfresh' : k ∉ keys l := fun h => hfresh (List.mem_cons_of_mem _ h)
      rw [insert]
      split
      · rename_i hbefore
        have hkx : r k x.1 := of_decide_eq_true hbefore
        refine List.pairwise_cons.mpr ⟨fun y hy => ?_, hsorted⟩
        rcases List.mem_cons.mp hy with rfl | hy
        · exact hkx
        · exact IsTrans.trans _ _ _ hkx (hhead y hy)
      · rename_i hbefore
        have hxk : r x.1 k := by
          rcases trichotomous_of r x.1 k with h | h | h
          · exact h
          · exact absurd (h ▸ List.mem_cons_self) hfresh
          · exact absurd (decide_eq_true h) hbefore
        refine List.pairwise_cons.mpr ⟨fun y hy => ?_, keys_insert_sorted htail hfresh'⟩
        obtain ⟨z, hz, rfl⟩ := List.mem_map.mp hy
        rcases mem_insert hz with rfl | hz
        · exact hxk
        · exact hhead _ (List.mem_map_of_mem hz)

theorem insert_middle {r : κ → κ → Prop} [DecidableRel r] [IsStrictTotalOrder κ r] {k : κ}
    {d : α} {post : List (κ × α)} : ∀ {pre : List (κ × α)},
      (keys (pre ++ (k, d) :: post)).Pairwise r →
      insert (fun a b => decide (r a b)) k d (pre ++ post) = pre ++ (k, d) :: post
  | [], hsorted => by
      cases post with
      | nil => rfl
      | cons x post =>
          have hkx : r k x.1 := (List.pairwise_cons.mp hsorted).1 _ List.mem_cons_self
          rw [List.nil_append, insert, if_pos (decide_eq_true hkx)]
          rfl
  | x :: pre, hsorted => by
      obtain ⟨hhead, htail⟩ := List.pairwise_cons.mp hsorted
      have hxk : r x.1 k := hhead k (List.mem_map.mpr
        ⟨(k, d), List.mem_append_right _ List.mem_cons_self, rfl⟩)
      have hnot : ¬ r k x.1 := fun hkx => Std.Irrefl.irrefl k (IsTrans.trans _ _ _ hkx hxk)
      rw [List.cons_append, insert, if_neg (by simpa using hnot), insert_middle htail]
      rfl

variable [DecidableEq κ]

structure Lists (r : κ → κ → Prop) (m l : List (κ × α)) : Prop where
  nodup : (keys m).Nodup
  sorted : (keys l).Pairwise r
  same : ∀ k, find m k = find l k

theorem nodup_push {m : List (κ × α)} (h : (keys m).Nodup) (k : κ) (d : α) :
    (keys (push m k d)).Nodup := by
  rw [keys_push]
  split
  · exact h
  · rename_i hfresh
    rw [← List.concat_eq_append]
    exact h.concat hfresh

theorem nodup_erase {m : List (κ × α)} (h : (keys m).Nodup) (k : κ) : (keys (erase m k)).Nodup := by
  rw [keys_erase]
  exact h.filter _

namespace Lists

variable {r : κ → κ → Prop} {m l : List (κ × α)}

theorem empty : Lists r ([] : List (κ × α)) [] := ⟨List.nodup_nil, List.Pairwise.nil, fun _ => rfl⟩

theorem mem_keys (h : Lists r m l) (k : κ) : k ∈ keys m ↔ k ∈ keys l := by
  rw [← find_isSome, ← find_isSome, h.same]

theorem nodup_listing [Std.Irrefl r] (h : Lists r m l) : (keys l).Nodup :=
  List.Pairwise.imp (fun {a b} (hab : r a b) (heq : a = b) => Std.Irrefl.irrefl b (heq ▸ hab))
    h.sorted

theorem sort [IsStrictTotalOrder κ r] {s : κ → κ → Prop} [DecidableRel s] [Std.Total s]
    [IsTrans κ s] [Std.Antisymm s] (hs : ∀ a b, r a b → s a b) (h : Lists r m l) :
    (keys m).insertionSort s = keys l := by
  refine List.Perm.eq_of_pairwise' (List.pairwise_insertionSort s _)
    (h.sorted.imp fun {a b} => hs a b) ?_
  refine (List.perm_insertionSort s _).trans ?_
  exact (List.perm_ext_iff_of_nodup h.nodup h.nodup_listing).mpr h.mem_keys

/-- A new key goes to the end of the map and to its place in the listing. -/
theorem push [DecidableRel r] [IsStrictTotalOrder κ r] (h : Lists r m l) (k : κ) (d : α) :
    Lists r (push m k d) (access (fun a b => decide (r a b)) l k d) where
  nodup := nodup_push h.nodup k d
  sorted := by
    unfold access
    split
    · exact h.sorted
    · rename_i hfresh
      exact keys_insert_sorted h.sorted (mt find_isSome.mpr hfresh)
  same := fun k' => by rw [find_push, find_access, h.same, h.same]

theorem modify (h : Lists r m l) (k : κ) (f : α → α) :
    Lists r (modify m k f) (OrderedMap.modify l k f) where
  nodup := by rw [keys_modify]; exact h.nodup
  sorted := by rw [keys_modify]; exact h.sorted
  same := fun k' => by rw [find_modify, find_modify, h.same]

theorem erase (h : Lists r m l) (k : κ) : Lists r (erase m k) (OrderedMap.erase l k) where
  nodup := nodup_erase h.nodup k
  sorted := by rw [keys_erase]; exact h.sorted.filter _
  same := fun k' => by rw [find_erase, find_erase, h.same]

end Lists

end VidhiArena.Foundation.OrderedMap
