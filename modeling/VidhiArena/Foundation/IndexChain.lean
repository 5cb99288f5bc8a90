import Mathlib.Data.List.Nodup
import Mathlib.Logic.Function.Basic

/-!
# Singly linked lists through an index space

`Chain next null h l` says that following `next` from `h` visits exactly the
indices of `l` and then stops at `null`. The lemmas are the four moves of an
intrusive queue: frame (writes elsewhere), append behind the tail, pop the
head, unlink in the middle.
-/

namespace VidhiArena.Foundation

variable {ι : Type} {next next' : ι → ι} {null : ι}

def Chain (next : ι → ι) (null : ι) : ι → List ι → Prop
  | h, [] => h = null
  | h, i :: l => h = i ∧ i ≠ null ∧ Chain next null (next i) l

/-- The last index of a queue, `null` for the empty one. -/
def lastOr (null : ι) (l : List ι) : ι := l.getLast?.getD null

@[simp] theorem lastOr_nil : lastOr null ([] : List ι) = null := rfl

@[simp] theorem lastOr_snoc (l : List ι) (x : ι) : lastOr null (l ++ [x]) = x := by
  simp [lastOr]

theorem lastOr_cons_cons (x y : ι) (l : List ι) :
    lastOr null (x :: y :: l) = lastOr null (y :: l) := by
  simp [lastOr, List.getLast?_cons_cons]

theorem lastOr_mem {l : List ι} (h : l ≠ []) : lastOr null l ∈ l := by
  obtain ⟨l, x, rfl⟩ := (List.eq_nil_or_concat' l).resolve_left h
  simp

namespace Chain

theorem ne_null : ∀ {h : ι} {l : List ι}, Chain next null h l → ∀ i ∈ l, i ≠ null
  | _, [], _, _, hi => absurd hi List.not_mem_nil
  | _, j :: l, ⟨_, hj, hc⟩, i, hi => by
      rcases List.mem_cons.mp hi with rfl | hi
      · exact hj
      · exact hc.ne_null i hi

theorem head_eq_null_iff {h : ι} {l : List ι} (hc : Chain next null h l) :
    h = null ↔ l = [] := by
  cases l with
  | nil => exact ⟨fun _ => rfl, fun _ => hc⟩
  | cons i l =>
      obtain ⟨rfl, hi, _⟩ := hc
      exact ⟨fun h => absurd h hi, fun h => by cases h⟩

theorem lastOr_eq_null_iff {h : ι} {l : List ι} (hc : Chain next null h l) :
    lastOr null l = null ↔ l = [] := by
  constructor
  · intro hl
    by_contra hne
    exact hc.ne_null _ (lastOr_mem hne) hl
  · rintro rfl
    rfl

theorem congr : ∀ {h : ι} {l : List ι}, Chain next null h l →
    (∀ i ∈ l, next' i = next i) → Chain next' null h l
  | _, [], hc, _ => hc
  | _, i :: l, ⟨hh, hi, hc⟩, hagree => by
      refine ⟨hh, hi, ?_⟩
      rw [hagree i List.mem_cons_self]
      exact hc.congr fun j hj => hagree j (List.mem_cons_of_mem _ hj)

theorem unique : ∀ {h : ι} {l l' : List ι},
    Chain next null h l → Chain next null h l' → l = l'
  | _, [], [], _, _ => rfl
  | _, [], _ :: _, hc, ⟨hh, hj, _⟩ => absurd (hh.symm.trans hc) hj
  | _, _ :: _, [], ⟨hh, hi, _⟩, hc => absurd (hh.symm.trans hc) hi
  | _, i :: l, j :: l', ⟨hh, _, hc⟩, ⟨hh', _, hc'⟩ => by
      obtain rfl : i = j := hh.symm.trans hh'
      rw [hc.unique hc']

/-- Append behind a non-empty queue: the old tail is linked to the newcomer. -/
theorem snoc : ∀ {h x : ι} {l : List ι}, Chain next null h l → l ≠ [] → l.Nodup →
    x ∉ l → x ≠ null → next' (lastOr null l) = x → next' x = null →
    (∀ i ∈ l, i ≠ lastOr null l → next' i = next i) → Chain next' null h (l ++ [x])
  | _, _, [i], ⟨hh, hi, _⟩, _, _, _, hx, hlast, hend, _ =>
      ⟨hh, hi, hlast, hx, hend⟩
  | _, x, i :: j :: l, ⟨hh, hi, hc⟩, _, hnd, hmem, hx, hlast, hend, hagree => by
      rw [lastOr_cons_cons] at hlast hagree
      have hne : i ≠ lastOr null (j :: l) := by
        intro heq
        exact (List.nodup_cons.mp hnd).1 (heq ▸ lastOr_mem (List.cons_ne_nil j l))
      refine ⟨hh, hi, ?_⟩
      rw [hagree i List.mem_cons_self hne]
      exact snoc hc (List.cons_ne_nil j l) (List.nodup_cons.mp hnd).2
        (fun h => hmem (List.mem_cons_of_mem _ h)) hx hlast hend
        (fun k hk => hagree k (List.mem_cons_of_mem _ hk))

theorem unlink : ∀ {h t p : ι} (pre : List ι) {post : List ι},
    Chain next null h (pre ++ p :: t :: post) → next' p = next t →
    (∀ i ∈ pre ++ post, next' i = next i) → Chain next' null h (pre ++ p :: post)
  | _, _, _, [], _, ⟨hh, hp, hc⟩, hlink, hagree => by
      refine ⟨hh, hp, ?_⟩
      rw [hlink]
      exact hc.2.2.congr fun i hi => hagree i (by simpa using hi)
  | _, _, _, i :: pre, _, ⟨hh, hi, hc⟩, hlink, hagree => by
      refine ⟨hh, hi, ?_⟩
      rw [hagree i (by simp)]
      exact hc.unlink pre hlink fun j hj => hagree j (by simp [hj])

end Chain

/-- Removing the index behind `p` moves the tail only if it was the tail. -/
theorem lastOr_unlink [DecidableEq ι] {pre post : List ι} {p t : ι}
    (hnd : (pre ++ p :: t :: post).Nodup) :
    lastOr null (pre ++ p :: post) =
      if lastOr null (pre ++ p :: t :: post) = t then p
      else lastOr null (pre ++ p :: t :: post) := by
  rcases List.eq_nil_or_concat' post with rfl | ⟨post, x, rfl⟩
  · have h : pre ++ [p, t] = (pre ++ [p]) ++ [t] := by simp
    rw [h, lastOr_snoc, lastOr_snoc, if_pos rfl]
  · have h₁ : pre ++ p :: t :: (post ++ [x]) = (pre ++ p :: t :: post) ++ [x] := by simp
    have h₂ : pre ++ p :: (post ++ [x]) = (pre ++ p :: post) ++ [x] := by simp
    have hxt : x ≠ t := by
      rintro rfl
      simp [List.nodup_append] at hnd
    rw [h₁, h₂, lastOr_snoc, lastOr_snoc, if_neg hxt]

/-- Popping the head moves the tail only if the head was the whole queue. -/
theorem lastOr_tail [DecidableEq ι] {t : ι} {post : List ι} (hnd : (t :: post).Nodup) :
    lastOr null post =
      if lastOr null (t :: post) = t then null else lastOr null (t :: post) := by
  rcases List.eq_nil_or_concat' post with rfl | ⟨post, x, rfl⟩
  · simp [lastOr]
  · have h : t :: (post ++ [x]) = (t :: post) ++ [x] := rfl
    have hxt : x ≠ t := by
      rintro rfl
      simp at hnd
    rw [h, lastOr_snoc, lastOr_snoc, if_neg hxt]

end VidhiArena.Foundation
