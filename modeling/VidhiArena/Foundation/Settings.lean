import Mathlib.Logic.Function.Basic
import Mathlib.Data.List.Induction

/-!
# Settings read one after another

A table of settings that starts from defaults and is overwritten entry by entry: where it ends
is decided by the last entry of each key. Entries may set nothing, and reading one may fail.
-/

namespace VidhiArena.Foundation.Settings

variable {κ ν ε τ : Type*} [DecidableEq κ]

/-- An entry sets a key, or nothing. -/
def assign (table : κ → ν) : Option (κ × ν) → κ → ν
  | some (key, value) => Function.update table key value
  | none => table

/-- The value of the last entry for a key. -/
def last (read : τ → Option (κ × ν)) (entries : List τ) (key : κ) : Option ν :=
  entries.reverse.findSome? fun entry =>
    (read entry).bind fun setting => if setting.1 = key then some setting.2 else none

theorem last_concat (read : τ → Option (κ × ν)) (entries : List τ) (entry : τ) (key : κ) :
    last read (entries ++ [entry]) key =
      match read entry with
      | some setting => if setting.1 = key then some setting.2 else last read entries key
      | none => last read entries key := by
  rw [last, List.reverse_append, List.reverse_singleton, List.singleton_append,
    List.findSome?_cons]
  cases read entry with
  | none => rfl
  | some setting =>
      by_cases heq : setting.1 = key
      · simp only [Option.bind_some, if_pos heq]
      · simp only [Option.bind_some, if_neg heq]
        rfl

theorem foldl_assign (read : τ → Option (κ × ν)) (entries : List τ) (table : κ → ν) (key : κ) :
    (entries.foldl (fun table entry => assign table (read entry)) table) key =
      (last read entries key).getD (table key) := by
  induction entries using List.reverseRecOn with
  | nil => rfl
  | append_singleton entries entry ih =>
      rw [List.foldl_append, last_concat]
      change assign (entries.foldl _ table) (read entry) key = _
      cases read entry with
      | none => exact ih
      | some setting =>
          obtain ⟨k, v⟩ := setting
          change _ = (if k = key then some v else last read entries key).getD (table key)
          by_cases heq : k = key
          · rw [if_pos heq, assign, heq, Function.update_self, Option.getD_some]
          · rw [if_neg heq, assign, Function.update_of_ne (Ne.symm heq), ih]

/-- What an entry sets, nothing if it cannot be read. -/
def settled : Except ε (Option (κ × ν)) → Option (κ × ν)
  | .ok setting => setting
  | .error _ => none

/-- Entries that may fail to be read: the table is made if and only if all can be. -/
theorem foldlM_eq_ok_iff {read : τ → Except ε (Option (κ × ν))} {entries : List τ}
    {table result : κ → ν} :
    entries.foldlM (fun table entry => (read entry).map (assign table)) table = .ok result ↔
      (∀ entry ∈ entries, (read entry).isOk = true) ∧
        entries.foldl (fun table entry => assign table (settled (read entry))) table = result := by
  induction entries generalizing table with
  | nil => simp [pure, Except.pure]
  | cons entry entries ih =>
      rw [List.foldlM_cons, List.forall_mem_cons, List.foldl_cons]
      cases hread : read entry with
      | error e => exact iff_of_false nofun fun h => Bool.false_ne_true h.1.1
      | ok setting => exact ih.trans (and_congr_left' (and_iff_right rfl).symm)

end VidhiArena.Foundation.Settings
