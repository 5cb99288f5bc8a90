import Mathlib.Data.List.Infix

/-!
# Streams of tagged blocks

A stream without lengths: every block is a tag followed by as many items as the reader
knows for that tag, until a stop tag comes where a tag is expected. `object` is what the
reader finds from there on. It finds the object that was written if and only if what was
written before it is a sequence of the reader's own blocks (`object_eq_iff`).
-/

namespace VidhiArena.Foundation.TaggedStream

variable {β : Type} [DecidableEq β] (stop : β) (width : β → Nat)

/-- The stream from the first stop tag on. A block that the stream cuts short ends it. -/
def object : List β → Option (List β)
  | [] => none
  | tag :: bs => if tag = stop then some (tag :: bs) else object (bs.drop (width tag))
termination_by bs => bs.length
decreasing_by
  rw [List.length_drop, List.length_cons]
  omega

/-- A sequence of blocks. -/
inductive Blocks : List β → Prop where
  | nil : Blocks []
  | cons {tag : β} {payload bs : List β} : tag ≠ stop → payload.length = width tag →
      Blocks bs → Blocks (tag :: (payload ++ bs))

variable {stop : β} {width : β → Nat}

theorem object_stop (rest : List β) : object stop width (stop :: rest) = some (stop :: rest) := by
  rw [object, if_pos rfl]

theorem object_block {tag : β} {payload : List β} (htag : tag ≠ stop)
    (hlen : payload.length = width tag) (rest : List β) :
    object stop width (tag :: (payload ++ rest)) = object stop width rest := by
  rw [object, if_neg htag, List.drop_left' hlen]

omit [DecidableEq β] in
theorem Blocks.append {bs bs' : List β} (h : Blocks stop width bs) (h' : Blocks stop width bs') :
    Blocks stop width (bs ++ bs') := by
  induction h with
  | nil => exact h'
  | cons htag hlen _ ih =>
      rw [List.cons_append, List.append_assoc]
      exact .cons htag hlen ih

theorem Blocks.object_append {bs : List β} (h : Blocks stop width bs) (rest : List β) :
    object stop width (bs ++ rest) = object stop width rest := by
  induction h with
  | nil => rfl
  | cons htag hlen _ ih =>
      rw [List.cons_append, List.append_assoc, object_block htag hlen]
      exact ih

theorem object_suffix : ∀ {bs found : List β}, object stop width bs = some found → found <:+ bs
  | [], found, h => by
      rw [object] at h
      cases h
  | tag :: bs, found, h => by
      rw [object] at h
      split at h
      · rw [Option.some.inj h]
      · exact ((object_suffix h).trans (List.drop_suffix _ _)).trans (List.suffix_cons _ _)
termination_by bs => bs.length
decreasing_by
  rw [List.length_drop, List.length_cons]
  omega

/-- The object is found if and only if it stands behind a sequence of blocks. -/
theorem object_eq_iff (rest : List β) : ∀ {bs : List β},
    object stop width (bs ++ stop :: rest) = some (stop :: rest) ↔ Blocks stop width bs
  | [] => iff_of_true (object_stop rest) .nil
  | tag :: bs => by
      constructor
      · intro h
        rw [List.cons_append, object] at h
        by_cases htag : tag = stop
        · -- a stop tag before the end: too much is found
          rw [if_pos htag] at h
          have hlen := congrArg List.length (Option.some.inj h)
          rw [List.length_cons, List.length_append, List.length_cons] at hlen
          omega
        · rw [if_neg htag] at h
          by_cases hlen : width tag ≤ bs.length
          · rw [List.drop_append_of_le_length hlen] at h
            rw [← List.take_append_drop (width tag) bs]
            exact .cons htag (List.length_take_of_le hlen) ((object_eq_iff rest).mp h)
          · -- the block reaches over the stop tag: too little is left
            have hle := (object_suffix h).length_le
            rw [List.length_drop, List.length_append, List.length_cons] at hle
            omega
      · intro h
        rw [h.object_append]
        exact object_stop rest
termination_by bs => bs.length
decreasing_by
  rw [List.length_drop, List.length_cons]
  omega

theorem Blocks.append_iff {bs rest : List β} (h : Blocks stop width bs) :
    Blocks stop width (bs ++ rest) ↔ Blocks stop width rest := by
  rw [← object_eq_iff [], ← object_eq_iff [], List.append_assoc, h.object_append]

omit [DecidableEq β] in
theorem not_blocks_stop (rest : List β) : ¬ Blocks stop width (stop :: rest) := by
  intro h
  generalize hbs : stop :: rest = bs at h
  cases h with
  | nil => cases hbs
  | cons htag _ _ => exact htag (List.cons.inj hbs).1.symm

end VidhiArena.Foundation.TaggedStream
