import Mathlib.Data.List.Basic
import Mathlib.Data.UInt

/-!
# Decoding UTF-8

The decoder of the Encoding Standard, that `TextDecoder` runs: it never fails, a malformed
sequence becomes U+FFFD and the byte that ended it is read again; a byte order mark at the
front is dropped. A decoded text that has as many characters as there were bytes, and no
U+FFFD, is the bytes.
-/

namespace VidhiArena.Foundation.Utf8

/-! ## The decoder -/

def replacement : Nat := 0xFFFD

/-- The decoder between two bytes: how many continuation bytes it waits for, the bits so far
and the range of the next byte. -/
structure Decoder where
  needed : Nat
  codePoint : Nat
  lower : Nat
  upper : Nat

namespace Decoder

def idle : Decoder := ⟨0, 0, 0x80, 0xBF⟩

/-- A byte that starts a character: what is written and what is awaited. -/
def start (b : Nat) : List Nat × Decoder :=
  if b ≤ 0x7F then ([b], idle)
  else if 0xC2 ≤ b ∧ b ≤ 0xDF then ([], ⟨1, b % 32, 0x80, 0xBF⟩)
  else if 0xE0 ≤ b ∧ b ≤ 0xEF then
    ([], ⟨2, b % 16, if b = 0xE0 then 0xA0 else 0x80, if b = 0xED then 0x9F else 0xBF⟩)
  else if 0xF0 ≤ b ∧ b ≤ 0xF4 then
    ([], ⟨3, b % 8, if b = 0xF0 then 0x90 else 0x80, if b = 0xF4 then 0x8F else 0xBF⟩)
  else ([replacement], idle)

def step (d : Decoder) (b : Nat) : List Nat × Decoder :=
  if d.needed = 0 then start b
  else if d.lower ≤ b ∧ b ≤ d.upper then
    let codePoint := d.codePoint * 64 + b % 64
    if d.needed = 1 then ([codePoint], idle)
    else ([], ⟨d.needed - 1, codePoint, 0x80, 0xBF⟩)
  -- the byte does not belong to the character that was begun
  else (replacement :: (start b).1, (start b).2)

def run (d : Decoder) : List UInt8 → List Nat
  | [] => if d.needed = 0 then [] else [replacement]
  | b :: bs => (d.step b.toNat).1 ++ (d.step b.toNat).2.run bs

end Decoder

/-- `new TextDecoder().decode(bytes)`, as code points. -/
def decode (bytes : List UInt8) : List Nat :=
  let text := Decoder.idle.run bytes
  if text.head? = some 0xFEFF then text.tail else text

example : decode [0x56, 0xC3, 0xA9, 0xFF, 0xE0, 0x41] = [0x56, 0xE9, 0xFFFD, 0xFFFD, 0x41] := by
  decide

/-! ## One byte -/

namespace Decoder

theorem step_idle (b : Nat) : idle.step b = start b := if_pos rfl

/-- A byte that starts a character and does not fail is written itself or begins a longer
character. -/
theorem start_cases {b : Nat} (h : replacement ∉ (start b).1) :
    start b = ([b], idle) ∧ b ≤ 0x7F ∨ (start b).1 = [] ∧ (start b).2.needed ≠ 0 := by
  unfold start at h ⊢
  split
  · next hb => exact Or.inl ⟨rfl, hb⟩
  · split
    · exact Or.inr ⟨rfl, Nat.one_ne_zero⟩
    · split
      · exact Or.inr ⟨rfl, Nat.succ_ne_zero 1⟩
      · split
        · exact Or.inr ⟨rfl, Nat.succ_ne_zero 2⟩
        · next h₁ h₂ h₃ h₄ =>
            rw [if_neg h₁, if_neg h₂, if_neg h₃, if_neg h₄] at h
            exact absurd (List.mem_singleton_self replacement) h

/-- Inside a character a byte that does not fail writes one code point at most. -/
theorem step_inside {d : Decoder} {b : Nat} (hd : d.needed ≠ 0) (h : replacement ∉ (d.step b).1) :
    (d.step b).1.length ≤ 1 := by
  unfold step at h ⊢
  rw [if_neg hd] at h ⊢
  split
  · dsimp only
    split
    · exact le_rfl
    · exact Nat.zero_le 1
  · next hrange =>
      rw [if_neg hrange] at h
      exact absurd List.mem_cons_self h

theorem step_length {d : Decoder} {b : Nat} (h : replacement ∉ (d.step b).1) :
    (d.step b).1.length ≤ 1 := by
  by_cases hd : d.needed = 0
  · have hstep : d.step b = start b := if_pos hd
    rw [hstep] at h ⊢
    rcases start_cases h with ⟨heq, -⟩ | ⟨hnil, -⟩
    · rw [heq]
      exact le_rfl
    · rw [hnil]
      exact Nat.zero_le 1
  · exact step_inside hd h

/-! ## A text -/

/-- Without U+FFFD there is at least a byte for every code point. -/
theorem length_run_le {d : Decoder} {bs : List UInt8} (h : replacement ∉ d.run bs) :
    (d.run bs).length ≤ bs.length := by
  induction bs generalizing d with
  | nil =>
      unfold run at h ⊢
      split at h
      · next hd =>
          rw [if_pos hd]
          exact le_rfl
      · exact absurd (List.mem_singleton_self replacement) h
  | cons b bs ih =>
      rw [run, List.mem_append, not_or] at h
      rw [run, List.length_append, List.length_cons, Nat.add_comm bs.length]
      exact Nat.add_le_add (step_length h.1) (ih h.2)

/-- As many code points as bytes: every byte is its own character. -/
theorem run_eq_bytes {bs : List UInt8} (h : replacement ∉ idle.run bs)
    (hlen : bs.length ≤ (idle.run bs).length) : idle.run bs = bs.map UInt8.toNat := by
  induction bs with
  | nil => rfl
  | cons b bs ih =>
      rw [run, step_idle] at h hlen ⊢
      rw [List.mem_append, not_or] at h
      rw [List.length_append, List.length_cons] at hlen
      rcases start_cases h.1 with ⟨heq, -⟩ | ⟨hnil, -⟩
      · rw [heq] at h hlen ⊢
        rw [List.length_singleton, Nat.add_comm 1] at hlen
        rw [ih h.2 (Nat.le_of_add_le_add_right hlen)]
        rfl
      -- the byte wrote nothing: the rest cannot make up for it
      · have hrest := length_run_le h.2
        rw [hnil, List.length_nil, Nat.zero_add] at hlen
        exact absurd (hlen.trans hrest) (Nat.not_succ_le_self _)

theorem run_ascii {bs : List UInt8} (h : ∀ b ∈ bs, b.toNat ≤ 0x7F) :
    idle.run bs = bs.map UInt8.toNat := by
  induction bs with
  | nil => rfl
  | cons b bs ih =>
      have hstart : start b.toNat = ([b.toNat], idle) := if_pos (h b List.mem_cons_self)
      rw [run, step_idle, hstart, ih fun c hc => h c (List.mem_cons_of_mem b hc)]
      rfl

end Decoder

/-- An ASCII text no shorter than the bytes is decoded from its own characters only. -/
theorem decode_eq_ascii_iff {bytes text : List UInt8} (hascii : ∀ b ∈ text, b.toNat ≤ 0x7F)
    (hlen : bytes.length ≤ text.length) : decode bytes = text.map UInt8.toNat ↔ bytes = text := by
  have hplain : ∀ c ∈ text.map UInt8.toNat, c ≤ 0x7F := List.forall_mem_map.mpr hascii
  constructor
  · intro h
    unfold decode at h
    dsimp only at h
    split at h
    -- a byte order mark leaves less text than there are bytes
    · next hmark =>
        obtain ⟨rest, hrest⟩ := List.head?_eq_some_iff.mp hmark
        rw [hrest, List.tail_cons] at h
        have hnone : replacement ∉ Decoder.idle.run bytes := by
          rw [hrest, h, List.mem_cons, not_or]
          exact ⟨by decide, fun hmem => absurd (hplain _ hmem) (by decide)⟩
        have hle := Decoder.length_run_le hnone
        rw [hrest, h, List.length_cons, List.length_map] at hle
        exact absurd (hle.trans hlen) (Nat.not_succ_le_self _)
    · have hnone : replacement ∉ Decoder.idle.run bytes := by
        rw [h]
        exact fun hmem => absurd (hplain _ hmem) (by decide)
      rw [Decoder.run_eq_bytes hnone (by rw [h, List.length_map]; exact hlen)] at h
      exact List.map_injective_iff.mpr (fun _ _ => UInt8.toNat_inj.mp) h
  · rintro rfl
    unfold decode
    rw [Decoder.run_ascii hascii, if_neg]
    intro hmark
    obtain ⟨rest, hrest⟩ := List.head?_eq_some_iff.mp hmark
    exact absurd (hplain 0xFEFF (hrest ▸ List.mem_cons_self)) (by decide)

end VidhiArena.Foundation.Utf8
