import Mathlib.Data.Nat.Basic
import Mathlib.Algebra.Order.Group.Nat

/-!
# Scalars and structures as bytes

Little-endian bytes of fixed width, and the two ways to put scalars next to each other: a
C structure, in which every member starts at a multiple of its size and the whole is as
long as a multiple of the largest (the bytes in the gaps are whatever memory held), and a
packed record without gaps. The readers take one scalar off the front.
-/

namespace VidhiArena.Foundation.ByteLayout

/-! ## Little-endian numbers -/

/-- The low `w` bytes of `n`, the least one first. -/
def leBytes : Nat → Nat → List UInt8
  | 0, _ => []
  | w + 1, n => UInt8.ofNat n :: leBytes w (n / 256)

def ofLeBytes : List UInt8 → Nat
  | [] => 0
  | b :: bs => b.toNat + 256 * ofLeBytes bs

@[simp] theorem length_leBytes (w n : Nat) : (leBytes w n).length = w := by
  induction w generalizing n with
  | zero => rfl
  | succ w ih => rw [leBytes, List.length_cons, ih]

theorem ofLeBytes_leBytes {w : Nat} : ∀ {n : Nat}, n < 256 ^ w → ofLeBytes (leBytes w n) = n := by
  induction w with
  | zero => exact fun h => (Nat.lt_one_iff.mp h).symm
  | succ w ih =>
      intro n h
      have hrest : n / 256 < 256 ^ w := by
        rw [Nat.div_lt_iff_lt_mul (by decide), ← pow_succ]
        exact h
      have hbyte : (UInt8.ofNat n).toNat = n % 256 := UInt8.toNat_ofNat'
      rw [leBytes, ofLeBytes, ih hrest, hbyte]
      exact Nat.mod_add_div n 256

/-! ## Scalars -/

def int64 (x : Int64) : List UInt8 := leBytes 8 x.toUInt64.toNat

def word64 (x : UInt64) : List UInt8 := leBytes 8 x.toNat

def int32 (x : Int32) : List UInt8 := leBytes 4 x.toUInt32.toNat

def bool (b : Bool) : List UInt8 := [if b then 1 else 0]

@[simp] theorem length_int64 (x : Int64) : (int64 x).length = 8 := length_leBytes 8 _

@[simp] theorem length_word64 (x : UInt64) : (word64 x).length = 8 := length_leBytes 8 _

@[simp] theorem length_int32 (x : Int32) : (int32 x).length = 4 := length_leBytes 4 _

@[simp] theorem length_bool (b : Bool) : (bool b).length = 1 := rfl

def takeInt64 (bs : List UInt8) : Int64 × List UInt8 :=
  ((UInt64.ofNat (ofLeBytes (bs.take 8))).toInt64, bs.drop 8)

def takeWord64 (bs : List UInt8) : UInt64 × List UInt8 :=
  (UInt64.ofNat (ofLeBytes (bs.take 8)), bs.drop 8)

def takeInt32 (bs : List UInt8) : Int32 × List UInt8 :=
  ((UInt32.ofNat (ofLeBytes (bs.take 4))).toInt32, bs.drop 4)

def takeBool (bs : List UInt8) : Bool × List UInt8 := (bs.take 1 != [0], bs.drop 1)

theorem takeWord64_word64 (x : UInt64) (bs : List UInt8) :
    takeWord64 (word64 x ++ bs) = (x, bs) := by
  have hlt : x.toNat < 256 ^ 8 := x.toNat_lt
  rw [takeWord64, List.take_left' (length_word64 x), List.drop_left' (length_word64 x), word64,
    ofLeBytes_leBytes hlt, UInt64.ofNat_toNat]

theorem takeInt64_int64 (x : Int64) (bs : List UInt8) : takeInt64 (int64 x ++ bs) = (x, bs) := by
  have hword := takeWord64_word64 x.toUInt64 bs
  rw [takeWord64, Prod.mk.injEq] at hword
  exact Prod.ext ((congrArg UInt64.toInt64 hword.1).trans (Int64.toInt64_toUInt64 x)) hword.2

theorem takeInt32_int32 (x : Int32) (bs : List UInt8) : takeInt32 (int32 x ++ bs) = (x, bs) := by
  have hlt : x.toUInt32.toNat < 256 ^ 4 := x.toUInt32.toNat_lt
  rw [takeInt32, List.take_left' (length_int32 x), List.drop_left' (length_int32 x), int32,
    ofLeBytes_leBytes hlt, UInt32.ofNat_toNat]
  rfl

theorem takeBool_bool (b : Bool) (bs : List UInt8) : takeBool (bool b ++ bs) = (b, bs) := by
  cases b <;> rfl

/-! ## Words in a row -/

/-- The word at `offset`. -/
def wordAt (bs : List UInt8) (offset : Nat) : UInt64 := (takeWord64 (bs.drop offset)).1

def takeWords : Nat → List UInt8 → List UInt64
  | 0, _ => []
  | n + 1, bs => (takeWord64 bs).1 :: takeWords n (takeWord64 bs).2

theorem takeWords_flatMap (ws : List UInt64) (bs : List UInt8) :
    takeWords ws.length (ws.flatMap word64 ++ bs) = ws := by
  induction ws with
  | nil => rfl
  | cons w ws ih =>
      rw [List.flatMap_cons, List.append_assoc, List.length_cons, takeWords, takeWord64_word64, ih]

section Width

variable {α : Type*} {put : α → List UInt8} {width : Nat} (hput : ∀ x, (put x).length = width)
include hput

theorem length_flatMap_width (xs : List α) : (xs.flatMap put).length = xs.length * width := by
  induction xs with
  | nil => exact (Nat.zero_mul width).symm
  | cons x xs ih =>
      rw [List.flatMap_cons, List.length_append, hput, ih, List.length_cons, Nat.succ_mul,
        Nat.add_comm]

theorem drop_flatMap_width (xs : List α) (k : Nat) :
    (xs.flatMap put).drop (k * width) = (xs.drop k).flatMap put := by
  induction xs generalizing k with
  | nil => rw [List.flatMap_nil, List.drop_nil, List.drop_nil, List.flatMap_nil]
  | cons x xs ih =>
      cases k with
      | zero => rw [Nat.zero_mul, List.drop_zero, List.drop_zero]
      | succ k =>
          rw [List.flatMap_cons, List.drop_succ_cons, Nat.succ_mul, Nat.add_comm,
            ← List.drop_drop, List.drop_left' (hput x), ih]

end Width

theorem wordAt_flatMap {ws : List UInt64} {i : Nat} (h : i < ws.length) (bs : List UInt8) :
    wordAt (ws.flatMap word64 ++ bs) (i * 8) = ws[i] := by
  have hle : i * 8 ≤ (ws.flatMap word64).length := by
    rw [length_flatMap_width length_word64]
    exact Nat.mul_le_mul_right 8 h.le
  rw [wordAt, List.drop_append_of_le_length hle, drop_flatMap_width length_word64,
    List.drop_eq_getElem_cons h, List.flatMap_cons, List.append_assoc, takeWord64_word64]

/-! ## Structures -/

/-- The bytes from `offset` to the next multiple of `align`. -/
def gap (align offset : Nat) : Nat := (align - offset % align) % align

/-- The members of a structure from `offset` on; `memory` is what was there before. -/
def members (memory : Nat → UInt8) : Nat → List (List UInt8) → List UInt8
  | _, [] => []
  | offset, m :: ms =>
      (List.range' offset (gap m.length offset)).map memory ++ m ++
        members memory (offset + gap m.length offset + m.length) ms

/-- A C structure of scalar members. -/
def cStruct (memory : Nat → UInt8) (ms : List (List UInt8)) : List UInt8 :=
  let body := members memory 0 ms
  let align := (ms.map List.length).foldl max 1
  body ++ (List.range' body.length (gap align body.length)).map memory

end VidhiArena.Foundation.ByteLayout
