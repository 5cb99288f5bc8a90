import Mathlib.Data.List.Basic

/-!
# JSON strings

How `encoding/json` writes a string: quotation marks, the backslash and five control
characters have an escape of one letter; other control characters, the characters with a
meaning in HTML and two line separators are written in hexadecimal. `readQuoted` reads back
what `quoted` writes.
-/

namespace VidhiArena.Foundation.JsonText

/-! ## Four hexadecimal digits -/

def hexDigit (n : Nat) : Char :=
  if n < 10 then Char.ofNat (48 + n) else Char.ofNat (87 + n)

def hexValue (c : Char) : Nat :=
  if c.toNat < 58 then c.toNat - 48 else c.toNat - 87

def hex4 (n : Nat) : List Char :=
  [hexDigit (n / 4096), hexDigit (n / 256 % 16), hexDigit (n / 16 % 16), hexDigit (n % 16)]

theorem hexValue_hexDigit {n : Nat} (h : n < 16) : hexValue (hexDigit n) = n := by
  revert h n
  decide

theorem eq_of_hexDigits {n : Nat} (h : n < 65536) :
    ((n / 4096 * 16 + n / 256 % 16) * 16 + n / 16 % 16) * 16 + n % 16 = n := by
  omega

/-! ## Strings -/

def letters : List (Char × Char) :=
  [('"', '"'), ('\\', '\\'), ('\x08', 'b'), ('\x0c', 'f'), ('\n', 'n'), ('\r', 'r'), ('\t', 't')]

/-- The characters that are written in hexadecimal, unless a letter stands for them. -/
def inHex (c : Char) : Bool :=
  c.toNat < 0x20 || [0x26, 0x3C, 0x3E, 0x2028, 0x2029].contains c.toNat

def escapeChar (c : Char) : List Char :=
  match letters.lookup c with
  | some e => ['\\', e]
  | none => if inHex c then '\\' :: 'u' :: hex4 c.toNat else [c]

def quoted (s : List Char) : List Char := '"' :: (s.flatMap escapeChar ++ ['"'])

/-- The character that a letter stands for. -/
def unescape (e : Char) : Option Char :=
  (letters.find? fun x => x.2 == e).map Prod.fst

/-- The rest of a string up to its closing mark, and what follows. -/
def readRest : List Char → Option (List Char × List Char)
  | [] => none
  | '"' :: rest => some ([], rest)
  | '\\' :: 'u' :: d₁ :: d₂ :: d₃ :: d₄ :: rest => do
      let (s, rest) ← readRest rest
      let n := ((hexValue d₁ * 16 + hexValue d₂) * 16 + hexValue d₃) * 16 + hexValue d₄
      pure (Char.ofNat n :: s, rest)
  | '\\' :: e :: rest => do
      let c ← unescape e
      let (s, rest) ← readRest rest
      pure (c :: s, rest)
  | '\\' :: [] => none
  | c :: rest => do
      let (s, rest) ← readRest rest
      pure (c :: s, rest)

def readQuoted : List Char → Option (List Char × List Char)
  | '"' :: rest => readRest rest
  | _ => none

/-! ## Reading back -/

theorem readRest_letter {c e : Char} (h : (c, e) ∈ letters) (rest : List Char) :
    readRest ('\\' :: e :: rest) = (readRest rest).map fun x => (c :: x.1, x.2) := by
  have hall : ∀ x ∈ letters, unescape x.2 = some x.1 ∧ x.2 ≠ 'u' := by decide
  obtain ⟨hback, hne⟩ := hall _ h
  rw [readRest, hback]
  · cases readRest rest <;> rfl
  · exact fun _ _ _ _ _ he => absurd he hne

theorem readRest_hex {n : Nat} (h : n < 65536) (rest : List Char) :
    readRest ('\\' :: 'u' :: hex4 n ++ rest) =
      (readRest rest).map fun x => (Char.ofNat n :: x.1, x.2) := by
  rw [hex4, List.cons_append, List.cons_append, List.cons_append, List.cons_append,
    List.cons_append, List.cons_append, List.nil_append, readRest]
  rw [hexValue_hexDigit (by omega), hexValue_hexDigit (by omega), hexValue_hexDigit (by omega),
    hexValue_hexDigit (by omega), eq_of_hexDigits h]
  cases readRest rest <;> rfl

theorem readRest_plain {c : Char} (hquote : c ≠ '"') (hslash : c ≠ '\\') (rest : List Char) :
    readRest (c :: rest) = (readRest rest).map fun x => (c :: x.1, x.2) := by
  rw [readRest]
  · cases readRest rest <;> rfl
  · exact hquote
  · exact fun _ _ _ _ _ hc => absurd hc hslash
  · exact fun _ _ hc => absurd hc hslash
  · exact fun hc => absurd hc hslash

theorem readRest_cons (c : Char) (rest : List Char) :
    readRest (escapeChar c ++ rest) = (readRest rest).map fun x => (c :: x.1, x.2) := by
  unfold escapeChar
  split
  · next e he =>
      obtain ⟨before, after, hletters, -⟩ := List.lookup_eq_some_iff.mp he
      exact readRest_letter (hletters ▸ List.mem_append_right _ List.mem_cons_self) rest
  · next hnone =>
      split
      · next hhex =>
          have hsmall : c.toNat < 65536 := by
            rcases Bool.or_eq_true_iff.mp hhex with hlt | hmem
            · have hlt : c.toNat < 0x20 := of_decide_eq_true hlt
              exact Nat.lt_trans hlt (by decide)
            · have hall : ∀ n ∈ [0x26, 0x3C, 0x3E, 0x2028, 0x2029], n < 65536 := by decide
              exact hall _ (List.contains_iff_mem.mp hmem)
          rw [readRest_hex hsmall, Char.ofNat_toNat]
      · have hne : ∀ d, (letters.lookup d).isSome → c ≠ d := by
          rintro d hd rfl
          rw [hnone] at hd
          exact nomatch hd
        exact readRest_plain (hne '"' (by decide)) (hne '\\' (by decide)) rest

theorem readRest_flatMap (s rest : List Char) :
    readRest (s.flatMap escapeChar ++ '"' :: rest) = some (s, rest) := by
  induction s with
  | nil => rfl
  | cons c s ih => rw [List.flatMap_cons, List.append_assoc, readRest_cons, ih, Option.map_some]

theorem readQuoted_quoted (s rest : List Char) :
    readQuoted (quoted s ++ rest) = some (s, rest) := by
  rw [quoted, List.cons_append, readQuoted, List.append_assoc, List.singleton_append,
    readRest_flatMap]

end VidhiArena.Foundation.JsonText
