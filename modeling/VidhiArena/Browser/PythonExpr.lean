import VidhiArena.Foundation.BracedLines
import VidhiArena.Foundation.Numerals

/-!
# Expressions over integers in Python

The grammar of Python, from `disjunction` down to `primary`, as far as it is about integers:
`and`, `or`, `not`, comparisons, `+`, `-`, `*`, `//`, parentheses, fields of `state`, and calls
of `abs`, `int`, `min` and `max`. An expression is a derivation in this grammar, so its
parentheses are part of it.

Names are ASCII. A bool is an integer to every one of these operators.
-/

namespace VidhiArena.Browser.Python

open Foundation Foundation.BracedLines

/-! ## Literals -/

/-- An integer literal. A decimal one with a leading zero is zero. -/
def intLiteral : Text → Option Nat
  | '0' :: c :: t =>
      match radixOf c with
      | some radix => digits radix (if t.head? = some '_' then t.tail else t)
      | none => (digits 10 ('0' :: c :: t)).filter (· = 0)
  | t => digits 10 t

structure Literal where
  text : Text
  value : Nat
  reads : intLiteral text = some value

def isNameChar (c : Char) : Bool := c.isAlphanum || c = '_'

theorem all_isNameChar {t : Text} (h : ∀ c ∈ t, c.isAlphanum = true ∨ c = '_') :
    t.all isNameChar = true :=
  List.all_eq_true.mpr fun c hc => Bool.or_eq_true_iff.mpr ((h c hc).imp_right decide_eq_true)

theorem isAlphanum_of_radixOf {radix : Nat} {c : Char} (h : radixOf c = some radix) :
    c.isAlphanum = true := by
  unfold radixOf at h
  split at h
  · next hc => rcases hc with rfl | rfl <;> decide
  · split at h
    · next hc => rcases hc with rfl | rfl <;> decide
    · split at h
      · next hc => rcases hc with rfl | rfl <;> decide
      · cases h

theorem digits_head {n : Nat} {t : Text} (h : digits 10 t = some n) :
    t.head?.any Char.isDigit = true := by
  cases t with
  | nil => cases h
  | cons c t =>
      obtain ⟨d, hdigit, -⟩ := Option.bind_eq_some_iff.mp h
      exact isDigit_of_digit? hdigit

theorem intLiteral_wordly {n : Nat} {t : Text} (h : intLiteral t = some n) :
    t.all isNameChar = true ∧ t.head?.any Char.isDigit = true := by
  unfold intLiteral at h
  split at h
  · next c t =>
      refine ⟨all_isNameChar ?_, rfl⟩
      split at h
      · next radix hradix =>
          have htail := all_of_digits h
          refine List.forall_mem_cons.mpr ⟨.inl rfl, List.forall_mem_cons.mpr
            ⟨.inl (isAlphanum_of_radixOf hradix), ?_⟩⟩
          cases t with
          | nil => exact fun c hc => absurd hc List.not_mem_nil
          | cons u t =>
              split at htail
              · next hu => exact List.forall_mem_cons.mpr ⟨.inr (Option.some.inj hu), htail⟩
              · exact htail
      · exact all_of_digits (Option.filter_eq_some_iff.mp h).1
  · exact ⟨all_isNameChar (all_of_digits h), digits_head h⟩

/-! ## Names -/

/-- The keywords that are read before names. -/
def reserved : List Text :=
  ["False", "None", "True", "and", "as", "assert", "async", "await", "break", "class", "continue",
    "def", "del", "elif", "else", "except", "finally", "for", "from", "global", "if", "import",
    "in", "is", "lambda", "nonlocal", "not", "or", "pass", "raise", "return", "try", "while",
    "with", "yield"].map String.toList

def functions : List Text := ["abs", "int", "min", "max"].map String.toList

/-- The name of a variable. -/
structure Name where
  text : Text
  wordly : text.all isNameChar = true
  first : text.head?.any (fun c => !c.isDigit) = true
  free : text ∉ reserved
  notFunction : text ∉ functions

def stateName : Text := ['s', 't', 'a', 't', 'e']

def fieldName (x : Text) : Text := stateName ++ '.' :: x

/-! ## The grammar -/

inductive Level where
  | disjunction | conjunction | inversion | comparison | sum | term | factor | primary
  deriving DecidableEq

def Level.rank : Level → Nat
  | disjunction => 1
  | conjunction => 2
  | inversion => 3
  | comparison => 4
  | sum => 5
  | term => 6
  | factor => 7
  | primary => 8

inductive Sign where
  | plus | minus
  deriving DecidableEq

inductive Comparison where
  | eq | ne | lt | le | gt | ge
  deriving DecidableEq

/-- `abs` and `int`. -/
inductive Function where
  | abs | int
  deriving DecidableEq

inductive Extremum where
  | min | max
  deriving DecidableEq

mutual

inductive Expr : Level → Type
  | literal (l : Literal) : Expr .primary
  | name (x : Name) : Expr .primary
  /-- `state.x` -/
  | field (x : Name) : Expr .primary
  | group (e : Expr .disjunction) : Expr .primary
  | call (f : Function) (e : Expr .disjunction) : Expr .primary
  | extremum (f : Extremum) (args : Arguments) : Expr .primary
  /-- what is of a level stands where a looser one does -/
  | lift {c d : Level} (h : d.rank ≤ c.rank) (e : Expr c) : Expr d
  | sign (s : Sign) (e : Expr .factor) : Expr .factor
  | mul (e : Expr .term) (e' : Expr .factor) : Expr .term
  | floordiv (e : Expr .term) (e' : Expr .factor) : Expr .term
  | sum (e : Expr .sum) (s : Sign) (e' : Expr .term) : Expr .sum
  | compare (e : Expr .sum) (links : Links) : Expr .comparison
  | not (e : Expr .inversion) : Expr .inversion
  | and (e : Expr .conjunction) (e' : Expr .inversion) : Expr .conjunction
  | or (e : Expr .disjunction) (e' : Expr .conjunction) : Expr .disjunction

/-- The right side of a comparison, which may be a chain. -/
inductive Links : Type
  | last (op : Comparison) (e : Expr .sum)
  | more (op : Comparison) (e : Expr .sum) (links : Links)

/-- Two arguments or more. -/
inductive Arguments : Type
  | pair (e e' : Expr .disjunction)
  | more (e : Expr .disjunction) (args : Arguments)

end

/-! ## Tokens -/

def Sign.token : Sign → Text
  | plus => ['+']
  | minus => ['-']

def Comparison.token : Comparison → Text
  | eq => ['=', '=']
  | ne => ['!', '=']
  | lt => ['<']
  | le => ['<', '=']
  | gt => ['>']
  | ge => ['>', '=']

def Function.token : Function → Text
  | abs => ['a', 'b', 's']
  | int => ['i', 'n', 't']

def Extremum.token : Extremum → Text
  | min => ['m', 'i', 'n']
  | max => ['m', 'a', 'x']

mutual

def Expr.tokens : {c : Level} → Expr c → List Text
  | _, .literal l => [l.text]
  | _, .name x => [x.text]
  | _, .field x => [stateName, ['.'], x.text]
  | _, .group e => ['('] :: (e.tokens ++ [[')']])
  | _, .call f e => f.token :: ['('] :: (e.tokens ++ [[')']])
  | _, .extremum f args => f.token :: ['('] :: (args.tokens ++ [[')']])
  | _, .lift _ e => e.tokens
  | _, .sign s e => s.token :: e.tokens
  | _, .mul e e' => e.tokens ++ ['*'] :: e'.tokens
  | _, .floordiv e e' => e.tokens ++ ['/', '/'] :: e'.tokens
  | _, .sum e s e' => e.tokens ++ s.token :: e'.tokens
  | _, .compare e links => e.tokens ++ links.tokens
  | _, .not e => ['n', 'o', 't'] :: e.tokens
  | _, .and e e' => e.tokens ++ ['a', 'n', 'd'] :: e'.tokens
  | _, .or e e' => e.tokens ++ ['o', 'r'] :: e'.tokens

def Links.tokens : Links → List Text
  | .last op e => op.token :: e.tokens
  | .more op e links => op.token :: (e.tokens ++ links.tokens)

def Arguments.tokens : Arguments → List Text
  | .pair e e' => e.tokens ++ [','] :: e'.tokens
  | .more e args => e.tokens ++ [','] :: args.tokens

end

/-! ## Evaluation -/

inductive Value where
  | int (n : Int)
  | bool (b : Bool)
  deriving DecidableEq

namespace Value

def toInt : Value → Int
  | int n => n
  | bool b => if b then 1 else 0

def truth (v : Value) : Bool := v.toInt ≠ 0

end Value

def Comparison.test (op : Comparison) (m n : Int) : Bool :=
  match op with
  | eq => m = n
  | ne => m ≠ n
  | lt => m < n
  | le => m ≤ n
  | gt => n < m
  | ge => n ≤ m

def Function.apply (f : Function) (v : Value) : Value :=
  match f with
  | abs => .int v.toInt.natAbs
  | int => .int v.toInt

/-- The first argument that no other one beats. -/
def Extremum.apply (f : Extremum) (v w : Value) : Value :=
  match f with
  | min => if w.toInt < v.toInt then w else v
  | max => if v.toInt < w.toInt then w else v

def Sign.apply (s : Sign) (n : Int) : Int :=
  match s with
  | plus => n
  | minus => -n

mutual

/-- The value, or `none` for a `ZeroDivisionError`. -/
def Expr.eval (ρ : Text → Int) : {c : Level} → Expr c → Option Value
  | _, .literal l => some (.int l.value)
  | _, .name x => some (.int (ρ x.text))
  | _, .field x => some (.int (ρ (fieldName x.text)))
  | _, .group e => e.eval ρ
  | _, .call f e => (e.eval ρ).map f.apply
  | _, .extremum f args => args.eval ρ f
  | _, .lift _ e => e.eval ρ
  | _, .sign s e => (e.eval ρ).map fun v => .int (s.apply v.toInt)
  | _, .mul e e' => do
      let v ← e.eval ρ
      let w ← e'.eval ρ
      return .int (v.toInt * w.toInt)
  | _, .floordiv e e' => do
      let v ← e.eval ρ
      let w ← e'.eval ρ
      if w.toInt = 0 then none else return .int (v.toInt.fdiv w.toInt)
  | _, .sum e s e' => do
      let v ← e.eval ρ
      let w ← e'.eval ρ
      return .int (v.toInt + s.apply w.toInt)
  | _, .compare e links => do links.eval ρ (← e.eval ρ)
  | _, .not e => (e.eval ρ).map fun v => .bool !v.truth
  | _, .and e e' => do
      let v ← e.eval ρ
      if v.truth then e'.eval ρ else return v
  | _, .or e e' => do
      let v ← e.eval ρ
      if v.truth then return v else e'.eval ρ

/-- A chain is a conjunction whose operands are evaluated once. -/
def Links.eval (ρ : Text → Int) : Links → Value → Option Value
  | .last op e, v => do
      let w ← e.eval ρ
      return .bool (op.test v.toInt w.toInt)
  | .more op e links, v => do
      let w ← e.eval ρ
      if op.test v.toInt w.toInt then links.eval ρ w else return .bool false

def Arguments.eval (ρ : Text → Int) (f : Extremum) : Arguments → Option Value
  | .pair e e' => do
      let v ← e.eval ρ
      let w ← e'.eval ρ
      return f.apply v w
  | .more e args => do
      let v ← e.eval ρ
      let w ← args.eval ρ f
      return f.apply v w

end

end VidhiArena.Browser.Python
