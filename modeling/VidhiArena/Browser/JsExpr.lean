import VidhiArena.Browser.SourceLines
import VidhiArena.Foundation.Lexemes
import VidhiArena.Foundation.Numerals
import VidhiArena.Foundation.Precedence

/-!
# Expressions over integers in JavaScript

How JavaScript reads and evaluates the lines that the transpiler emits: lexemes as long as
they go, a comment from `//` on, operators by precedence. Numbers are doubles; of these only
the integers, the infinities and NaN come up, and no operator here tells -0 from 0.

A text that is not of this fragment has no reading.
-/

namespace VidhiArena.Browser.JavaScript

open Foundation Foundation.BracedLines Transpile

/-- Words are compared character by character. -/
scoped instance : LawfulBEq Text := List.instLawfulBEq

/-! ## Numbers -/

inductive Number where
  | finite (n : Int)
  | infinite (negative : Bool)
  | nan
  deriving DecidableEq

/-- The nearest integer of 53 bits and zeros behind them; of two, the even one. -/
def nearest (n : Nat) : Nat :=
  let unit := 2 ^ (n.log2 - 52)
  let q := n / unit
  let r := n % unit
  (if unit < 2 * r ∨ unit = 2 * r ∧ q % 2 = 1 then q + 1 else q) * unit

def toDouble (n : Int) : Number :=
  let m := nearest n.natAbs
  if m.log2 < 1024 then .finite (if n < 0 then -m else m) else .infinite (n < 0)

def isDouble (n : Int) : Bool := toDouble n = .finite n

namespace Number

def neg : Number → Number
  | finite n => finite (-n)
  | infinite negative => infinite !negative
  | nan => nan

def abs : Number → Number
  | finite n => finite n.natAbs
  | infinite _ => infinite false
  | nan => nan

def add : Number → Number → Number
  | finite m, finite n => toDouble (m + n)
  | infinite a, infinite b => if a = b then infinite a else nan
  | infinite a, finite _ => infinite a
  | finite _, infinite b => infinite b
  | nan, _ | _, nan => nan

def mul : Number → Number → Number
  | finite m, finite n => toDouble (m * n)
  | infinite a, infinite b => infinite (a != b)
  | infinite a, finite n | finite n, infinite a =>
      if n = 0 then nan else infinite (a != decide (n < 0))
  | nan, _ | _, nan => nan

def le : Number → Number → Bool
  | nan, _ | _, nan => false
  | finite m, finite n => m ≤ n
  | infinite true, _ | _, infinite false => true
  | _, _ => false

def lt (x y : Number) : Bool := x.le y && !y.le x

def eq (x y : Number) : Bool := x.le y && y.le x

theorem lt_finite (m n : Int) : lt (finite m) (finite n) = decide (m < n) := by
  rw [Bool.eq_iff_iff]
  simp only [lt, le, Bool.and_eq_true, Bool.not_eq_true', decide_eq_true_eq,
    decide_eq_false_iff_not]
  omega

theorem eq_finite (m n : Int) : eq (finite m) (finite n) = decide (m = n) := by
  rw [Bool.eq_iff_iff]
  simp only [eq, le, Bool.and_eq_true, decide_eq_true_eq]
  omega

/-- `Math.min` of two. -/
def min (x y : Number) : Number := if x = nan ∨ y = nan then nan else if x.le y then x else y

def max (x y : Number) : Number := if x = nan ∨ y = nan then nan else if y.le x then x else y

theorem min_finite (m n : Int) :
    min (finite m) (finite n) = finite (if m ≤ n then m else n) := by
  rw [min, if_neg (by rintro (h | h) <;> cases h), le, apply_ite finite]
  simp only [decide_eq_true_eq]

theorem max_finite (m n : Int) :
    max (finite m) (finite n) = finite (if n ≤ m then m else n) := by
  rw [max, if_neg (by rintro (h | h) <;> cases h), le, apply_ite finite]
  simp only [decide_eq_true_eq]

end Number

theorem toDouble_of_isDouble {n : Int} (h : isDouble n = true) : toDouble n = .finite n :=
  of_decide_eq_true h

theorem isDouble_of_natAbs_le {n : Int} (h : n.natAbs ≤ 2 ^ 53) : isDouble n = true := by
  have hnearest : nearest n.natAbs = n.natAbs ∧ n.natAbs.log2 < 1024 := by
    rcases h.lt_or_eq with hlt | heq
    · have hlog : n.natAbs.log2 < 53 := by
        by_cases hzero : n.natAbs = 0
        · rw [hzero]
          decide
        · exact (Nat.log2_lt hzero).mpr hlt
      refine ⟨?_, hlog.trans (by decide)⟩
      have hunit : n.natAbs.log2 - 52 = 0 := Nat.sub_eq_zero_of_le (Nat.le_of_lt_succ hlog)
      rw [nearest, hunit, pow_zero, Nat.div_one, Nat.mod_one, if_neg (by omega), Nat.mul_one]
    · rw [heq]
      decide +kernel
  have hsign : (if n < 0 then -(n.natAbs : Int) else n.natAbs) = n := by
    split
    · omega
    · omega
  rw [isDouble, toDouble, hnearest.1, if_pos hnearest.2, hsign]
  exact decide_eq_true rfl

/-! ## Values -/

inductive Value where
  | number (x : Number)
  | boolean (b : Bool)
  deriving DecidableEq

namespace Value

def toNumber : Value → Number
  | number x => x
  | boolean b => .finite (if b then 1 else 0)

def truthy (v : Value) : Bool := v.toNumber ≠ .finite 0 ∧ v.toNumber ≠ .nan

end Value

/-! ## Expressions -/

inductive Unary where
  | not | plus | minus
  deriving DecidableEq

inductive Binary where
  | or | and | eq | ne | lt | le | gt | ge | add | sub | mul
  deriving DecidableEq

def Binary.precedence : Binary → Nat
  | or => 1
  | and => 2
  | eq | ne => 3
  | lt | le | gt | ge => 4
  | add | sub => 5
  | mul => 6

inductive Expr where
  | number (n : Nat)
  | name (x : Text)
  /-- `x.y` -/
  | member (x y : Text)
  | unary (op : Unary) (e : Expr)
  | binary (op : Binary) (l r : Expr)
  /-- a function, by its path -/
  | call (f : List Text) (args : List Expr)

def Unary.apply (op : Unary) (v : Value) : Value :=
  match op with
  | not => .boolean !v.truthy
  | plus => .number v.toNumber
  | minus => .number v.toNumber.neg

/-- An operator that evaluates both sides. -/
def Binary.apply (op : Binary) (v w : Value) : Value :=
  let x := v.toNumber
  let y := w.toNumber
  match op with
  | eq => .boolean (x.eq y)
  | ne => .boolean !(x.eq y)
  | lt => .boolean (x.lt y)
  | le => .boolean (x.le y)
  | gt => .boolean (y.lt x)
  | ge => .boolean (y.le x)
  | add => .number (x.add y)
  | sub => .number (x.add y.neg)
  | mul => .number (x.mul y)
  | and => if v.truthy then w else v
  | or => if v.truthy then v else w

/-- Names that no variable has: they stand for objects or constants, or are taken by the worker
that the function runs in. -/
def fixed : List Text :=
  ["undefined", "NaN", "Infinity", "Math", "state", "orders", "self", "location", "navigator",
    "name", "origin", "onerror", "onmessage", "onmessageerror", "onlanguagechange", "onoffline",
    "ononline", "onrejectionhandled", "onunhandledrejection", "isSecureContext",
    "crossOriginIsolated", "caches", "crypto", "fonts", "indexedDB", "performance", "scheduler",
    "trustedTypes"].map String.toList

/-- What the names stand for. -/
structure Scope where
  /-- variables, and fields of `state` under their full names -/
  numbers : Text → Number
  /-- `min` and `max` are bound, to those of `Math` -/
  extrema : Bool

def Scope.name (scope : Scope) (x : Text) : Option Number :=
  if x ∈ fixed then none else some (scope.numbers x)

def Scope.member (scope : Scope) (x y : Text) : Option Number :=
  if x = "state".toList ∧ y ≠ "__proto__".toList then some (scope.numbers (x ++ '.' :: y)) else none

def Scope.callee (scope : Scope) (f : List Text) (args : List Number) : Option Number :=
  if f = ["Math".toList, "abs".toList] then some (args.head?.elim .nan Number.abs)
  else if f = ["Math".toList, "trunc".toList] then some (args.head?.getD .nan)
  else if !scope.extrema then none
  else if f = ["min".toList] then some (args.foldr Number.min (.infinite false))
  else if f = ["max".toList] then some (args.foldr Number.max (.infinite true))
  else none

mutual

/-- The value, or `none` for an exception. -/
def Expr.eval (scope : Scope) : Expr → Option Value
  | .number n => some (.number (toDouble n))
  | .name x => (scope.name x).map .number
  | .member x y => (scope.member x y).map .number
  | .unary op e => (e.eval scope).map op.apply
  | .binary op l r =>
      (l.eval scope).bind fun v =>
        if op = .or ∧ v.truthy = true ∨ op = .and ∧ v.truthy = false then some v
        else (r.eval scope).map (op.apply v)
  | .call f args => (evalAll scope args).bind fun vs =>
      (scope.callee f (vs.map Value.toNumber)).map .number

def evalAll (scope : Scope) : List Expr → Option (List Value)
  | [] => some []
  | e :: es => (e.eval scope).bind fun v => (evalAll scope es).map (v :: ·)

end

/-! ## Lexemes -/

inductive Token where
  | number (n : Nat)
  | name (x : Text)
  | binary (op : Binary)
  | bang
  | leftParen
  | rightParen
  | comma
  | dot
  | other (t : Text)
  deriving DecidableEq

/-- The punctuators of more than one character. -/
def punctuators : List Text :=
  ["==", "===", "!=", "!==", "<=", ">=", "&&", "||", "??", "++", "--", "+=", "-=", "*=", "/=",
    "%=", "&=", "|=", "^=", "**", "**=", "<<", "<<=", ">>", ">>=", ">>>", ">>>=", "&&=", "||=",
    "??=", "=>", "?."].map String.toList

theorem punctuators_spaced :
    ∀ p ∈ punctuators, 2 ≤ p.length ∧ p.all (!BracedLines.isSpace ·) = true := by
  decide

def scanner : Scanner Char where
  grows run c := if isWord c then run.head?.any isWord else run ++ [c] ∈ punctuators
  blank := BracedLines.isSpace
  grows_nil c := by
    split
    · rfl
    · refine decide_eq_false fun hmem => ?_
      exact absurd (punctuators_spaced _ hmem).1 (Nat.lt_irrefl 1)
  grows_blank run c hc := by
    rw [isWord_of_isSpace hc]
    refine decide_eq_false fun hmem => ?_
    have hall := List.all_eq_true.mp (punctuators_spaced _ hmem).2 c (by simp)
    rw [hc] at hall
    cases hall

/-- A numeric literal of sloppy mode that is an integer. -/
def numericLiteral : Text → Option Nat
  | '0' :: c :: t =>
      match radixOf c with
      | some radix => digits radix t
      | none =>
          if (c :: t).all Char.isDigit then
            digits (if (c :: t).all (fun c => (digit? 8 c).isSome) then 8 else 10) (c :: t)
          else none
  | t => digits 10 t

def symbols : List (Text × Token) :=
  [(['('], .leftParen), ([')'], .rightParen), ([','], .comma), (['.'], .dot), (['!'], .bang),
    (['|', '|'], .binary .or), (['&', '&'], .binary .and), (['=', '='], .binary .eq),
    (['!', '='], .binary .ne), (['<'], .binary .lt), (['<', '='], .binary .le),
    (['>'], .binary .gt), (['>', '='], .binary .ge), (['+'], .binary .add),
    (['-'], .binary .sub), (['*'], .binary .mul)]

def classify (t : Text) : Token :=
  if t.head?.any Char.isDigit then (numericLiteral t).elim (.other t) .number
  else if t.head?.any isWord then .name t
  else (symbols.lookup t).getD (.other t)

/-- The text in front of a comment to the end of the line. -/
def uncommented : Text → Text
  | '/' :: '/' :: _ => []
  | c :: t => c :: uncommented t
  | [] => []

def tokens (t : Text) : List Token := (scanner.lexemes (uncommented t)).map classify

/-! ## Reading -/

/-- The reserved words of sloppy mode. -/
def reserved : List Text :=
  ["break", "case", "catch", "class", "const", "continue", "debugger", "default", "delete", "do",
    "else", "enum", "export", "extends", "false", "finally", "for", "function", "if", "import",
    "in", "instanceof", "new", "null", "return", "super", "switch", "this", "throw", "true",
    "try", "typeof", "var", "void", "while", "with"].map String.toList

/-- Arguments and the parenthesis behind them. -/
def arguments (self : Reader Token Expr) : Nat → List Token → Option (List Expr × List Token)
  | 0, _ => none
  | fuel + 1, ts =>
      (self 1 ts).bind fun r =>
        match r.2 with
        | .comma :: ts => (arguments self fuel ts).map fun rest => (r.1 :: rest.1, rest.2)
        | .rightParen :: ts => some ([r.1], ts)
        | _ => none

def unary (self : Reader Token Expr) (op : Unary) (ts : List Token) : Option (Expr × List Token) :=
  (self 7 ts).map fun r => (.unary op r.1, r.2)

def operand (self : Reader Token Expr) : List Token → Option (Expr × List Token)
  | .number n :: ts => some (.number n, ts)
  | .bang :: ts => unary self .not ts
  | .binary .add :: ts => unary self .plus ts
  | .binary .sub :: ts => unary self .minus ts
  | .leftParen :: ts =>
      (self 1 ts).bind fun r =>
        match r.2 with
        | .rightParen :: ts => some (r.1, ts)
        | _ => none
  | .name x :: ts =>
      if x ∈ reserved then none
      else
        match ts with
        | .leftParen :: ts =>
            (arguments self ts.length ts).map fun r => (.call [x] r.1, r.2)
        | .dot :: .name y :: .leftParen :: ts =>
            (arguments self ts.length ts).map fun r => (.call [x, y] r.1, r.2)
        | .dot :: .name y :: ts => some (.member x y, ts)
        | ts => some (.name x, ts)
  | _ => none

def grammar : Grammar Token Expr where
  operator
    | .binary op => some (op.precedence, .binary op)
    | _ => none
  operand := operand
  continues t := t = .leftParen ∨ t = .dot

def expression (ts : List Token) : Option (Expr × List Token) :=
  grammar.climb (3 * ts.length + 2) 1 ts

/-! ## What reads as an expression -/

theorem stops_six {rest : List Token} (h : ∀ t ∈ rest.head?, grammar.continues t = false) :
    grammar.Stops 6 rest := by
  refine ⟨h, fun t _ q node hq => ?_⟩
  cases t with
  | binary op =>
      cases hq
      cases op <;> decide
  | number | name | bang | leftParen | rightParen | comma | dot | other => cases hq

theorem stops_zero {t : Token} (h : t = .rightParen ∨ t = .comma ∨ ∃ u, t = .other u)
    (rest : List Token) : grammar.Stops 0 (t :: rest) := by
  refine ⟨fun u hu => ?_, fun u hu q node hq => ?_⟩
  · cases hu
    rcases h with rfl | rfl | ⟨u, rfl⟩ <;> rfl
  · cases hu
    rcases h with rfl | rfl | ⟨u, rfl⟩ <;> cases hq

variable {ts ts' : List Token} {e e' : Expr} {es : List Expr} {x : Text}

theorem isOperand_number (n : Nat) : grammar.IsOperand [.number n] (.number n) :=
  fun _ _ _ _ => rfl

theorem isOperand_name (hx : x ∉ reserved) : grammar.IsOperand [.name x] (.name x) := by
  intro rest hrest fuel _
  show (if x ∈ reserved then none else _) = _
  rw [if_neg hx]
  cases rest with
  | nil => rfl
  | cons t rest =>
      have ht : grammar.continues t = false := hrest t rfl
      cases t with
      | leftParen | dot => cases ht
      | number | name | binary | bang | rightParen | comma | other => rfl

theorem isOperand_member (hx : x ∉ reserved) (y : Text) :
    grammar.IsOperand [.name x, .dot, .name y] (.member x y) := by
  intro rest hrest fuel _
  show (if x ∈ reserved then none else _) = _
  rw [if_neg hx]
  cases rest with
  | nil => rfl
  | cons t rest =>
      have ht : grammar.continues t = false := hrest t rfl
      cases t with
      | leftParen => cases ht
      | dot => cases ht
      | number | name | binary | bang | rightParen | comma | other => rfl

theorem unary_eq (h : grammar.IsOperand ts e) (op : Unary) {rest : List Token}
    (hrest : ∀ t ∈ rest.head?, grammar.continues t = false) {fuel : Nat}
    (hfuel : 3 * (ts.length + 1) ≤ fuel) :
    unary (grammar.climb fuel) op (ts ++ rest) = some (.unary op e, rest) := by
  have hmore : 3 * ts.length + 2 ≤ fuel := by omega
  have hread := (h.reads 7).complete (stops_six hrest) (by decide) (by decide : 6 < 7) le_rfl hmore
  rw [unary, hread]
  rfl

theorem isOperand_not (h : grammar.IsOperand ts e) :
    grammar.IsOperand (.bang :: ts) (.unary .not e) :=
  fun _ hrest _ hfuel => unary_eq h .not hrest hfuel

theorem isOperand_plus (h : grammar.IsOperand ts e) :
    grammar.IsOperand (.binary .add :: ts) (.unary .plus e) :=
  fun _ hrest _ hfuel => unary_eq h .plus hrest hfuel

theorem isOperand_minus (h : grammar.IsOperand ts e) :
    grammar.IsOperand (.binary .sub :: ts) (.unary .minus e) :=
  fun _ hrest _ hfuel => unary_eq h .minus hrest hfuel

theorem climb_closed (h : grammar.Reads 1 ts e) {t : Token}
    (ht : t = .rightParen ∨ t = .comma ∨ ∃ u, t = .other u) (rest : List Token) {fuel : Nat}
    (hfuel : 3 * ts.length + 2 ≤ fuel) :
    grammar.climb fuel 1 (ts ++ t :: rest) = some (e, t :: rest) :=
  h.complete (stops_zero ht rest) (by decide) (by decide) le_rfl hfuel

theorem isOperand_group (h : grammar.Reads 1 ts e) :
    grammar.IsOperand (.leftParen :: (ts ++ [.rightParen])) e := by
  intro rest _ fuel hfuel
  rw [List.length_cons, List.length_append] at hfuel
  have hmore : 3 * ts.length + 2 ≤ fuel := by omega
  have hread := climb_closed h (.inl rfl) rest hmore
  rw [List.cons_append, List.append_assoc]
  show ((grammar.climb fuel 1 (ts ++ .rightParen :: rest)).bind _) = _
  rw [hread]
  rfl

/-- Tokens that are arguments, in front of a parenthesis. -/
def IsArguments (ts : List Token) (es : List Expr) : Prop :=
  ∀ rest fuel n, 3 * ts.length + 2 ≤ fuel → ts.length < n →
    arguments (grammar.climb fuel) n (ts ++ .rightParen :: rest) = some (es, rest)

theorem isArguments_one (h : grammar.Reads 1 ts e) : IsArguments ts [e] := by
  intro rest fuel n hfuel hn
  obtain ⟨n, rfl⟩ : ∃ m, n = m + 1 := ⟨n - 1, by omega⟩
  rw [arguments, climb_closed h (.inl rfl) rest hfuel]
  rfl

theorem isArguments_cons (h : grammar.Reads 1 ts e) (h' : IsArguments ts' es) :
    IsArguments (ts ++ .comma :: ts') (e :: es) := by
  intro rest fuel n hfuel hn
  rw [List.length_append, List.length_cons] at hfuel hn
  obtain ⟨n, rfl⟩ : ∃ m, n = m + 1 := ⟨n - 1, by omega⟩
  rw [List.append_assoc, List.cons_append, arguments,
    climb_closed h (.inr (.inl rfl)) _ (by omega), Option.bind_some]
  dsimp only
  rw [h' rest fuel n (by omega) (by omega)]
  rfl

theorem isOperand_call (h : IsArguments ts es) (hx : x ∉ reserved) :
    grammar.IsOperand (.name x :: .leftParen :: (ts ++ [.rightParen])) (.call [x] es) := by
  intro rest _ fuel hfuel
  simp only [List.length_cons, List.length_append] at hfuel
  rw [List.cons_append, List.cons_append, List.append_assoc]
  show (if x ∈ reserved then none else (arguments _ _ (ts ++ .rightParen :: rest)).map _) = _
  rw [if_neg hx, h rest fuel _ (by omega)]
  · rfl
  · simp only [List.length_append, List.length_cons]
    omega

theorem isOperand_method (h : IsArguments ts es) (hx : x ∉ reserved) (y : Text) :
    grammar.IsOperand (.name x :: .dot :: .name y :: .leftParen :: (ts ++ [.rightParen]))
      (.call [x, y] es) := by
  intro rest _ fuel hfuel
  simp only [List.length_cons, List.length_append] at hfuel
  rw [List.cons_append, List.cons_append, List.cons_append, List.cons_append, List.append_assoc]
  show (if x ∈ reserved then none else (arguments _ _ (ts ++ .rightParen :: rest)).map _) = _
  rw [if_neg hx, h rest fuel _ (by omega)]
  · rfl
  · simp only [List.length_append, List.length_cons]
    omega

theorem reads_binary {op : Binary} {k j j' : Nat} (h : grammar.Reads j ts e)
    (h' : grammar.Reads j' ts' e') (hk : k ≤ op.precedence) (hj : op.precedence ≤ j)
    (hj' : op.precedence < j') : grammar.Reads k (ts ++ .binary op :: ts') (.binary op e e') :=
  h.operator h' rfl rfl hk hj hj'

theorem expression_closed (h : grammar.Reads 1 ts e) {t : Token}
    (ht : t = .rightParen ∨ t = .comma ∨ ∃ u, t = .other u) (rest : List Token) :
    expression (ts ++ t :: rest) = some (e, t :: rest) :=
  climb_closed h ht rest (by rw [List.length_append]; omega)

end VidhiArena.Browser.JavaScript
