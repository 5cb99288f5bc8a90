import VidhiArena.Browser.JsExpr
import VidhiArena.Browser.PythonProgram

/-!
# Strategies over integers in JavaScript

How JavaScript reads and runs the text that the transpiler emits, as far as it consists of
assignments, calls of the methods of `orders`, and the blocks of `if`, `else if`, `else` and
`while`. Nothing runs if a line does not belong to this fragment: a syntax error anywhere is
one of the whole function.
-/

namespace VidhiArena.Browser.JavaScript

open Foundation Foundation.BracedLines Transpile

/-! ## Reading -/

inductive Target where
  | name (x : Text)
  /-- `x.y` -/
  | member (x y : Text)

/-- `=`, and a binary operator in front of it. -/
inductive Assignment where
  | set
  | change (op : Binary)
  deriving DecidableEq

inductive Statement where
  | assign (x : Target) (a : Assignment) (e : Expr)
  /-- `x.y(…)` -/
  | call (x y : Text) (args : List Expr)

inductive Clause where
  | if_ (e : Expr)
  | elseIf (e : Expr)
  | else_
  | while_ (e : Expr)

def target : List Token → Option (Target × List Token)
  | .name x :: .dot :: .name y :: ts => if x ∈ reserved then none else some (.member x y, ts)
  | .name x :: ts => if x ∈ reserved then none else some (.name x, ts)
  | _ => none

def assignments : List (Text × Assignment) :=
  [(['='], .set), (['+', '='], .change .add), (['-', '='], .change .sub)]

/-- An expression up to the end of the line, which ends a statement like a semicolon. -/
def toEnd (ts : List Token) : Option Expr :=
  match expression ts with
  | some (e, []) | some (e, [.other [';']]) => some e
  | _ => none

def assignment (ts : List Token) : Option Statement :=
  match target ts with
  | some (x, .other t :: ts) =>
      (assignments.lookup t).bind fun a => (toEnd ts).map (.assign x a)
  | _ => none

def call (ts : List Token) : Option Statement :=
  match toEnd ts with
  | some (.call [x, y] args) => some (.call x y args)
  | _ => none

def statement (t : Text) : Option Statement :=
  let ts := tokens t
  (assignment ts).or (call ts)

/-- The words in front of the parenthesis. -/
def heads : List (List Token × (Expr → Clause)) :=
  [([.name "if".toList], .if_), ([.name "else".toList, .name "if".toList], .elseIf),
    ([.name "while".toList], .while_)]

/-- The head of a block, with the brace behind it. -/
def clause (t : Text) : Option Clause :=
  let ts := tokens t
  if ts = [.name "else".toList, .other ['\x7b']] then some .else_
  else
    match ts.dropWhile (· ≠ .leftParen) with
    | .leftParen :: rest =>
        (heads.lookup (ts.takeWhile (· ≠ .leftParen))).bind fun c =>
          match expression rest with
          | some (e, [.rightParen, .other ['\x7b']]) => some (c e)
          | _ => none
    | _ => none

def isComment (t : Text) : Bool := (literal "/*".toList t).bind (behind "*/".toList) = some []

def parse : Blocks → Option (Flow Statement Clause)
  | .done => some .done
  | .item t rest =>
      if isComment t then parse rest
      else (statement t).bind fun a => (parse rest).map (.simple a)
  | .block head body rest =>
      (clause head).bind fun c => (parse body).bind fun body => (parse rest).map (.block c body)

def program (t : Text) : Option (Flow Statement Clause) :=
  (Blocks.ofLines (t.splitOn '\n')).bind parse

/-! ## What reads as a statement -/

section

variable {t : Text} {ts : List Token} {e : Expr}

theorem toEnd_eq (h : grammar.Reads 1 ts e) : toEnd (ts ++ [.other [';']]) = some e := by
  have hread := expression_closed h (.inr (.inr ⟨[';'], rfl⟩)) []
  rw [toEnd, hread]
  rfl

theorem statement_assign {x : Target} {op : Text} {a : Assignment} (ha : assignments.lookup op = some a)
    (ht : target (tokens t) = some (x, .other op :: (ts ++ [.other [';']])))
    (h : grammar.Reads 1 ts e) : statement t = some (.assign x a e) := by
  have hassignment : assignment (tokens t) = some (.assign x a e) := by
    rw [assignment, ht]
    dsimp only
    rw [ha, toEnd_eq h]
    rfl
  rw [statement, hassignment]
  rfl

theorem statement_call {x y : Text} {args : List Expr}
    (ht : tokens t = .name x :: .dot :: .name y :: .leftParen :: (ts ++ [.rightParen, .other [';']]))
    (hx : x ∉ reserved) (h : IsArguments ts args) : statement t = some (.call x y args) := by
  have hassignment : assignment (tokens t) = none := by
    rw [ht, assignment, target, if_neg hx]
  have hread := toEnd_eq ((isOperand_method h hx y).reads 1)
  have hline : tokens t =
      .name x :: .dot :: .name y :: .leftParen :: (ts ++ [.rightParen]) ++ [.other [';']] := by
    rw [ht]
    simp only [List.cons_append, List.append_assoc, List.nil_append]
  rw [statement, hassignment, Option.none_or, call, hline, hread]

theorem clause_eq {head : List Token} {c : Expr → Clause} (hc : (head, c) ∈ heads)
    (ht : tokens t = head ++ .leftParen :: (ts ++ [.rightParen, .other ['\x7b']]))
    (h : grammar.Reads 1 ts e) : clause t = some (c e) := by
  have hread := expression_closed h (.inl rfl) [.other ['\x7b']]
  have hhead : ∀ u ∈ head, u ≠ .leftParen := by
    have hall : ∀ r ∈ heads.map Prod.fst, ∀ u ∈ r, u ≠ .leftParen := by decide
    exact hall head (List.mem_map_of_mem hc)
  have hdrop : (tokens t).dropWhile (· ≠ .leftParen) =
      .leftParen :: (ts ++ [.rightParen, .other ['\x7b']]) := by
    rw [ht, List.dropWhile_append_of_pos fun u hu => decide_eq_true (hhead u hu)]
    rfl
  have htake : (tokens t).takeWhile (· ≠ .leftParen) = head := by
    rw [ht, List.takeWhile_append_of_pos fun u hu => decide_eq_true (hhead u hu)]
    exact List.append_nil head
  have helse : tokens t ≠ [.name "else".toList, .other ['\x7b']] := by
    intro heq
    rw [heq] at hdrop
    cases hdrop
  have hlookup : heads.lookup head = some c := by
    simp only [heads, List.mem_cons, Prod.mk.injEq, List.not_mem_nil, or_false] at hc
    rcases hc with ⟨rfl, rfl⟩ | ⟨rfl, rfl⟩ | ⟨rfl, rfl⟩ <;> rfl
  rw [clause, if_neg helse, hdrop, htake, hlookup]
  dsimp only
  rw [Option.bind_some, hread]
  rfl

end

/-! ## Running -/

def Assignment.apply (a : Assignment) (old new : Number) : Number :=
  match a with
  | set => new
  | change op => (op.apply (.number old) (.number new)).toNumber

def Target.key : Target → Option Text
  | name x => if x ∈ fixed then none else some x
  | member x y => if x = "state".toList ∧ y ≠ "__proto__".toList then some (x ++ '.' :: y) else none

/-- The methods of `orders`. -/
def methods : List Text :=
  ["limit_buy", "limit_sell", "market_buy", "market_sell", "cancel"].map String.toList

/-- A boolean is stored as the number that the operators take it for. -/
def Statement.run (extrema : Bool) (a : Statement) (s : Store Number) : Option (Store Number) :=
  match a with
  | assign x a e => x.key.bind fun key =>
      (e.eval ⟨s.vars, extrema⟩).map fun v => s.set key (a.apply (s.vars key) v.toNumber)
  | call x y args =>
      if x = "orders".toList ∧ y ∈ methods then
        (evalAll ⟨s.vars, extrema⟩ args).map fun vs => s.submit y (vs.map Value.toNumber)
      else none

namespace Clause

def condition : Clause → Option Expr
  | if_ e | elseIf e | while_ e => some e
  | else_ => none

def control : Clause → Control
  | if_ _ => .if_
  | elseIf _ => .elseIf
  | else_ => .else_
  | while_ _ => .while_

def test (extrema : Bool) (c : Clause) (s : Store Number) : Option Bool :=
  match c.condition with
  | some e => (e.eval ⟨s.vars, extrema⟩).map Value.truthy
  | none => some true

end Clause

def meaning (extrema : Bool) : Meaning Statement Clause (Store Number) where
  simple := Statement.run extrema
  control := Clause.control
  test := Clause.test extrema

/-- What the function of this body does. -/
def run (extrema : Bool) (fuel : Nat) (body : Text) (s : Store Number) : Option (Store Number) :=
  (program body).bind fun t => t.run (meaning extrema) fuel none s

end VidhiArena.Browser.JavaScript
