import Mathlib.Logic.Function.Basic
import VidhiArena.Browser.PythonExpr
import VidhiArena.Foundation.ControlFlow

/-!
# Strategies over integers in Python

Assignments to variables and to fields of `state`, calls of the methods of `orders`, and the
blocks of `if`, `elif`, `else` and `while`. What a strategy does is what it leaves in the
variables and the fields, and which orders it submits.
-/

namespace VidhiArena.Browser

open Foundation Foundation.BracedLines

/-! ## Stores -/

/-- Over the numbers of a language. -/
structure Store (V : Type) where
  /-- variables, and fields of `state` under their full names -/
  vars : Text → V
  /-- the calls of the methods of `orders`, with their arguments -/
  orders : List (Text × List V)

namespace Store

variable {V W : Type}

def set (s : Store V) (x : Text) (v : V) : Store V :=
  { s with vars := Function.update s.vars x v }

def submit (s : Store V) (method : Text) (args : List V) : Store V :=
  { s with orders := s.orders ++ [(method, args)] }

def map (f : V → W) (s : Store V) : Store W :=
  ⟨fun x => f (s.vars x), s.orders.map fun o => (o.1, o.2.map f)⟩

theorem map_set (f : V → W) (s : Store V) (x : Text) (v : V) :
    (s.set x v).map f = (s.map f).set x (f v) := by
  have hvars : (fun y => f (Function.update s.vars x v y)) =
      Function.update (fun y => f (s.vars y)) x (f v) :=
    Function.comp_update f s.vars x v
  rw [map, set, hvars]
  rfl

theorem map_submit (f : V → W) (s : Store V) (method : Text) (args : List V) :
    (s.submit method args).map f = (s.map f).submit method (args.map f) := by
  rw [map, submit, List.map_append]
  rfl

end Store

namespace Python

/-! ## Statements -/

inductive Target where
  | name (x : Name)
  /-- `state.x` -/
  | field (x : Name)

def Target.key : Target → Text
  | name x => x.text
  | field x => fieldName x.text

def Target.tokens : Target → List Text
  | name x => [x.text]
  | field x => [stateName, ['.'], x.text]

/-- `=`, `+=` and `-=`. -/
inductive Assignment where
  | set
  | change (s : Sign)
  deriving DecidableEq

def Assignment.token : Assignment → Text
  | set => ['=']
  | change s => s.token ++ ['=']

def Assignment.apply (a : Assignment) (old new : Int) : Int :=
  match a with
  | set => new
  | change s => old + s.apply new

inductive Side where
  | buy | sell
  deriving DecidableEq

/-- A call of a method of `orders`. -/
inductive Order where
  | limit (side : Side) (price volume : Expr .disjunction)
  | market (side : Side) (volume : Expr .disjunction)
  | cancel (id : Expr .disjunction)

namespace Order

def method : Order → Text
  | limit .buy _ _ => "limit_buy".toList
  | limit .sell _ _ => "limit_sell".toList
  | market .buy _ => "market_buy".toList
  | market .sell _ => "market_sell".toList
  | cancel _ => "cancel".toList

def argTokens : Order → List Text
  | limit _ price volume => price.tokens ++ [','] :: volume.tokens
  | market _ e | cancel e => e.tokens

def tokens (o : Order) : List Text :=
  "orders".toList :: ['.'] :: o.method :: ['('] :: (o.argTokens ++ [[')']])

def values (ρ : Text → Int) : Order → Option (List Int)
  | limit _ price volume => do
      let v ← price.eval ρ
      let w ← volume.eval ρ
      return [v.toInt, w.toInt]
  | market _ e | cancel e => (e.eval ρ).map fun v => [v.toInt]

end Order

inductive Statement where
  | assign (x : Target) (a : Assignment) (e : Expr .disjunction)
  | order (o : Order)

def Statement.tokens : Statement → List Text
  | assign x a e => x.tokens ++ a.token :: e.tokens
  | order o => o.tokens

/-- A bool is stored as the integer that it is. -/
def Statement.run (a : Statement) (s : Store Int) : Option (Store Int) :=
  match a with
  | assign x a e => (e.eval s.vars).map fun v => s.set x.key (a.apply (s.vars x.key) v.toInt)
  | order o => (o.values s.vars).map (s.submit o.method)

/-! ## Blocks -/

inductive Clause where
  | if_ (e : Expr .disjunction)
  | elif_ (e : Expr .disjunction)
  | else_
  | while_ (e : Expr .disjunction)

namespace Clause

def condition : Clause → Option (Expr .disjunction)
  | if_ e | elif_ e | while_ e => some e
  | else_ => none

def control : Clause → Control
  | if_ _ => .if_
  | elif_ _ => .elseIf
  | else_ => .else_
  | while_ _ => .while_

def test (c : Clause) (s : Store Int) : Option Bool :=
  match c.condition with
  | some e => (e.eval s.vars).map Value.truth
  | none => some true

end Clause

def meaning : Meaning Statement Clause (Store Int) where
  simple := Statement.run
  control := Clause.control
  test := Clause.test

end Python

end VidhiArena.Browser
