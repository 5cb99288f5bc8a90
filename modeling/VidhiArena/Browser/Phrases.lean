import VidhiArena.Browser.ExpressionText
import VidhiArena.Browser.JsExpr
import VidhiArena.Browser.PythonExpr

/-!
# The tokens of an expression

Which tokens of an expression stand next to each other: an operator in front of an operand,
an operand in front of an operator, a function in front of a parenthesis. So once words and
equal signs are kept apart, no two of them make one lexeme of JavaScript.
-/

namespace VidhiArena.Browser.Expressions

open Foundation Foundation.BracedLines Transpile

/-! ## Kinds of tokens -/

/-- The words with a meaning, to Python or to the transpiler. -/
def special : List Text := (renamed.map fun r => r.1.toList) ++ Python.functions

def Atom (t : Text) : Prop := IsWord t ∧ t ∉ special

/-- What may be called; a condition does not know `abs` and `int`, and submits no orders. -/
def callable (statement : Bool) : List Text :=
  (if statement then ["abs", "int", "min", "max", "limit_buy", "limit_sell", "market_buy",
    "market_sell", "cancel"] else ["min", "max"]).map String.toList

/-- Operators and what else stands in front of an operand. -/
def openers : List Text :=
  ["(", ",", ".", "+", "-", "*", "=", "+=", "-=", "==", "!=", "<", "<=", ">", ">=", "and", "or",
    "not"].map String.toList

/-- Operators and what else stands behind an operand. -/
def closers : List Text :=
  [")", ",", ".", "+", "-", "*", "=", "+=", "-=", "==", "!=", "<", "<=", ">", ">=", "and",
    "or"].map String.toList

/-- What an operand begins with, other than an atom. -/
def openings (statement : Bool) : List Text :=
  ["(", "+", "-", "not"].map String.toList ++ callable statement

variable {statement : Bool} {a b t : Text} {ts ts' : List Text}

def Opens (statement : Bool) (t : Text) : Prop := Atom t ∨ t ∈ openings statement

def Ends (t : Text) : Prop := Atom t ∨ t = [')']

def Follows (statement : Bool) (a b : Text) : Prop :=
  a ∈ openers ∧ Opens statement b ∨ Ends a ∧ b ∈ closers ∨ a ∈ callable statement ∧ b = ['(']

def Known (statement : Bool) (t : Text) : Prop :=
  Atom t ∨ t ∈ openers ++ closers ++ callable statement

/-- The tokens of an operand, or of an expression. -/
structure Phrase (statement : Bool) (ts : List Text) : Prop where
  nonempty : ts ≠ []
  opens : ∀ t ∈ ts.head?, Opens statement t
  ends : ∀ t ∈ ts.getLast?, Ends t
  chain : ts.IsChain (Follows statement)
  known : ∀ t ∈ ts, Known statement t

namespace Phrase

theorem atom (h : Atom t) : Phrase statement [t] where
  nonempty := List.cons_ne_nil t []
  opens _ hu := Option.some.inj hu ▸ .inl h
  ends _ hu := Option.some.inj hu ▸ .inl h
  chain := .singleton t
  known _ hu := List.mem_singleton.mp hu ▸ .inl h

theorem cons (h : Phrase statement ts) (ht : Opens statement t) (hknown : Known statement t)
    (hfollows : ∀ u ∈ ts.head?, Follows statement t u) : Phrase statement (t :: ts) where
  nonempty := List.cons_ne_nil t ts
  opens _ hu := Option.some.inj hu ▸ ht
  ends u hu := by
    obtain ⟨v, ts, rfl⟩ := List.exists_cons_of_ne_nil h.nonempty
    rw [List.getLast?_cons_cons] at hu
    exact h.ends u hu
  chain := List.isChain_cons.mpr ⟨hfollows, h.chain⟩
  known := List.forall_mem_cons.mpr ⟨hknown, h.known⟩

theorem sign (h : Phrase statement ts) (hopener : t ∈ openers) (hopening : t ∈ openings statement) :
    Phrase statement (t :: ts) :=
  h.cons (.inr hopening) (.inr (List.mem_append_left _ (List.mem_append_left _ hopener)))
    fun u hu => .inl ⟨hopener, h.opens u hu⟩

theorem operator (h : Phrase statement ts) (h' : Phrase statement ts') (hopener : t ∈ openers)
    (hcloser : t ∈ closers) : Phrase statement (ts ++ t :: ts') where
  nonempty := List.append_ne_nil_of_left_ne_nil h.nonempty _
  opens u hu := by
    obtain ⟨v, ts, rfl⟩ := List.exists_cons_of_ne_nil h.nonempty
    exact h.opens u hu
  ends u hu := by
    obtain ⟨v, ts', rfl⟩ := List.exists_cons_of_ne_nil h'.nonempty
    rw [List.getLast?_append_cons, List.getLast?_cons_cons] at hu
    exact h'.ends u hu
  chain := by
    refine h.chain.append (List.isChain_cons.mpr ⟨fun u hu => .inl ⟨hopener, h'.opens u hu⟩,
      h'.chain⟩) fun u hu v hv => ?_
    cases hv
    exact .inr (.inl ⟨h.ends u hu, hcloser⟩)
  known := List.forall_mem_append.mpr ⟨h.known, List.forall_mem_cons.mpr
    ⟨.inr (List.mem_append_left _ (List.mem_append_left _ hopener)), h'.known⟩⟩

theorem group (h : Phrase statement ts) : Phrase statement (['('] :: (ts ++ [[')']])) where
  nonempty := List.cons_ne_nil _ _
  opens _ hu := Option.some.inj hu ▸ .inr (List.mem_append_left _ (by decide))
  ends u hu := by
    rw [← List.cons_append, List.getLast?_concat] at hu
    exact Option.some.inj hu ▸ .inr rfl
  chain := by
    have hopen : Phrase statement (['('] :: ts) :=
      h.sign (by decide) (List.mem_append_left _ (by decide))
    rw [← List.cons_append]
    refine hopen.chain.append (.singleton _) fun u hu v hv => ?_
    cases hv
    exact .inr (.inl ⟨hopen.ends u hu, by decide⟩)
  known := List.forall_mem_cons.mpr ⟨.inr (List.mem_append_left _ (by decide)),
    List.forall_mem_append.mpr ⟨h.known, List.forall_mem_cons.mpr
      ⟨.inr (List.mem_append_left _ (by decide)), fun _ hu => absurd hu List.not_mem_nil⟩⟩⟩

theorem call (h : Phrase statement ts) (ht : t ∈ callable statement) :
    Phrase statement (t :: ['('] :: (ts ++ [[')']])) := by
  refine h.group.cons (.inr (List.mem_append_right _ ht)) (.inr (List.mem_append_right _ ht)) ?_
  intro u hu
  cases hu
  exact .inr (.inr ⟨ht, rfl⟩)

end Phrase

/-! ## In JavaScript -/

def jsTokens (t : Text) : List Text :=
  if t = "abs".toList then ["Math", ".", "abs"].map String.toList
  else if t = "int".toList then ["Math", ".", "trunc"].map String.toList
  else [renameWord t]

def lex (ts : List Text) : List JavaScript.Token := (ts.flatMap jsTokens).map JavaScript.classify

theorem lex_append (ts ts' : List Text) : lex (ts ++ ts') = lex ts ++ lex ts' := by
  rw [lex, List.flatMap_append, List.map_append]
  rfl

theorem lex_cons (t : Text) (ts : List Text) : lex (t :: ts) = lex [t] ++ lex ts :=
  lex_append [t] ts

theorem Atom.rename (h : Atom t) : renameWord t = t :=
  renameWord_of_notMem fun hmem => h.2 (List.mem_append_left _ hmem)

theorem Atom.jsTokens (h : Atom t) : jsTokens t = [t] := by
  have hne : ∀ w ∈ Python.functions, t ≠ w := fun w hw heq =>
    h.2 (heq ▸ List.mem_append_right _ hw)
  rw [Expressions.jsTokens, if_neg (hne _ (by decide)), if_neg (hne _ (by decide)), h.rename]

end VidhiArena.Browser.Expressions
