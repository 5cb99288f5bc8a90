import VidhiArena.Browser.Phrases

/-!
# Expressions in the browser

What JavaScript computes from the text that the transpiler makes of an expression. The
replacements change words, and nothing about how operators group: the text means the same
only where Python and JavaScript group alike.

An expression is portable if it has no `//` (a comment in JavaScript), no chain of
comparisons, no operator under a `not` but signs and other `not`s, no `abs` and `int` in a
condition, and only names and literals that JavaScript has, too. A call of `min` or `max` is
one only where JavaScript has such functions.
-/

namespace VidhiArena.Browser.Python

open Foundation Foundation.BracedLines Transpile Expressions
open scoped JavaScript

variable {c : Level} {statement extrema : Bool}

/-! ## Portable expressions -/

/-- A literal without an underscore behind its leading zero, or behind the letter of its radix. -/
def Literal.shared (l : Literal) : Bool :=
  match l.text with
  | '0' :: c :: t => if (radixOf c).isSome then t.head? ≠ some '_' else '_' ∉ c :: t
  | _ => true

/-- No operator stands outside of parentheses, but signs and `not`. -/
def Expr.tight : {c : Level} → Expr c → Bool
  | _, .literal _ | _, .name _ | _, .field _ | _, .group _ | _, .call _ _ | _, .extremum _ _ => true
  | _, .lift _ e => e.tight
  | _, .sign _ e => e.tight
  | _, .not e => e.tight
  | _, .mul _ _ | _, .floordiv _ _ | _, .sum _ _ _ | _, .compare _ _ => false
  | _, .and _ _ | _, .or _ _ => false

mutual

/-- In a statement or in a condition; `extrema` if `min` and `max` are bound. -/
def Expr.portable (statement extrema : Bool) : {c : Level} → Expr c → Bool
  | _, .literal l => l.shared
  | _, .name x => x.text ∉ JavaScript.reserved ∧ x.text ∉ JavaScript.fixed
  | _, .field x => x.text ≠ "__proto__".toList
  | _, .group e => e.portable statement extrema
  | _, .call _ e => statement && e.portable statement extrema
  | _, .extremum _ args => extrema && args.portable statement extrema
  | _, .lift _ e => e.portable statement extrema
  | _, .sign _ e => e.portable statement extrema
  | _, .mul e e' => e.portable statement extrema && e'.portable statement extrema
  | _, .floordiv _ _ => false
  | _, .sum e _ e' => e.portable statement extrema && e'.portable statement extrema
  | _, .compare e links => e.portable statement extrema && links.portable statement extrema
  | _, .not e => e.tight && e.portable statement extrema
  | _, .and e e' => e.portable statement extrema && e'.portable statement extrema
  | _, .or e e' => e.portable statement extrema && e'.portable statement extrema

def Links.portable (statement extrema : Bool) : Links → Bool
  | .last _ e => e.portable statement extrema
  | .more _ _ _ => false

def Arguments.portable (statement extrema : Bool) : Arguments → Bool
  | .pair e e' => e.portable statement extrema && e'.portable statement extrema
  | .more e args => e.portable statement extrema && args.portable statement extrema

end

/-! ## Tokens -/

theorem Name.atom (x : Name) : Atom x.text := by
  refine ⟨⟨fun hnil => ?_, x.wordly⟩, fun hmem => ?_⟩
  · have hfirst := x.first
    rw [hnil] at hfirst
    cases hfirst
  · rcases List.mem_append.mp hmem with hmem | hmem
    · have hall : ∀ w ∈ renamed.map fun r => r.1.toList, w ∈ reserved := by decide
      exact x.free (hall _ hmem)
    · exact x.notFunction hmem

theorem atom_stateName : Atom stateName := ⟨by decide, by decide⟩

theorem Literal.head (l : Literal) : l.text.head?.any Char.isDigit = true :=
  (intLiteral_wordly l.reads).2

theorem Literal.atom (l : Literal) : Atom l.text := by
  have hhead := l.head
  refine ⟨⟨fun hnil => ?_, (intLiteral_wordly l.reads).1⟩, fun hmem => ?_⟩
  · rw [hnil] at hhead
    cases hhead
  · have hall : ∀ w ∈ special, w.head?.any Char.isDigit = false := by decide
    rw [hall _ hmem] at hhead
    cases hhead

theorem Function.mem_callable (h : statement = true) (f : Function) :
    f.token ∈ callable statement := by
  subst h
  cases f <;> decide

theorem Extremum.mem_callable (f : Extremum) : f.token ∈ callable statement := by
  cases f <;> cases statement <;> decide

theorem Comparison.operator (op : Comparison) : op.token ∈ openers ∧ op.token ∈ closers := by
  cases op <;> decide

theorem Sign.operator (s : Sign) : s.token ∈ openers ∧ s.token ∈ closers := by
  cases s <;> decide

mutual

theorem Expr.phrase : ∀ {c : Level} (e : Expr c), e.portable statement extrema = true →
    Phrase statement e.tokens
  | _, .literal l, _ => .atom l.atom
  | _, .name x, _ => .atom x.atom
  | _, .field x, _ => (Phrase.atom atom_stateName).operator (.atom x.atom) (by decide) (by decide)
  | _, .group e, h => (e.phrase h).group
  | _, .call f e, h =>
      have h := Bool.and_eq_true_iff.mp h
      (e.phrase h.2).call (f.mem_callable h.1)
  | _, .extremum f args, h => (args.phrase (Bool.and_eq_true_iff.mp h).2).call f.mem_callable
  | _, .lift _ e, h => e.phrase h
  | _, .sign s e, h =>
      (e.phrase h).sign s.operator.1 (List.mem_append_left _ (by cases s <;> decide))
  | _, .mul e e', h =>
      have h := Bool.and_eq_true_iff.mp h
      (e.phrase h.1).operator (e'.phrase h.2) (by decide) (by decide)
  | _, .sum e s e', h =>
      have h := Bool.and_eq_true_iff.mp h
      (e.phrase h.1).operator (e'.phrase h.2) s.operator.1 s.operator.2
  | _, .compare e (.last op e'), h =>
      have h := Bool.and_eq_true_iff.mp h
      (e.phrase h.1).operator (e'.phrase h.2) op.operator.1 op.operator.2
  | _, .not e, h =>
      (e.phrase (Bool.and_eq_true_iff.mp h).2).sign (by decide)
        (List.mem_append_left _ (by decide))
  | _, .and e e', h =>
      have h := Bool.and_eq_true_iff.mp h
      (e.phrase h.1).operator (e'.phrase h.2) (by decide) (by decide)
  | _, .or e e', h =>
      have h := Bool.and_eq_true_iff.mp h
      (e.phrase h.1).operator (e'.phrase h.2) (by decide) (by decide)
  | _, .floordiv _ _, h => absurd h Bool.false_ne_true
  | _, .compare _ (.more _ _ _), h => absurd (Bool.and_eq_true_iff.mp h).2 Bool.false_ne_true

theorem Arguments.phrase : ∀ args : Arguments, args.portable statement extrema = true →
    Phrase statement args.tokens
  | .pair e e', h =>
      have h := Bool.and_eq_true_iff.mp h
      (e.phrase h.1).operator (e'.phrase h.2) (by decide) (by decide)
  | .more e args, h =>
      have h := Bool.and_eq_true_iff.mp h
      (e.phrase h.1).operator (args.phrase h.2) (by decide) (by decide)

end

/-! ## Literals and names in JavaScript -/

theorem digits_zeros {radix : Nat} (hradix : 1 ≤ radix) {c : Char} {t : Text}
    (h : ∀ u ∈ c :: t, u = '0') : digits radix (c :: t) = some 0 := by
  obtain ⟨rfl, ht⟩ := List.forall_mem_cons.mp h
  have hdigit : digit? radix '0' = some 0 := if_pos hradix
  rw [digits, hdigit]
  exact digitsFrom_zeros hradix ht

theorem Literal.numeric {l : Literal} (h : l.shared = true) :
    JavaScript.numericLiteral l.text = some l.value := by
  have hreads := l.reads
  unfold Literal.shared at h
  unfold intLiteral at hreads
  unfold JavaScript.numericLiteral
  split
  · next c t heq =>
      simp only [heq] at h hreads
      cases hradix : radixOf c with
      | some radix =>
          rw [hradix] at h hreads
          rw [Option.isSome_some, if_pos rfl, decide_eq_true_eq] at h
          rw [if_neg h] at hreads
          exact hreads
      | none =>
          rw [hradix] at h hreads
          obtain ⟨hdigits, hvalue⟩ := Option.filter_eq_some_iff.mp hreads
          rw [of_decide_eq_true hvalue] at hdigits ⊢
          have hzeros := all_zero_of_digits hdigits (of_decide_eq_true h)
          have hall : (c :: t).all Char.isDigit = true :=
            List.all_eq_true.mpr fun u hu => hzeros u hu ▸ rfl
          dsimp only
          rw [if_pos hall]
          split
          · exact digits_zeros (by decide) hzeros
          · exact digits_zeros (by decide) hzeros
  · next hplain =>
      split at hreads
      · next c t heq => exact absurd heq (hplain c t)
      · exact hreads

theorem Literal.lex {l : Literal} (h : l.shared = true) :
    Expressions.lex [l.text] = [.number l.value] := by
  rw [Expressions.lex, List.flatMap_singleton, l.atom.jsTokens, List.map_singleton,
    JavaScript.classify, if_pos l.head, l.numeric h]
  rfl

theorem Name.lex (x : Name) : Expressions.lex [x.text] = [.name x.text] := by
  have hfirst := x.first
  have hword := x.atom.1.2
  rw [Expressions.lex, List.flatMap_singleton, x.atom.jsTokens, List.map_singleton,
    JavaScript.classify]
  cases htext : x.text with
  | nil =>
      rw [htext] at hfirst
      cases hfirst
  | cons c t =>
      rw [htext, List.head?_cons, Option.any_some, Bool.not_eq_true'] at hfirst
      rw [htext, List.all_cons, Bool.and_eq_true] at hword
      rw [List.head?_cons, Option.any_some, Option.any_some, hfirst, hword.1]
      rfl

/-! ## The expression that JavaScript reads -/

def Sign.unary : Sign → JavaScript.Unary
  | plus => .plus
  | minus => .minus

def Sign.binary : Sign → JavaScript.Binary
  | plus => .add
  | minus => .sub

def Comparison.binary : Comparison → JavaScript.Binary
  | eq => .eq
  | ne => .ne
  | lt => .lt
  | le => .le
  | gt => .gt
  | ge => .ge

/-- The method of `Math`. -/
def Function.method : Function → Text
  | abs => "abs".toList
  | int => "trunc".toList

mutual

/-- The same expression in JavaScript; what is behind `//` is a comment, and a chain of
comparisons groups to the left. -/
def Expr.image : {c : Level} → Expr c → JavaScript.Expr
  | _, .literal l => .number l.value
  | _, .name x => .name x.text
  | _, .field x => .member stateName x.text
  | _, .group e => e.image
  | _, .call f e => .call ["Math".toList, f.method] [e.image]
  | _, .extremum f args => .call [f.token] args.images
  | _, .lift _ e => e.image
  | _, .sign s e => .unary s.unary e.image
  | _, .mul e e' => .binary .mul e.image e'.image
  | _, .floordiv e _ => e.image
  | _, .sum e s e' => .binary s.binary e.image e'.image
  | _, .compare e links => links.image e.image
  | _, .not e => .unary .not e.image
  | _, .and e e' => .binary .and e.image e'.image
  | _, .or e e' => .binary .or e.image e'.image

def Links.image : Links → JavaScript.Expr → JavaScript.Expr
  | .last op e, l => .binary op.binary l e.image
  | .more op e links, l => links.image (.binary op.binary l e.image)

def Arguments.images : Arguments → List JavaScript.Expr
  | .pair e e' => [e.image, e'.image]
  | .more e args => e.image :: args.images

end

/-- How tightly the operators of a level bind in JavaScript. -/
def Level.binding : Level → Nat
  | comparison => 3
  | c => c.rank

theorem Level.binding_mono {c d : Level} (h : d.rank ≤ c.rank) : d.binding ≤ c.binding := by
  cases c <;> cases d <;> first | decide | exact absurd h (by decide)

theorem Expr.tight_of_factor : ∀ {c : Level} (e : Expr c), 7 ≤ c.rank → e.tight = true
  | _, .literal _, _ | _, .name _, _ | _, .field _, _ | _, .group _, _ | _, .call _ _, _ => rfl
  | _, .extremum _ _, _ => rfl
  | _, .lift hle e, h => e.tight_of_factor (h.trans hle)
  | _, .sign _ e, _ => e.tight_of_factor (by decide)

/-! ## Reading -/

open JavaScript (grammar)

section

variable {ts ts' : List Text}

theorem lex_group (ts : List Text) :
    Expressions.lex (['('] :: (ts ++ [[')']])) =
      .leftParen :: (Expressions.lex ts ++ [.rightParen]) := by
  rw [lex_cons, lex_append]
  rfl

theorem lex_operator {t : Text} {op : JavaScript.Binary}
    (ht : Expressions.lex [t] = [.binary op]) (ts ts' : List Text) :
    Expressions.lex (ts ++ t :: ts') =
      Expressions.lex ts ++ .binary op :: Expressions.lex ts' := by
  rw [lex_append, lex_cons, ht]
  rfl

theorem Sign.lex (s : Sign) : Expressions.lex [s.token] = [.binary s.binary] := by
  cases s <;> rfl

theorem Comparison.lex (op : Comparison) : Expressions.lex [op.token] = [.binary op.binary] := by
  cases op <;> rfl

theorem Function.lex (f : Function) (ts : List Text) :
    Expressions.lex (f.token :: ts) =
      .name "Math".toList :: .dot :: .name f.method :: Expressions.lex ts := by
  rw [lex_cons]
  cases f <;> rfl

theorem Extremum.lex (f : Extremum) (ts : List Text) :
    Expressions.lex (f.token :: ts) = .name f.token :: Expressions.lex ts := by
  rw [lex_cons]
  cases f <;> rfl

theorem lex_member (x : Name) :
    Expressions.lex [stateName, ['.'], x.text] = [.name stateName, .dot, .name x.text] := by
  rw [lex_cons, lex_cons ['.'], x.lex]
  rfl

theorem lex_comma (ts ts' : List Text) :
    Expressions.lex (ts ++ [','] :: ts') = Expressions.lex ts ++ .comma :: Expressions.lex ts' := by
  rw [lex_append, lex_cons]
  rfl

end

theorem operand_reads {ts : List JavaScript.Token} {e : JavaScript.Expr} {p : Prop}
    (h : grammar.IsOperand ts e) (k : Nat) : (p → grammar.IsOperand ts e) ∧ grammar.Reads k ts e :=
  ⟨fun _ => h, h.reads k⟩

/-- An operator between two phrases that bind tightly enough for it. -/
theorem operator_reads {t : Text} {op : JavaScript.Binary} {ts ts' : List Text}
    {e e' : JavaScript.Expr} {k j j' : Nat} (ht : lex [t] = [.binary op])
    (h : grammar.Reads j (lex ts) e) (h' : grammar.Reads j' (lex ts') e')
    (hk : k ≤ op.precedence) (hj : op.precedence ≤ j) (hj' : op.precedence < j') :
    (false = true → grammar.IsOperand (lex (ts ++ t :: ts')) (.binary op e e')) ∧
      grammar.Reads k (lex (ts ++ t :: ts')) (.binary op e e') := by
  refine ⟨fun htight => absurd htight Bool.false_ne_true, ?_⟩
  rw [lex_operator ht]
  exact JavaScript.reads_binary h h' hk hj hj'

mutual

theorem Expr.reads : ∀ {c : Level} (e : Expr c), e.portable statement extrema = true →
    (e.tight = true → grammar.IsOperand (lex e.tokens) e.image) ∧
      grammar.Reads c.binding (lex e.tokens) e.image
  | _, .literal l, h => by
      have hlex : lex (Expr.literal l).tokens = [.number l.value] := l.lex h
      rw [hlex]
      exact operand_reads (JavaScript.isOperand_number l.value) _
  | _, .name x, h => by
      have hlex : lex (Expr.name x).tokens = [.name x.text] := x.lex
      rw [hlex]
      exact operand_reads (JavaScript.isOperand_name (of_decide_eq_true h).1) _
  | _, .field x, _ => by
      have hlex : lex (Expr.field x).tokens = [.name stateName, .dot, .name x.text] := lex_member x
      rw [hlex]
      exact operand_reads (JavaScript.isOperand_member (by decide) x.text) _
  | _, .group e, h => by
      have hread := (Expr.reads e h).2
      have hlex : lex (Expr.group e).tokens = .leftParen :: (lex e.tokens ++ [.rightParen]) :=
        lex_group e.tokens
      rw [hlex]
      exact operand_reads (JavaScript.isOperand_group hread) _
  | _, .call f e, h => by
      have hread := (Expr.reads e (Bool.and_eq_true_iff.mp h).2).2
      rw [Expr.tokens, f.lex, lex_group]
      exact operand_reads (JavaScript.isOperand_method (JavaScript.isArguments_one hread)
        (by decide) f.method) _
  | _, .extremum f args, h => by
      have hread := Arguments.reads args (Bool.and_eq_true_iff.mp h).2
      rw [Expr.tokens, f.lex, lex_group]
      exact operand_reads (JavaScript.isOperand_call hread (by cases f <;> decide)) _
  | _, .lift hle e, h => by
      obtain ⟨hoperand, hread⟩ := Expr.reads e h
      exact ⟨hoperand, hread.mono (Level.binding_mono hle)⟩
  | _, .sign s e, h => by
      have hoperand := (Expr.reads e h).1 (e.tight_of_factor (by decide))
      have hlex : lex (Expr.sign s e).tokens = .binary s.binary :: lex e.tokens := by
        rw [Expr.tokens, lex_cons, s.lex]
        rfl
      rw [hlex]
      cases s with
      | plus => exact operand_reads (JavaScript.isOperand_plus hoperand) _
      | minus => exact operand_reads (JavaScript.isOperand_minus hoperand) _
  | _, .mul e e', h => by
      obtain ⟨he, he'⟩ := Bool.and_eq_true_iff.mp h
      exact operator_reads rfl (Expr.reads e he).2 (Expr.reads e' he').2 (by decide)
        (by decide) (by decide)
  | _, .sum e s e', h => by
      obtain ⟨he, he'⟩ := Bool.and_eq_true_iff.mp h
      exact operator_reads s.lex (Expr.reads e he).2 (Expr.reads e' he').2
        (by cases s <;> decide) (by cases s <;> decide) (by cases s <;> decide)
  | _, .compare e (.last op e'), h => by
      obtain ⟨he, he'⟩ := Bool.and_eq_true_iff.mp h
      exact operator_reads op.lex (Expr.reads e he).2 (Expr.reads e' he').2
        (by cases op <;> decide) (by cases op <;> decide) (by cases op <;> decide)
  | _, .not e, h => by
      obtain ⟨htight, he⟩ := Bool.and_eq_true_iff.mp h
      have hlex : lex (Expr.not e).tokens = .bang :: lex e.tokens := by
        rw [Expr.tokens, lex_cons]
        rfl
      rw [hlex]
      exact operand_reads (JavaScript.isOperand_not ((Expr.reads e he).1 htight)) _
  | _, .and e e', h => by
      obtain ⟨he, he'⟩ := Bool.and_eq_true_iff.mp h
      exact operator_reads rfl (Expr.reads e he).2 (Expr.reads e' he').2 (by decide)
        (by decide) (by decide)
  | _, .or e e', h => by
      obtain ⟨he, he'⟩ := Bool.and_eq_true_iff.mp h
      exact operator_reads rfl (Expr.reads e he).2 (Expr.reads e' he').2 (by decide)
        (by decide) (by decide)
  | _, .floordiv _ _, h => absurd h Bool.false_ne_true
  | _, .compare _ (.more _ _ _), h => absurd (Bool.and_eq_true_iff.mp h).2 Bool.false_ne_true

theorem Arguments.reads : ∀ args : Arguments, args.portable statement extrema = true →
    JavaScript.IsArguments (lex args.tokens) args.images
  | .pair e e', h => by
      obtain ⟨he, he'⟩ := Bool.and_eq_true_iff.mp h
      rw [Arguments.tokens, lex_comma]
      exact JavaScript.isArguments_cons (Expr.reads e he).2
        (JavaScript.isArguments_one (Expr.reads e' he').2)
  | .more e args, h => by
      obtain ⟨he, hargs⟩ := Bool.and_eq_true_iff.mp h
      rw [Arguments.tokens, lex_comma]
      exact JavaScript.isArguments_cons (Expr.reads e he).2 (Arguments.reads args hargs)

end

/-! ## Evaluation -/

open JavaScript.Number

/-- The integer is a double, if there is one. -/
def fits (v : Option Value) : Bool := v.all fun v => JavaScript.isDouble v.toInt

mutual

/-- The integers that the evaluation meets are doubles. -/
def Expr.doubles (ρ : Text → Int) : {c : Level} → Expr c → Bool
  | _, .literal l => JavaScript.isDouble l.value
  | _, .name x => JavaScript.isDouble (ρ x.text)
  | _, .field x => JavaScript.isDouble (ρ (fieldName x.text))
  | _, .group e => e.doubles ρ
  | _, .call _ e => e.doubles ρ
  | _, .extremum _ args => args.doubles ρ
  | _, .lift _ e => e.doubles ρ
  | _, .sign _ e => e.doubles ρ
  | _, .mul e e' => e.doubles ρ && e'.doubles ρ && fits ((Expr.mul e e').eval ρ)
  | _, .floordiv e e' => e.doubles ρ && e'.doubles ρ && fits ((Expr.floordiv e e').eval ρ)
  | _, .sum e s e' => e.doubles ρ && e'.doubles ρ && fits ((Expr.sum e s e').eval ρ)
  | _, .compare e links => e.doubles ρ && links.doubles ρ
  | _, .not e => e.doubles ρ
  | _, .and e e' => e.doubles ρ && ((e.eval ρ).all (!·.truth) || e'.doubles ρ)
  | _, .or e e' => e.doubles ρ && ((e.eval ρ).all (·.truth) || e'.doubles ρ)

def Links.doubles (ρ : Text → Int) : Links → Bool
  | .last _ e => e.doubles ρ
  | .more _ e links => e.doubles ρ && links.doubles ρ

def Arguments.doubles (ρ : Text → Int) : Arguments → Bool
  | .pair e e' => e.doubles ρ && e'.doubles ρ
  | .more e args => e.doubles ρ && args.doubles ρ

end

/-- The same number or truth value; `True` is 1 in both languages. -/
def Same (v : Value) (w : JavaScript.Value) : Prop := w.toNumber = .finite v.toInt

/-- The same variables in JavaScript. -/
def numbers (ρ : Text → Int) (x : Text) : JavaScript.Number := .finite (ρ x)

section

variable {v v' : Value} {w w' : JavaScript.Value} {scope : JavaScript.Scope}

theorem Same.truthy (h : Same v w) : w.truthy = v.truth := by
  rw [JavaScript.Value.truthy, h, Value.truth]
  simp

theorem same_int {n : Int} (h : JavaScript.isDouble n = true) :
    Same (.int n) (.number (JavaScript.toDouble n)) :=
  JavaScript.toDouble_of_isDouble h

theorem Same.sign (h : Same v w) (s : Sign) :
    Same (.int (s.apply v.toInt)) (s.unary.apply w) := by
  cases s with
  | plus => exact h
  | minus => exact congrArg JavaScript.Number.neg h

theorem Same.not (h : Same v w) : Same (.bool !v.truth) (JavaScript.Unary.not.apply w) := by
  rw [Same, JavaScript.Unary.apply, h.truthy]
  rfl

theorem Same.mul (h : Same v w) (h' : Same v' w')
    (hfits : fits (some (.int (v.toInt * v'.toInt))) = true) :
    Same (.int (v.toInt * v'.toInt)) (JavaScript.Binary.mul.apply w w') := by
  rw [Same, JavaScript.Binary.apply, h, h']
  exact JavaScript.toDouble_of_isDouble hfits

theorem Same.sum (h : Same v w) (h' : Same v' w') {s : Sign}
    (hfits : fits (some (.int (v.toInt + s.apply v'.toInt))) = true) :
    Same (.int (v.toInt + s.apply v'.toInt)) (s.binary.apply w w') := by
  have hdouble := JavaScript.toDouble_of_isDouble hfits
  cases s with
  | plus =>
      rw [Same, Sign.binary, JavaScript.Binary.apply, h, h']
      exact hdouble
  | minus =>
      rw [Same, Sign.binary, JavaScript.Binary.apply, h, h']
      exact hdouble

theorem Same.compare (h : Same v w) (h' : Same v' w') (op : Comparison) :
    Same (.bool (op.test v.toInt v'.toInt)) (op.binary.apply w w') := by
  have hw : w.toNumber = .finite v.toInt := h
  have hw' : w'.toNumber = .finite v'.toInt := h'
  have happly : op.binary.apply w w' = .boolean (op.test v.toInt v'.toInt) := by
    cases op with
    | eq =>
        show JavaScript.Value.boolean (w.toNumber.eq w'.toNumber) = _
        rw [hw, hw', eq_finite]
        rfl
    | ne =>
        show JavaScript.Value.boolean (!w.toNumber.eq w'.toNumber) = _
        rw [hw, hw', eq_finite, ← decide_not]
        rfl
    | lt =>
        show JavaScript.Value.boolean (w.toNumber.lt w'.toNumber) = _
        rw [hw, hw', lt_finite]
        rfl
    | gt =>
        show JavaScript.Value.boolean (w'.toNumber.lt w.toNumber) = _
        rw [hw, hw', lt_finite]
        rfl
    | le =>
        show JavaScript.Value.boolean (w.toNumber.le w'.toNumber) = _
        rw [hw, hw']
        rfl
    | ge =>
        show JavaScript.Value.boolean (w'.toNumber.le w.toNumber) = _
        rw [hw, hw']
        rfl
  rw [happly]
  rfl

theorem Same.call (h : Same v w) (f : Function) :
    ∃ x, scope.callee ["Math".toList, f.method] [w.toNumber] = some x ∧
      Same (f.apply v) (.number x) := by
  cases f with
  | abs => exact ⟨_, rfl, congrArg JavaScript.Number.abs h⟩
  | int => exact ⟨_, rfl, h⟩

/-- The best of these numbers, and of the worst number. -/
def Extremum.fold (f : Extremum) (xs : List JavaScript.Number) : JavaScript.Number :=
  match f with
  | min => xs.foldr JavaScript.Number.min (.infinite false)
  | max => xs.foldr JavaScript.Number.max (.infinite true)

theorem Extremum.fold_cons (f : Extremum) {xs : List JavaScript.Number} (h : Same v w)
    (hxs : f.fold xs = .finite v'.toInt) :
    f.fold (w.toNumber :: xs) = .finite (f.apply v v').toInt := by
  have hw : w.toNumber = .finite v.toInt := h
  cases f with
  | min =>
      have hfold : fold .min (w.toNumber :: xs) = w.toNumber.min (fold .min xs) := rfl
      rw [hfold, hw, hxs, min_finite, apply]
      split
      · rw [if_neg (by omega)]
      · rw [if_pos (by omega)]
  | max =>
      have hfold : fold .max (w.toNumber :: xs) = w.toNumber.max (fold .max xs) := rfl
      rw [hfold, hw, hxs, max_finite, apply]
      split
      · rw [if_neg (by omega)]
      · rw [if_pos (by omega)]

theorem Extremum.fold_singleton (f : Extremum) (h : Same v w) :
    f.fold [w.toNumber] = .finite v.toInt := by
  have hw : w.toNumber = .finite v.toInt := h
  rw [hw]
  cases f <;> rfl

theorem Extremum.callee (f : Extremum) (h : scope.extrema = true) (xs : List JavaScript.Number) :
    scope.callee [f.token] xs = some (f.fold xs) := by
  obtain ⟨numbers, extrema⟩ := scope
  cases h
  cases f <;> rfl

theorem eval_binary {op : JavaScript.Binary} {l r : JavaScript.Expr} (hor : op ≠ .or)
    (hand : op ≠ .and) (hl : l.eval scope = some w) (hr : r.eval scope = some w') :
    (JavaScript.Expr.binary op l r).eval scope = some (op.apply w w') := by
  rw [JavaScript.Expr.eval, hl, Option.bind_some, if_neg, hr]
  · rfl
  · rintro (⟨h, -⟩ | ⟨h, -⟩)
    · exact hor h
    · exact hand h

theorem eval_and {l : JavaScript.Expr} (hl : l.eval scope = some w) (r : JavaScript.Expr) :
    (JavaScript.Expr.binary .and l r).eval scope =
      if w.truthy then r.eval scope else some w := by
  rw [JavaScript.Expr.eval, hl, Option.bind_some]
  cases hw : w.truthy with
  | false => rfl
  | true =>
      have happly : JavaScript.Binary.and.apply w = id := funext fun w' => if_pos hw
      rw [happly]
      exact Option.map_id_apply ..

theorem eval_or {l : JavaScript.Expr} (hl : l.eval scope = some w) (r : JavaScript.Expr) :
    (JavaScript.Expr.binary .or l r).eval scope =
      if w.truthy then some w else r.eval scope := by
  rw [JavaScript.Expr.eval, hl, Option.bind_some]
  cases hw : w.truthy with
  | true => rfl
  | false =>
      have happly : JavaScript.Binary.or.apply w = id :=
        funext fun w' => if_neg (Bool.eq_false_iff.mp hw)
      rw [happly]
      exact Option.map_id_apply ..

/-- The expression has the same value in JavaScript, if all integers on the way are
doubles. -/
def Expr.Valued (extrema : Bool) (ρ : Text → Int) (e : Expr c) : Prop :=
  e.doubles ρ = true → ∀ v, e.eval ρ = some v →
    ∃ w, e.image.eval ⟨numbers ρ, extrema⟩ = some w ∧ Same v w

namespace Expr.Valued

variable {ρ : Text → Int}

theorem call (f : Function) {e} (h : Expr.Valued extrema ρ e) :
    (Expr.call f e).Valued extrema ρ := by
  intro hdoubles v hv
  obtain ⟨u, hu, rfl⟩ := Option.map_eq_some_iff.mp hv
  obtain ⟨w, hw, hsame⟩ := h hdoubles u hu
  obtain ⟨x, hx, hcall⟩ := hsame.call f
  refine ⟨.number x, ?_, hcall⟩
  rw [Expr.image, JavaScript.Expr.eval, JavaScript.evalAll, hw, Option.bind_some,
    JavaScript.evalAll, Option.map_some, Option.bind_some, List.map_singleton, hx]
  rfl

theorem sign (s : Sign) {e} (h : Expr.Valued extrema ρ e) :
    (Expr.sign s e).Valued extrema ρ := by
  intro hdoubles v hv
  obtain ⟨u, hu, rfl⟩ := Option.map_eq_some_iff.mp hv
  obtain ⟨w, hw, hsame⟩ := h hdoubles u hu
  refine ⟨_, ?_, hsame.sign s⟩
  rw [Expr.image, JavaScript.Expr.eval, hw]
  rfl

theorem not {e} (h : Expr.Valued extrema ρ e) : (Expr.not e).Valued extrema ρ := by
  intro hdoubles v hv
  obtain ⟨u, hu, rfl⟩ := Option.map_eq_some_iff.mp hv
  obtain ⟨w, hw, hsame⟩ := h hdoubles u hu
  refine ⟨_, ?_, hsame.not⟩
  rw [Expr.image, JavaScript.Expr.eval, hw]
  rfl

theorem mul {e e'} (h : Expr.Valued extrema ρ e) (h' : Expr.Valued extrema ρ e') :
    (Expr.mul e e').Valued extrema ρ := by
  intro hdoubles v hv
  obtain ⟨hd, hfits⟩ := Bool.and_eq_true_iff.mp hdoubles
  obtain ⟨hd, hd'⟩ := Bool.and_eq_true_iff.mp hd
  -- the product is a double, as `doubles` asks
  rw [hv] at hfits
  obtain ⟨u, hu, hv⟩ := Option.bind_eq_some_iff.mp hv
  obtain ⟨u', hu', hv⟩ := Option.bind_eq_some_iff.mp hv
  cases hv
  obtain ⟨w, hw, hsame⟩ := h hd u hu
  obtain ⟨w', hw', hsame'⟩ := h' hd' u' hu'
  exact ⟨_, eval_binary (by decide) (by decide) hw hw', hsame.mul hsame' hfits⟩

theorem sum (s : Sign) {e e'} (h : Expr.Valued extrema ρ e)
    (h' : Expr.Valued extrema ρ e') : (Expr.sum e s e').Valued extrema ρ := by
  intro hdoubles v hv
  obtain ⟨hd, hfits⟩ := Bool.and_eq_true_iff.mp hdoubles
  obtain ⟨hd, hd'⟩ := Bool.and_eq_true_iff.mp hd
  rw [hv] at hfits
  obtain ⟨u, hu, hv⟩ := Option.bind_eq_some_iff.mp hv
  obtain ⟨u', hu', hv⟩ := Option.bind_eq_some_iff.mp hv
  cases hv
  obtain ⟨w, hw, hsame⟩ := h hd u hu
  obtain ⟨w', hw', hsame'⟩ := h' hd' u' hu'
  exact ⟨_, eval_binary (by cases s <;> decide) (by cases s <;> decide) hw hw',
    hsame.sum hsame' hfits⟩

theorem compare (op : Comparison) {e e'} (h : Expr.Valued extrema ρ e)
    (h' : Expr.Valued extrema ρ e') : (Expr.compare e (.last op e')).Valued extrema ρ := by
  intro hdoubles v hv
  obtain ⟨hd, hd'⟩ := Bool.and_eq_true_iff.mp hdoubles
  obtain ⟨u, hu, hv⟩ := Option.bind_eq_some_iff.mp hv
  obtain ⟨u', hu', hv⟩ := Option.bind_eq_some_iff.mp hv
  cases hv
  obtain ⟨w, hw, hsame⟩ := h hd u hu
  obtain ⟨w', hw', hsame'⟩ := h' hd' u' hu'
  exact ⟨_, eval_binary (by cases op <;> decide) (by cases op <;> decide) hw hw',
    hsame.compare hsame' op⟩

/-- The right operand counts only behind a true one. -/
theorem and {e e'} (h : Expr.Valued extrema ρ e) (h' : Expr.Valued extrema ρ e') :
    (Expr.and e e').Valued extrema ρ := by
  intro hdoubles v hv
  obtain ⟨hd, hd'⟩ := Bool.and_eq_true_iff.mp hdoubles
  obtain ⟨u, hu, hv⟩ := Option.bind_eq_some_iff.mp hv
  obtain ⟨w, hw, hsame⟩ := h hd u hu
  have heval := eval_and hw e'.image
  -- both languages look at the same truth value
  rw [hsame.truthy] at heval
  rw [hu] at hd'
  split at hv
  · next htruth =>
      rw [if_pos htruth] at heval
      have hd' : e'.doubles ρ = true :=
        (Bool.or_eq_true_iff.mp hd').resolve_left (by simp [htruth])
      obtain ⟨w', hw', hsame'⟩ := h' hd' v hv
      exact ⟨w', heval.trans hw', hsame'⟩
  · next htruth =>
      cases hv
      exact ⟨w, heval.trans (if_neg htruth), hsame⟩

/-- The right operand counts only behind a false one. -/
theorem or {e e'} (h : Expr.Valued extrema ρ e) (h' : Expr.Valued extrema ρ e') :
    (Expr.or e e').Valued extrema ρ := by
  intro hdoubles v hv
  obtain ⟨hd, hd'⟩ := Bool.and_eq_true_iff.mp hdoubles
  obtain ⟨u, hu, hv⟩ := Option.bind_eq_some_iff.mp hv
  obtain ⟨w, hw, hsame⟩ := h hd u hu
  have heval := eval_or hw e'.image
  rw [hsame.truthy] at heval
  rw [hu] at hd'
  split at hv
  · next htruth =>
      cases hv
      exact ⟨w, heval.trans (if_pos htruth), hsame⟩
  · next htruth =>
      rw [if_neg htruth] at heval
      have hd' : e'.doubles ρ = true :=
        (Bool.or_eq_true_iff.mp hd').resolve_left (by simp [htruth])
      obtain ⟨w', hw', hsame'⟩ := h' hd' v hv
      exact ⟨w', heval.trans hw', hsame'⟩

end Expr.Valued

end

mutual

/-- A portable expression has the same value in JavaScript, if all integers on the way are
doubles. -/
theorem Expr.value (ρ : Text → Int) : ∀ {c : Level} (e : Expr c),
    e.portable statement extrema = true → e.doubles ρ = true → ∀ v, e.eval ρ = some v →
      ∃ w, e.image.eval ⟨numbers ρ, extrema⟩ = some w ∧ Same v w
  | _, .literal l, _, hdoubles, v, hv => by
      cases hv
      exact ⟨_, rfl, same_int hdoubles⟩
  | _, .name x, hportable, hdoubles, v, hv => by
      cases hv
      have hfree := (of_decide_eq_true hportable).2
      refine ⟨.number (.finite (ρ x.text)), ?_, rfl⟩
      rw [Expr.image, JavaScript.Expr.eval, JavaScript.Scope.name, if_neg hfree]
      rfl
  | _, .field x, hportable, hdoubles, v, hv => by
      cases hv
      refine ⟨.number (.finite (ρ (fieldName x.text))), ?_, rfl⟩
      rw [Expr.image, JavaScript.Expr.eval, JavaScript.Scope.member,
        if_pos ⟨by decide, of_decide_eq_true hportable⟩]
      rfl
  | _, .group e, hportable, hdoubles, v, hv => Expr.value ρ e hportable hdoubles v hv
  | _, .call f e, hportable, hdoubles, v, hv =>
      Expr.Valued.call f (Expr.value ρ e (Bool.and_eq_true_iff.mp hportable).2) hdoubles v hv
  | _, .extremum f args, hportable, hdoubles, v, hv => by
      obtain ⟨hextrema, hargs⟩ := Bool.and_eq_true_iff.mp hportable
      obtain ⟨ws, hws, hfold⟩ := Arguments.value ρ args hargs hdoubles f v hv
      refine ⟨.number (f.fold (ws.map JavaScript.Value.toNumber)), ?_, hfold⟩
      rw [Expr.image, JavaScript.Expr.eval, hws, Option.bind_some, f.callee hextrema]
      rfl
  | _, .lift _ e, hportable, hdoubles, v, hv => Expr.value ρ e hportable hdoubles v hv
  | _, .sign s e, hportable, hdoubles, v, hv =>
      Expr.Valued.sign s (Expr.value ρ e hportable) hdoubles v hv
  | _, .mul e e', hportable, hdoubles, v, hv => by
      obtain ⟨he, he'⟩ := Bool.and_eq_true_iff.mp hportable
      exact Expr.Valued.mul (Expr.value ρ e he) (Expr.value ρ e' he') hdoubles v hv
  | _, .sum e s e', hportable, hdoubles, v, hv => by
      obtain ⟨he, he'⟩ := Bool.and_eq_true_iff.mp hportable
      exact Expr.Valued.sum s (Expr.value ρ e he) (Expr.value ρ e' he') hdoubles v hv
  | _, .compare e (.last op e'), hportable, hdoubles, v, hv => by
      obtain ⟨he, he'⟩ := Bool.and_eq_true_iff.mp hportable
      exact Expr.Valued.compare op (Expr.value ρ e he) (Expr.value ρ e' he') hdoubles v hv
  | _, .not e, hportable, hdoubles, v, hv =>
      Expr.Valued.not (Expr.value ρ e (Bool.and_eq_true_iff.mp hportable).2) hdoubles v hv
  | _, .and e e', hportable, hdoubles, v, hv => by
      obtain ⟨he, he'⟩ := Bool.and_eq_true_iff.mp hportable
      exact Expr.Valued.and (Expr.value ρ e he) (Expr.value ρ e' he') hdoubles v hv
  | _, .or e e', hportable, hdoubles, v, hv => by
      obtain ⟨he, he'⟩ := Bool.and_eq_true_iff.mp hportable
      exact Expr.Valued.or (Expr.value ρ e he) (Expr.value ρ e' he') hdoubles v hv
  | _, .floordiv _ _, hportable, _, _, _ => absurd hportable Bool.false_ne_true
  | _, .compare _ (.more _ _ _), hportable, _, _, _ =>
      absurd (Bool.and_eq_true_iff.mp hportable).2 Bool.false_ne_true

theorem Arguments.value (ρ : Text → Int) : ∀ args : Arguments,
    args.portable statement extrema = true → args.doubles ρ = true →
    ∀ (f : Extremum) v, args.eval ρ f = some v →
      ∃ ws, JavaScript.evalAll ⟨numbers ρ, extrema⟩ args.images = some ws ∧
        f.fold (ws.map JavaScript.Value.toNumber) = .finite v.toInt
  | .pair e e', hportable, hdoubles, f, v, hv => by
      obtain ⟨he, he'⟩ := Bool.and_eq_true_iff.mp hportable
      obtain ⟨hd, hd'⟩ := Bool.and_eq_true_iff.mp hdoubles
      obtain ⟨u, hu, hv⟩ := Option.bind_eq_some_iff.mp hv
      obtain ⟨u', hu', hv⟩ := Option.bind_eq_some_iff.mp hv
      cases hv
      obtain ⟨w, hw, hsame⟩ := Expr.value ρ e he hd u hu
      obtain ⟨w', hw', hsame'⟩ := Expr.value ρ e' he' hd' u' hu'
      refine ⟨[w, w'], ?_, f.fold_cons hsame (f.fold_singleton hsame')⟩
      simp only [Arguments.images, JavaScript.evalAll, hw, hw', Option.bind_some, Option.map_some]
  | .more e args, hportable, hdoubles, f, v, hv => by
      obtain ⟨he, hargs⟩ := Bool.and_eq_true_iff.mp hportable
      obtain ⟨hd, hd'⟩ := Bool.and_eq_true_iff.mp hdoubles
      obtain ⟨u, hu, hv⟩ := Option.bind_eq_some_iff.mp hv
      obtain ⟨u', hu', hv⟩ := Option.bind_eq_some_iff.mp hv
      cases hv
      obtain ⟨w, hw, hsame⟩ := Expr.value ρ e he hd u hu
      obtain ⟨ws, hws, hfold⟩ := Arguments.value ρ args hargs hd' f u' hu'
      refine ⟨w :: ws, ?_, f.fold_cons hsame hfold⟩
      simp only [Arguments.images, JavaScript.evalAll, hw, hws, Option.bind_some, Option.map_some]

end

end VidhiArena.Browser.Python
