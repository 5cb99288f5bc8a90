import VidhiArena.Browser.EmittedLines
import VidhiArena.Browser.JsProgram
import VidhiArena.Browser.TranspiledBlocks

/-!
# Strategies in the browser

A strategy of assignments, orders and conditions, through the transpiler: JavaScript reads
the text that is emitted as the same program, whose expressions are the images of Python's.
So it ends with the same variables and has submitted the same orders, if all integers on the
way are doubles.
-/

namespace VidhiArena.Browser.Python

open Foundation Foundation.BracedLines Transpile Expressions
open scoped JavaScript

variable {extrema : Bool}

/-! ## Assignments -/

def Target.portable : Target → Bool
  | name x => x.text ∉ JavaScript.reserved ∧ x.text ∉ JavaScript.fixed
  | field x => x.text ≠ "__proto__".toList

def Target.image : Target → JavaScript.Target
  | name x => .name x.text
  | field x => .member stateName x.text

def Assignment.image : Assignment → JavaScript.Assignment
  | set => .set
  | change s => .change s.binary

theorem Target.phrase (x : Target) : Phrase true x.tokens := by
  cases x with
  | name x => exact .atom x.atom
  | field x => exact (Phrase.atom atom_stateName).operator (.atom x.atom) (by decide) (by decide)

theorem Assignment.operator (a : Assignment) : a.token ∈ openers ∧ a.token ∈ closers := by
  cases a with
  | set => decide
  | change s => cases s <;> decide

theorem Assignment.lex (a : Assignment) : Expressions.lex [a.token] = [.other a.token] := by
  cases a with
  | set => rfl
  | change s => cases s <;> rfl

theorem Assignment.lookup (a : Assignment) :
    JavaScript.assignments.lookup a.token = some a.image := by
  cases a with
  | set => rfl
  | change s => cases s <;> rfl

theorem Target.reads {x : Target} (h : x.portable = true) (t : Text) (ts : List JavaScript.Token) :
    JavaScript.target (lex x.tokens ++ .other t :: ts) = some (x.image, .other t :: ts) := by
  cases x with
  | name x =>
      have hfree := (of_decide_eq_true h).1
      rw [tokens, x.lex]
      exact if_neg hfree
  | field x =>
      have hfree : stateName ∉ JavaScript.reserved := by decide
      rw [tokens, lex_member]
      show (if stateName ∈ JavaScript.reserved then none else _) = _
      rw [if_neg hfree]
      rfl

theorem Target.key_image {x : Target} (h : x.portable = true) : x.image.key = some x.key := by
  cases x with
  | name x => exact if_neg (of_decide_eq_true h).2
  | field x => exact if_pos ⟨rfl, of_decide_eq_true h⟩

/-- The new value, where it is computed. -/
def Assignment.doubles (a : Assignment) (old new : Int) : Bool :=
  match a with
  | set => true
  | change _ => JavaScript.isDouble (a.apply old new)

theorem Assignment.apply_image {a : Assignment} {old new : Int} (h : a.doubles old new = true) :
    a.image.apply (.finite old) (.finite new) = .finite (a.apply old new) := by
  cases a with
  | set => rfl
  | change s => cases s <;> exact JavaScript.toDouble_of_isDouble h

/-! ## Orders -/

namespace Order

def portable (extrema : Bool) : Order → Bool
  | limit _ price volume => price.portable true extrema && volume.portable true extrema
  | market _ e | cancel e => e.portable true extrema

def images : Order → List JavaScript.Expr
  | limit _ price volume => [price.image, volume.image]
  | market _ e | cancel e => [e.image]

def doubles (ρ : Text → Int) : Order → Bool
  | limit _ price volume => price.doubles ρ && volume.doubles ρ
  | market _ e | cancel e => e.doubles ρ

variable {o : Order}

theorem method_callable (o : Order) : o.method ∈ callable true ∧ o.method ∈ JavaScript.methods := by
  have hmethod : o.method ∈ JavaScript.methods := by
    unfold method
    split <;> decide
  have hall : ∀ m ∈ JavaScript.methods, m ∈ callable true := by decide
  exact ⟨hall _ hmethod, hmethod⟩

theorem args_phrase (h : o.portable extrema = true) : Phrase true o.argTokens := by
  cases o with
  | limit side price volume =>
      obtain ⟨hprice, hvolume⟩ := Bool.and_eq_true_iff.mp h
      exact (price.phrase hprice).operator (volume.phrase hvolume) (by decide) (by decide)
  | market side e => exact e.phrase h
  | cancel e => exact e.phrase h

theorem atom_orders : Atom "orders".toList := ⟨by decide, by decide⟩

theorem phrase (h : o.portable extrema = true) : Phrase true o.tokens :=
  (Phrase.atom atom_orders).operator ((args_phrase h).call o.method_callable.1) (by decide)
    (by decide)

theorem args_read (h : o.portable extrema = true) :
    JavaScript.IsArguments (lex o.argTokens) o.images := by
  cases o with
  | limit side price volume =>
      obtain ⟨hprice, hvolume⟩ := Bool.and_eq_true_iff.mp h
      rw [argTokens, lex_comma]
      exact JavaScript.isArguments_cons (price.reads hprice).2
        (JavaScript.isArguments_one (volume.reads hvolume).2)
  | market side e => exact JavaScript.isArguments_one (e.reads h).2
  | cancel e => exact JavaScript.isArguments_one (e.reads h).2

theorem lex_tokens (o : Order) : lex o.tokens =
    .name "orders".toList :: .dot :: .name o.method :: .leftParen ::
      (lex o.argTokens ++ [.rightParen]) := by
  have hmethod : lex [o.method] = [.name o.method] := by
    cases o with
    | limit side _ _ => cases side <;> rfl
    | market side _ => cases side <;> rfl
    | cancel _ => rfl
  rw [tokens, lex_cons, lex_cons ['.'], lex_cons o.method, hmethod, lex_group]
  rfl

theorem values_image {ρ : Text → Int} {vs : List Int} (h : o.portable extrema = true)
    (hdoubles : o.doubles ρ = true) (hvs : o.values ρ = some vs) :
    ∃ ws, JavaScript.evalAll ⟨numbers ρ, extrema⟩ o.images = some ws ∧
      ws.map JavaScript.Value.toNumber = vs.map .finite := by
  have hone : ∀ {e : Expr .disjunction}, e.portable true extrema = true → e.doubles ρ = true →
      (e.eval ρ).map (fun v => [v.toInt]) = some vs →
        ∃ ws, JavaScript.evalAll ⟨numbers ρ, extrema⟩ [e.image] = some ws ∧
          ws.map JavaScript.Value.toNumber = vs.map .finite := by
    intro e he hdoubles hvs
    obtain ⟨v, hv, rfl⟩ := Option.map_eq_some_iff.mp hvs
    obtain ⟨w, hw, hsame⟩ := e.value ρ he hdoubles v hv
    refine ⟨[w], ?_, congrArg (fun x => [x]) hsame⟩
    simp only [JavaScript.evalAll, hw, Option.bind_some, Option.map_some]
  cases o with
  | limit side price volume =>
      obtain ⟨hprice, hvolume⟩ := Bool.and_eq_true_iff.mp h
      obtain ⟨hdprice, hdvolume⟩ := Bool.and_eq_true_iff.mp hdoubles
      obtain ⟨v, hv, hvs⟩ := Option.bind_eq_some_iff.mp hvs
      obtain ⟨u, hu, hvs⟩ := Option.bind_eq_some_iff.mp hvs
      cases hvs
      obtain ⟨w, hw, hsame⟩ := price.value ρ hprice hdprice v hv
      obtain ⟨x, hx, hsame'⟩ := volume.value ρ hvolume hdvolume u hu
      refine ⟨[w, x], ?_, congrArg₂ (fun x y => [x, y]) hsame hsame'⟩
      simp only [images, JavaScript.evalAll, hw, hx, Option.bind_some, Option.map_some]
  | market side e => exact hone h hdoubles hvs
  | cancel e => exact hone h hdoubles hvs

end Order

/-! ## Statements -/

namespace Statement

def portable (extrema : Bool) : Statement → Bool
  | assign x _ e => x.portable && e.portable true extrema
  | order o => o.portable extrema

def image : Statement → JavaScript.Statement
  | assign x a e => .assign x.image a.image e.image
  | order o => .call "orders".toList o.method o.images

def doubles (a : Statement) (s : Store Int) : Bool :=
  match a with
  | assign x a e =>
      e.doubles s.vars && (e.eval s.vars).all fun v => a.doubles (s.vars x.key) v.toInt
  | order o => o.doubles s.vars

variable {a : Statement}

theorem phrase (h : a.portable extrema = true) : Phrase true a.tokens := by
  cases a with
  | assign x a e =>
      exact x.phrase.operator (e.phrase (Bool.and_eq_true_iff.mp h).2) a.operator.1 a.operator.2
  | order o => exact Order.phrase h

theorem leads (a : Statement) : ∃ w m ts, a.tokens = w :: m :: ts ∧ IsWord w ∧ renameWord w = w ∧
    w ∉ blockWords ∧ m ∈ Expressions.leads := by
  cases a with
  | assign x a e =>
      have hlead : a.token ∈ Expressions.leads := by
        cases a with
        | set => decide
        | change s => cases s <;> decide
      cases x with
      | name x =>
          have hall : ∀ w ∈ blockWords, w ∈ reserved := by decide
          exact ⟨x.text, a.token, e.tokens, rfl, x.atom.1, x.atom.rename,
            fun hmem => x.free (hall _ hmem), hlead⟩
      | field x =>
          exact ⟨stateName, ['.'], _, rfl, atom_stateName.1, atom_stateName.rename, by decide,
            by decide⟩
  | order o =>
      exact ⟨"orders".toList, ['.'], _, rfl, Order.atom_orders.1, Order.atom_orders.rename,
        by decide, by decide⟩

theorem reads (h : a.portable extrema = true) {t : Text}
    (ht : JavaScript.tokens t = lex a.tokens ++ [.other [';']]) :
    JavaScript.statement t = some a.image := by
  cases a with
  | assign x a e =>
      obtain ⟨hx, he⟩ := Bool.and_eq_true_iff.mp h
      refine JavaScript.statement_assign a.lookup ?_ (e.reads he).2
      rw [ht, tokens, lex_append, lex_cons, a.lex, List.append_assoc]
      exact Target.reads hx _ _
  | order o =>
      refine JavaScript.statement_call ?_ (by decide) (Order.args_read h)
      rw [ht, tokens, o.lex_tokens]
      simp only [List.cons_append, List.append_assoc, List.nil_append]

theorem run_image (h : a.portable extrema = true) {s s' : Store Int} (hdoubles : a.doubles s = true)
    (hrun : a.run s = some s') :
    a.image.run extrema (s.map .finite) = some (s'.map .finite) := by
  cases a with
  | assign x a e =>
      obtain ⟨hx, he⟩ := Bool.and_eq_true_iff.mp h
      obtain ⟨hd, happly⟩ := Bool.and_eq_true_iff.mp hdoubles
      obtain ⟨v, hv, rfl⟩ := Option.map_eq_some_iff.mp hrun
      obtain ⟨w, hw, hsame⟩ := e.value s.vars he hd v hv
      rw [hv] at happly
      have hnew := Assignment.apply_image happly
      have hvalue : w.toNumber = .finite v.toInt := hsame
      have heval : e.image.eval ⟨(s.map .finite).vars, extrema⟩ = some w := hw
      rw [image, JavaScript.Statement.run, Target.key_image hx, Option.bind_some, heval,
        Option.map_some, hvalue, Store.map_set, ← hnew]
      rfl
  | order o =>
      obtain ⟨vs, hvs, rfl⟩ := Option.map_eq_some_iff.mp hrun
      obtain ⟨ws, hws, hsame⟩ := Order.values_image h hdoubles hvs
      have heval : JavaScript.evalAll ⟨(s.map .finite).vars, extrema⟩ o.images = some ws := hws
      rw [image, JavaScript.Statement.run, if_pos ⟨rfl, o.method_callable.2⟩, heval,
        Option.map_some, hsame, Store.map_submit]

end Statement

/-! ## Clauses -/

namespace Clause

def portable (extrema : Bool) (c : Clause) : Bool :=
  c.condition.all (·.portable false extrema)

def image : Clause → JavaScript.Clause
  | if_ e => .if_ e.image
  | elif_ e => .elseIf e.image
  | else_ => .else_
  | while_ e => .while_ e.image

def doubles (c : Clause) (s : Store Int) : Bool := c.condition.all (·.doubles s.vars)

def keyword : Clause → Keyword
  | if_ _ => .if_
  | elif_ _ => .elif_
  | else_ => .else_
  | while_ _ => .while_

variable {c : Clause}

theorem test_image (h : c.portable extrema = true) {s : Store Int} (hdoubles : c.doubles s = true)
    {b : Bool} (htest : c.test s = some b) :
    c.image.test extrema (s.map .finite) = some b := by
  have hsome : ∀ {e : Expr .disjunction}, e.portable false extrema = true →
      e.doubles s.vars = true → (e.eval s.vars).map Value.truth = some b →
        (e.image.eval ⟨(s.map .finite).vars, extrema⟩).map JavaScript.Value.truthy = some b := by
    intro e he hd htest
    obtain ⟨v, hv, rfl⟩ := Option.map_eq_some_iff.mp htest
    obtain ⟨w, hw, hsame⟩ := e.value s.vars he hd v hv
    have heval : e.image.eval ⟨(s.map .finite).vars, extrema⟩ = some w := hw
    rw [heval, Option.map_some, hsame.truthy]
  cases c with
  | else_ => exact htest
  | if_ e => exact hsome h hdoubles htest
  | elif_ e => exact hsome h hdoubles htest
  | while_ e => exact hsome h hdoubles htest

theorem control_image (c : Clause) : c.image.control = c.control := by
  cases c <;> rfl

/-- JavaScript reads the head of a portable condition as its image. -/
theorem reads {e : Expr .disjunction} (he : c.condition = some e) (h : c.portable extrema = true)
    {t : Text} (ht : JavaScript.tokens t =
      ((opening c.keyword).map Piece.token).map JavaScript.classify ++
        (lex e.tokens ++ [.rightParen, .other ['\x7b']])) :
    JavaScript.clause t = some c.image := by
  have hread : JavaScript.grammar.Reads 1 (lex e.tokens) e.image := by
    rw [portable, he] at h
    exact (e.reads h).2
  cases c with
  | else_ => cases he
  | if_ e' =>
      cases he
      exact JavaScript.clause_eq (List.mem_cons_self) ht hread
  | elif_ e' =>
      cases he
      exact JavaScript.clause_eq (List.mem_cons_of_mem _ List.mem_cons_self) ht hread
  | while_ e' =>
      cases he
      exact JavaScript.clause_eq (List.mem_cons_of_mem _ (List.mem_cons_of_mem _
        List.mem_cons_self)) ht hread

end Clause

/-! ## Runs -/

/-- Python as long as all integers are doubles. -/
def meaningInDoubles : Meaning Statement Clause (Store Int) where
  simple a s := if a.doubles s then a.run s else none
  control := Clause.control
  test c s := if c.doubles s then c.test s else none

theorem some_of_ite {α : Type} {b : Bool} {x : Option α} {y : α}
    (h : (if b then x else none) = some y) : b = true ∧ x = some y := by
  cases b with
  | false => cases h
  | true => exact ⟨rfl, h⟩

theorem simulates_self : Flow.Simulates meaningInDoubles meaning id id id (fun _ => True)
    (fun _ => True) where
  simple _ _ _ _ h := (some_of_ite h).2
  control _ := rfl
  test _ _ _ _ h := (some_of_ite h).2

theorem simulates_image : Flow.Simulates meaningInDoubles (JavaScript.meaning extrema)
    Statement.image Clause.image (Store.map .finite) (fun a => a.portable extrema = true)
    (fun c => c.portable extrema = true) where
  simple _ ha _ _ h := Statement.run_image ha (some_of_ite h).1 (some_of_ite h).2
  control c := c.control_image
  test _ hc _ _ h := Clause.test_image hc (some_of_ite h).1 (some_of_ite h).2

end VidhiArena.Browser.Python
