import VidhiArena.Forge.Python.Occurrences

/-!
# The visitor on statements

What holds of one rule holds of a whole program: `visitStmts_checks` for what makes the
visitor give up, and `visitStmts_collect` for whatever is collected from a program, before
and after the visit.
-/

namespace VidhiArena.Forge.Python

open VidhiArena.Foundation

/-- The expressions of an assignment or an expression statement. -/
def Stmt.exprs : Stmt → List Expr
  | .assign targets value => targets ++ [value]
  | .expr value => [value]
  | _ => []

def Stmt.isSimple : Stmt → Bool
  | .assign _ _ | .expr _ | .declare _ => true
  | .functionDef .. | .forLoop .. | .compound .. => false

/-- The fields of `state` that are read. -/
def reads (p : Program) : List String :=
  collectAll (fun s => s.exprs.flatMap Expr.reads) Expr.reads p

/-! ## Failure -/

theorem flatMap_reads (es : List Expr) :
    es.flatMap Expr.reads = (occurrencesAll es).filterMap Occurrence.read? := by
  rw [occurrencesAll_eq, List.filterMap_flatMap]
  rfl

theorem visitExprs_reads (es : List Expr) :
    Checks Known unknownField (visitExprs es) (es.flatMap Expr.reads) := by
  rw [flatMap_reads]
  exact visitExprs_checks es

theorem visitArguments_checks (a : Arguments) :
    Checks Known unknownField (visitArguments a) (a.children.flatMap Expr.reads) := by
  unfold Arguments.children
  simp only [List.flatMap_append, List.append_assoc]
  refine (visitExprs_reads _).bind fun _ _ _ _ => ?_
  refine (visitExprs_reads _).bind fun _ _ _ _ => ?_
  refine (visitExprs_reads _).bind fun _ _ _ _ => ?_
  refine (visitExprs_reads _).bind fun _ _ _ _ => ?_
  refine (visitExprs_reads _).bind fun _ _ _ _ => ?_
  exact (visitExprs_reads _).bind fun _ _ _ _ => (visitExprs_reads _).map

theorem visitCallStmt_checks (func : Expr) (args keywords : List Expr) :
    Checks Known unknownField (visitCallStmt func args keywords)
      (Expr.call func args keywords).reads := by
  unfold Expr.reads
  rw [Expr.occurrences, List.filterMap_append, List.filterMap_append, List.append_assoc]
  refine (visitExpr_checks func).bind fun func' _ _ _ => ?_
  refine (visitExprs_checks args).bind fun args' _ _ _ => ?_
  have hcall := (visitExprs_checks keywords).bind fun keywords' _ _ _ =>
    (visitCall_checks func' args' keywords').map (f := fun r => r.2.getD [.expr r.1])
  rwa [List.append_nil] at hcall

theorem visitExprStmt_checks (value : Expr) :
    Checks Known unknownField (visitStmt (.expr value)) value.reads := by
  match value with
  | .call func args keywords => exact visitCallStmt_checks func args keywords
  | .name .. | .constant _ | .attribute .. | .node .. => exact (visitExpr_checks _).map

mutual

theorem visitStmt_checks : ∀ s : Stmt,
    Checks Known unknownField (visitStmt s)
      (s.collect (fun s => s.exprs.flatMap Expr.reads) Expr.reads)
  | .functionDef name args body decorators returns => by
      rw [Stmt.collect, List.append_assoc]
      refine (visitArguments_checks args).bind fun _ _ _ _ => ?_
      refine (visitStmts_checks body).bind fun _ _ _ _ => ?_
      exact (visitExprs_reads decorators).bind fun _ _ _ _ => (visitExprs_reads returns).map
  | .assign targets value => by
      rw [Stmt.collect, Stmt.exprs, List.flatMap_append, List.flatMap_singleton]
      exact (visitExprs_reads targets).bind fun _ _ _ _ => (visitExpr_checks value).map
  | .expr value => by
      rw [Stmt.collect, Stmt.exprs, List.flatMap_singleton]
      exact visitExprStmt_checks value
  | .forLoop target iter body orelse => by
      rw [Stmt.collect, List.append_assoc, List.append_assoc]
      refine (visitExpr_checks target).bind fun _ _ _ _ => ?_
      refine (visitExpr_checks iter).bind fun _ _ _ _ => ?_
      exact (visitStmts_checks body).bind fun _ _ _ _ => (visitStmts_checks orelse).map
  | .declare d => checks_pure _
  | .compound cls values parts => (visitParts_checks parts).map

/-- A program is visited to its end if and only if it reads known fields only. -/
theorem visitStmts_checks : ∀ ss : List Stmt,
    Checks Known unknownField (visitStmts ss) (reads ss)
  | [] => checks_pure _
  | s :: ss => (visitStmt_checks s).bind fun _ _ _ _ => (visitStmts_checks ss).map

theorem visitParts_checks : ∀ parts : List Part,
    Checks Known unknownField (visitParts parts)
      (collectParts (fun s => s.exprs.flatMap Expr.reads) Expr.reads parts)
  | [] => checks_pure _
  | .expr e :: parts => (visitExpr_checks e).bind fun _ _ _ _ => (visitParts_checks parts).map
  | .stmts ss :: parts => (visitStmts_checks ss).bind fun _ _ _ _ => (visitParts_checks parts).map

end

/-! ## Collections -/

section Collect

variable {β : Type} {simple simple' : Stmt → List β} {expr expr' : Expr → List β}

/-- What is collected after each rule is what is collected before it. -/
structure Carried (simple simple' : Stmt → List β) (expr expr' : Expr → List β) : Prop where
  expr : ∀ {e e'}, Visited e e' → expr' e' = expr e
  simple : ∀ {s out i i'}, s.isSimple = true → visitStmt s i = .ok (out, i') →
    collectAll simple' expr' out = simple s

theorem visited_flatMap (hexpr : ∀ {e e'}, Visited e e' → expr' e' = expr e) {es es' : List Expr}
    (h : List.Forall₂ Visited es es') : es'.flatMap expr' = es.flatMap expr := by
  induction h with
  | nil => rfl
  | cons he _ ih => rw [List.flatMap_cons, List.flatMap_cons, hexpr he, ih]

theorem visitExprs_flatMap (hexpr : ∀ {e e'}, Visited e e' → expr' e' = expr e)
    {es es' : List Expr} {i i' : Fin 4} (h : visitExprs es i = .ok (es', i')) :
    es'.flatMap expr' = es.flatMap expr :=
  visited_flatMap hexpr (visitExprs_visited h)

theorem visitArguments_flatMap
    (hexpr : ∀ {e e'}, Visited e e' → expr' e' = expr e) {a a' : Arguments}
    {i i' : Fin 4} (h : visitArguments a i = .ok (a', i')) :
    a'.children.flatMap expr' = a.children.flatMap expr := by
  obtain ⟨posonlyargs, i₁, h₁, h⟩ := visit_bind_ok.mp h
  obtain ⟨args, i₂, h₂, h⟩ := visit_bind_ok.mp h
  obtain ⟨vararg, i₃, h₃, h⟩ := visit_bind_ok.mp h
  obtain ⟨kwonlyargs, i₄, h₄, h⟩ := visit_bind_ok.mp h
  obtain ⟨kwDefaults, i₅, h₅, h⟩ := visit_bind_ok.mp h
  obtain ⟨kwarg, i₆, h₆, h⟩ := visit_bind_ok.mp h
  obtain ⟨defaults, i₇, h₇, h⟩ := visit_bind_ok.mp h
  cases h
  simp only [Arguments.children, List.flatMap_append, visitExprs_flatMap hexpr h₁,
    visitExprs_flatMap hexpr h₂, visitExprs_flatMap hexpr h₃, visitExprs_flatMap hexpr h₄,
    visitExprs_flatMap hexpr h₅, visitExprs_flatMap hexpr h₆, visitExprs_flatMap hexpr h₇]

/-- The rule for `state.fills` finds nothing: the visit of the children comes first. -/
theorem visitFor_eq {target iter iter' : Expr} {body orelse : List Stmt} {i i' : Fin 4}
    (h : visitExpr iter i = .ok (iter', i')) :
    visitFor target iter' body orelse = .forLoop target iter' body orelse := by
  unfold visitFor
  split
  · next hfills => exact absurd hfills (Visited.not_read ⟨i, i', h⟩ _)
  · rfl

mutual

theorem visitStmt_collect (hc : Carried simple simple' expr expr') :
    ∀ {s : Stmt} {out : List Stmt} {i i' : Fin 4}, visitStmt s i = .ok (out, i') →
    collectAll simple' expr' out = s.collect simple expr
  | .functionDef name args body decorators returns, out, i, i', h => by
      obtain ⟨args', i₁, hargs, h⟩ := visit_bind_ok.mp h
      obtain ⟨body', i₂, hbody, h⟩ := visit_bind_ok.mp h
      obtain ⟨decorators', i₃, hdecorators, h⟩ := visit_bind_ok.mp h
      obtain ⟨returns', i₄, hreturns, h⟩ := visit_bind_ok.mp h
      cases h
      simp only [collectAll, Stmt.collect, List.append_nil, visitArguments_flatMap hc.expr hargs,
        visitStmts_collect hc hbody, visitExprs_flatMap hc.expr hdecorators,
        visitExprs_flatMap hc.expr hreturns]
  | .assign targets value, out, i, i', h => hc.simple rfl h
  | .expr value, out, i, i', h => hc.simple rfl h
  | .forLoop target iter body orelse, out, i, i', h => by
      obtain ⟨target', i₁, htarget, h⟩ := visit_bind_ok.mp h
      obtain ⟨iter', i₂, hiter, h⟩ := visit_bind_ok.mp h
      obtain ⟨body', i₃, hbody, h⟩ := visit_bind_ok.mp h
      obtain ⟨orelse', i₄, horelse, h⟩ := visit_bind_ok.mp h
      cases h
      rw [visitFor_eq hiter]
      simp only [collectAll, Stmt.collect, List.append_nil, hc.expr ⟨i, i₁, htarget⟩,
        hc.expr ⟨i₁, i₂, hiter⟩,
        visitStmts_collect hc hbody, visitStmts_collect hc horelse]
  | .declare d, out, i, i', h => hc.simple rfl h
  | .compound cls values parts, out, i, i', h => by
      obtain ⟨parts', i₁, hparts, h⟩ := visit_bind_ok.mp h
      cases h
      simp only [collectAll, Stmt.collect, List.append_nil, visitParts_collect hc hparts]

/-- One rule at a time: what is collected from a visited program is what is collected
from the program, if that holds of every expression and of every simple statement. -/
theorem visitStmts_collect (hc : Carried simple simple' expr expr') :
    ∀ {ss out : List Stmt} {i i' : Fin 4}, visitStmts ss i = .ok (out, i') →
    collectAll simple' expr' out = collectAll simple expr ss
  | [], out, i, i', h => by
      cases h
      rfl
  | s :: ss, out, i, i', h => by
      obtain ⟨out₁, i₁, hs, h⟩ := visit_bind_ok.mp h
      obtain ⟨out₂, i₂, hss, h⟩ := visit_bind_ok.mp h
      cases h
      rw [collectAll_append, collectAll, visitStmt_collect hc hs, visitStmts_collect hc hss]

theorem visitParts_collect (hc : Carried simple simple' expr expr') :
    ∀ {parts parts' : List Part} {i i' : Fin 4}, visitParts parts i = .ok (parts', i') →
    collectParts simple' expr' parts' = collectParts simple expr parts
  | [], parts', i, i', h => by
      cases h
      rfl
  | .expr e :: parts, parts', i, i', h => by
      obtain ⟨e', i₁, he, h⟩ := visit_bind_ok.mp h
      obtain ⟨parts'', i₂, hparts, h⟩ := visit_bind_ok.mp h
      cases h
      rw [collectParts, collectParts, hc.expr ⟨i, i₁, he⟩, visitParts_collect hc hparts]
  | .stmts ss :: parts, parts', i, i', h => by
      obtain ⟨ss', i₁, hss, h⟩ := visit_bind_ok.mp h
      obtain ⟨parts'', i₂, hparts, h⟩ := visit_bind_ok.mp h
      cases h
      rw [collectParts, collectParts, visitStmts_collect hc hss, visitParts_collect hc hparts]

end

end Collect

end VidhiArena.Forge.Python
