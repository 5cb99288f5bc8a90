import VidhiArena.Forge.Python.Statements

/-!
# What the visitor leaves

`references` are the occurrences of `state` and `orders` in a program, and `untranslated`
those for which the visitor has no rule. The former of the result are the latter of what
has been visited (`references_visited`).
-/

namespace VidhiArena.Forge.Python

open VidhiArena.Foundation

/-- The field of `state.field = ...`, with one target. -/
def assigned? : List Expr → Option String
  | [target] =>
      match target.field? with
      | some (field, .store) => some field
      | _ => none
  | _ => none

/-- The call of `orders` that an expression is. -/
def order? : Expr → Option OrderCall
  | .call func args _ => func.method?.bind (orderCall? · args)
  | _ => none

/-- The names of `global` and `nonlocal`. -/
def Stmt.declared : Stmt → List Occurrence
  | .declare (.globalNames names) | .declare (.nonlocalNames names) =>
      (names.map Occurrence.name).filter Occurrence.api
  | _ => []

/-- The expressions of a simple statement that the rules keep: of an assignment to a field
with a slot the value, of one to another field nothing, of an order the arguments that
count. -/
def Stmt.kept : Stmt → List Expr
  | .assign targets value =>
      match assigned? targets with
      | some field => if (orderOutSlots.lookup field).isSome then [value] else []
      | none => targets ++ [value]
  | .expr value =>
      match order? value with
      | some call => call.args
      | none => [value]
  | _ => []

/-- The occurrences of `state` and `orders`. -/
def references (p : Program) : List Occurrence :=
  collectAll (fun s => s.exprs.flatMap Expr.references ++ s.declared) Expr.references p

/-- Those in what the rules keep, but for the reads of fields. -/
def untranslated (p : Program) : List Occurrence :=
  collectAll (fun s => s.kept.flatMap Expr.untranslated ++ s.declared) Expr.untranslated p

/-! ## Orders -/

theorem orderCall_rel {P : Expr → Expr → Prop} {args args' : List Expr} (method : String)
    (h : List.Forall₂ P args args') :
    Option.Rel (fun c c' => List.Forall₂ P c.args c'.args) (orderCall? method args)
      (orderCall? method args') := by
  have hlimit : ∀ type, Option.Rel (fun c c' : OrderCall => List.Forall₂ P c.args c'.args)
      (OrderCall.limit? type args) (OrderCall.limit? type args') := by
    intro type
    rcases h with _ | ⟨h₁, _ | ⟨h₂, -⟩⟩
    · exact .none
    · exact .none
    · exact .some (.cons h₁ (.cons h₂ .nil))
  have hmarket : ∀ type, Option.Rel (fun c c' : OrderCall => List.Forall₂ P c.args c'.args)
      (OrderCall.market? type args) (OrderCall.market? type args') := by
    intro type
    rcases h with _ | ⟨h₁, -⟩
    · exact .none
    · exact .some (.cons h₁ .nil)
  have hcancel : Option.Rel (fun c c' : OrderCall => List.Forall₂ P c.args c'.args)
      (OrderCall.cancel? args) (OrderCall.cancel? args') := by
    rcases h with _ | ⟨h₁, -⟩
    · exact .none
    · exact .some (.cons h₁ .nil)
  unfold orderCall?
  split_ifs
  · exact hlimit 1
  · exact hlimit 2
  · exact hmarket 3
  · exact hmarket 4
  · exact hcancel
  · exact .none

/-! ## The rules for simple statements -/

theorem assigned_visited {targets targets' : List Expr}
    (h : List.Forall₂ Visited targets targets') :
    assigned? targets' = assigned? targets := by
  rcases h with _ | ⟨h₁, _ | ⟨h₂, -⟩⟩
  · rfl
  · next t t' =>
      dsimp only [assigned?]
      rw [h₁.field]
      cases t.field? with
      | none => rfl
      | some f =>
          obtain ⟨f, c⟩ := f
          cases c <;> rfl
  · rfl

theorem visitAssign_eq (targets : List Expr) (value : Expr) :
    visitAssign targets value =
      match assigned? targets with
      | some field => stateWrite field value
      | none => .assign targets value := by
  unfold visitAssign assigned?
  match targets with
  | [target] =>
      match htarget : target.field? with
      | some (_, .store) | some (_, .load) | some (_, .del) | none => simp only [htarget]
  | [] | _ :: _ :: _ => rfl

theorem visitStmt_assign {targets : List Expr} {value : Expr} {out : List Stmt} {i i' : Fin 4}
    (h : visitStmt (.assign targets value) i = .ok (out, i')) :
    ∃ targets' value', List.Forall₂ Visited targets targets' ∧ Visited value value' ∧
      out = [match assigned? targets with
        | some field => stateWrite field value'
        | none => .assign targets' value'] := by
  obtain ⟨targets', j, htargets, h⟩ := visit_bind_ok.mp h
  obtain ⟨value', k, hvalue, h⟩ := visit_bind_ok.mp h
  cases h
  have hvisited := visitExprs_visited htargets
  refine ⟨targets', value', hvisited, ⟨_, _, hvalue⟩, ?_⟩
  rw [visitAssign_eq, assigned_visited hvisited]

theorem visitStmt_expr {value : Expr} {out : List Stmt} {i i' : Fin 4}
    (h : visitStmt (.expr value) i = .ok (out, i')) :
    (order? value = none ∧ ∃ value', Visited value value' ∧ out = [.expr value']) ∨
      ∃ call call' : OrderCall, ∃ idx : Fin 4, order? value = some call ∧
        List.Forall₂ Visited call.args call'.args ∧
          out = increment :: call'.emit (1 + idx.val * 4) := by
  match value, h with
  | .call func args keywords, h =>
      obtain ⟨func', j, hfunc, h⟩ := visit_bind_ok.mp h
      obtain ⟨args', k, hargs, h⟩ := visit_bind_ok.mp h
      obtain ⟨keywords', l, hkeywords, h⟩ := visit_bind_ok.mp h
      obtain ⟨⟨node, stmts⟩, m, hcall, h⟩ := visit_bind_ok.mp h
      cases h
      obtain ⟨rfl, rfl⟩ := visitCall_ok hcall
      have hvisited : Visited (.call func args keywords) (.call func' args' keywords') := by
        refine ⟨i, i', ?_⟩
        exact visit_bind_ok.mpr ⟨func', j, hfunc, visit_bind_ok.mpr ⟨args', k, hargs,
          visit_bind_ok.mpr ⟨keywords', l, hkeywords, visit_bind_ok.mpr ⟨_, i', hcall, rfl⟩⟩⟩⟩
      rw [Visited.method ⟨i, j, hfunc⟩, order?]
      cases func.method? with
      | none => exact .inl ⟨rfl, _, hvisited, rfl⟩
      | some method =>
          have hrel := orderCall_rel method (visitExprs_visited hargs)
          simp only [Option.bind_some]
          generalize orderCall? method args = call, orderCall? method args' = call' at hrel
          cases hrel with
          | none => exact .inl ⟨rfl, _, hvisited, rfl⟩
          | some hargs => exact .inr ⟨_, _, l, rfl, hargs, rfl⟩
  | .name .., h | .constant _, h | .attribute .., h | .node .., h =>
      obtain ⟨value', j, hvalue, h⟩ := visit_bind_ok.mp h
      cases h
      exact .inl ⟨rfl, value', ⟨_, _, hvalue⟩, rfl⟩

/-! ## What is left -/

theorem visited_references {es es' : List Expr} (h : List.Forall₂ Visited es es') :
    es'.flatMap Expr.references = es.flatMap Expr.untranslated :=
  visited_flatMap Visited.references h

theorem references_fixed (value : Expr) : (fixed value).references = value.references := by
  have h : (fixed value).occurrences = .name "int" :: (value.occurrences ++ [] ++ []) := by
    simp [fixed, Expr.occurrences, occurrencesAll, Expr.binOp, load, fixedPoint]
  rw [Expr.references, h, List.append_nil, List.append_nil]
  rfl

theorem references_makeAssign (slot : Int) (value : Expr) :
    references [makeAssign slot value] = value.references := by
  have h : references [makeAssign slot value] =
      (outSlot slot).references ++ (value.references ++ []) ++ [] ++ [] := rfl
  have hslot : (outSlot slot).references = [] := rfl
  rw [h, hslot, List.append_nil, List.append_nil, List.append_nil, List.nil_append]

theorem references_append (p q : Program) :
    references (p ++ q) = references p ++ references q :=
  collectAll_append p q

theorem references_cons (s : Stmt) (p : Program) :
    references (s :: p) = references [s] ++ references p :=
  references_append [s] p

theorem references_stateWrite (field : String) (value : Expr) :
    references [stateWrite field value] =
      if (orderOutSlots.lookup field).isSome then value.references else [] := by
  unfold stateWrite
  cases orderOutSlots.lookup field with
  | none => rfl
  | some slot => rw [references_makeAssign, references_fixed, Option.isSome_some, if_pos rfl]

theorem references_emit (base : Int) (call : OrderCall) :
    references (increment :: call.emit base) = call.args.flatMap Expr.references := by
  have hwhole : ∀ e : Expr, (Expr.call (load "int") [e] []).references = e.references := by
    intro e
    have h : (Expr.call (load "int") [e] []).occurrences =
        .name "int" :: (e.occurrences ++ [] ++ []) := by
      simp [Expr.occurrences, occurrencesAll, load]
    rw [Expr.references, h, List.append_nil, List.append_nil]
    rfl
  have hconst : ∀ n, (int n).references = [] := fun _ => rfl
  have hinc : references [increment] = [] := rfl
  rw [references_cons, hinc, List.nil_append]
  cases call with
  | limit type price volume =>
      rw [OrderCall.emit, emitOrder, references_cons, references_cons (makeAssign (base + 1) _),
        references_cons (makeAssign (base + 2) _)]
      simp only [references_makeAssign, references_fixed, hwhole, hconst, OrderCall.args,
        List.flatMap_cons, List.flatMap_nil, List.append_nil, List.nil_append]
  | market type volume =>
      have hzero : (Expr.constant (.float "0.0")).references = [] := rfl
      rw [OrderCall.emit, emitOrder, references_cons, references_cons (makeAssign (base + 1) _),
        references_cons (makeAssign (base + 2) _)]
      simp only [references_makeAssign, references_fixed, hwhole, hconst, hzero, OrderCall.args,
        List.flatMap_cons, List.flatMap_nil, List.append_nil, List.nil_append]
  | cancel orderId =>
      rw [OrderCall.emit, emitCancel, references_cons, references_cons (makeAssign (base + 1) _),
        references_cons (makeAssign (base + 2) _)]
      simp only [references_makeAssign, hconst, OrderCall.args, List.flatMap_cons, List.flatMap_nil,
        List.append_nil, List.nil_append]

theorem references_simple {s : Stmt} {out : List Stmt} {i i' : Fin 4} (hs : s.isSimple = true)
    (h : visitStmt s i = .ok (out, i')) :
    references out = s.kept.flatMap Expr.untranslated ++ s.declared := by
  match s, hs, h with
  | .assign targets value, _, h =>
      obtain ⟨targets', value', htargets, hvalue, rfl⟩ := visitStmt_assign h
      dsimp only [Stmt.kept, Stmt.declared]
      rw [List.append_nil]
      cases assigned? targets with
      | some field =>
          dsimp only
          rw [references_stateWrite, hvalue.references]
          split
          · exact (List.flatMap_singleton ..).symm
          · rfl
      | none =>
          have href : references [.assign targets' value'] =
              (targets' ++ [value']).flatMap Expr.references ++ [] ++ [] := rfl
          rw [href, List.append_nil, List.append_nil, List.flatMap_append, List.flatMap_append,
            visited_references htargets, List.flatMap_singleton, List.flatMap_singleton,
            hvalue.references]
  | .expr value, _, h =>
      dsimp only [Stmt.kept, Stmt.declared]
      rw [List.append_nil]
      rcases visitStmt_expr h with
        ⟨horder, value', hvalue, rfl⟩ | ⟨call, call', idx, horder, hargs, rfl⟩
      · have href : references [.expr value'] = value'.references ++ [] ++ [] ++ [] := rfl
        rw [horder, href, List.append_nil, List.append_nil, List.append_nil, List.flatMap_singleton,
          hvalue.references]
      · rw [horder, references_emit, visited_references hargs]
  | .declare d, _, h =>
      cases h
      exact List.append_nil _

/-- What is left of a program: the occurrences in what the rules keep, but for the reads. -/
theorem references_visited {p out : Program} {i i' : Fin 4} (h : visitStmts p i = .ok (out, i')) :
    references out = untranslated p :=
  visitStmts_collect ⟨Visited.references, references_simple⟩ h

end VidhiArena.Forge.Python
