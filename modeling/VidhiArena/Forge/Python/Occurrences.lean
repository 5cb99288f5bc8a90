import VidhiArena.Forge.Python.Visitor

/-!
# The names `state` and `orders` in a program

What a program says about the two parameters of `on_tick`: the fields of `state` and the
bare names. `Visited.references` and `visitExpr_checks` are what the visitor does to the
occurrences in an expression.
-/

namespace VidhiArena.Forge.Python

open VidhiArena.Foundation

inductive Occurrence where
  | name (id : String)
  /-- `state.field` -/
  | field (field : String) (ctx : Ctx)
deriving DecidableEq

namespace Occurrence

/-- An occurrence of `state` or `orders`. -/
def api : Occurrence → Bool
  | name id => id = "state" || id = "orders"
  | field _ _ => true

def read? : Occurrence → Option String
  | field f .load => some f
  | _ => none

def store? : Occurrence → Option String
  | field f .store => some f
  | _ => none

end Occurrence

mutual

def Expr.occurrences : Expr → List Occurrence
  | .name id _ => [.name id]
  | .constant _ => []
  | .attribute value attr ctx =>
      match (Expr.attribute value attr ctx).field? with
      | some (field, ctx) => [.field field ctx]
      | none => value.occurrences
  | .call func args keywords => func.occurrences ++ occurrencesAll args ++ occurrencesAll keywords
  | .node _ _ children => occurrencesAll children

def occurrencesAll : List Expr → List Occurrence
  | [] => []
  | e :: es => e.occurrences ++ occurrencesAll es

end

theorem occurrencesAll_eq (es : List Expr) : occurrencesAll es = es.flatMap Expr.occurrences := by
  induction es with
  | nil => rfl
  | cons e es ih => rw [occurrencesAll, ih, List.flatMap_cons]

namespace Expr

/-- The occurrences of `state` and `orders`. -/
def references (e : Expr) : List Occurrence := e.occurrences.filter Occurrence.api

/-- Those that are not reads of a field. -/
def untranslated (e : Expr) : List Occurrence := e.references.filter fun o => o.read?.isNone

/-- The fields of `state` that are read. -/
def reads (e : Expr) : List String := e.occurrences.filterMap Occurrence.read?

/-- The fields of `state` that are assigned. -/
def stores (e : Expr) : List String := e.occurrences.filterMap Occurrence.store?

end Expr

/-! ## What the visitor does to an expression -/

/-- A field that `_market_read` knows. -/
def Known (field : String) : Prop :=
  field = "bid_depth" ∨ field = "ask_depth" ∨ (marketDataSlots.lookup field).isSome ∨
    (orderOutSlots.lookup field).isSome

instance (field : String) : Decidable (Known field) := inferInstanceAs (Decidable (_ ∨ _))

/-- What `_market_read` gives names neither `state` nor `orders`. -/
theorem marketRead_plain {field : String} {e : Expr} (h : marketRead field = .ok e) :
    e.references = [] ∧ e.name? = none ∧ e.field? = none ∧ e.method? = none ∧ e.arg? = none := by
  unfold marketRead at h
  split at h
  · cases h
    exact ⟨rfl, rfl, rfl, rfl, rfl⟩
  split at h
  · cases h
    exact ⟨rfl, rfl, rfl, rfl, rfl⟩
  split at h
  · cases h
    exact ⟨rfl, rfl, rfl, rfl, rfl⟩
  split at h
  · cases h
    exact ⟨rfl, rfl, rfl, rfl, rfl⟩
  · cases h

theorem marketRead_cases (field : String) :
    (∃ e, marketRead field = .ok e) ∧ Known field ∨
      ¬ Known field ∧ marketRead field = .error (unknownField field) := by
  unfold marketRead
  by_cases hbid : field = "bid_depth"
  · rw [if_pos hbid]
    exact .inl ⟨⟨_, rfl⟩, .inl hbid⟩
  by_cases hask : field = "ask_depth"
  · rw [if_neg hbid, if_pos hask]
    exact .inl ⟨⟨_, rfl⟩, .inr (.inl hask)⟩
  rw [if_neg hbid, if_neg hask]
  cases hmarket : marketDataSlots.lookup field with
  | some slot => exact .inl ⟨⟨_, rfl⟩, .inr (.inr (.inl (by rw [hmarket]; rfl)))⟩
  | none =>
      cases hout : orderOutSlots.lookup field with
      | some slot => exact .inl ⟨⟨_, rfl⟩, .inr (.inr (.inr (by rw [hout]; rfl)))⟩
      | none => exact .inr ⟨by simp [Known, hbid, hask, hmarket, hout], rfl⟩

theorem marketRead_checks (field : String) :
    Checks Known unknownField (StateT.lift (marketRead field) : Visit Expr) [field] := by
  intro idx
  rcases marketRead_cases field with ⟨⟨e, hok⟩, hknown⟩ | ⟨hunknown, herr⟩
  · refine .inl ⟨⟨(e, idx), ?_⟩, by simpa using hknown⟩
    rw [StateT.lift, hok]
    rfl
  · refine .inr ⟨field, List.mem_singleton_self _, hunknown, ?_⟩
    rw [StateT.lift, herr]
    rfl

/-! ## One visit -/

section Visited

variable {e e' : Expr} {i i' : Fin 4}

theorem visitAttribute_ok {node : Expr} (h : visitAttribute node i = .ok (e', i')) :
    (∃ f, node.field? = some (f, .load) ∧ marketRead f = .ok e') ∨
      (∀ f, node.field? ≠ some (f, .load)) ∧ e' = node := by
  unfold visitAttribute at h
  generalize node.field? = field at h ⊢
  match field, h with
  | some (f, .load), h => exact .inl ⟨f, rfl, (visit_lift_ok.mp h).1⟩
  | none, h | some (_, .store), h | some (_, .del), h =>
      cases h
      exact .inr ⟨by simp, rfl⟩

theorem visitCall_ok {func : Expr} {args keywords : List Expr} {stmts : Option (List Stmt)}
    (h : visitCall func args keywords i = .ok ((e', stmts), i')) :
    e' = .call func args keywords ∧
      stmts = func.method?.bind fun method =>
        (orderCall? method args).map fun call => increment :: call.emit (1 + i.val * 4) := by
  unfold visitCall at h
  generalize func.method? = method at h ⊢
  cases method with
  | none =>
      cases h
      exact ⟨rfl, rfl⟩
  | some method =>
      cases h
      exact ⟨rfl, rfl⟩

/-- `e'` is what some visit makes of `e`. -/
def Visited (e e' : Expr) : Prop := ∃ i i', visitExpr e i = .ok (e', i')

theorem visitExprs_visited : ∀ {es es' : List Expr} {i i' : Fin 4},
    visitExprs es i = .ok (es', i') → List.Forall₂ Visited es es'
  | [], es', i, i', h => by
      cases h
      exact .nil
  | e :: es, es', i, i', h => by
      obtain ⟨e', j, he, h⟩ := visit_bind_ok.mp h
      obtain ⟨es'', k, hes, h⟩ := visit_bind_ok.mp h
      cases h
      exact .cons ⟨i, j, he⟩ (visitExprs_visited hes)

/-- The rules. -/
inductive Rewritten : Expr → Expr → Prop where
  | name (id : String) (ctx : Ctx) : Rewritten (.name id ctx) (.name id ctx)
  | constant (value : Literal) : Rewritten (.constant value) (.constant value)
  | read {value value' e : Expr} {attr f : String} {ctx : Ctx} (hvalue : Visited value value')
      (hfield : (Expr.attribute value' attr ctx).field? = some (f, .load))
      (hread : marketRead f = .ok e) : Rewritten (.attribute value attr ctx) e
  | kept {value value' : Expr} {attr : String} {ctx : Ctx} (hvalue : Visited value value')
      (hfield : ∀ f, (Expr.attribute value' attr ctx).field? ≠ some (f, .load)) :
      Rewritten (.attribute value attr ctx) (.attribute value' attr ctx)
  | call {func func' : Expr} {args args' keywords keywords' : List Expr}
      (hfunc : Visited func func') (hargs : List.Forall₂ Visited args args')
      (hkeywords : List.Forall₂ Visited keywords keywords') :
      Rewritten (.call func args keywords) (.call func' args' keywords')
  | node {cls : String} {values : List String} {children children' : List Expr}
      (hchildren : List.Forall₂ Visited children children') :
      Rewritten (.node cls values children) (.node cls values children')

theorem Visited.rewritten (h : Visited e e') : Rewritten e e' := by
  obtain ⟨i, i', h⟩ := h
  match e, h with
  | .name id ctx, h =>
      cases h
      exact .name id ctx
  | .constant value, h =>
      cases h
      exact .constant value
  | .attribute value attr ctx, h =>
      obtain ⟨value', j, hvalue, h⟩ := visit_bind_ok.mp h
      rcases visitAttribute_ok h with ⟨f, hfield, hread⟩ | ⟨hfield, rfl⟩
      · exact .read ⟨i, j, hvalue⟩ hfield hread
      · exact .kept ⟨i, j, hvalue⟩ hfield
  | .call func args keywords, h =>
      obtain ⟨func', j, hfunc, h⟩ := visit_bind_ok.mp h
      obtain ⟨args', k, hargs, h⟩ := visit_bind_ok.mp h
      obtain ⟨keywords', l, hkeywords, h⟩ := visit_bind_ok.mp h
      obtain ⟨⟨node, stmts⟩, m, hcall, h⟩ := visit_bind_ok.mp h
      cases h
      rw [(visitCall_ok hcall).1]
      exact .call ⟨i, j, hfunc⟩ (visitExprs_visited hargs) (visitExprs_visited hkeywords)
  | .node cls values children, h =>
      obtain ⟨children', j, hchildren, h⟩ := visit_bind_ok.mp h
      cases h
      exact .node (visitExprs_visited hchildren)

theorem Visited.name (h : Visited e e') : e'.name? = e.name? := by
  cases h.rewritten with
  | read hvalue hfield hread => exact (marketRead_plain hread).2.1
  | name | constant | kept | call | node => rfl

theorem Visited.arg (h : Visited e e') : e'.arg? = e.arg? := by
  cases h.rewritten with
  | read hvalue hfield hread => exact (marketRead_plain hread).2.2.2.2
  | name | constant | kept | call | node => rfl

/-- Whether an attribute is one of `state` depends on the name before it. -/
theorem Visited.attribute_field {value value' : Expr} (h : Visited value value') (attr : String)
    (ctx : Ctx) :
    (Expr.attribute value' attr ctx).field? = (Expr.attribute value attr ctx).field? := by
  rw [Expr.field?, Expr.field?, h.name]

/-- Of the fields of `state`, the assigned ones stay, and those that are read go. -/
theorem Visited.field (h : Visited e e') : e'.field? = e.field?.filter fun f => f.2 ≠ .load := by
  cases h.rewritten with
  | read hvalue hfield hread =>
      rw [(marketRead_plain hread).2.2.1, ← hvalue.attribute_field, hfield]
      rfl
  | @kept value value' attr ctx hvalue hfield =>
      rw [← hvalue.attribute_field]
      cases hnode : (Expr.attribute value' attr ctx).field? with
      | none => rfl
      | some f =>
          have hload : f.2 ≠ .load := fun hf => hfield f.1 (by rw [hnode, ← hf])
          simp [Option.filter, hload]
  | name | constant | call | node => rfl

theorem Visited.not_read (h : Visited e e') (f : String) : e'.field? ≠ some (f, .load) := by
  rw [h.field]
  intro hf
  have := (Option.filter_eq_some_iff.mp hf).2
  simp at this

theorem Visited.method (h : Visited e e') : e'.method? = e.method? := by
  cases h.rewritten with
  | @read value value' attr f ctx _ hvalue hfield hread =>
      -- `state` is not `orders`
      have hstate : value'.name? = some "state" := by
        by_contra hne
        rw [Expr.field?, if_neg hne] at hfield
        cases hfield
      rw [(marketRead_plain hread).2.2.2.1, Expr.method?, ← hvalue.name, hstate]
      rfl
  | kept hvalue hfield => rw [Expr.method?, Expr.method?, hvalue.name]
  | name | constant | call | node => rfl

end Visited

/-! ## Occurrences under a visit -/

mutual

/-- A visit takes away the reads of `state`, and leaves every other occurrence. -/
theorem Visited.references : ∀ {e e' : Expr}, Visited e e' → e'.references = e.untranslated
  | .name id ctx, e', h => by
      cases h.rewritten
      exact (List.filter_eq_self.mpr fun o ho => by
        rw [List.mem_singleton.mp (List.mem_filter.mp ho).1]
        rfl).symm
  | .constant value, e', h => by
      cases h.rewritten
      rfl
  | .attribute value attr ctx, e', h => by
      unfold Expr.untranslated Expr.references
      rw [Expr.occurrences]
      cases h.rewritten with
      | read hvalue hfield hread =>
          rw [← hvalue.attribute_field, hfield]
          exact (marketRead_plain hread).1
      | @kept _ value' _ _ hvalue hfield =>
          rw [Expr.occurrences, ← hvalue.attribute_field]
          cases hnode : (Expr.attribute value' attr ctx).field? with
          | none => exact hvalue.references
          | some f =>
              obtain ⟨f, c⟩ := f
              cases c with
              | load => exact absurd hnode (hfield f)
              | store => rfl
              | del => rfl
  | .call func args keywords, e', h => by
      cases h.rewritten with
      | call hfunc hargs hkeywords =>
          have hf := hfunc.references
          unfold Expr.untranslated Expr.references at hf ⊢
          simp only [Expr.occurrences, List.filter_append, hf, visited_occurrences hargs,
            visited_occurrences hkeywords]
  | .node cls values children, e', h => by
      cases h.rewritten with
      | node hchildren => exact visited_occurrences hchildren

theorem visited_occurrences : ∀ {es es' : List Expr}, List.Forall₂ Visited es es' →
    (occurrencesAll es').filter Occurrence.api =
      ((occurrencesAll es).filter Occurrence.api).filter fun o => o.read?.isNone
  | [], _, .nil => rfl
  | e :: es, _, .cons he hes => by
      have ihe := he.references
      unfold Expr.untranslated Expr.references at ihe
      simp only [occurrencesAll, List.filter_append, ihe, visited_occurrences hes]

end

def Expr.ownRead (node : Expr) : List String :=
  match node.field? with
  | some (field, .load) => [field]
  | _ => []

theorem visitAttribute_checks (node : Expr) :
    Checks Known unknownField (visitAttribute node) node.ownRead := by
  unfold visitAttribute Expr.ownRead
  match node.field? with
  | some (f, .load) => exact marketRead_checks f
  | none | some (_, .store) | some (_, .del) => exact checks_pure node

theorem visitCall_checks (func : Expr) (args keywords : List Expr) :
    Checks Known unknownField (visitCall func args keywords) [] := by
  intro idx
  refine .inl ⟨?_, fun _ hf => absurd hf List.not_mem_nil⟩
  unfold visitCall
  cases func.method? with
  | none => exact ⟨_, rfl⟩
  | some method => exact ⟨_, rfl⟩

theorem reads_attribute (value : Expr) (attr : String) (ctx : Ctx) :
    (Expr.attribute value attr ctx).reads =
      value.reads ++ (Expr.attribute value attr ctx).ownRead := by
  unfold Expr.reads Expr.ownRead
  rw [Expr.occurrences]
  cases hfield : (Expr.attribute value attr ctx).field? with
  | none => exact (List.append_nil _).symm
  | some f =>
      obtain ⟨f, c⟩ := f
      have hname : value.name? = some "state" := by
        by_contra hne
        rw [Expr.field?, if_neg hne] at hfield
        cases hfield
      -- the name `state` itself is no read
      have hvalue : value.occurrences.filterMap Occurrence.read? = [] := by
        cases value with
        | name id c => rfl
        | _ => cases hname
      rw [hvalue]
      cases c <;> rfl

mutual

/-- The visitor gives up at an unknown field, and for nothing else. -/
theorem visitExpr_checks : ∀ e : Expr, Checks Known unknownField (visitExpr e) e.reads
  | .name id ctx => checks_pure _
  | .constant value => checks_pure _
  | .attribute value attr ctx => by
      rw [reads_attribute]
      refine (visitExpr_checks value).bind fun value' i j hvalue => ?_
      have hfield := Visited.attribute_field ⟨i, j, hvalue⟩ attr ctx
      have hread := visitAttribute_checks (.attribute value' attr ctx)
      rwa [Expr.ownRead, hfield] at hread
  | .call func args keywords => by
      unfold Expr.reads
      rw [Expr.occurrences, List.filterMap_append, List.filterMap_append, List.append_assoc]
      refine (visitExpr_checks func).bind fun func' _ _ _ => ?_
      refine (visitExprs_checks args).bind fun args' _ _ _ => ?_
      have hcall := (visitExprs_checks keywords).bind fun keywords' _ _ _ =>
        (visitCall_checks func' args' keywords').map (f := Prod.fst)
      rwa [List.append_nil] at hcall
  | .node cls values children => (visitExprs_checks children).map

theorem visitExprs_checks : ∀ es : List Expr,
    Checks Known unknownField (visitExprs es) ((occurrencesAll es).filterMap Occurrence.read?)
  | [] => checks_pure _
  | e :: es => by
      rw [occurrencesAll, List.filterMap_append]
      exact (visitExpr_checks e).bind fun e' _ _ _ => (visitExprs_checks es).map

end

end VidhiArena.Forge.Python
