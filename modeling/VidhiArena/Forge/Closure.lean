import VidhiArena.Forge.Python.Targets

/-!
# What is left untranslated

The module that `transpile` returns is closed if it has the functions `on_tick__impl` of
two arrays that the wrapper calls, and if these no longer name `state` or `orders`. The
visitor has rules for some occurrences of the two names and leaves the others
(`untranslated`); `closed_iff` says that a program has a closed translation, or none at all,
if and only if there are no others in its `on_tick`.
-/

namespace VidhiArena.Forge.Python

open VidhiArena.Foundation

/-- The parameters are `_md` and `_oo`, and no others. -/
def Arguments.isImpl (a : Arguments) : Bool :=
  a.posonlyargs.isEmpty && a.args.map Expr.arg? == [some "_md", some "_oo"] && a.vararg.isEmpty &&
    a.kwonlyargs.isEmpty && a.kwarg.isEmpty

def Stmt.implementation? : Stmt → Option (Arguments × List Stmt)
  | .functionDef name args body _ _ => if name = "on_tick__impl" then some (args, body) else none
  | _ => none

/-- The functions `on_tick__impl` of the module: parameters and body. -/
def implementations (p : Program) : List (Arguments × List Stmt) := p.filterMap Stmt.implementation?

/-- A closed module. -/
structure Closed (m : Program) : Prop where
  defined : implementations m ≠ []
  signature : ∀ f ∈ implementations m, f.1.isImpl = true
  translated : ∀ f ∈ implementations m, references f.2 = []

/-- The programs with rules for all. -/
structure Translatable (p : Program) : Prop where
  defined : ∃ s ∈ p, s.isFunction "on_tick" = true ∨ s.isFunction "on_tick__impl" = true
  /-- the first `on_tick` of the module -/
  onTick : ∀ args body decorators returns,
    p.find? (Stmt.isFunction "on_tick") =
        some (.functionDef "on_tick" args body decorators returns) →
      args.vararg = [] ∧ args.kwarg = [] ∧ untranslated body = []
  /-- what has the name of the translation already -/
  own : ∀ f ∈ implementations p, f.1.isImpl = true ∧ untranslated f.2 = []

/-! ## Functions under a visit -/

theorem visitExprs_args {es es' : List Expr} {i i' : Fin 4} (h : visitExprs es i = .ok (es', i')) :
    es'.map Expr.arg? = es.map Expr.arg? ∧ es'.isEmpty = es.isEmpty := by
  have hvisited := visitExprs_visited h
  clear h
  induction hvisited with
  | nil => exact ⟨rfl, rfl⟩
  | cons he _ ih => exact ⟨congrArg₂ List.cons he.arg ih.1, rfl⟩

theorem visitArguments_isImpl {a a' : Arguments} {i i' : Fin 4}
    (h : visitArguments a i = .ok (a', i')) : a'.isImpl = a.isImpl := by
  obtain ⟨posonlyargs, i₁, h₁, h⟩ := visit_bind_ok.mp h
  obtain ⟨args, i₂, h₂, h⟩ := visit_bind_ok.mp h
  obtain ⟨vararg, i₃, h₃, h⟩ := visit_bind_ok.mp h
  obtain ⟨kwonlyargs, i₄, h₄, h⟩ := visit_bind_ok.mp h
  obtain ⟨kwDefaults, i₅, h₅, h⟩ := visit_bind_ok.mp h
  obtain ⟨kwarg, i₆, h₆, h⟩ := visit_bind_ok.mp h
  obtain ⟨defaults, i₇, h₇, h⟩ := visit_bind_ok.mp h
  cases h
  simp only [Arguments.isImpl, (visitExprs_args h₁).2, (visitExprs_args h₂).1,
    (visitExprs_args h₃).2, (visitExprs_args h₄).2, (visitExprs_args h₆).2]

def Translates (f f' : Arguments × List Stmt) : Prop :=
  f'.1.isImpl = f.1.isImpl ∧ references f'.2 = untranslated f.2

theorem visitStmt_implementations {s : Stmt} {out : List Stmt} {i i' : Fin 4}
    (h : visitStmt s i = .ok (out, i')) :
    List.Forall₂ Translates (implementations [s]) (implementations out) := by
  match s, h with
  | .functionDef name args body decorators returns, h =>
      obtain ⟨args', i₁, hargs, h⟩ := visit_bind_ok.mp h
      obtain ⟨body', i₂, hbody, h⟩ := visit_bind_ok.mp h
      obtain ⟨decorators', i₃, -, h⟩ := visit_bind_ok.mp h
      obtain ⟨returns', i₄, -, h⟩ := visit_bind_ok.mp h
      cases h
      by_cases hname : name = "on_tick__impl"
      · simp only [implementations, List.filterMap_cons, Stmt.implementation?, if_pos hname,
          List.filterMap_nil]
        exact .cons ⟨visitArguments_isImpl hargs, references_visited hbody⟩ .nil
      · simp only [implementations, List.filterMap_cons, Stmt.implementation?, if_neg hname,
          List.filterMap_nil]
        exact .nil
  | .assign targets value, h =>
      obtain ⟨targets', value', -, -, rfl⟩ := visitStmt_assign h
      cases assigned? targets with
      | none => exact .nil
      | some field =>
          dsimp only [stateWrite]
          cases orderOutSlots.lookup field with
          | none => exact .nil
          | some slot => exact .nil
  | .expr value, h =>
      rcases visitStmt_expr h with ⟨-, value', -, rfl⟩ | ⟨call, call', idx, -, -, rfl⟩
      · exact .nil
      · cases call' with
        | limit type price volume => exact .nil
        | market type volume => exact .nil
        | cancel orderId => exact .nil
  | .forLoop target iter body orelse, h =>
      obtain ⟨target', i₁, -, h⟩ := visit_bind_ok.mp h
      obtain ⟨iter', i₂, hiter, h⟩ := visit_bind_ok.mp h
      obtain ⟨body', i₃, -, h⟩ := visit_bind_ok.mp h
      obtain ⟨orelse', i₄, -, h⟩ := visit_bind_ok.mp h
      cases h
      rw [visitFor_eq hiter]
      exact .nil
  | .declare d, h =>
      cases h
      exact .nil
  | .compound cls values parts, h =>
      obtain ⟨parts', i₁, -, h⟩ := visit_bind_ok.mp h
      cases h
      exact .nil

/-- The functions of the result are those of what has been visited. -/
theorem visitStmts_implementations : ∀ {p out : Program} {i i' : Fin 4},
    visitStmts p i = .ok (out, i') →
    List.Forall₂ Translates (implementations p) (implementations out)
  | [], out, i, i', h => by
      cases h
      exact .nil
  | s :: ss, out, i, i', h => by
      obtain ⟨out₁, i₁, hs, h⟩ := visit_bind_ok.mp h
      obtain ⟨out₂, i₂, hss, h⟩ := visit_bind_ok.mp h
      cases h
      have happend :=
        List.rel_append (visitStmt_implementations hs) (visitStmts_implementations hss)
      unfold implementations at happend ⊢
      dsimp only at happend
      rwa [← List.filterMap_append, ← List.filterMap_append] at happend

/-- A function whose translation is closed. -/
def Ready (f : Arguments × List Stmt) : Prop := f.1.isImpl = true ∧ untranslated f.2 = []

theorem closed_visited {p out : Program} {i i' : Fin 4} (h : visitStmts p i = .ok (out, i')) :
    Closed out ↔ implementations p ≠ [] ∧ ∀ f ∈ implementations p, Ready f := by
  have himpl := visitStmts_implementations h
  have hiff : ∀ {fs fs' : List (Arguments × List Stmt)}, List.Forall₂ Translates fs fs' →
      ((fs' ≠ [] ∧ ∀ f ∈ fs', f.1.isImpl = true ∧ references f.2 = []) ↔
        fs ≠ [] ∧ ∀ f ∈ fs, Ready f) := by
    intro fs fs' hfs
    have hall : (∀ f ∈ fs', f.1.isImpl = true ∧ references f.2 = []) ↔ ∀ f ∈ fs, Ready f := by
      induction hfs with
      | nil => exact iff_of_true (by simp) (by simp)
      | cons hf _ ih => rw [List.forall_mem_cons, List.forall_mem_cons, ih, hf.1, hf.2, Ready]
    rw [hall]
    cases hfs with
    | nil => rfl
    | cons => simp
  rw [← hiff himpl]
  constructor
  · exact fun hclosed =>
      ⟨hclosed.defined, fun f hf => ⟨hclosed.signature f hf, hclosed.translated f hf⟩⟩
  · exact fun hclosed => ⟨hclosed.1, fun f hf => (hclosed.2 f hf).1, fun f hf => (hclosed.2 f hf).2⟩

/-! ## The prepared program -/

theorem implementations_append (p q : Program) :
    implementations (p ++ q) = implementations p ++ implementations q := List.filterMap_append

theorem implementations_cons (s : Stmt) (p : Program) :
    implementations (s :: p) = s.implementation?.toList ++ implementations p := by
  unfold implementations
  rw [List.filterMap_cons]
  cases s.implementation? with
  | none => rfl
  | some f => rfl

/-- The new parameters are the two arrays if there is no `*` and no `**` parameter. -/
theorem implArguments_isImpl (a : Arguments) :
    (implArguments a).isImpl = true ↔ a.vararg = [] ∧ a.kwarg = [] := by
  have h : (implArguments a).isImpl =
      (true && true && a.vararg.isEmpty && true && a.kwarg.isEmpty) := rfl
  rw [h]
  simp

theorem implementation_head (s : Stmt) :
    s.implementation? = s.head?.bind fun f =>
      if f.1 = "on_tick__impl" then some (f.2, s.body) else none := by
  cases s with
  | functionDef name args body decorators returns => rfl
  | _ => rfl

theorem isFunction_head (s : Stmt) (name : String) :
    s.isFunction name = s.head?.any fun f => f.1 == name := by
  cases s with
  | functionDef name args body decorators returns => rfl
  | _ => rfl

theorem implementations_ne_nil (p : Program) :
    implementations p ≠ [] ↔ ∃ s ∈ p, s.isFunction "on_tick__impl" = true := by
  rw [← List.length_pos_iff, List.length_pos_iff_exists_mem]
  constructor
  · rintro ⟨f, hf⟩
    obtain ⟨s, hs, himpl⟩ := List.mem_filterMap.mp hf
    refine ⟨s, hs, ?_⟩
    cases s with
    | functionDef name args body decorators returns =>
        by_contra hname
        have hname : name ≠ "on_tick__impl" := by simpa [Stmt.isFunction] using hname
        rw [Stmt.implementation?, if_neg hname] at himpl
        cases himpl
    | _ => cases himpl
  · rintro ⟨s, hs, hname⟩
    cases s with
    | functionDef name args body decorators returns =>
        refine ⟨(args, body), List.mem_filterMap.mpr ⟨_, hs, if_pos ?_⟩⟩
        simpa [Stmt.isFunction] using hname
    | _ => cases hname

theorem ready_topLevel {pre post : Program} (hpre : ∀ s ∈ pre, s.isFunction "on_tick" = false)
    (args : Arguments) (body : List Stmt) (decorators returns : List Expr) :
    (implementations (pre ++ implement (.functionDef "on_tick" args body decorators returns) :: post) ≠
        [] ∧
      ∀ f ∈ implementations
        (pre ++ implement (.functionDef "on_tick" args body decorators returns) :: post), Ready f) ↔
      Translatable
        (pre ++ (Stmt.functionDef "on_tick" args body decorators returns).strip :: post) := by
  have hprepared : implementations
      (pre ++ implement (.functionDef "on_tick" args body decorators returns) :: post) =
      implementations pre ++ (implArguments args, [identity "_md", identity "_oo"] ++ body) ::
        implementations post := by
    rw [implementations_append, implementations_cons]
    rfl
  have hbare : implementations
      (pre ++ (Stmt.functionDef "on_tick" args body decorators returns).strip :: post) =
      implementations pre ++ implementations post := by
    rw [implementations_append, implementations_cons]
    rfl
  have hfirst :
      (pre ++ (Stmt.functionDef "on_tick" args body decorators returns).strip :: post).find?
          (Stmt.isFunction "on_tick") =
        some (.functionDef "on_tick" args.strip body decorators returns) := by
    have hnone : pre.find? (Stmt.isFunction "on_tick") = none :=
      List.find?_eq_none.mpr fun s hs => by simp [hpre s hs]
    rw [List.find?_append, hnone, Option.none_or]
    exact List.find?_cons_of_pos rfl
  have hready : Ready (implArguments args, [identity "_md", identity "_oo"] ++ body) ↔
      args.vararg = [] ∧ args.kwarg = [] ∧ untranslated body = [] := by
    have hbody : untranslated ([identity "_md", identity "_oo"] ++ body) = untranslated body :=
      collectAll_append _ _
    unfold Ready
    rw [implArguments_isImpl, hbody, and_assoc]
  rw [hprepared]
  constructor
  · rintro ⟨-, hall⟩
    rw [List.forall_mem_append, List.forall_mem_cons, hready] at hall
    obtain ⟨hbefore, honTick, hafter⟩ := hall
    refine ⟨⟨_, List.mem_append_right _ List.mem_cons_self, .inl rfl⟩, ?_, ?_⟩
    · intro args' body' decorators' returns' hfind
      rw [hfirst] at hfind
      cases hfind
      exact honTick
    · rw [hbare]
      exact List.forall_mem_append.mpr ⟨hbefore, hafter⟩
  · intro htranslatable
    refine ⟨by simp, ?_⟩
    have hown := htranslatable.own
    rw [hbare, List.forall_mem_append] at hown
    rw [List.forall_mem_append, List.forall_mem_cons, hready]
    have honTick := htranslatable.onTick _ _ _ _ hfirst
    exact ⟨hown.1, honTick, hown.2⟩

theorem ready_deep {p : Program} {hole : Hole} {t t' : Stmt}
    (hnone : ∀ s ∈ p, s.isFunction "on_tick" = false) (hdeep : hole.Deep p)
    (heq : untranslated [t] = untranslated [t']) :
    (implementations (hole.put t) ≠ [] ∧ ∀ f ∈ implementations (hole.put t), Ready f) ↔
      Translatable (hole.put t') := by
  obtain ⟨pre, u, post, around, rfl, hput, hhead, hbody⟩ := hdeep
  have hother : ∀ s ∈ pre ++ around t' :: post, s.isFunction "on_tick" = false := by
    intro s hs
    rcases List.mem_append.mp hs with hs | hs
    · exact hnone s (List.mem_append_left _ hs)
    rcases List.mem_cons.mp hs with rfl | hs
    · rw [isFunction_head, hhead, ← isFunction_head]
      exact hnone u (List.mem_append_right _ List.mem_cons_self)
    · exact hnone s (List.mem_append_right _ (List.mem_cons_of_mem _ hs))
  -- the two programs have the same functions, and the same is left in each
  have hready : (∀ f ∈ implementations (hole.put t), Ready f) ↔
      ∀ f ∈ implementations (hole.put t'), Ready f := by
    have haround : (∀ f ∈ (around t).implementation?.toList, Ready f) ↔
        ∀ f ∈ (around t').implementation?.toList, Ready f := by
      rw [implementation_head, implementation_head, hhead, hhead]
      cases u.head? with
      | none => exact Iff.rfl
      | some f =>
          simp only [Option.bind_some]
          split
          · simp only [Option.toList_some, List.forall_mem_singleton, Ready, hbody t t' heq]
          · exact Iff.rfl
    rw [hput, hput, implementations_append, implementations_append, implementations_cons,
      implementations_cons, List.forall_mem_append, List.forall_mem_append, List.forall_mem_append,
      List.forall_mem_append, haround]
  have hdefined : implementations (hole.put t) ≠ [] ↔ implementations (hole.put t') ≠ [] := by
    have hexists : ∀ x, (∃ s ∈ pre ++ around x :: post, s.isFunction "on_tick__impl" = true) ↔
        (∃ s ∈ pre, s.isFunction "on_tick__impl" = true) ∨ u.isFunction "on_tick__impl" = true ∨
          ∃ s ∈ post, s.isFunction "on_tick__impl" = true := by
      intro x
      rw [isFunction_head u, ← hhead x, ← isFunction_head]
      simp [or_and_right, exists_or]
    rw [implementations_ne_nil, implementations_ne_nil, hput, hput, hexists, hexists]
  rw [hready, hdefined, implementations_ne_nil]
  constructor
  · rintro ⟨⟨s, hs, hname⟩, hall⟩
    refine ⟨⟨s, hs, .inr hname⟩, ?_, hall⟩
    intro args body decorators returns hfind
    have hfound := List.mem_of_find?_eq_some hfind
    rw [hput] at hfound
    exact absurd (hother _ hfound) (by simp [Stmt.isFunction])
  · intro htranslatable
    refine ⟨?_, htranslatable.own⟩
    obtain ⟨s, hs, hname | hname⟩ := htranslatable.defined
    · rw [hput] at hs
      rw [hother s hs] at hname
      cases hname
    · exact ⟨s, hs, hname⟩

/-- The translation of a prepared program is closed if and only if there are rules for all. -/
theorem prepared_ready {p tree : Program} (hprepare : prepare p = .ok tree) :
    (implementations tree ≠ [] ∧ ∀ f ∈ implementations tree, Ready f) ↔ Translatable (bare p) := by
  unfold prepare at hprepare
  unfold bare requiredFunction
  cases hfind : findFunction "on_tick" p with
  | none =>
      rw [hfind] at hprepare
      cases hprepare
  | some hole =>
      rw [hfind] at hprepare
      cases hprepare
      rcases findFunction_cases hfind with ⟨pre, post, -, hpre, hput⟩ | ⟨hnone, hdeep⟩
      · obtain ⟨args, body, decorators, returns, hnode⟩ := findFunction_isFunction hfind
        dsimp only
        rw [hput, hput, hnode]
        exact ready_topLevel hpre args body decorators returns
      · refine ready_deep hnone hdeep ?_
        have hunnoticed : Unnoticed (fun s => s.kept.flatMap Expr.untranslated ++ s.declared)
            Expr.untranslated := by
          refine ⟨fun _ => rfl, ?_, rfl⟩
          rintro array (rfl | rfl) <;> rfl
        exact congrArg (· ++ []) (collect_implement hunnoticed hole.node)

/-! ## The translation -/

/-- A translation is what the visitor makes of the prepared program. -/
theorem transpile_ok {p m tree : Program} (hprepare : prepare p = .ok tree) :
    transpile p = .ok m ↔ ∃ idx, visitStmts tree 0 = .ok (m, idx) := by
  unfold transpile
  rw [hprepare, ok_bind]
  constructor
  · intro h
    obtain ⟨⟨m', idx⟩, hvisit, h⟩ := bind_eq_ok.mp h
    cases h
    exact ⟨idx, hvisit⟩
  · rintro ⟨idx, hvisit⟩
    rw [hvisit]
    rfl

theorem reads_prepare {p tree : Program} (hprepare : prepare p = .ok tree) :
    reads tree = reads (bare p) := by
  refine collect_prepare ⟨fun _ => rfl, ?_, rfl⟩ hprepare
  rintro array (rfl | rfl) <;> rfl

theorem prepare_of_scan {p : Program} (hscan : scan p = []) : ∃ tree, prepare p = .ok tree := by
  obtain ⟨hole, hfind⟩ := findFunction_of_scan hscan
  refine ⟨hole.put (implement hole.node), ?_⟩
  unfold prepare
  rw [show findFunction "on_tick" p = some hole from hfind]

/-- When the translation is closed: the program reads a field that is unknown, and there
is no translation, or it has rules for every occurrence of `state` and `orders`. -/
theorem closed_iff {p : Program} (hscan : scan p = []) :
    (∀ m, transpile p = .ok m → Closed m) ↔
      (∃ field ∈ reads (bare p), ¬ Known field) ∨ Translatable (bare p) := by
  obtain ⟨tree, hprepare⟩ := prepare_of_scan hscan
  have hdefined := (visitStmts_checks tree).defined_iff 0
  rw [reads_prepare hprepare] at hdefined
  by_cases hknown : ∀ field ∈ reads (bare p), Known field
  · obtain ⟨⟨m, idx⟩, hvisit⟩ := hdefined.mpr hknown
    have hunique : ∀ m', transpile p = .ok m' → m' = m := by
      intro m' hm'
      obtain ⟨idx', hvisit'⟩ := (transpile_ok hprepare).mp hm'
      rw [hvisit] at hvisit'
      cases hvisit'
      rfl
    have hclosed := (closed_visited hvisit).trans (prepared_ready hprepare)
    constructor
    · exact fun h => .inr (hclosed.mp (h m ((transpile_ok hprepare).mpr ⟨idx, hvisit⟩)))
    · rintro (⟨field, hfield, hunknown⟩ | htranslatable) m' hm'
      · exact absurd (hknown field hfield) hunknown
      · rw [hunique m' hm']
        exact hclosed.mpr htranslatable
  · push Not at hknown
    refine iff_of_true (fun m hm => ?_) (.inl hknown)
    obtain ⟨idx, hvisit⟩ := (transpile_ok hprepare).mp hm
    obtain ⟨field, hfield, hunknown⟩ := hknown
    exact absurd (hdefined.mp ⟨_, hvisit⟩ field hfield) hunknown

/-- `on_tick(state, orders)`. -/
def onTick (body : List Stmt) : Program :=
  [.functionDef "on_tick"
    { posonlyargs := [], args := [.node "arg" ["state"] [], .node "arg" ["orders"] []], vararg := []
      kwonlyargs := [], kwDefaults := [], kwarg := [], defaults := [] } body [] []]

def stateField (field : String) (ctx : Ctx) : Expr := .attribute (load "state") field ctx

/-- `state.s0 = state.bid_price` and `orders.limit_buy(state.s0, 10)`. -/
def quoting : Program :=
  onTick [.assign [stateField "s0" .store] (stateField "bid_price" .load),
    .expr (.call (.attribute (load "orders") "limit_buy" .load)
      [stateField "s0" .load, int 10] [])]

theorem closed_iff_quoting : scan quoting = [] ∧ ∀ m, transpile quoting = .ok m → Closed m := by
  refine ⟨rfl, (closed_iff rfl).mpr (.inr ⟨⟨_, List.mem_singleton_self _, .inl rfl⟩, ?_, ?_⟩)⟩
  · intro args body decorators returns hfind
    cases hfind
    exact ⟨rfl, rfl, rfl⟩
  · exact fun f hf => absurd hf List.not_mem_nil

/-- `state.s0 += 1`. -/
def counting : Program :=
  onTick [.compound "AugAssign" ["Add"] [.expr (stateField "s0" .store), .expr (int 1)]]

/-- An augmented assignment stays as it is, and `state` with it. -/
theorem augmented_untranslated :
    scan counting = [] ∧ ∃ m, transpile counting = .ok m ∧ ¬ Closed m := by
  refine ⟨rfl, _, rfl, fun hclosed => ?_⟩
  exact absurd (hclosed.translated _ List.mem_cons_self) (by decide)

end VidhiArena.Forge.Python
