import Mathlib.Data.Set.Basic
import VidhiArena.Forge.ScanExact

/-!
# What an accepted program can call

The banned builtins are compared with the callee of a call by name. A program gets hold of
functions in other ways, too: a name is loaded and passed on, or an attribute, an import or
a pattern leads to what the interpreter has loaded.

An execution is followed by what it holds. Which of the things in hand meet, in which order
and how often, is left open; so is what Python's library does with them (`Interpreter`).
-/

namespace VidhiArena.Forge.Python

variable {Obj : Type} {p : Program} {n : Node} {held : Set Obj}

/-! ## Banned names -/

/-- A name of `BANNED_BUILTINS` is loaded. -/
def Program.LoadsBanned (p : Program) : Prop :=
  ∃ id ∈ bannedBuiltins, p.Has (.expr (.name id .load))

/-- One is loaded that is not just what a call calls. -/
def Program.PassesBanned (p : Program) : Prop :=
  ∃ id ∈ bannedBuiltins, ∃ n, p.Has n ∧ Child .elsewhere (.expr (.name id .load)) n

def Program.Refused (p : Program) : Prop := (∃ n, p.Has n ∧ n.Banned) ∨ ¬ p.Signed

theorem scan_eq_nil : scan p = [] ↔ ¬ p.Refused := by
  rw [scan_exact, Program.Refused, not_or, not_not, not_exists]
  exact and_congr_left fun _ => forall_congr' fun _ => not_and.symm

theorem loadsBanned_cases (h : p.LoadsBanned) : p.PassesBanned ∨ ∃ n, p.Has n ∧ n.Banned := by
  obtain ⟨id, hid, s, hs, hbelow⟩ := h
  rcases Relation.ReflTransGen.cases_head hbelow with heq | ⟨parent, ⟨place, hchild⟩, hparent⟩
  · cases heq
  · cases place with
    | elsewhere => exact .inl ⟨id, hid, parent, ⟨s, hs, hparent⟩, hchild⟩
    | callee =>
        -- `visit_Call` objects
        refine .inr ⟨parent, ⟨s, hs, hparent⟩, ?_⟩
        cases hchild
        exact hid

theorem Program.PassesBanned.loads (h : p.PassesBanned) : p.LoadsBanned := by
  obtain ⟨id, hid, n, ⟨s, hs, hn⟩, hchild⟩ := h
  exact ⟨id, hid, s, hs, .head ⟨_, hchild⟩ hn⟩

/-- The scanner keeps the banned names out of a program if and only if it has another
objection or none of them stands outside of the callee of a call. -/
theorem no_banned_load_iff : (scan p = [] → ¬ p.LoadsBanned) ↔ p.Refused ∨ ¬ p.PassesBanned := by
  rw [scan_eq_nil]
  constructor
  · intro h
    by_cases hrefused : p.Refused
    · exact .inl hrefused
    · exact .inr fun hpasses => h hrefused hpasses.loads
  · rintro h haccepted hloads
    have hnot := h.resolve_left haccepted
    exact haccepted (.inl ((loadsBanned_cases hloads).resolve_left hnot))

/-! ## Executions -/

/-- What the execution of a node does with objects in hand. -/
inductive Use (Obj : Type) where
  /-- a name is loaded that the program has not bound; a variable stands for what is in hand -/
  | name (id : String)
  | constant (value : Literal)
  | attribute (o : Obj) (attr : String)
  | importName (name : String)
  | importFrom (module : Option String) (name : String) (level : Nat)
  | call (f : Obj) (args : List Obj)
  /-- all else: operators, subscripts, loops, containers, functions, classes -/
  | operate (cls : String) (operands : List Obj)

/-- Python without the program: what comes out of a use, and what is called on the way. (What a
function of the program returns is in hand already.) -/
structure Interpreter (Obj : Type) where
  gives : Use Obj → Obj → Prop
  calls : Use Obj → Obj → Prop

/-- A call calls its function, and whatever the interpreter calls. -/
def Interpreter.Calls (w : Interpreter Obj) (u : Use Obj) (o : Obj) : Prop :=
  (∃ args, u = .call o args) ∨ w.calls u o

/-- The class of a node, for what is not told apart otherwise. -/
def Node.cls : Node → String
  | .expr (.name _ _) => "Name"
  | .expr (.constant _) => "Constant"
  | .expr (.attribute _ _ _) => "Attribute"
  | .expr (.call _ _ _) => "Call"
  | .expr (.node cls _ _) => cls
  | .stmt (.functionDef _ _ _ _ _) => "FunctionDef"
  | .stmt (.assign _ _) => "Assign"
  | .stmt (.expr _) => "Expr"
  | .stmt (.forLoop _ _ _ _) => "For"
  | .stmt (.declare (.importNames _)) => "Import"
  | .stmt (.declare (.importFrom _ _ _)) => "ImportFrom"
  | .stmt (.declare (.globalNames _)) => "Global"
  | .stmt (.declare (.nonlocalNames _)) => "Nonlocal"
  | .stmt (.compound cls _ _) => cls

/-- What a node can do, whatever the operands are. -/
inductive Node.Does (held : Set Obj) : Node → Use Obj → Prop where
  | name {id : String} : Does held (.expr (.name id .load)) (.name id)
  | constant {value : Literal} : Does held (.expr (.constant value)) (.constant value)
  /-- also where it is assigned to: `+=` reads it first -/
  | read {value : Expr} {attr : String} {ctx : Ctx} {o : Obj} (ho : o ∈ held) :
      Does held (.expr (.attribute value attr ctx)) (.attribute o attr)
  /-- `case cls(attr=pattern)` -/
  | pattern {attr : String} {attrs : List String} {children : List Expr} {o : Obj}
      (ho : o ∈ held) (hattr : attr ∈ attrs) :
      Does held (.expr (.node "MatchClass" attrs children)) (.attribute o attr)
  | importName {name : String × Option String} {names : List (String × Option String)}
      (h : name ∈ names) :
      Does held (.stmt (.declare (.importNames names))) (.importName name.1)
  | importFrom {module : Option String} {level : Nat} {name : String × Option String}
      {names : List (String × Option String)} (h : name ∈ names) :
      Does held (.stmt (.declare (.importFrom module names level)))
        (.importFrom module name.1 level)
  | call {func : Expr} {args keywords : List Expr} {f : Obj} {operands : List Obj}
      (hf : f ∈ held) (hoperands : ∀ a ∈ operands, a ∈ held) :
      Does held (.expr (.call func args keywords)) (.call f operands)
  | decorate {name : String} {args : Arguments} {body : List Stmt} {decorators returns : List Expr}
      {f o : Obj} (hf : f ∈ held) (ho : o ∈ held) (hdecorators : decorators ≠ []) :
      Does held (.stmt (.functionDef name args body decorators returns)) (.call f [o])
  | operate {n : Node} {operands : List Obj} (hoperands : ∀ a ∈ operands, a ∈ held) :
      Does held n (.operate n.cls operands)

/-- An execution of the program: what it holds, and what has been called. -/
inductive Program.Run (w : Interpreter Obj) (p : Program) (given : Set Obj) :
    List Obj → List Obj → Prop where
  | start : Run w p given [] []
  | take {held called : List Obj} {o : Obj} (h : Run w p given held called) (ho : o ∈ given) :
      Run w p given (o :: held) called
  | gain {held called : List Obj} {n : Node} {u : Use Obj} {o : Obj}
      (h : Run w p given held called) (hn : p.Has n) (hu : n.Does {a | a ∈ held} u)
      (ho : w.gives u o) : Run w p given (o :: held) called
  | call {held called : List Obj} {n : Node} {u : Use Obj} {o : Obj}
      (h : Run w p given held called) (hn : p.Has n) (hu : n.Does {a | a ∈ held} u)
      (ho : w.Calls u o) : Run w p given held (o :: called)

/-! ## What an execution can hold -/

def Interpreter.Bans (w : Interpreter Obj) (o : Obj) : Prop :=
  ∃ id ∈ bannedBuiltins, w.gives (.name id) o

/-- What the nodes of the program do with objects of the set leads to objects of the set, and to
no call of a banned builtin. -/
structure Program.Contained (p : Program) (w : Interpreter Obj) (tame : Set Obj) : Prop where
  gives : ∀ n, p.Has n → ∀ u, n.Does tame u → ∀ o, w.gives u o → o ∈ tame
  calls : ∀ n, p.Has n → ∀ u, n.Does tame u → ∀ o, w.Calls u o → ¬ w.Bans o

variable {w : Interpreter Obj} {tame given : Set Obj}

theorem Node.Does.mono {held' : Set Obj} {u : Use Obj} (h : n.Does held u) (hsub : held ⊆ held') :
    n.Does held' u := by
  cases h with
  | name => exact .name
  | constant => exact .constant
  | read ho => exact .read (hsub ho)
  | pattern ho hattr => exact .pattern (hsub ho) hattr
  | importName h => exact .importName h
  | importFrom h => exact .importFrom h
  | call hf hoperands => exact .call (hsub hf) fun a ha => hsub (hoperands a ha)
  | decorate hf ho hdecorators => exact .decorate (hsub hf) (hsub ho) hdecorators
  | operate hoperands => exact .operate fun a ha => hsub (hoperands a ha)

namespace Program.Run

/-- Whatever the order of the steps, an execution holds objects of the set only. -/
theorem contained (hp : p.Contained w tame) (hgiven : given ⊆ tame) {held called : List Obj}
    (h : p.Run w given held called) : (∀ o ∈ held, o ∈ tame) ∧ ∀ o ∈ called, ¬ w.Bans o := by
  induction h with
  | start => exact ⟨fun o ho => absurd ho List.not_mem_nil, fun o ho => absurd ho List.not_mem_nil⟩
  | take h ho ih => exact ⟨List.forall_mem_cons.mpr ⟨hgiven ho, ih.1⟩, ih.2⟩
  | gain h hn hu ho ih =>
      have hgives := hp.gives _ hn _ (hu.mono ih.1) _ ho
      exact ⟨List.forall_mem_cons.mpr ⟨hgives, ih.1⟩, ih.2⟩
  | call h hn hu ho ih =>
      have hcalls := hp.calls _ hn _ (hu.mono ih.1) _ ho
      exact ⟨ih.1, List.forall_mem_cons.mpr ⟨hcalls, ih.2⟩⟩

theorem append {held held' called called' : List Obj} (h : p.Run w given held called)
    (h' : p.Run w given held' called') : p.Run w given (held' ++ held) (called' ++ called) := by
  have hsub : ∀ l : List Obj, {a | a ∈ l} ⊆ {a | a ∈ l ++ held} :=
    fun l a ha => List.mem_append_left held ha
  -- the second run takes its steps with more in hand
  induction h' with
  | start => exact h
  | take _ ho ih => exact ih.take ho
  | gain _ hn hu ho ih => exact ih.gain hn (hu.mono (hsub _)) ho
  | call _ hn hu ho ih => exact ih.call hn (hu.mono (hsub _)) ho

end Program.Run

def Program.canHold (p : Program) (w : Interpreter Obj) (given : Set Obj) : Set Obj :=
  {o | ∃ held called, p.Run w given held called ∧ o ∈ held}

theorem exists_run {objs : List Obj} (h : ∀ o ∈ objs, o ∈ p.canHold w given) :
    ∃ held called, p.Run w given held called ∧ ∀ o ∈ objs, o ∈ held := by
  induction objs with
  | nil => exact ⟨[], [], .start, fun o ho => absurd ho List.not_mem_nil⟩
  | cons o objs ih =>
      obtain ⟨hfirst, hlater⟩ := List.forall_mem_cons.mp h
      obtain ⟨held, called, hrun, hmem⟩ := hfirst
      obtain ⟨held', called', hrun', hmem'⟩ := ih hlater
      exact ⟨_, _, hrun.append hrun', List.forall_mem_cons.mpr
        ⟨List.mem_append_right _ hmem, fun a ha => List.mem_append_left _ (hmem' a ha)⟩⟩

theorem Node.Does.exists_run {u : Use Obj} (h : n.Does (p.canHold w given) u) :
    ∃ held called, p.Run w given held called ∧ n.Does {a | a ∈ held} u := by
  cases h with
  | name => exact ⟨_, _, .start, .name⟩
  | constant => exact ⟨_, _, .start, .constant⟩
  | importName h => exact ⟨_, _, .start, .importName h⟩
  | importFrom h => exact ⟨_, _, .start, .importFrom h⟩
  | read ho =>
      obtain ⟨held, called, hrun, hmem⟩ := ho
      exact ⟨held, called, hrun, .read hmem⟩
  | pattern ho hattr =>
      obtain ⟨held, called, hrun, hmem⟩ := ho
      exact ⟨held, called, hrun, .pattern hmem hattr⟩
  | call hf hoperands =>
      obtain ⟨held, called, hrun, hmem⟩ :=
        Python.exists_run (List.forall_mem_cons.mpr ⟨hf, hoperands⟩)
      obtain ⟨hfirst, hlater⟩ := List.forall_mem_cons.mp hmem
      exact ⟨held, called, hrun, .call hfirst hlater⟩
  | decorate hf ho hdecorators =>
      obtain ⟨held, called, hrun, hmem⟩ := hf
      obtain ⟨held', called', hrun', hmem'⟩ := ho
      exact ⟨_, _, hrun.append hrun', .decorate (List.mem_append_right _ hmem)
        (List.mem_append_left _ hmem') hdecorators⟩
  | operate hoperands =>
      obtain ⟨held, called, hrun, hmem⟩ := Python.exists_run hoperands
      exact ⟨held, called, hrun, .operate hmem⟩

/-- What a program can hold is such a set, if it calls no banned builtin. -/
theorem contained_canHold
    (h : ∀ held called, p.Run w given held called → ∀ o ∈ called, ¬ w.Bans o) :
    p.Contained w (p.canHold w given) where
  gives n hn u hu o ho := by
    obtain ⟨held, called, hrun, hdoes⟩ := hu.exists_run
    exact ⟨_, _, hrun.gain hn hdoes ho, List.mem_cons_self⟩
  calls n hn u hu o ho := by
    obtain ⟨held, called, hrun, hdoes⟩ := hu.exists_run
    exact h _ _ (hrun.call hn hdoes ho) o List.mem_cons_self

theorem calls_iff : (∀ held called, p.Run w given held called → ∀ o ∈ called, ¬ w.Bans o) ↔
    ∃ tame, given ⊆ tame ∧ p.Contained w tame := by
  constructor
  · exact fun h => ⟨p.canHold w given,
      fun o ho => ⟨_, _, .take .start ho, List.mem_cons_self⟩, contained_canHold h⟩
  · rintro ⟨tame, hgiven, hp⟩ held called hrun
    exact (hrun.contained hp hgiven).2

/-- What it gives and what it calls is in the set. -/
structure Interpreter.Keeps (w : Interpreter Obj) (tame : Set Obj) (u : Use Obj) : Prop where
  gives : ∀ o, w.gives u o → o ∈ tame
  calls : ∀ o, w.Calls u o → o ∈ tame

/-- A set of objects from which constants and calls do not lead to a banned builtin. -/
structure Interpreter.Confines (w : Interpreter Obj) (tame : Set Obj) : Prop where
  banned : ∀ o ∈ tame, ¬ w.Bans o
  constant : ∀ value, w.Keeps tame (.constant value)
  call : ∀ f ∈ tame, ∀ args : List Obj, (∀ a ∈ args, a ∈ tame) → w.Keeps tame (.call f args)

/-- It is neither a constant nor a call. -/
def Use.isWord : Use Obj → Bool
  | .constant _ | .call _ _ => false
  | .name _ | .attribute _ _ | .importName _ | .importFrom _ _ _ | .operate _ _ => true

/-- A word of the node leads out of the set: a name such as `__builtins__`, an attribute such as
`_os`, or a class, which is made by a call of `type`. -/
def Interpreter.LeadsOut (w : Interpreter Obj) (tame : Set Obj) (n : Node) : Prop :=
  ∃ u : Use Obj, u.isWord = true ∧ n.Does tame u ∧ ¬ w.Keeps tame u

theorem keeps_of_does (hw : w.Confines tame) {u : Use Obj} (hn : ¬ w.LeadsOut tame n)
    (hu : n.Does tame u) : w.Keeps tame u := by
  have hword : u.isWord = true → w.Keeps tame u := fun hword =>
    Classical.byContradiction fun hnot => hn ⟨u, hword, hu, hnot⟩
  -- a decorator is a call with one argument
  cases hu with
  | constant => exact hw.constant _
  | call hf hoperands => exact hw.call _ hf _ hoperands
  | decorate hf ho _ =>
      refine hw.call _ hf _ fun a ha => ?_
      rw [List.mem_singleton.mp ha]
      exact ho
  | name | read | pattern | importName | importFrom | operate => exact hword rfl

/-- Where no word of the program leads out, it stays in the set. -/
theorem contained_of_words (hw : w.Confines tame) (h : ∀ n, p.Has n → ¬ w.LeadsOut tame n) :
    p.Contained w tame where
  gives n hn _ hu o ho := (keeps_of_does hw (h n hn) hu).gives o ho
  calls n hn _ hu o ho := hw.banned o ((keeps_of_does hw (h n hn) hu).calls o ho)

/-! ## A corner of Python's library -/

inductive Item where
  /-- a function that is banned -/
  | banned
  | random
  | os
  | sys
  | modules
  | builtins
  | other
deriving DecidableEq

/-- `random` has imported `os`, which has imported `sys`, which has the table of all modules. -/
def libraryAttribute (o : Item) (attr : String) : Item :=
  if o = .random ∧ attr = "_os" then .os
  else if o = .os ∧ attr = "sys" then .sys
  else if o = .sys ∧ attr = "modules" then .modules
  else if o = .builtins ∧ attr ∈ bannedBuiltins then .banned
  else .other

def libraryResult : Use Item → Item
  | .name id => if id ∈ bannedBuiltins then .banned else .other
  | .attribute o attr => libraryAttribute o attr
  | .importName name => if name = "random" then .random else .other
  | .operate cls operands =>
      if cls = "Subscript" ∧ Item.modules ∈ operands then .builtins else .other
  | .constant _ | .importFrom _ _ _ | .call _ _ => .other

def library : Interpreter Item := ⟨fun u o => o = libraryResult u, fun _ _ => False⟩

theorem bans_banned : library.Bans .banned := ⟨"eval", by decide, rfl⟩

/-- `random` without what it has imported. -/
def drawn : Set Item := {o | o = .random ∨ o = .other}

/-- Its words are no banned names, and no way out of `random`. -/
def Node.Drawn : Node → Prop
  | .expr (.name id _) => id ∉ bannedBuiltins
  | .expr (.attribute _ attr _) => attr ≠ "_os"
  | .expr (.node _ values _) => "_os" ∉ values
  | _ => True

theorem libraryAttribute_drawn {o : Item} {attr : String} (ho : o ∈ drawn) (hattr : attr ≠ "_os") :
    libraryAttribute o attr ∈ drawn := by
  rcases ho with rfl | rfl
  · exact .inr (by simp [libraryAttribute, hattr])
  · exact .inr (by simp [libraryAttribute])

theorem keeps_library {u : Use Item} (hcall : ∀ f args, u = .call f args → f ∈ drawn)
    (h : libraryResult u ∈ drawn) : library.Keeps drawn u where
  gives := fun _ ho => ho ▸ h
  calls := by
    rintro o (⟨args, hu⟩ | hcalls)
    · exact hcall o args hu
    · exact hcalls.elim

theorem library_confines : library.Confines drawn where
  banned := by
    rintro o ho ⟨id, hid, hgives⟩
    have hbanned : o = .banned := hgives.trans (if_pos hid)
    rw [hbanned] at ho
    rcases ho with h | h <;> cases h
  constant := fun _ => keeps_library (fun _ _ hu => nomatch hu) (.inr rfl)
  call := by
    refine fun f hf args _ => keeps_library (fun g args' heq => ?_) (.inr rfl)
    cases heq
    exact hf

theorem Node.Drawn.keeps (h : n.Drawn) : ¬ library.LeadsOut drawn n := by
  rintro ⟨u, hword, hu, hnot⟩
  refine hnot (keeps_library (fun f args heq => ?_) ?_)
  · rw [heq] at hword
    cases hword
  · cases hu with
    | name => exact .inr (if_neg h)
    | constant | call | decorate => cases hword
    | read ho => exact libraryAttribute_drawn ho h
    | pattern ho hattr => exact libraryAttribute_drawn ho fun heq => h (heq ▸ hattr)
    | importName =>
        rename_i name _ _
        by_cases hname : name.1 = "random"
        · exact .inl (if_pos hname)
        · exact .inr (if_neg hname)
    | importFrom => exact .inr rfl
    | operate hoperands =>
        refine .inr (if_neg fun hmodules => ?_)
        rcases hoperands _ hmodules.2 with hmem | hmem <;> cases hmem

/-- `on_tick(state, orders)` with this body. -/
def strategy (body : List Stmt) : Stmt :=
  .functionDef "on_tick"
    ⟨[], [.node "arg" ["state"] [], .node "arg" ["orders"] []], [], [], [], [], []⟩ body [] []

/-- `import random` -/
def importRandom : Stmt := .declare (.importNames [("random", none)])

/-- `random.randint(1, 5)`, in an order. -/
def drawing : Program :=
  [importRandom, strategy [.expr (.call (.attribute (.name "orders" .load) "market_buy" .load)
    [.call (.attribute (.name "random" .load) "randint" .load)
      [.constant (.int 1), .constant (.int 5)] []] [])]]

theorem drawing_drawn : ∀ n, drawing.Has n → n.Drawn := by
  rw [Program.forall_has_iff]
  simp [drawing, importRandom, strategy, Arguments.children, Node.Drawn, bannedBuiltins]

example {held called : List Item} (h : drawing.Run library drawn held called) :
    Item.banned ∉ called := fun hmem =>
  (h.contained (contained_of_words library_confines fun n hn => (drawing_drawn n hn).keeps)
    fun _ ho => ho).2 _ hmem bans_banned

/-- `def on_tick(state, orders): f = eval; f('1')`. -/
def aliasing : Program :=
  [strategy [.assign [.name "f" .store] (.name "eval" .load),
    .expr (.call (.name "f" .load) [.constant (.other "'1'")] [])]]

/-- `random._os.sys.modules['builtins']` -/
def builtinsOfRandom : Expr :=
  .node "Subscript" ["Load"] [.attribute (.attribute (.attribute (.name "random" .load) "_os" .load)
    "sys" .load) "modules" .load, .constant (.other "'builtins'")]

/-- `import random`, and `builtinsOfRandom.eval('1')` in `on_tick(state, orders)`. -/
def wandering : Program :=
  [importRandom, strategy [.expr (.call (.attribute builtinsOfRandom "eval" .load)
    [.constant (.other "'1'")] [])]]

theorem has_strategy {s : Stmt} {body : List Stmt} (h : strategy body ∈ p) (hs : s ∈ body) :
    p.Has (.stmt s) :=
  Program.Has.child ⟨_, h, .refl _⟩ (.body hs)

theorem aliasing_calls :
    ∃ held called, aliasing.Run library ∅ held called ∧ ∃ o ∈ called, library.Bans o := by
  have hassign : aliasing.Has (.stmt (.assign [.name "f" .store] (.name "eval" .load))) :=
    has_strategy List.mem_cons_self List.mem_cons_self
  have hexpr : aliasing.Has
      (.stmt (.expr (.call (.name "f" .load) [.constant (.other "'1'")] []))) :=
    has_strategy List.mem_cons_self (List.mem_cons_of_mem _ List.mem_cons_self)
  have hheld : aliasing.Run library ∅ [Item.banned] [] :=
    .gain .start (hassign.child .assigned) .name rfl
  have hdoes : Node.Does {a | a ∈ [Item.banned]}
      (.expr (.call (.name "f" .load) [.constant (.other "'1'")] [])) (.call .banned []) :=
    .call List.mem_cons_self fun a ha => absurd ha List.not_mem_nil
  exact ⟨_, _, hheld.call (hexpr.child .exprValue) hdoes (.inl ⟨_, rfl⟩), _, List.mem_cons_self,
    bans_banned⟩

/-- An attribute of `random` leads to all modules, and `eval` is an attribute of one. -/
theorem wandering_calls :
    ∃ held called, wandering.Run library ∅ held called ∧ ∃ o ∈ called, library.Bans o := by
  have himport : wandering.Has (.stmt importRandom) :=
    ⟨importRandom, List.mem_cons_self, .refl _⟩
  have hexpr : wandering.Has (.stmt (.expr (.call (.attribute builtinsOfRandom "eval" .load)
      [.constant (.other "'1'")] []))) :=
    has_strategy (List.mem_cons_of_mem _ List.mem_cons_self) List.mem_cons_self
  have hcall := hexpr.child .exprValue
  have heval := hcall.child .callee
  have hsubscript := heval.child .value
  have hmodules := hsubscript.child (.child List.mem_cons_self)
  have hsys := hmodules.child .value
  have hos := hsys.child .value
  have hrandom : wandering.Run library ∅ [Item.random] [] :=
    .gain .start himport (.importName List.mem_cons_self) rfl
  have hheld := ((hrandom.gain hos (.read List.mem_cons_self) rfl).gain hsys
    (.read List.mem_cons_self) rfl).gain hmodules (.read List.mem_cons_self) rfl
  have hindex : Node.Does {a | a ∈ [Item.modules, .sys, .os, .random]} (.expr builtinsOfRandom)
      (.operate "Subscript" [Item.modules]) :=
    .operate fun a ha => List.mem_singleton.mp ha ▸ List.mem_cons_self
  have hbanned := (hheld.gain hsubscript hindex rfl).gain heval (.read List.mem_cons_self) rfl
  have hdoes : Node.Does {a | a ∈ [Item.banned, .builtins, .modules, .sys, .os, .random]}
      (.expr (.call (.attribute builtinsOfRandom "eval" .load) [.constant (.other "'1'")] []))
      (.call .banned []) :=
    .call List.mem_cons_self fun a ha => absurd ha List.not_mem_nil
  exact ⟨_, _, hbanned.call hcall hdoes (.inl ⟨_, rfl⟩), _, List.mem_cons_self, bans_banned⟩

theorem wandering_names : ¬ wandering.LoadsBanned := by
  have hnames : ∀ n, wandering.Has n → ∀ id ∈ bannedBuiltins, n ≠ .expr (.name id .load) := by
    rw [Program.forall_has_iff]
    simp [wandering, builtinsOfRandom, importRandom, strategy, Arguments.children, bannedBuiltins]
  rintro ⟨id, hid, hn⟩
  exact hnames _ hn id hid rfl

end VidhiArena.Forge.Python
