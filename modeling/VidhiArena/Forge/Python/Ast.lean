import Mathlib.Data.List.Flatten

/-!
# Python programs

The trees of the `ast` module. Classes that the scanner or the transpiler knows have
constructors of their own; of any other class it is kept what its children are, in the
order of `_fields`, in which `generic_visit` goes through them. Positions in the text are
left out.

`ast.walk` goes through a tree level by level. It gives access to the nodes in place, so a
node comes with the program around it (`Hole`).
-/

namespace VidhiArena.Forge.Python

inductive Ctx where
  | load
  | store
  | del
deriving DecidableEq

/-- The values of `Constant`. -/
inductive Literal where
  | int (n : Int)
  /-- by the text of the number -/
  | float (text : String)
  /-- strings, `None` and the others, by their text -/
  | other (text : String)
deriving DecidableEq

/-- Expressions, and what stands in them or beside them: keywords, comprehensions,
parameters, patterns. -/
inductive Expr where
  | name (id : String) (ctx : Ctx)
  | constant (value : Literal)
  | attribute (value : Expr) (attr : String) (ctx : Ctx)
  | call (func : Expr) (args keywords : List Expr)
  /-- any other class, its fields that are no nodes, and its children -/
  | node (cls : String) (values : List String) (children : List Expr)

/-- `arguments`; the lists hold nodes of class `arg` and default values. -/
structure Arguments where
  posonlyargs : List Expr
  args : List Expr
  vararg : List Expr
  kwonlyargs : List Expr
  kwDefaults : List Expr
  kwarg : List Expr
  defaults : List Expr

/-- Statements that hold no nodes but names. -/
inductive Declaration where
  /-- `import name as asname` -/
  | importNames (names : List (String × Option String))
  | importFrom (module : Option String) (names : List (String × Option String)) (level : Nat)
  | globalNames (names : List String)
  | nonlocalNames (names : List String)

mutual

/-- Statements, and what holds statements beside them: handlers, the cases of `match`. -/
inductive Stmt where
  /-- `returns` with the type parameters -/
  | functionDef (name : String) (args : Arguments) (body : List Stmt)
      (decorators returns : List Expr)
  | assign (targets : List Expr) (value : Expr)
  | expr (value : Expr)
  | forLoop (target iter : Expr) (body orelse : List Stmt)
  | declare (d : Declaration)
  /-- any other class, its fields that are no nodes, and its children -/
  | compound (cls : String) (values : List String) (parts : List Part)

/-- A child: an expression, or a list of statements. -/
inductive Part where
  | expr (e : Expr)
  | stmts (ss : List Stmt)

end

/-- The body of `Module`. -/
abbrev Program := List Stmt

/-- `iter_child_nodes`. -/
def Arguments.children (a : Arguments) : List Expr :=
  a.posonlyargs ++ a.args ++ a.vararg ++ a.kwonlyargs ++ a.kwDefaults ++ a.kwarg ++ a.defaults

namespace Expr

def binOp (left : Expr) (op : String) (right : Expr) : Expr := .node "BinOp" [op] [left, right]

def subscript (value slice : Expr) (ctx : String) : Expr := .node "Subscript" [ctx] [value, slice]

/-- The parameter of a node of class `arg`. -/
def arg? : Expr → Option String
  | .node cls values _ => if cls = "arg" then values.head? else none
  | _ => none

/-- The name, of a node of class `Name`. -/
def name? : Expr → Option String
  | .name id _ => some id
  | _ => none

/-- `state.field`. -/
def field? : Expr → Option (String × Ctx)
  | .attribute value attr ctx => if value.name? = some "state" then some (attr, ctx) else none
  | _ => none

/-- `orders.method`. -/
def method? : Expr → Option String
  | .attribute value attr _ => if value.name? = some "orders" then some attr else none
  | _ => none

variable {β : Type}

mutual

/-- `h` of the expression and of all below it. -/
def collect (h : Expr → List β) : Expr → List β
  | .name id ctx => h (.name id ctx)
  | .constant value => h (.constant value)
  | .attribute value attr ctx => h (.attribute value attr ctx) ++ value.collect h
  | .call func args keywords =>
      h (.call func args keywords) ++ func.collect h ++ collectAll h args ++ collectAll h keywords
  | .node cls values children => h (.node cls values children) ++ collectAll h children

def collectAll (h : Expr → List β) : List Expr → List β
  | [] => []
  | e :: es => e.collect h ++ collectAll h es

end

end Expr

/-! ## Collections over a program -/

section Collect

variable {β : Type}

mutual

/-- What `simple` gives for the assignments, expression statements and declarations in a
statement, and `expr` for the expressions in its others. -/
def Stmt.collect (simple : Stmt → List β) (expr : Expr → List β) : Stmt → List β
  | .functionDef _ args body decorators returns =>
      args.children.flatMap expr ++ collectAll simple expr body ++
        (decorators.flatMap expr ++ returns.flatMap expr)
  | .assign targets value => simple (.assign targets value)
  | .expr value => simple (.expr value)
  | .forLoop target iter body orelse =>
      expr target ++ expr iter ++ collectAll simple expr body ++ collectAll simple expr orelse
  | .declare d => simple (.declare d)
  | .compound _ _ parts => collectParts simple expr parts

def collectAll (simple : Stmt → List β) (expr : Expr → List β) : List Stmt → List β
  | [] => []
  | s :: ss => s.collect simple expr ++ collectAll simple expr ss

def collectParts (simple : Stmt → List β) (expr : Expr → List β) : List Part → List β
  | [] => []
  | .expr e :: parts => expr e ++ collectParts simple expr parts
  | .stmts ss :: parts => collectAll simple expr ss ++ collectParts simple expr parts

end

variable {simple simple₁ simple₂ : Stmt → List β} {expr expr₁ expr₂ : Expr → List β}

theorem collectAll_eq (ss : List Stmt) :
    collectAll simple expr ss = ss.flatMap (Stmt.collect simple expr) := by
  induction ss with
  | nil => rfl
  | cons s ss ih => rw [collectAll, ih, List.flatMap_cons]

theorem collectAll_append (ss ts : List Stmt) :
    collectAll simple expr (ss ++ ts) = collectAll simple expr ss ++ collectAll simple expr ts := by
  simp only [collectAll_eq, List.flatMap_append]

end Collect

/-! ## Collections side by side -/

section Sides

variable {β : Type} {simple simple₁ simple₂ : Stmt → List β} {expr expr₁ expr₂ : Expr → List β}

/-- What is collected together is collected apart. -/
structure Together (simple simple₁ simple₂ : Stmt → List β) (expr expr₁ expr₂ : Expr → List β) :
    Prop where
  simple : ∀ s, (simple s).Perm (simple₁ s ++ simple₂ s)
  expr : ∀ e, (expr e).Perm (expr₁ e ++ expr₂ e)

theorem perm_append_append {l l₁ l₂ r r₁ r₂ : List β} (hl : l.Perm (l₁ ++ l₂))
    (hr : r.Perm (r₁ ++ r₂)) : (l ++ r).Perm ((l₁ ++ r₁) ++ (l₂ ++ r₂)) := by
  refine (hl.append hr).trans ?_
  rw [List.append_assoc, List.append_assoc]
  refine List.Perm.append_left l₁ ?_
  rw [← List.append_assoc, ← List.append_assoc]
  exact List.Perm.append_right r₂ List.perm_append_comm

theorem flatMap_together (h : ∀ e, (expr e).Perm (expr₁ e ++ expr₂ e)) (es : List Expr) :
    (es.flatMap expr).Perm (es.flatMap expr₁ ++ es.flatMap expr₂) := by
  induction es with
  | nil => exact .nil
  | cons e es ih => exact perm_append_append (h e) ih

mutual

theorem Together.stmt (h : Together simple simple₁ simple₂ expr expr₁ expr₂) : ∀ s : Stmt,
    (s.collect simple expr).Perm (s.collect simple₁ expr₁ ++ s.collect simple₂ expr₂)
  | .functionDef _ _ body _ _ =>
      perm_append_append (perm_append_append (flatMap_together h.expr _) (h.all body))
        (perm_append_append (flatMap_together h.expr _) (flatMap_together h.expr _))
  | .assign _ _ => h.simple _
  | .expr _ => h.simple _
  | .forLoop _ _ body orelse =>
      perm_append_append
        (perm_append_append (perm_append_append (h.expr _) (h.expr _)) (h.all body)) (h.all orelse)
  | .declare _ => h.simple _
  | .compound _ _ parts => h.parts parts

theorem Together.all (h : Together simple simple₁ simple₂ expr expr₁ expr₂) : ∀ p : List Stmt,
    (collectAll simple expr p).Perm (collectAll simple₁ expr₁ p ++ collectAll simple₂ expr₂ p)
  | [] => .nil
  | s :: ss => perm_append_append (h.stmt s) (h.all ss)

theorem Together.parts (h : Together simple simple₁ simple₂ expr expr₁ expr₂) : ∀ ps : List Part,
    (collectParts simple expr ps).Perm
      (collectParts simple₁ expr₁ ps ++ collectParts simple₂ expr₂ ps)
  | [] => .nil
  | .expr e :: ps => perm_append_append (h.expr e) (h.parts ps)
  | .stmts ss :: ps => perm_append_append (h.all ss) (h.parts ps)

end

end Sides

/-! ## `ast.walk` -/

/-- A statement in a program, and the program with another one in its place. -/
structure Hole where
  node : Stmt
  put : Stmt → Program

/-- A statement in a part of a program, with what is around it there. -/
abbrev Within (γ : Type) := Stmt × (Stmt → γ)

def Within.out {γ δ : Type} (around : γ → δ) (h : Within γ) : Within δ :=
  (h.1, fun t => around (h.2 t))

def holesOf : List Stmt → List (Within (List Stmt))
  | [] => []
  | s :: ss => (s, (· :: ss)) :: (holesOf ss).map (Within.out (s :: ·))

def partHoles : List Part → List (Within (List Part))
  | [] => []
  | .expr e :: parts => (partHoles parts).map (Within.out (.expr e :: ·))
  | .stmts ss :: parts =>
      (holesOf ss).map (Within.out (.stmts · :: parts)) ++
        (partHoles parts).map (Within.out (.stmts ss :: ·))

/-- `iter_child_nodes`, as far as statements go. -/
def Stmt.holes : Stmt → List (Within Stmt)
  | .functionDef name args body decorators returns =>
      (holesOf body).map (Within.out (.functionDef name args · decorators returns))
  | .forLoop target iter body orelse =>
      (holesOf body).map (Within.out (.forLoop target iter · orelse)) ++
        (holesOf orelse).map (Within.out (.forLoop target iter body ·))
  | .compound cls values parts => (partHoles parts).map (Within.out (.compound cls values ·))
  | .assign _ _ | .expr _ | .declare _ => []

def Hole.children (h : Hole) : List Hole := h.node.holes.map fun c => ⟨c.1, fun t => h.put (c.2 t)⟩

mutual

def Stmt.depth : Stmt → Nat
  | .functionDef _ _ body _ _ => depthAll body + 1
  | .forLoop _ _ body orelse => max (depthAll body) (depthAll orelse) + 1
  | .compound _ _ parts => depthParts parts + 1
  | .assign _ _ | .expr _ | .declare _ => 0

def depthAll : List Stmt → Nat
  | [] => 0
  | s :: ss => max s.depth (depthAll ss)

def depthParts : List Part → Nat
  | [] => 0
  | .expr _ :: parts => depthParts parts
  | .stmts ss :: parts => max (depthAll ss) (depthParts parts)

end

/-- `n` levels, from `level` on. -/
def walkFrom : Nat → List Hole → List Hole
  | 0, level => level
  | n + 1, level => level ++ walkFrom n (level.flatMap Hole.children)

/-- The statements of the module itself. -/
def topLevel (p : Program) : List Hole := (holesOf p).map fun h => ⟨h.1, h.2⟩

/-- `ast.walk`. -/
def walk (p : Program) : List Hole := walkFrom (depthAll p) (topLevel p)

/-- `isinstance(node, ast.FunctionDef) and node.name == name`. -/
def Stmt.isFunction (name : String) : Stmt → Bool
  | .functionDef name' _ _ _ _ => name' == name
  | _ => false

/-- The first function of that name in the walk. -/
def findFunction (name : String) (p : Program) : Option Hole :=
  (walk p).find? fun h => h.node.isFunction name

end VidhiArena.Forge.Python
