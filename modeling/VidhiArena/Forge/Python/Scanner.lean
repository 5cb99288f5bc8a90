import VidhiArena.Forge.Python.Ast

/-!
# The scanner

`scan` of `backend/forge/scanner.py`, of a program that parses: what `SecurityVisitor`
objects to, in the order in which it finds it, and the signature of `on_tick`.
-/

namespace VidhiArena.Forge.Python

/-- What stands in the list of errors, after the line number. -/
inductive ScanError where
  /-- `Banned import 'name'` -/
  | bannedImport (name : String)
  /-- `Banned import 'from module'` -/
  | bannedImportFrom (module : String)
  /-- `Banned call 'id()'` -/
  | bannedCall (id : String)
  /-- `Banned dunder call 'attr'` -/
  | bannedDunderCall (attr : String)
  /-- `Banned attribute access 'attr'` -/
  | bannedAttribute (attr : String)
  /-- `'global' statement is not allowed` -/
  | globalStatement
  /-- `on_tick() missing required arguments: missing` -/
  | missingArguments (missing : List String)
  /-- `Missing required function 'on_tick(state, orders)'` -/
  | missingFunction

/-- `BANNED_BUILTINS`. -/
def bannedBuiltins : List String :=
  ["eval", "exec", "compile", "__import__", "open", "input", "print", "breakpoint", "memoryview",
    "vars", "dir", "globals", "locals", "getattr", "setattr", "delattr", "hasattr", "type", "chr",
    "ord", "format", "id"]

/-- `ALLOWED_MODULES`. -/
def allowedModules : List String := ["math", "random"]

/-- `REQUIRED_FUNCTION`. -/
def requiredFunction : String := "on_tick"

/-- `REQUIRED_ARGS`. -/
def requiredArgs : List String := ["state", "orders"]

/-- The attributes that `visit_Attribute` calls dangerous. -/
def dangerous : List String :=
  ["__class__", "__bases__", "__mro__", "__subclasses__", "__globals__", "__builtins__", "__dict__",
    "__code__"]

/-- `attr.startswith('__') and attr.endswith('__')`. -/
def dunder (attr : String) : Bool :=
  ['_', '_'].isPrefixOf attr.toList && ['_', '_'].isSuffixOf attr.toList

/-- `name.split('.')[0]`. -/
def topModule (name : String) : String := String.ofList (name.toList.takeWhile (· ≠ '.'))

namespace SecurityVisitor

/-- `visit_Call` and `visit_Attribute`, at one node. -/
def atExpr : Expr → List ScanError
  | .call (.name id _) _ _ => if id ∈ bannedBuiltins then [.bannedCall id] else []
  | .call (.attribute _ attr _) _ _ => if dunder attr then [.bannedDunderCall attr] else []
  | .attribute _ attr _ =>
      if dunder attr ∧ attr ∈ dangerous then [.bannedAttribute attr] else []
  | _ => []

/-- `visit_Import`, `visit_ImportFrom`, `visit_Global` and `visit_Nonlocal`. -/
def atDeclaration : Declaration → List ScanError
  | .importNames names =>
      (names.filter fun name => topModule name.1 ∉ allowedModules).map fun name =>
        .bannedImport name.1
  -- an empty module name is no name
  | .importFrom (some module) _ _ =>
      if module ≠ "" ∧ topModule module ∉ allowedModules ∧ module ≠ "vidhi_sdk" then
        [.bannedImportFrom module]
      else []
  | .importFrom none _ _ => []
  | .globalNames _ => [.globalStatement]
  | .nonlocalNames _ => []

def visitExpr (e : Expr) : List ScanError := e.collect atExpr

/-- A statement without statements in it. -/
def visitSimple : Stmt → List ScanError
  | .assign targets value => targets.flatMap visitExpr ++ visitExpr value
  | .expr value => visitExpr value
  | .declare d => atDeclaration d
  | _ => []

def visit (p : Program) : List ScanError := collectAll visitSimple visitExpr p

end SecurityVisitor

/-- `check_signature`. -/
def checkSignature (p : Program) : List ScanError :=
  match findFunction requiredFunction p with
  | some ⟨.functionDef _ args _ _ _, _⟩ =>
      let missing := requiredArgs.filter fun arg => some arg ∉ args.args.map Expr.arg?
      if missing = [] then [] else [.missingArguments missing]
  | _ => [.missingFunction]

/-- `scan`. -/
def scan (p : Program) : List ScanError := SecurityVisitor.visit p ++ checkSignature p

theorem findFunction_of_scan {p : Program} (h : scan p = []) :
    ∃ hole, findFunction requiredFunction p = some hole := by
  have hsig : checkSignature p = [] := (List.append_eq_nil_iff.mp h).2
  unfold checkSignature at hsig
  cases hfind : findFunction requiredFunction p with
  | none =>
      rw [hfind] at hsig
      cases hsig
  | some hole => exact ⟨hole, rfl⟩

end VidhiArena.Forge.Python
