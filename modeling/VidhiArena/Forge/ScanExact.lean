import VidhiArena.Forge.Python.Nodes
import VidhiArena.Forge.Python.Scanner

/-!
# What the scanner accepts

`scan` goes through every node of the tree, so what it objects to can be said of the nodes
one by one (`Banned`). The functions that a program loads by name, and does not call on the
spot, are not among it.
-/

namespace VidhiArena.Forge.Python

def Node.Banned : Node → Prop
  | .stmt (.declare (.importNames names)) => ∃ name ∈ names, topModule name.1 ∉ allowedModules
  | .stmt (.declare (.importFrom (some module) _ _)) =>
      module ≠ "" ∧ topModule module ∉ allowedModules ∧ module ≠ "vidhi_sdk"
  | .stmt (.declare (.globalNames _)) => True
  | .expr (.call (.name id _) _ _) => id ∈ bannedBuiltins
  | .expr (.call (.attribute _ attr _) _ _) => dunder attr = true
  | .expr (.attribute _ attr _) => attr ∈ dangerous
  | _ => False

/-- The first `on_tick` in breadth-first order has the two parameters. -/
def Program.Signed (p : Program) : Prop :=
  ∃ name args body decorators returns,
    p.First (Stmt.isFunction "on_tick") (.functionDef name args body decorators returns) ∧
      some "state" ∈ args.args.map Expr.arg? ∧ some "orders" ∈ args.args.map Expr.arg?

/-! ## The visitor -/

namespace SecurityVisitor

/-- What the visitor says at the node itself. -/
def atNode : Node → List ScanError
  | .expr e => atExpr e
  | .stmt (.declare d) => atDeclaration d
  | .stmt _ => []

/-- What it says at the node and below. -/
def visitNode : Node → List ScanError
  | .expr e => visitExpr e
  | .stmt s => s.collect visitSimple visitExpr

theorem collectAll_eq_nil {h : Expr → List ScanError} {es : List Expr} :
    Expr.collectAll h es = [] ↔ ∀ e ∈ es, e.collect h = [] := by
  induction es with
  | nil => exact iff_of_true rfl fun _ he => absurd he List.not_mem_nil
  | cons e es ih => rw [Expr.collectAll, List.append_eq_nil_iff, ih, List.forall_mem_cons]

theorem stmts_eq_nil {ss : List Stmt} :
    collectAll visitSimple visitExpr ss = [] ↔ ∀ s ∈ ss, visitNode (.stmt s) = [] := by
  rw [collectAll_eq, List.flatMap_eq_nil_iff]
  rfl

theorem parts_eq_nil {parts : List Part} :
    collectParts visitSimple visitExpr parts = [] ↔
      (∀ e, Part.expr e ∈ parts → visitExpr e = []) ∧
        ∀ ss, Part.stmts ss ∈ parts → ∀ s ∈ ss, visitNode (.stmt s) = [] := by
  induction parts with
  | nil =>
      exact iff_of_true rfl ⟨fun _ h => absurd h List.not_mem_nil, fun _ h => absurd h List.not_mem_nil⟩
  | cons part parts ih =>
      cases part with
      | expr e =>
          rw [collectParts, List.append_eq_nil_iff, ih]
          simp [or_imp, forall_and, and_assoc]
      | stmts ss =>
          rw [collectParts, List.append_eq_nil_iff, ih, stmts_eq_nil]
          simp only [List.mem_cons, reduceCtorEq, false_or, Part.stmts.injEq, or_imp, forall_and,
            forall_eq]
          tauto

theorem children_of_visitNode : ∀ {n : Node}, visitNode n = [] →
    atNode n = [] ∧ ∀ place c, Child place c n → visitNode c = []
  | .expr (.name _ _), h => ⟨h, fun _ _ hc => nomatch hc⟩
  | .expr (.constant _), h => ⟨h, fun _ _ hc => nomatch hc⟩
  | .expr (.attribute _ _ _), h => by
      obtain ⟨hown, hvalue⟩ := List.append_eq_nil_iff.mp h
      refine ⟨hown, fun place c hc => ?_⟩
      cases hc
      exact hvalue
  | .expr (.call _ _ _), h => by
      obtain ⟨h, hkeywords⟩ := List.append_eq_nil_iff.mp h
      obtain ⟨h, hargs⟩ := List.append_eq_nil_iff.mp h
      obtain ⟨hown, hfunc⟩ := List.append_eq_nil_iff.mp h
      refine ⟨hown, fun place c hc => ?_⟩
      cases hc with
      | callee => exact hfunc
      | arg he => exact collectAll_eq_nil.mp hargs _ he
      | keyword he => exact collectAll_eq_nil.mp hkeywords _ he
  | .expr (.node _ _ _), h => by
      obtain ⟨hown, hchildren⟩ := List.append_eq_nil_iff.mp h
      refine ⟨hown, fun place c hc => ?_⟩
      cases hc with
      | child he => exact collectAll_eq_nil.mp hchildren _ he
  | .stmt (.functionDef _ _ _ _ _), h => by
      obtain ⟨h, hrest⟩ := List.append_eq_nil_iff.mp h
      obtain ⟨hparams, hbody⟩ := List.append_eq_nil_iff.mp h
      obtain ⟨hdecorators, hreturns⟩ := List.append_eq_nil_iff.mp hrest
      refine ⟨rfl, fun place c hc => ?_⟩
      cases hc with
      | param he => exact List.flatMap_eq_nil_iff.mp hparams _ he
      | body hs => exact stmts_eq_nil.mp hbody _ hs
      | decorator he => exact List.flatMap_eq_nil_iff.mp hdecorators _ he
      | returns he => exact List.flatMap_eq_nil_iff.mp hreturns _ he
  | .stmt (.assign _ _), h => by
      obtain ⟨htargets, hvalue⟩ := List.append_eq_nil_iff.mp h
      refine ⟨rfl, fun place c hc => ?_⟩
      cases hc with
      | target he => exact List.flatMap_eq_nil_iff.mp htargets _ he
      | assigned => exact hvalue
  | .stmt (.expr _), h => by
      refine ⟨rfl, fun place c hc => ?_⟩
      cases hc
      exact h
  | .stmt (.forLoop _ _ _ _), h => by
      obtain ⟨h, horelse⟩ := List.append_eq_nil_iff.mp h
      obtain ⟨h, hbody⟩ := List.append_eq_nil_iff.mp h
      obtain ⟨htarget, hiter⟩ := List.append_eq_nil_iff.mp h
      refine ⟨rfl, fun place c hc => ?_⟩
      cases hc with
      | forTarget => exact htarget
      | forIter => exact hiter
      | forBody hs => exact stmts_eq_nil.mp hbody _ hs
      | forElse hs => exact stmts_eq_nil.mp horelse _ hs
  | .stmt (.declare _), h => ⟨h, fun _ _ hc => nomatch hc⟩
  | .stmt (.compound _ _ _), h => by
      obtain ⟨hexprs, hstmts⟩ := parts_eq_nil.mp h
      refine ⟨rfl, fun place c hc => ?_⟩
      cases hc with
      | partExpr he => exact hexprs _ he
      | partStmt hss hs => exact hstmts _ hss _ hs

theorem visitNode_of_children : ∀ {n : Node}, atNode n = [] →
    (∀ place c, Child place c n → visitNode c = []) → visitNode n = []
  | .expr (.name _ _), hown, _ => hown
  | .expr (.constant _), hown, _ => hown
  | .expr (.attribute _ _ _), hown, h => List.append_eq_nil_iff.mpr ⟨hown, h _ _ .value⟩
  | .expr (.call _ _ _), hown, h => by
      refine List.append_eq_nil_iff.mpr ⟨List.append_eq_nil_iff.mpr
        ⟨List.append_eq_nil_iff.mpr ⟨hown, h _ _ .callee⟩, ?_⟩, ?_⟩
      · exact collectAll_eq_nil.mpr fun e he => h _ _ (.arg he)
      · exact collectAll_eq_nil.mpr fun e he => h _ _ (.keyword he)
  | .expr (.node _ _ _), hown, h =>
      List.append_eq_nil_iff.mpr ⟨hown, collectAll_eq_nil.mpr fun e he => h _ _ (.child he)⟩
  | .stmt (.functionDef _ _ _ _ _), _, h => by
      refine List.append_eq_nil_iff.mpr ⟨List.append_eq_nil_iff.mpr ⟨?_, ?_⟩,
        List.append_eq_nil_iff.mpr ⟨?_, ?_⟩⟩
      · exact List.flatMap_eq_nil_iff.mpr fun e he => h _ _ (.param he)
      · exact stmts_eq_nil.mpr fun s hs => h _ _ (.body hs)
      · exact List.flatMap_eq_nil_iff.mpr fun e he => h _ _ (.decorator he)
      · exact List.flatMap_eq_nil_iff.mpr fun e he => h _ _ (.returns he)
  | .stmt (.assign _ _), _, h =>
      List.append_eq_nil_iff.mpr
        ⟨List.flatMap_eq_nil_iff.mpr fun e he => h _ _ (.target he), h _ _ .assigned⟩
  | .stmt (.expr value), _, h => h _ (.expr value) .exprValue
  | .stmt (.forLoop _ _ _ _), _, h => by
      refine List.append_eq_nil_iff.mpr ⟨List.append_eq_nil_iff.mpr
        ⟨List.append_eq_nil_iff.mpr ⟨h _ _ .forTarget, h _ _ .forIter⟩, ?_⟩, ?_⟩
      · exact stmts_eq_nil.mpr fun s hs => h _ _ (.forBody hs)
      · exact stmts_eq_nil.mpr fun s hs => h _ _ (.forElse hs)
  | .stmt (.declare _), hown, _ => hown
  | .stmt (.compound _ _ _), _, h =>
      parts_eq_nil.mpr ⟨fun e he => h _ _ (.partExpr he),
        fun ss hss s hs => h _ _ (.partStmt hss hs)⟩

theorem visitNode_below (n : Node) : visitNode n = [] ↔ ∀ m, m.Below n → atNode m = [] := by
  have hchildren : ∀ place c, Child place c n →
      (visitNode c = [] ↔ ∀ m, m.Below c → atNode m = []) := fun place c hc =>
    have := hc.sizeOf_lt
    visitNode_below c
  rw [forall_below_iff]
  constructor
  · intro h
    obtain ⟨hown, h⟩ := children_of_visitNode h
    exact ⟨hown, fun place c hc => (hchildren place c hc).mp (h place c hc)⟩
  · rintro ⟨hown, h⟩
    exact visitNode_of_children hown fun place c hc => (hchildren place c hc).mpr (h place c hc)
termination_by sizeOf n

theorem visit_eq_nil (p : Program) : visit p = [] ↔ ∀ n, p.Has n → atNode n = [] := by
  rw [visit, stmts_eq_nil]
  constructor
  · rintro h n ⟨s, hs, hn⟩
    exact (visitNode_below _).mp (h s hs) n hn
  · exact fun h s hs => (visitNode_below _).mpr fun n hn => h n ⟨s, hs, hn⟩

theorem dunder_of_dangerous {attr : String} (h : attr ∈ dangerous) : dunder attr = true := by
  have hall : ∀ attr ∈ dangerous, dunder attr = true := by decide
  exact hall attr h

theorem atNode_eq_nil : ∀ n : Node, atNode n = [] ↔ ¬ n.Banned
  | .expr (.name _ _) => iff_of_true rfl not_false
  | .expr (.constant _) => iff_of_true rfl not_false
  | .expr (.attribute value attr ctx) => by
      show (if dunder attr ∧ attr ∈ dangerous then _ else _) = _ ↔ ¬ attr ∈ dangerous
      by_cases hattr : attr ∈ dangerous
      · rw [if_pos ⟨dunder_of_dangerous hattr, hattr⟩]
        exact iff_of_false (List.cons_ne_nil _ _) fun h => h hattr
      · rw [if_neg fun h => hattr h.2]
        exact iff_of_true rfl hattr
  | .expr (.call (.name id ctx) args keywords) => by
      show (if id ∈ bannedBuiltins then _ else _) = _ ↔ ¬ id ∈ bannedBuiltins
      by_cases hid : id ∈ bannedBuiltins
      · rw [if_pos hid]
        exact iff_of_false (List.cons_ne_nil _ _) fun h => h hid
      · rw [if_neg hid]
        exact iff_of_true rfl hid
  | .expr (.call (.attribute value attr ctx) args keywords) => by
      show (if dunder attr then _ else _) = _ ↔ ¬ dunder attr = true
      by_cases hattr : dunder attr = true
      · rw [if_pos hattr]
        exact iff_of_false (List.cons_ne_nil _ _) fun h => h hattr
      · rw [if_neg hattr]
        exact iff_of_true rfl hattr
  | .expr (.call (.constant _) _ _) => iff_of_true rfl not_false
  | .expr (.call (.call _ _ _) _ _) => iff_of_true rfl not_false
  | .expr (.call (.node _ _ _) _ _) => iff_of_true rfl not_false
  | .expr (.node _ _ _) => iff_of_true rfl not_false
  | .stmt (.declare (.importNames names)) => by
      show List.map _ (names.filter fun name => topModule name.1 ∉ allowedModules) = [] ↔ _
      rw [List.map_eq_nil_iff, List.filter_eq_nil_iff]
      simp [Node.Banned]
  | .stmt (.declare (.importFrom (some module) names level)) => by
      show (if _ then _ else _) = _ ↔ ¬ (_ ∧ _ ∧ _)
      by_cases hmodule : module ≠ "" ∧ topModule module ∉ allowedModules ∧ module ≠ "vidhi_sdk"
      · rw [if_pos hmodule]
        exact iff_of_false (List.cons_ne_nil _ _) fun h => h hmodule
      · rw [if_neg hmodule]
        exact iff_of_true rfl hmodule
  | .stmt (.declare (.importFrom none _ _)) => iff_of_true rfl not_false
  | .stmt (.declare (.globalNames _)) =>
      iff_of_false (List.cons_ne_nil _ _) fun h => h trivial
  | .stmt (.declare (.nonlocalNames _)) => iff_of_true rfl not_false
  | .stmt (.functionDef _ _ _ _ _) => iff_of_true rfl not_false
  | .stmt (.assign _ _) => iff_of_true rfl not_false
  | .stmt (.expr _) => iff_of_true rfl not_false
  | .stmt (.forLoop _ _ _ _) => iff_of_true rfl not_false
  | .stmt (.compound _ _ _) => iff_of_true rfl not_false

end SecurityVisitor

/-! ## The signature -/

theorem checkSignature_eq_nil (p : Program) : checkSignature p = [] ↔ p.Signed := by
  constructor
  · intro h
    unfold checkSignature at h
    cases hfind : findFunction requiredFunction p with
    | none =>
        rw [hfind] at h
        cases h
    | some hole =>
        rw [hfind] at h
        have hfirst : p.First (Stmt.isFunction "on_tick") hole.node := find_walk.mp ⟨hole, hfind, rfl⟩
        obtain ⟨node, put⟩ := hole
        cases node with
        | functionDef name args body decorators returns =>
            dsimp only at h
            split at h
            · rename_i hmissing
              have hargs := List.filter_eq_nil_iff.mp hmissing
              have harg : ∀ arg ∈ requiredArgs, some arg ∈ args.args.map Expr.arg? := fun arg harg => by
                simpa using hargs arg harg
              exact ⟨name, args, body, decorators, returns, hfirst,
                harg "state" (by decide), harg "orders" (by decide)⟩
            · cases h
        | assign | expr | forLoop | declare | compound => cases h
  · rintro ⟨name, args, body, decorators, returns, hfirst, hstate, horders⟩
    obtain ⟨⟨node, put⟩, hfind, rfl⟩ := find_walk.mpr hfirst
    have hfind : findFunction requiredFunction p = some ⟨_, put⟩ := hfind
    rw [checkSignature, hfind]
    dsimp only
    rw [if_pos]
    refine List.filter_eq_nil_iff.mpr fun arg harg => ?_
    rcases List.mem_cons.mp harg with rfl | harg
    · simpa using hstate
    · rw [List.mem_singleton.mp harg]
      simpa using horders

/-- What `scan` accepts: a program without a banned node at any depth, whose first
`on_tick` has the two parameters. -/
theorem scan_exact (p : Program) : scan p = [] ↔ (∀ n, p.Has n → ¬ n.Banned) ∧ p.Signed := by
  rw [scan, List.append_eq_nil_iff, SecurityVisitor.visit_eq_nil, checkSignature_eq_nil]
  exact and_congr_left fun _ => forall₂_congr fun n _ => SecurityVisitor.atNode_eq_nil n

end VidhiArena.Forge.Python
