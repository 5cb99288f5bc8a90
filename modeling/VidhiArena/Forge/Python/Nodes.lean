import Mathlib.Data.List.Basic
import Mathlib.Logic.Relation
import VidhiArena.Forge.Python.Ast

/-!
# The nodes of a tree

Which nodes stand at some depth of a program, said without any traversal: `Child` is one
step down, with a constructor for every place that a child can have. And the statements
level by level, which is what breadth-first order means.
-/

namespace VidhiArena.Forge.Python

open Relation

inductive Node where
  | expr (e : Expr)
  | stmt (s : Stmt)

/-- Where a child stands. -/
inductive Place where
  /-- it is what a call calls -/
  | callee
  | elsewhere

/-- The children of a node. -/
inductive Child : Place → Node → Node → Prop where
  | value {value : Expr} {attr : String} {ctx : Ctx} :
      Child .elsewhere (.expr value) (.expr (.attribute value attr ctx))
  | callee {func : Expr} {args keywords : List Expr} :
      Child .callee (.expr func) (.expr (.call func args keywords))
  | arg {func e : Expr} {args keywords : List Expr} (h : e ∈ args) :
      Child .elsewhere (.expr e) (.expr (.call func args keywords))
  | keyword {func e : Expr} {args keywords : List Expr} (h : e ∈ keywords) :
      Child .elsewhere (.expr e) (.expr (.call func args keywords))
  | child {cls : String} {values : List String} {e : Expr} {children : List Expr}
      (h : e ∈ children) : Child .elsewhere (.expr e) (.expr (.node cls values children))
  /-- a parameter, its annotation or its default value -/
  | param {name : String} {args : Arguments} {body : List Stmt} {decorators returns : List Expr}
      {e : Expr} (h : e ∈ args.children) :
      Child .elsewhere (.expr e) (.stmt (.functionDef name args body decorators returns))
  | body {name : String} {args : Arguments} {body : List Stmt} {decorators returns : List Expr}
      {s : Stmt} (h : s ∈ body) :
      Child .elsewhere (.stmt s) (.stmt (.functionDef name args body decorators returns))
  | decorator {name : String} {args : Arguments} {body : List Stmt}
      {decorators returns : List Expr} {e : Expr} (h : e ∈ decorators) :
      Child .elsewhere (.expr e) (.stmt (.functionDef name args body decorators returns))
  | returns {name : String} {args : Arguments} {body : List Stmt} {decorators returns : List Expr}
      {e : Expr} (h : e ∈ returns) :
      Child .elsewhere (.expr e) (.stmt (.functionDef name args body decorators returns))
  | target {targets : List Expr} {value e : Expr} (h : e ∈ targets) :
      Child .elsewhere (.expr e) (.stmt (.assign targets value))
  | assigned {targets : List Expr} {value : Expr} :
      Child .elsewhere (.expr value) (.stmt (.assign targets value))
  | exprValue {value : Expr} : Child .elsewhere (.expr value) (.stmt (.expr value))
  | forTarget {target iter : Expr} {body orelse : List Stmt} :
      Child .elsewhere (.expr target) (.stmt (.forLoop target iter body orelse))
  | forIter {target iter : Expr} {body orelse : List Stmt} :
      Child .elsewhere (.expr iter) (.stmt (.forLoop target iter body orelse))
  | forBody {target iter : Expr} {body orelse : List Stmt} {s : Stmt} (h : s ∈ body) :
      Child .elsewhere (.stmt s) (.stmt (.forLoop target iter body orelse))
  | forElse {target iter : Expr} {body orelse : List Stmt} {s : Stmt} (h : s ∈ orelse) :
      Child .elsewhere (.stmt s) (.stmt (.forLoop target iter body orelse))
  | partExpr {cls : String} {values : List String} {parts : List Part} {e : Expr}
      (h : Part.expr e ∈ parts) : Child .elsewhere (.expr e) (.stmt (.compound cls values parts))
  | partStmt {cls : String} {values : List String} {parts : List Part} {ss : List Stmt} {s : Stmt}
      (h : Part.stmts ss ∈ parts) (hs : s ∈ ss) :
      Child .elsewhere (.stmt s) (.stmt (.compound cls values parts))

/-- The node `n` is `m` or stands in it, at any depth. -/
def Node.Below (n m : Node) : Prop := ReflTransGen (fun c parent => ∃ place, Child place c parent) n m

def Program.Has (p : Program) (n : Node) : Prop := ∃ s ∈ p, n.Below (.stmt s)

theorem Arguments.sizeOf_children {a : Arguments} {e : Expr} (h : e ∈ a.children) :
    sizeOf e < sizeOf a := by
  obtain ⟨posonlyargs, args, vararg, kwonlyargs, kwDefaults, kwarg, defaults⟩ := a
  simp only [Arguments.children, List.mem_append] at h
  rcases h with (((((h | h) | h) | h) | h) | h) | h <;>
  · have := List.sizeOf_lt_of_mem h
    simp only [Arguments.mk.sizeOf_spec]
    omega

theorem Child.sizeOf_lt {place : Place} {c n : Node} (h : Child place c n) :
    sizeOf c < sizeOf n := by
  cases h with
  | arg h | keyword h | child h | body h | decorator h | returns h | target h | forBody h
  | forElse h =>
      have := List.sizeOf_lt_of_mem h
      simp only [Node.expr.sizeOf_spec, Node.stmt.sizeOf_spec, Expr.call.sizeOf_spec,
        Expr.node.sizeOf_spec, Stmt.functionDef.sizeOf_spec, Stmt.assign.sizeOf_spec,
        Stmt.forLoop.sizeOf_spec]
      omega
  | param h =>
      have := Arguments.sizeOf_children h
      simp only [Node.expr.sizeOf_spec, Node.stmt.sizeOf_spec, Stmt.functionDef.sizeOf_spec]
      omega
  | partExpr h =>
      have := List.sizeOf_lt_of_mem h
      simp only [Node.expr.sizeOf_spec, Node.stmt.sizeOf_spec, Stmt.compound.sizeOf_spec,
        Part.expr.sizeOf_spec] at this ⊢
      omega
  | partStmt h hs =>
      have := List.sizeOf_lt_of_mem h
      have := List.sizeOf_lt_of_mem hs
      simp only [Node.stmt.sizeOf_spec, Stmt.compound.sizeOf_spec, Part.stmts.sizeOf_spec] at *
      omega
  | value | callee | assigned | exprValue | forTarget | forIter =>
      simp only [Node.expr.sizeOf_spec, Node.stmt.sizeOf_spec, Expr.attribute.sizeOf_spec,
        Expr.call.sizeOf_spec, Stmt.assign.sizeOf_spec, Stmt.expr.sizeOf_spec,
        Stmt.forLoop.sizeOf_spec]
      omega

theorem Node.Below.refl (n : Node) : n.Below n := ReflTransGen.refl

/-- What holds of all nodes below is what holds of the node itself and below its children. -/
theorem forall_below_iff {P : Node → Prop} {n : Node} :
    (∀ m, m.Below n → P m) ↔ P n ∧ ∀ place c, Child place c n → ∀ m, m.Below c → P m := by
  constructor
  · exact fun h => ⟨h n (.refl n), fun place c hc m hm => h m (hm.tail ⟨place, hc⟩)⟩
  · rintro ⟨hself, hchildren⟩ m hm
    rcases ReflTransGen.cases_tail_iff _ _ _ |>.mp hm with rfl | ⟨c, hmc, place, hc⟩
    · exact hself
    · exact hchildren place c hc m hmc

/-! What stands below a node of each kind. -/

section Below

variable {P : Node → Prop}

@[simp]
theorem forall_below_name {id : String} {ctx : Ctx} :
    (∀ m, m.Below (.expr (.name id ctx)) → P m) ↔ P (.expr (.name id ctx)) :=
  forall_below_iff.trans (and_iff_left fun _ _ hc => nomatch hc)

@[simp]
theorem forall_below_constant {value : Literal} :
    (∀ m, m.Below (.expr (.constant value)) → P m) ↔ P (.expr (.constant value)) :=
  forall_below_iff.trans (and_iff_left fun _ _ hc => nomatch hc)

@[simp]
theorem forall_below_attribute {value : Expr} {attr : String} {ctx : Ctx} :
    (∀ m, m.Below (.expr (.attribute value attr ctx)) → P m) ↔
      P (.expr (.attribute value attr ctx)) ∧ ∀ m, m.Below (.expr value) → P m := by
  refine forall_below_iff.trans (and_congr_right fun _ => ⟨fun h => h _ _ .value, ?_⟩)
  intro h place c hc
  cases hc
  exact h

@[simp]
theorem forall_below_call {func : Expr} {args keywords : List Expr} :
    (∀ m, m.Below (.expr (.call func args keywords)) → P m) ↔
      P (.expr (.call func args keywords)) ∧ (∀ m, m.Below (.expr func) → P m) ∧
        (∀ e ∈ args, ∀ m, m.Below (.expr e) → P m) ∧
        ∀ e ∈ keywords, ∀ m, m.Below (.expr e) → P m := by
  refine forall_below_iff.trans (and_congr_right fun _ => ⟨fun h => ?_, ?_⟩)
  · exact ⟨h _ _ .callee, fun e he => h _ _ (.arg he), fun e he => h _ _ (.keyword he)⟩
  · rintro ⟨hfunc, hargs, hkeywords⟩ place c hc
    cases hc with
    | callee => exact hfunc
    | arg he => exact hargs _ he
    | keyword he => exact hkeywords _ he

@[simp]
theorem forall_below_node {cls : String} {values : List String} {children : List Expr} :
    (∀ m, m.Below (.expr (.node cls values children)) → P m) ↔
      P (.expr (.node cls values children)) ∧ ∀ e ∈ children, ∀ m, m.Below (.expr e) → P m := by
  refine forall_below_iff.trans (and_congr_right fun _ => ⟨fun h e he => h _ _ (.child he), ?_⟩)
  intro h place c hc
  cases hc with
  | child he => exact h _ he

@[simp]
theorem forall_below_functionDef {name : String} {args : Arguments} {body : List Stmt}
    {decorators returns : List Expr} :
    (∀ m, m.Below (.stmt (.functionDef name args body decorators returns)) → P m) ↔
      P (.stmt (.functionDef name args body decorators returns)) ∧
        (∀ e ∈ args.children, ∀ m, m.Below (.expr e) → P m) ∧
        (∀ s ∈ body, ∀ m, m.Below (.stmt s) → P m) ∧
        (∀ e ∈ decorators, ∀ m, m.Below (.expr e) → P m) ∧
        ∀ e ∈ returns, ∀ m, m.Below (.expr e) → P m := by
  refine forall_below_iff.trans (and_congr_right fun _ => ⟨fun h => ?_, ?_⟩)
  · exact ⟨fun e he => h _ _ (.param he), fun s hs => h _ _ (.body hs),
      fun e he => h _ _ (.decorator he), fun e he => h _ _ (.returns he)⟩
  · rintro ⟨hargs, hbody, hdecorators, hreturns⟩ place c hc
    cases hc with
    | param he => exact hargs _ he
    | body hs => exact hbody _ hs
    | decorator he => exact hdecorators _ he
    | returns he => exact hreturns _ he

@[simp]
theorem forall_below_exprStmt {value : Expr} :
    (∀ m, m.Below (.stmt (.expr value)) → P m) ↔
      P (.stmt (.expr value)) ∧ ∀ m, m.Below (.expr value) → P m := by
  refine forall_below_iff.trans (and_congr_right fun _ => ⟨fun h => h _ _ .exprValue, ?_⟩)
  intro h place c hc
  cases hc
  exact h

@[simp]
theorem forall_below_declare {d : Declaration} :
    (∀ m, m.Below (.stmt (.declare d)) → P m) ↔ P (.stmt (.declare d)) :=
  forall_below_iff.trans (and_iff_left fun _ _ hc => nomatch hc)

theorem Program.forall_has_iff {p : Program} :
    (∀ n, p.Has n → P n) ↔ ∀ s ∈ p, ∀ n, n.Below (.stmt s) → P n :=
  ⟨fun h s hs n hn => h n ⟨s, hs, hn⟩, fun h n ⟨s, hs, hn⟩ => h s hs n hn⟩

theorem Program.Has.child {p : Program} {n c : Node} {place : Place} (h : p.Has n)
    (hc : Child place c n) : p.Has c := by
  obtain ⟨s, hs, hn⟩ := h
  exact ⟨s, hs, .head ⟨place, hc⟩ hn⟩

end Below

/-! ## Breadth first -/

/-- The statements that a statement holds. -/
def Stmt.inner : Stmt → List Stmt
  | .functionDef _ _ body _ _ => body
  | .forLoop _ _ body orelse => body ++ orelse
  | .compound _ _ parts => parts.flatMap fun
      | .expr _ => []
      | .stmts ss => ss
  | .assign _ _ | .expr _ | .declare _ => []

/-- The statements that are `k` levels below those of the module, from left to right. -/
def Program.level (p : Program) : Nat → List Stmt
  | 0 => p
  | k + 1 => (p.level k).flatMap Stmt.inner

theorem holesOf_fst (ss : List Stmt) : (holesOf ss).map Prod.fst = ss := by
  induction ss with
  | nil => rfl
  | cons s ss ih =>
      rw [holesOf, List.map_cons, List.map_map]
      exact congrArg (s :: ·) ih

theorem partHoles_fst (parts : List Part) : (partHoles parts).map Prod.fst =
    parts.flatMap fun
      | .expr _ => []
      | .stmts ss => ss := by
  induction parts with
  | nil => rfl
  | cons part parts ih =>
      cases part with
      | expr e =>
          rw [partHoles, List.map_map]
          exact ih
      | stmts ss =>
          rw [partHoles, List.map_append, List.map_map, List.map_map, List.flatMap_cons]
          exact congrArg₂ (· ++ ·) (holesOf_fst ss) ih

theorem holes_fst (s : Stmt) : s.holes.map Prod.fst = s.inner := by
  cases s with
  | functionDef name args body decorators returns =>
      rw [Stmt.holes, List.map_map]
      exact holesOf_fst body
  | forLoop target iter body orelse =>
      rw [Stmt.holes, List.map_append, List.map_map, List.map_map]
      exact congrArg₂ (· ++ ·) (holesOf_fst body) (holesOf_fst orelse)
  | compound cls values parts =>
      rw [Stmt.holes, List.map_map]
      exact partHoles_fst parts
  | assign | expr | declare => rfl

/-- The holes `k` levels below `level`. -/
def holeLevel (level : List Hole) : Nat → List Hole
  | 0 => level
  | k + 1 => holeLevel (level.flatMap Hole.children) k

theorem nodes_children (level : List Hole) :
    (level.flatMap Hole.children).map Hole.node = (level.map Hole.node).flatMap Stmt.inner := by
  rw [List.map_flatMap, List.flatMap_map]
  refine List.flatMap_congr fun h _ => ?_
  rw [← holes_fst, Hole.children, List.map_map]
  rfl

theorem level_flatMap (p : Program) : ∀ k, Program.level (p.flatMap Stmt.inner) k = p.level (k + 1)
  | 0 => rfl
  | k + 1 => by rw [Program.level, level_flatMap p k, ← Program.level]

theorem nodes_holeLevel : ∀ (k : Nat) (level : List Hole),
    (holeLevel level k).map Hole.node = Program.level (level.map Hole.node) k
  | 0, _ => rfl
  | k + 1, level => by
      rw [holeLevel, nodes_holeLevel k, nodes_children, level_flatMap]

theorem nodes_topLevel (p : Program) : (topLevel p).map Hole.node = p := by
  rw [topLevel, List.map_map]
  exact holesOf_fst p

theorem depth_le_depthAll {ss : List Stmt} {t : Stmt} (h : t ∈ ss) : t.depth ≤ depthAll ss := by
  induction ss with
  | nil => exact absurd h List.not_mem_nil
  | cons s ss ih =>
      rcases List.mem_cons.mp h with rfl | hlater
      · exact Nat.le_max_left _ _
      · exact Nat.le_trans (ih hlater) (Nat.le_max_right _ _)

theorem depth_le_depthParts {parts : List Part} {ss : List Stmt} {t : Stmt}
    (h : Part.stmts ss ∈ parts) (ht : t ∈ ss) : t.depth ≤ depthParts parts := by
  induction parts with
  | nil => exact absurd h List.not_mem_nil
  | cons part parts ih =>
      rcases List.mem_cons.mp h with rfl | hlater
      · exact Nat.le_trans (depth_le_depthAll ht) (Nat.le_max_left _ _)
      · cases part with
        | expr e => exact ih hlater
        | stmts ss' => exact Nat.le_trans (ih hlater) (Nat.le_max_right _ _)

theorem depth_inner {s t : Stmt} (h : t ∈ s.inner) : t.depth < s.depth := by
  cases s with
  | functionDef name args body decorators returns => exact Nat.lt_succ_of_le (depth_le_depthAll h)
  | forLoop target iter body orelse =>
      rcases List.mem_append.mp h with h | h
      · exact Nat.lt_succ_of_le (Nat.le_trans (depth_le_depthAll h) (Nat.le_max_left _ _))
      · exact Nat.lt_succ_of_le (Nat.le_trans (depth_le_depthAll h) (Nat.le_max_right _ _))
  | compound cls values parts =>
      obtain ⟨part, hpart, ht⟩ := List.mem_flatMap.mp h
      cases part with
      | expr e => exact absurd ht List.not_mem_nil
      | stmts ss => exact Nat.lt_succ_of_le (depth_le_depthParts hpart ht)
  | assign | expr | declare => exact absurd h List.not_mem_nil

theorem depth_level {p : Program} {k : Nat} : ∀ {s : Stmt}, s ∈ p.level k →
    s.depth + k ≤ depthAll p := by
  induction k with
  | zero => exact depth_le_depthAll
  | succ k ih =>
      intro s h
      obtain ⟨t, ht, hs⟩ := List.mem_flatMap.mp h
      have := depth_inner hs
      have := ih ht
      omega

/-- `s` is the first statement with `q` in breadth-first order. -/
def Program.First (p : Program) (q : Stmt → Bool) (s : Stmt) : Prop :=
  ∃ k, (p.level k).find? q = some s ∧ ∀ j < k, ∀ t ∈ p.level j, q t = false

theorem find_walkFrom {q : Stmt → Bool} {h : Hole} : ∀ (n : Nat) (level : List Hole),
    (walkFrom n level).find? (fun h => q h.node) = some h ↔
      ∃ k ≤ n, (holeLevel level k).find? (fun h => q h.node) = some h ∧
        ∀ j < k, (holeLevel level j).find? (fun h => q h.node) = none
  | 0, level => by
      constructor
      · exact fun h => ⟨0, Nat.le_refl 0, h, fun j hj => absurd hj (Nat.not_lt_zero j)⟩
      · rintro ⟨k, hk, hfind, -⟩
        obtain rfl := Nat.le_zero.mp hk
        exact hfind
  | n + 1, level => by
      rw [walkFrom, List.find?_append]
      cases hlevel : level.find? fun h => q h.node with
      | some h' =>
          constructor
          · exact fun h => ⟨0, Nat.zero_le _, hlevel.trans h, fun j hj => absurd hj (Nat.not_lt_zero j)⟩
          · rintro ⟨k, -, hfind, hnone⟩
            cases k with
            | zero => exact hlevel.symm.trans hfind
            | succ k =>
                have := hnone 0 (Nat.succ_pos k)
                rw [holeLevel, hlevel] at this
                cases this
      | none =>
          rw [Option.none_or, find_walkFrom n]
          constructor
          · rintro ⟨k, hk, hfind, hnone⟩
            refine ⟨k + 1, Nat.succ_le_succ hk, hfind, fun j hj => ?_⟩
            cases j with
            | zero => exact hlevel
            | succ j => exact hnone j (Nat.lt_of_succ_lt_succ hj)
          · rintro ⟨k, hk, hfind, hnone⟩
            cases k with
            | zero =>
                rw [holeLevel, hlevel] at hfind
                cases hfind
            | succ k =>
                exact ⟨k, Nat.le_of_succ_le_succ hk, hfind, fun j hj =>
                  hnone (j + 1) (Nat.succ_lt_succ hj)⟩

theorem find_level (p : Program) (q : Stmt → Bool) (k : Nat) : (p.level k).find? q =
    ((holeLevel (topLevel p) k).find? fun h => q h.node).map Hole.node := by
  have hnodes := nodes_holeLevel k (topLevel p)
  rw [nodes_topLevel] at hnodes
  rw [← hnodes, List.find?_map]
  rfl

theorem find_walk {p : Program} {q : Stmt → Bool} {s : Stmt} :
    (∃ h, (walk p).find? (fun h => q h.node) = some h ∧ h.node = s) ↔ p.First q s := by
  have hnone : ∀ j, (holeLevel (topLevel p) j).find? (fun h => q h.node) = none ↔
      ∀ t ∈ p.level j, q t = false := by
    intro j
    have hfind := find_level p q j
    rw [← Option.map_eq_none_iff (f := Hole.node), ← hfind, List.find?_eq_none]
    exact forall₂_congr fun t _ => (Bool.not_eq_true (q t)).to_iff
  constructor
  · rintro ⟨h, hfind, rfl⟩
    obtain ⟨k, -, hk, hbefore⟩ := (find_walkFrom _ _).mp hfind
    refine ⟨k, by rw [find_level, hk]; rfl, fun j hj => (hnone j).mp (hbefore j hj)⟩
  · rintro ⟨k, hk, hbefore⟩
    have hdepth := depth_level (List.mem_of_find?_eq_some hk)
    rw [find_level] at hk
    obtain ⟨h, hfind, hnode⟩ := Option.map_eq_some_iff.mp hk
    exact ⟨h, (find_walkFrom _ _).mpr ⟨k, by omega, hfind, fun j hj => (hnone j).mpr (hbefore j hj)⟩,
      hnode⟩

end VidhiArena.Forge.Python
