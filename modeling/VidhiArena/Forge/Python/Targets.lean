import VidhiArena.Forge.Python.Scanner
import VidhiArena.Forge.Python.Translated

/-!
# `on_tick` in its program

The walk reaches every statement with the program around it. `Framed` is what the program
around a statement does to a collection, and `walk_framed` says that every statement of the
walk is framed. The statements of the module itself come first in the walk; the heads of
these do not change where another one is put deeper down (`Deep`).
-/

namespace VidhiArena.Forge.Python

/-! ## Frames -/

/-- The statement belongs where it is, and around another one in its place the rest of a
collection stays. -/
structure Within.Framed {γ β : Type} (h : Within γ) (whole : γ) (all : γ → List β)
    (one : Stmt → List β) : Prop where
  restore : h.2 h.1 = whole
  frame : ∃ l r, ∀ t, all (h.2 t) = l ++ one t ++ r

theorem Within.Framed.out {γ δ β : Type} {h : Within γ} {whole : γ} {all : γ → List β}
    {one : Stmt → List β} {all' : δ → List β} {around : γ → δ} {l r : List β}
    (hframed : h.Framed whole all one) (haround : ∀ x, all' (around x) = l ++ all x ++ r) :
    (Within.out around h).Framed (around whole) all' one := by
  obtain ⟨hrestore, l', r', hframe⟩ := hframed
  refine ⟨congrArg around hrestore, l ++ l', r' ++ r, fun t => ?_⟩
  rw [Within.out, haround, hframe]
  simp only [List.append_assoc]

section Frames

variable {β : Type} (simple : Stmt → List β) (expr : Expr → List β)

theorem holesOf_framed : ∀ (ss : List Stmt), ∀ h ∈ holesOf ss,
    h.Framed ss (collectAll simple expr) (Stmt.collect simple expr)
  | s :: ss, h, hmem => by
      rcases List.mem_cons.mp hmem with rfl | hmem
      · exact ⟨rfl, [], collectAll simple expr ss, fun t => rfl⟩
      · obtain ⟨h', hmem', rfl⟩ := List.mem_map.mp hmem
        exact (holesOf_framed ss h' hmem').out (l := s.collect simple expr) (r := [])
          fun ts => (List.append_nil _).symm

theorem partHoles_framed : ∀ (parts : List Part), ∀ h ∈ partHoles parts,
    h.Framed parts (collectParts simple expr) (Stmt.collect simple expr)
  | .expr e :: parts, h, hmem => by
      obtain ⟨h', hmem', rfl⟩ := List.mem_map.mp hmem
      exact (partHoles_framed parts h' hmem').out (l := expr e) (r := [])
        fun ps => (List.append_nil _).symm
  | .stmts ss :: parts, h, hmem => by
      rcases List.mem_append.mp hmem with hmem | hmem
      · obtain ⟨h', hmem', rfl⟩ := List.mem_map.mp hmem
        exact (holesOf_framed simple expr ss h' hmem').out (l := [])
          (r := collectParts simple expr parts) fun ts => rfl
      · obtain ⟨h', hmem', rfl⟩ := List.mem_map.mp hmem
        exact (partHoles_framed parts h' hmem').out (l := collectAll simple expr ss) (r := [])
          fun ps => (List.append_nil _).symm

theorem holes_framed (s : Stmt) : ∀ h ∈ s.holes,
    h.Framed s (Stmt.collect simple expr) (Stmt.collect simple expr) := by
  intro h hmem
  cases s with
  | functionDef name args body decorators returns =>
      obtain ⟨h', hmem', rfl⟩ := List.mem_map.mp hmem
      exact (holesOf_framed simple expr body h' hmem').out fun ts => rfl
  | forLoop target iter body orelse =>
      rcases List.mem_append.mp hmem with hmem | hmem
      · obtain ⟨h', hmem', rfl⟩ := List.mem_map.mp hmem
        exact (holesOf_framed simple expr body h' hmem').out fun ts => rfl
      · obtain ⟨h', hmem', rfl⟩ := List.mem_map.mp hmem
        exact (holesOf_framed simple expr orelse h' hmem').out
          (l := expr target ++ expr iter ++ collectAll simple expr body) (r := [])
          fun ts => (List.append_nil _).symm
  | compound cls values parts =>
      obtain ⟨h', hmem', rfl⟩ := List.mem_map.mp hmem
      exact (partHoles_framed simple expr parts h' hmem').out (l := []) (r := [])
        fun ps => (List.append_nil _).symm
  | assign targets value => exact absurd hmem List.not_mem_nil
  | expr value => exact absurd hmem List.not_mem_nil
  | declare d => exact absurd hmem List.not_mem_nil

end Frames

/-! ## The walk -/

/-- What holds of a level and goes on to the children holds all the way down. -/
theorem walkFrom_induct {P : Hole → Prop} (hchildren : ∀ h, P h → ∀ c ∈ h.children, P c) :
    ∀ (n : Nat) {level : List Hole}, (∀ h ∈ level, P h) → ∀ h ∈ walkFrom n level, P h
  | 0, level, hlevel => hlevel
  | n + 1, level, hlevel => by
      intro h hmem
      rcases List.mem_append.mp hmem with hmem | hmem
      · exact hlevel h hmem
      · refine walkFrom_induct hchildren n (fun c hc => ?_) h hmem
        obtain ⟨parent, hparent, hc⟩ := List.mem_flatMap.mp hc
        exact hchildren parent (hlevel parent hparent) c hc

/-- The statement belongs where it is, and is framed. -/
structure Hole.Framed {β : Type} (h : Hole) (p : Program) (simple : Stmt → List β)
    (expr : Expr → List β) : Prop where
  restore : h.put h.node = p
  frame : ∃ l r, ∀ t, collectAll simple expr (h.put t) = l ++ t.collect simple expr ++ r

theorem Hole.Framed.child {β : Type} {h : Hole} {p : Program} {simple : Stmt → List β}
    {expr : Expr → List β} (hframed : h.Framed p simple expr) :
    ∀ c ∈ h.children, c.Framed p simple expr := by
  intro c hc
  obtain ⟨c, hc', rfl⟩ := List.mem_map.mp hc
  obtain ⟨hrestore, l, r, hframe⟩ := hframed
  obtain ⟨hrestore', l', r', hframe'⟩ := holes_framed simple expr h.node c hc'
  refine ⟨(congrArg h.put hrestore').trans hrestore, l ++ l', r' ++ r, fun t => ?_⟩
  dsimp only
  rw [hframe, hframe']
  simp only [List.append_assoc]

theorem topLevel_framed {β : Type} (simple : Stmt → List β) (expr : Expr → List β) (p : Program) :
    ∀ h ∈ topLevel p, h.Framed p simple expr := by
  intro h hmem
  obtain ⟨h, hmem', rfl⟩ := List.mem_map.mp hmem
  obtain ⟨hrestore, hframe⟩ := holesOf_framed simple expr p h hmem'
  exact ⟨hrestore, hframe⟩

theorem walk_framed {β : Type} (simple : Stmt → List β) (expr : Expr → List β) (p : Program) :
    ∀ h ∈ walk p, h.Framed p simple expr :=
  walkFrom_induct (fun _ h => h.child) _ (topLevel_framed simple expr p)

/-! ## The module itself -/

/-- Name and parameters, of a function. -/
def Stmt.head? : Stmt → Option (String × Arguments)
  | .functionDef name args _ _ _ => some (name, args)
  | _ => none

def Stmt.body : Stmt → List Stmt
  | .functionDef _ _ body _ _ => body
  | _ => []

/-- Below a statement of the module, which keeps its head, and a body in which as much is
untranslated as before if that holds of what is put there. -/
def Hole.Deep (p : Program) (h : Hole) : Prop :=
  ∃ pre u post, ∃ around : Stmt → Stmt, p = pre ++ u :: post ∧
    (∀ t, h.put t = pre ++ around t :: post) ∧ (∀ t, (around t).head? = u.head?) ∧
      ∀ t t', untranslated [t] = untranslated [t'] →
        untranslated (around t).body = untranslated (around t').body

theorem holesOf_append : ∀ {p : Program}, ∀ h ∈ holesOf p,
    ∃ pre post, p = pre ++ h.1 :: post ∧ ∀ t, h.2 t = pre ++ t :: post
  | s :: ss, h, hmem => by
      rcases List.mem_cons.mp hmem with rfl | hmem
      · exact ⟨[], ss, rfl, fun t => rfl⟩
      · obtain ⟨h', hmem', rfl⟩ := List.mem_map.mp hmem
        obtain ⟨pre, post, rfl, hput⟩ := holesOf_append h' hmem'
        exact ⟨s :: pre, post, rfl, fun t => congrArg (s :: ·) (hput t)⟩

theorem Within.Framed.untranslated {γ : Type} {h : Within γ} {whole : γ} {all : γ → List Occurrence}
    (hframed : h.Framed whole all
      (Stmt.collect (fun s => s.kept.flatMap Expr.untranslated ++ s.declared) Expr.untranslated))
    {t t' : Stmt} (heq : Python.untranslated [t] = Python.untranslated [t']) :
    all (h.2 t) = all (h.2 t') := by
  obtain ⟨-, l, r, hframe⟩ := hframed
  have hone : ∀ s : Stmt, Python.untranslated [s] =
      s.collect (fun s => s.kept.flatMap Expr.untranslated ++ s.declared) Expr.untranslated :=
    fun s => List.append_nil _
  rw [hone, hone] at heq
  rw [hframe, hframe, heq]

theorem holes_head {s : Stmt} : ∀ h ∈ s.holes, (∀ t, (h.2 t).head? = s.head?) ∧
    ∀ t t', untranslated [t] = untranslated [t'] →
      untranslated (h.2 t).body = untranslated (h.2 t').body := by
  intro h hmem
  cases s with
  | functionDef name args body decorators returns =>
      obtain ⟨h', hmem', rfl⟩ := List.mem_map.mp hmem
      exact ⟨fun t => rfl, fun t t' => (holesOf_framed _ _ body h' hmem').untranslated⟩
  | forLoop target iter body orelse =>
      rcases List.mem_append.mp hmem with hmem | hmem
      · obtain ⟨h', -, rfl⟩ := List.mem_map.mp hmem
        exact ⟨fun t => rfl, fun t t' _ => rfl⟩
      · obtain ⟨h', -, rfl⟩ := List.mem_map.mp hmem
        exact ⟨fun t => rfl, fun t t' _ => rfl⟩
  | compound cls values parts =>
      obtain ⟨h', -, rfl⟩ := List.mem_map.mp hmem
      exact ⟨fun t => rfl, fun t t' _ => rfl⟩
  | assign targets value => exact absurd hmem List.not_mem_nil
  | expr value => exact absurd hmem List.not_mem_nil
  | declare d => exact absurd hmem List.not_mem_nil

theorem Hole.Deep.child {p : Program} {h : Hole} (hdeep : h.Deep p) :
    ∀ c ∈ h.children, c.Deep p := by
  intro c hc
  obtain ⟨c, hc', rfl⟩ := List.mem_map.mp hc
  obtain ⟨pre, u, post, around, hp, hput, hhead, hbody⟩ := hdeep
  refine ⟨pre, u, post, fun t => around (c.2 t), hp, fun t => hput _, fun t => hhead _, ?_⟩
  intro t t' heq
  refine hbody _ _ ?_
  have hframed := (holes_framed _ _ h.node c hc').untranslated heq
  exact congrArg (· ++ []) hframed

theorem walk_split (p : Program) : ∃ deep, walk p = topLevel p ++ deep ∧ ∀ h ∈ deep, h.Deep p := by
  unfold walk
  cases depthAll p with
  | zero => exact ⟨[], (List.append_nil _).symm, fun h hmem => absurd hmem List.not_mem_nil⟩
  | succ n =>
      refine ⟨_, rfl, walkFrom_induct (fun _ h => h.child) n fun c hc => ?_⟩
      obtain ⟨h, hmem, hc⟩ := List.mem_flatMap.mp hc
      obtain ⟨h, hmem', rfl⟩ := List.mem_map.mp hmem
      obtain ⟨c, hc', rfl⟩ := List.mem_map.mp hc
      obtain ⟨pre, post, hp, hput⟩ := holesOf_append h hmem'
      obtain ⟨hhead, hbody⟩ := holes_head c hc'
      exact ⟨pre, h.1, post, c.2, hp, fun t => hput _, hhead, hbody⟩

theorem find_holesOf {q : Stmt → Bool} : ∀ {p : Program} {h : Within Program},
    (holesOf p).find? (fun h => q h.1) = some h →
    ∃ pre post, p = pre ++ h.1 :: post ∧ (∀ s ∈ pre, q s = false) ∧ ∀ t, h.2 t = pre ++ t :: post
  | s :: ss, h, hfind => by
      rw [holesOf, List.find?_cons] at hfind
      cases hs : q s with
      | true =>
          simp only [hs] at hfind
          cases hfind
          exact ⟨[], ss, rfl, fun t ht => absurd ht List.not_mem_nil, fun t => rfl⟩
      | false =>
          simp only [hs, List.find?_map] at hfind
          obtain ⟨h', hfind', rfl⟩ := Option.map_eq_some_iff.mp hfind
          obtain ⟨pre, post, rfl, hpre, hput⟩ := find_holesOf hfind'
          refine ⟨s :: pre, post, rfl, fun t ht => ?_, fun t => congrArg (s :: ·) (hput t)⟩
          rcases List.mem_cons.mp ht with rfl | ht
          · exact hs
          · exact hpre t ht

theorem holesOf_complete : ∀ {p : Program}, ∀ s ∈ p, ∃ h ∈ holesOf p, h.1 = s
  | t :: ss, s, hs => by
      rcases List.mem_cons.mp hs with rfl | hs
      · exact ⟨_, List.mem_cons_self, rfl⟩
      · obtain ⟨h, hmem, rfl⟩ := holesOf_complete s hs
        exact ⟨_, List.mem_cons_of_mem _ (List.mem_map_of_mem hmem), rfl⟩

/-- Where the first function of a name is: the first of that name in the module, or
further down, if there is none in the module. -/
theorem findFunction_cases {name : String} {p : Program} {hole : Hole}
    (h : findFunction name p = some hole) :
    (∃ pre post, p = pre ++ hole.node :: post ∧ (∀ s ∈ pre, s.isFunction name = false) ∧
        ∀ t, hole.put t = pre ++ t :: post) ∨
      (∀ s ∈ p, s.isFunction name = false) ∧ hole.Deep p := by
  obtain ⟨deep, hwalk, hdeep⟩ := walk_split p
  unfold findFunction at h
  rw [hwalk, List.find?_append] at h
  cases htop : (topLevel p).find? fun h => h.node.isFunction name with
  | some top =>
      rw [htop] at h
      cases h
      unfold topLevel at htop
      rw [List.find?_map] at htop
      obtain ⟨h', hfind, rfl⟩ := Option.map_eq_some_iff.mp htop
      exact .inl (find_holesOf hfind)
  | none =>
      rw [htop, Option.none_or] at h
      refine .inr ⟨fun s hs => ?_, hdeep hole (List.mem_of_find?_eq_some h)⟩
      obtain ⟨h', hmem, rfl⟩ := holesOf_complete s hs
      have hnone := List.find?_eq_none.mp htop ⟨h'.1, h'.2⟩ (List.mem_map_of_mem hmem)
      exact Bool.not_eq_true _ ▸ hnone

theorem findFunction_isFunction {name : String} {p : Program} {hole : Hole}
    (h : findFunction name p = some hole) :
    ∃ args body decorators returns, hole.node = .functionDef name args body decorators returns := by
  have hnode := List.find?_some h
  cases hs : hole.node with
  | functionDef name' args body decorators returns =>
      rw [hs] at hnode
      have hname : name' = name := by simpa [Stmt.isFunction] using hnode
      exact ⟨args, body, decorators, returns, by rw [hname]⟩
  | _ =>
      rw [hs] at hnode
      cases hnode

/-! ## The prepared program -/

/-- Only the `*` and the `**` parameter are kept. -/
def Arguments.strip (a : Arguments) : Arguments :=
  { a with posonlyargs := [], args := [], kwonlyargs := [], kwDefaults := [], defaults := [] }

def Stmt.strip : Stmt → Stmt
  | .functionDef name args body decorators returns =>
      .functionDef name args.strip body decorators returns
  | s => s

/-- The program without the parameters of its first `on_tick`, which are replaced. -/
def bare (p : Program) : Program :=
  match findFunction requiredFunction p with
  | some hole => hole.put hole.node.strip
  | none => p

/-- What the preparation adds is nothing that is collected. -/
structure Unnoticed {β : Type} (simple : Stmt → List β) (expr : Expr → List β) : Prop where
  parameters : ∀ array, expr (.node "arg" [array] []) = []
  bindings : ∀ array, array = "_md" ∨ array = "_oo" → simple (identity array) = []
  decorator : expr njit = []

theorem collect_implement {β : Type} {simple : Stmt → List β} {expr : Expr → List β}
    (h : Unnoticed simple expr) (s : Stmt) :
    (implement s).collect simple expr = s.strip.collect simple expr := by
  cases s with
  | functionDef name args body decorators returns =>
      have hbindings : collectAll simple expr ([identity "_md", identity "_oo"] ++ body) =
          collectAll simple expr body := by
        rw [collectAll_append]
        simp only [collectAll, identity, Stmt.collect]
        rw [← identity, ← identity, h.bindings _ (.inl rfl), h.bindings _ (.inr rfl)]
        rfl
      simp only [implement, Stmt.strip, Stmt.collect, hbindings, Arguments.children, implArguments,
        Arguments.strip, List.flatMap_append, List.flatMap_cons, List.flatMap_nil, h.parameters,
        h.decorator, List.nil_append, List.append_nil]
  | _ => rfl

/-- The prepared program is as good as the program without the parameters. -/
theorem collect_prepare {β : Type} {simple : Stmt → List β} {expr : Expr → List β}
    {p tree : Program} (h : Unnoticed simple expr) (hprepare : prepare p = .ok tree) :
    collectAll simple expr tree = collectAll simple expr (bare p) := by
  unfold prepare at hprepare
  unfold bare requiredFunction
  cases hfind : findFunction "on_tick" p with
  | none =>
      rw [hfind] at hprepare
      cases hprepare
  | some hole =>
      rw [hfind] at hprepare
      cases hprepare
      obtain ⟨-, l, r, hframe⟩ := walk_framed simple expr p hole (List.mem_of_find?_eq_some hfind)
      dsimp only
      rw [hframe, hframe, collect_implement h]

/-- Nothing is collected from the program without the parameters that is not in the program. -/
theorem mem_bare {β : Type} {simple : Stmt → List β} {expr : Expr → List β} {p : Program} {x : β}
    (h : x ∈ collectAll simple expr (bare p)) : x ∈ collectAll simple expr p := by
  unfold bare at h
  cases hfind : findFunction requiredFunction p with
  | none =>
      rw [hfind] at h
      exact h
  | some hole =>
      rw [hfind] at h
      obtain ⟨hrestore, l, r, hframe⟩ :=
        walk_framed simple expr p hole (List.mem_of_find?_eq_some hfind)
      have hstrip : ∀ s : Stmt, x ∈ s.strip.collect simple expr → x ∈ s.collect simple expr := by
        intro s hx
        cases s with
        | functionDef name args body decorators returns =>
            simp only [Stmt.strip, Stmt.collect, Arguments.strip, Arguments.children,
              List.flatMap_append, List.flatMap_nil, List.mem_append, List.not_mem_nil] at hx ⊢
            tauto
        | _ => exact hx
      dsimp only at h
      rw [hframe, List.mem_append, List.mem_append] at h
      rw [← hrestore, hframe, List.mem_append, List.mem_append]
      exact h.imp_left (Or.imp_right (hstrip hole.node))

/-- What is collected from statements alone is not in the parameters. -/
theorem collect_bare {β : Type} (simple : Stmt → List β) (p : Program) :
    collectAll simple (fun _ => []) (bare p) = collectAll simple (fun _ => []) p := by
  unfold bare
  cases hfind : findFunction requiredFunction p with
  | none => rfl
  | some hole =>
      obtain ⟨hrestore, l, r, hframe⟩ :=
        walk_framed simple (fun _ => []) p hole (List.mem_of_find?_eq_some hfind)
      have hnil : ∀ es : List Expr, es.flatMap (fun _ => ([] : List β)) = [] :=
        fun es => List.flatMap_eq_nil_iff.mpr fun _ _ => rfl
      have hstrip : ∀ s : Stmt,
          s.strip.collect simple (fun _ => []) = s.collect simple (fun _ => []) := by
        intro s
        cases s with
        | functionDef name args body decorators returns =>
            simp only [Stmt.strip, Stmt.collect, hnil]
        | _ => rfl
      dsimp only
      rw [hframe, hstrip, ← hframe, hrestore]

end VidhiArena.Forge.Python
