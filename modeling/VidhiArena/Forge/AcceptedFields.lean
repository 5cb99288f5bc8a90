import Mathlib.Data.List.Perm.Basic
import VidhiArena.Forge.Closure

/-!
# The fields that the front end accepts

`_validateBackendPython` of `engine/VidhiEngine.js` lets a program through if every
`state.field` in it has its field in one list. The transpiler looks the fields up in its
two tables. `accepted_iff` says when the two agree: the fields that are read must not have
`fills` among them, although there is a rule for loops over `state.fills`, and a field that
persists must be the only target of its assignment.
-/

namespace VidhiArena.Forge.Python

open VidhiArena.Foundation

/-! ## The front end -/

/-- `BACKEND_ALLOWED_STATE_FIELDS`. -/
def backendAllowedStateFields : List String :=
  ["bid_price", "ask_price", "mid_price", "spread", "last_trade_price", "last_trade_volume",
    "underlying_signal", "volatility", "bid_depth", "ask_depth", "position", "cash", "pnl",
    "fill_count", "fills", "ema_fast", "ema_slow", "tick_count", "my_position", "s0", "s1", "s2",
    "s3", "s4", "s5", "s6", "s7"]

def Occurrence.field? : Occurrence → Option String
  | field f _ => some f
  | name _ => none

def Expr.fields (e : Expr) : List String := e.occurrences.filterMap Occurrence.field?

/-- The fields of `state` that occur. -/
def fields (p : Program) : List String :=
  collectAll (fun s => s.exprs.flatMap Expr.fields) Expr.fields p

/-- `_validateBackendPython`, of the occurrences in the code. -/
def validateBackendPython (p : Program) : Option String :=
  let unsupported := ((fields p).filter (· ∉ backendAllowedStateFields)).eraseDups
  if unsupported = [] then none
  else some ("Unsupported backend state field(s): " ++ ", ".intercalate unsupported ++
    ". Use SDK fields like state.position, state.tick_count, state.ema_fast / state.ema_slow, " ++
    "or custom slots state.s0..state.s7.")

/-! ## Assignments and writes -/

/-- The fields of `ORDER_OUT_SLOTS` that persist. -/
def persistent : List String :=
  ["ema_fast", "ema_slow", "tick_count", "my_position", "s0", "s1", "s2", "s3", "s4", "s5", "s6",
    "s7"]

/-- The persistent fields that are assigned in an expression. -/
def Expr.assigns (e : Expr) : List String := e.stores.filter (· ∈ persistent)

/-- The assignments to persistent fields, wherever they stand. -/
def assignments (p : Program) : List String :=
  collectAll (fun s => s.exprs.flatMap Expr.assigns) Expr.assigns p

/-- The persistent field of an assignment to it alone. -/
def Stmt.sole? : Stmt → Option String
  | .assign targets _ => (assigned? targets).filter (· ∈ persistent)
  | _ => none

/-- The other assignments in a simple statement. -/
def Stmt.stray : Stmt → List String
  | .assign targets value =>
      match assigned? targets with
      | some _ => value.assigns
      | none => (targets ++ [value]).flatMap Expr.assigns
  | s => s.exprs.flatMap Expr.assigns

/-- The assignments to persistent fields that are not `state.field = value`. -/
def strayAssignments (p : Program) : List String := collectAll Stmt.stray Expr.assigns p

def soleAssignments (p : Program) : List String :=
  collectAll (fun s => s.sole?.toList) (fun _ => []) p

namespace Expr

def literal? : Expr → Option Literal
  | constant value => some value
  | _ => none

/-- `_oo[slot]`. -/
def outSlot? : Expr → Option Int
  | .node cls _ [array, slot] =>
      if cls = "Subscript" ∧ array.name? = some "_oo" then
        match slot.literal? with
        | some (.int slot) => some slot
        | _ => none
      else none
  | _ => none

/-- `value * 1000000.0`. -/
def isScaled : Expr → Bool
  | .node cls ops [_, scale] =>
      cls = "BinOp" && ops = ["Mult"] && scale.literal? = some (.float "1000000.0")
  | _ => false

/-- `int(value * 1000000.0)`. -/
def isFixed : Expr → Bool
  | .call func [arg] [] => func.name? = some "int" && arg.isScaled
  | _ => false

end Expr

def fieldAt (slot : Int) : Option String :=
  persistent.find? fun field => orderOutSlots.lookup field = some slot

/-- The field of `_oo[slot] = int(value * 1000000.0)`. -/
def Stmt.write? : Stmt → Option String
  | .assign [target] value => if value.isFixed then target.outSlot?.bind fieldAt else none
  | _ => none

/-- The writes of persistent fields. -/
def writes (p : Program) : List String := collectAll (fun s => s.write?.toList) (fun _ => []) p

/-- The transpiler does what the front end lets through. -/
structure Agrees (p : Program) : Prop where
  known : ∀ field, transpile p ≠ .error (unknownField field)
  written : ∀ m, transpile p = .ok m → (writes m).Perm (writes p ++ assignments p)

/-! ## Writes under a visit -/

theorem marketRead_noWrite {field : String} {e : Expr} (h : marketRead field = .ok e) :
    e.literal? = none ∧ e.outSlot? = none ∧ e.isScaled = false ∧ e.isFixed = false := by
  unfold marketRead at h
  split at h
  · cases h
    exact ⟨rfl, rfl, rfl, rfl⟩
  split at h
  · cases h
    exact ⟨rfl, rfl, rfl, rfl⟩
  split at h
  · cases h
    exact ⟨rfl, rfl, rfl, rfl⟩
  split at h
  · cases h
    exact ⟨rfl, rfl, rfl, rfl⟩
  · cases h

/-- The parts of a write are as they were. -/
structure SameWrite (e e' : Expr) : Prop where
  literal : e'.literal? = e.literal?
  outSlot : e'.outSlot? = e.outSlot?
  scaled : e'.isScaled = e.isScaled
  fixed : e'.isFixed = e.isFixed

mutual

theorem Visited.sameWrite : ∀ {e e' : Expr}, Visited e e' → SameWrite e e'
  | .name id ctx, e', h | .constant value, e', h => by
      cases h.rewritten
      exact ⟨rfl, rfl, rfl, rfl⟩
  | .attribute value attr ctx, e', h => by
      cases h.rewritten with
      | read hvalue hfield hread =>
          obtain ⟨hliteral, hslot, hscaled, hfixed⟩ := marketRead_noWrite hread
          exact ⟨hliteral, hslot, hscaled, hfixed⟩
      | kept hvalue hfield => exact ⟨rfl, rfl, rfl, rfl⟩
  | .call func args keywords, e', h => by
      cases h.rewritten with
      | call hfunc hargs hkeywords =>
          refine ⟨rfl, rfl, rfl, ?_⟩
          rcases visited_sameWrite hargs with _ | ⟨harg, _ | ⟨-, -⟩⟩
          · rfl
          · cases hkeywords with
            | nil => simp only [Expr.isFixed, hfunc.name, harg.scaled]
            | cons => rfl
          · rfl
  | .node cls values children, e', h => by
      cases h.rewritten with
      | node hchildren =>
          rcases visited_sameWrite hchildren with _ | ⟨h₁, _ | ⟨h₂, _ | ⟨-, -⟩⟩⟩
          · exact ⟨rfl, rfl, rfl, rfl⟩
          · exact ⟨rfl, rfl, rfl, rfl⟩
          · have hname := (List.forall₂_cons.mp hchildren).1.name
            refine ⟨rfl, ?_, ?_, rfl⟩
            · simp only [Expr.outSlot?, hname, h₂.literal]
            · simp only [Expr.isScaled, h₂.literal]
          · exact ⟨rfl, rfl, rfl, rfl⟩

theorem visited_sameWrite : ∀ {es es' : List Expr}, List.Forall₂ Visited es es' →
    List.Forall₂ SameWrite es es'
  | [], _, .nil => .nil
  | _ :: _, _, .cons he hes => .cons he.sameWrite (visited_sameWrite hes)

end

/-! ## The slots of persistent fields -/

theorem fieldAt_lookup : ∀ field ∈ orderOutSlots.map Prod.fst, ∀ slot ∈ orderOutSlots.lookup field,
    fieldAt slot = some field ∧ field ∈ persistent ∨ fieldAt slot = none ∧ field ∉ persistent := by
  decide +kernel

theorem fieldAt_order (idx : Fin 4) : fieldAt (1 + idx.val * 4) = none ∧
    fieldAt (1 + idx.val * 4 + 1) = none ∧ fieldAt (1 + idx.val * 4 + 2) = none ∧
      fieldAt (1 + idx.val * 4 + 3) = none := by
  revert idx
  decide +kernel

theorem mem_of_lookup {field : String} {slot : Int} (h : orderOutSlots.lookup field = some slot) :
    field ∈ orderOutSlots.map Prod.fst := by
  obtain ⟨l, r, heq, -⟩ := List.lookup_eq_some_iff.mp h
  rw [heq]
  simp

theorem write_makeAssign (slot : Int) (value : Expr) :
    (makeAssign slot value).write? = if value.isFixed then fieldAt slot else none := rfl

theorem write_stateWrite (field : String) (value : Expr) :
    (collectAll (fun s => s.write?.toList) (fun _ => []) [stateWrite field value] : List String) =
      (Option.filter (· ∈ persistent) (some field)).toList := by
  unfold stateWrite
  cases hslot : orderOutSlots.lookup field with
  | none =>
      have hother : field ∉ persistent := by
        rintro hmem
        have hall : ∀ f ∈ persistent, (orderOutSlots.lookup f).isSome = true := by decide +kernel
        have := hall field hmem
        rw [hslot] at this
        cases this
      rw [Option.filter_some, if_neg (by simpa using hother)]
      rfl
  | some slot =>
      have hwrite : (makeAssign slot (fixed value)).write? = fieldAt slot := rfl
      simp only [collectAll, makeAssign, Stmt.collect, List.append_nil]
      rw [← makeAssign, hwrite]
      rcases fieldAt_lookup field (mem_of_lookup hslot) slot hslot with
        ⟨hfield, hmem⟩ | ⟨hfield, hmem⟩
      · rw [hfield, Option.filter_some, if_pos (by simpa using hmem)]
      · rw [hfield, Option.filter_some, if_neg (by simpa using hmem)]

theorem writes_emit (idx : Fin 4) (call : OrderCall) :
    (collectAll (fun s => s.write?.toList) (fun _ => [])
      (increment :: call.emit (1 + idx.val * 4)) : List String) = [] := by
  obtain ⟨h₀, h₁, h₂, h₃⟩ := fieldAt_order idx
  have hnone : ∀ slot value, fieldAt slot = none →
      (Stmt.assign [outSlot slot] value).write? = none := by
    intro slot value hslot
    rw [← makeAssign, write_makeAssign, hslot, ite_self]
  cases call with
  | limit type price volume =>
      simp [OrderCall.emit, emitOrder, makeAssign, increment, collectAll, Stmt.collect,
        collectParts, hnone, h₀, h₁, h₂, h₃]
  | market type volume =>
      simp [OrderCall.emit, emitOrder, makeAssign, increment, collectAll, Stmt.collect,
        collectParts, hnone, h₀, h₁, h₂, h₃]
  | cancel orderId =>
      simp [OrderCall.emit, emitCancel, makeAssign, increment, collectAll, Stmt.collect,
        collectParts, hnone, h₀, h₁, h₂, h₃]

/-- A simple statement gives the write that it is, and one for its own assignment. -/
theorem writes_simple {s : Stmt} {out : List Stmt} {i i' : Fin 4} (hs : s.isSimple = true)
    (h : visitStmt s i = .ok (out, i')) :
    collectAll (fun s => s.write?.toList) (fun _ => []) out =
      s.write?.toList ++ s.sole?.toList := by
  match s, hs, h with
  | .assign targets value, _, h =>
      obtain ⟨targets', value', htargets, hvalue, rfl⟩ := visitStmt_assign h
      cases hassigned : assigned? targets with
      | some field =>
          dsimp only
          rw [write_stateWrite, Stmt.sole?, hassigned]
          -- a field of `state` is no slot of `_oo`
          have hnone : (Stmt.assign targets value).write? = none := by
            match targets, hassigned with
            | [target], hassigned =>
                match target, hassigned with
                | .attribute .., _ => exact ite_self _
                | .name .., hassigned | .constant _, hassigned | .call .., hassigned
                | .node .., hassigned => cases hassigned
            | [], _ | _ :: _ :: _, _ => rfl
          rw [hnone]
          rfl
      | none =>
          have hwrite : (Stmt.assign targets' value').write? =
              (Stmt.assign targets value).write? := by
            have hfixed := hvalue.sameWrite.fixed
            rcases htargets with _ | ⟨htarget, _ | ⟨-, -⟩⟩
            · rfl
            · simp only [Stmt.write?, hfixed, htarget.sameWrite.outSlot]
            · rfl
          have hsole : (Stmt.assign targets value).sole? = none := by
            rw [Stmt.sole?, hassigned]
            rfl
          rw [hsole, ← hwrite]
          rfl
  | .expr value, _, h =>
      rcases visitStmt_expr h with ⟨-, value', -, rfl⟩ | ⟨call, call', idx, -, -, rfl⟩
      · rfl
      · exact writes_emit idx call'
  | .declare d, _, h =>
      cases h
      rfl

/-! ## Agreement -/

/-- The writes of a translation are those of the program, and one for each assignment with
one target. -/
theorem writes_visited {p m tree : Program} {idx : Fin 4} (hprepare : prepare p = .ok tree)
    (hvisit : visitStmts tree 0 = .ok (m, idx)) :
    (writes m).Perm (writes p ++ soleAssignments p) := by
  have hbare : ∀ simple : Stmt → List String,
      (∀ array, array = "_md" ∨ array = "_oo" → simple (identity array) = []) →
      collectAll simple (fun _ => []) tree = collectAll simple (fun _ => []) p :=
    fun simple hsimple =>
      (collect_prepare ⟨fun _ => rfl, hsimple, rfl⟩ hprepare).trans (collect_bare simple p)
  have hwrites : writes m =
      collectAll (fun s => s.write?.toList ++ s.sole?.toList) (fun _ => []) p := by
    refine (visitStmts_collect ⟨fun _ => rfl, writes_simple⟩ hvisit).trans (hbare _ ?_)
    rintro array (rfl | rfl) <;> rfl
  rw [hwrites]
  exact Together.all ⟨fun _ => .rfl, fun _ => .nil⟩ p

theorem assigns_field {target : Expr} {field : String} (h : target.field? = some (field, .store)) :
    target.assigns = (Option.filter (· ∈ persistent) (some field)).toList := by
  match target, h with
  | .attribute value attr ctx, h =>
      unfold Expr.assigns Expr.stores
      rw [Expr.occurrences, h, Option.filter_some]
      by_cases hmem : field ∈ persistent
      · simp [Occurrence.store?, hmem]
      · simp [Occurrence.store?, hmem]
  | .name .., h | .constant _, h | .call .., h | .node .., h => cases h

theorem assignments_perm (p : Program) :
    (assignments p).Perm (soleAssignments p ++ strayAssignments p) := by
  have htogether : Together (fun s => s.exprs.flatMap Expr.assigns) (fun s => s.sole?.toList)
      Stmt.stray Expr.assigns (fun _ => []) Expr.assigns := by
    refine ⟨fun s => ?_, fun e => .rfl⟩
    match s with
    | .assign targets value =>
        cases hassigned : assigned? targets with
        | none =>
            simp only [Stmt.exprs, Stmt.sole?, Stmt.stray, hassigned]
            exact .rfl
        | some field =>
            simp only [Stmt.exprs, Stmt.sole?, Stmt.stray, hassigned]
            match targets, hassigned with
            | [target], hassigned =>
                match hfield : target.field? with
                | some (f, .store) =>
                    simp only [assigned?, hfield, Option.some.injEq] at hassigned
                    rw [← hassigned, ← assigns_field hfield, List.singleton_append,
                      List.flatMap_cons, List.flatMap_singleton]
                | some (_, .load) | some (_, .del) | none => simp [assigned?, hfield] at hassigned
    | .expr _ | .declare _ | .functionDef .. | .forLoop .. | .compound .. => exact .rfl
  exact htogether.all p

/-- Among the fields that the front end accepts, the transpiler does not know `fills`. -/
theorem known_of_allowed : ∀ field ∈ backendAllowedStateFields, Known field ∨ field = "fills" := by
  decide +kernel

theorem fields_allowed {p : Program} (hvalid : validateBackendPython p = none) :
    ∀ field ∈ fields p, field ∈ backendAllowedStateFields := by
  intro field hfield
  unfold validateBackendPython at hvalid
  dsimp only at hvalid
  split at hvalid
  · next hnone =>
      by_contra hother
      have hmem : field ∈ ((fields p).filter (· ∉ backendAllowedStateFields)).eraseDups :=
        List.mem_eraseDups.mpr (List.mem_filter.mpr ⟨hfield, by simpa using hother⟩)
      rw [hnone] at hmem
      exact absurd hmem List.not_mem_nil
  · cases hvalid

theorem reads_subset {p : Program} {field : String} (h : field ∈ reads p) : field ∈ fields p := by
  have hexpr : ∀ e : Expr, e.fields.Perm
      (e.reads ++ e.occurrences.filterMap fun o => if o.read?.isSome then none else o.field?) := by
    intro e
    unfold Expr.fields Expr.reads
    induction e.occurrences with
    | nil => exact .nil
    | cons o os ih =>
        match o with
        | .name _ => exact ih
        | .field f .load => exact ih.cons f
        | .field f .store | .field f .del => exact (ih.cons f).trans List.perm_middle.symm
  have hall : (fields p).Perm (reads p ++ _) :=
    Together.all ⟨fun s => flatMap_together hexpr s.exprs, hexpr⟩ p
  exact hall.mem_iff.mpr (List.mem_append_left _ h)

/-- When the transpiler agrees with the front end. -/
theorem accepted_iff {p : Program} (hscan : scan p = []) (hvalid : validateBackendPython p = none) :
    Agrees p ↔ "fills" ∉ reads (bare p) ∧ strayAssignments p = [] := by
  obtain ⟨tree, hprepare⟩ := prepare_of_scan hscan
  have hallowed : ∀ field ∈ reads (bare p), Known field ∨ field = "fills" := fun field hfield =>
    known_of_allowed field (fields_allowed hvalid field (reads_subset (mem_bare hfield)))
  have hstray : ∀ m, transpile p = .ok m →
      ((writes m).Perm (writes p ++ assignments p) ↔ strayAssignments p = []) := by
    intro m hm
    obtain ⟨idx, hvisit⟩ := (transpile_ok hprepare).mp hm
    have hwrites := writes_visited hprepare hvisit
    have hassign := (assignments_perm p).append_left (writes p)
    constructor
    · intro h
      have hlen := (hwrites.symm.trans (h.trans hassign)).length_eq
      simp only [List.length_append] at hlen
      exact List.eq_nil_of_length_eq_zero (by omega)
    · intro h
      rw [h, List.append_nil] at hassign
      exact hwrites.trans hassign.symm
  rcases visitStmts_checks tree 0 with
    ⟨⟨⟨m, idx⟩, hvisit⟩, hknown⟩ | ⟨field, hfield, hunknown, herr⟩
  · -- every field is known
    rw [reads_prepare hprepare] at hknown
    have hm := (transpile_ok hprepare).mpr ⟨idx, hvisit⟩
    have hfills : "fills" ∉ reads (bare p) := fun h => absurd (hknown _ h) (by decide +kernel)
    constructor
    · exact fun h => ⟨hfills, (hstray m hm).mp (h.written m hm)⟩
    · rintro ⟨-, h⟩
      refine ⟨fun field herr => ?_, fun m' hm' => (hstray m' hm').mpr h⟩
      rw [hm] at herr
      cases herr
  · -- the one that is not is `fills`
    rw [reads_prepare hprepare] at hfield
    have htranspile : transpile p = .error (unknownField field) := by
      unfold transpile
      rw [hprepare, ok_bind, herr]
      rfl
    rcases hallowed field hfield with hknown | rfl
    · exact absurd hknown hunknown
    · exact iff_of_false (fun h => h.known _ htranspile) fun h => h.1 hfield

/-- `state.ema_fast = state.mid_price` and `state.tick_count = state.tick_count`. -/
def averaging : Program :=
  onTick [.assign [stateField "ema_fast" .store] (stateField "mid_price" .load),
    .assign [stateField "tick_count" .store] (stateField "tick_count" .load)]

theorem accepted_iff_averaging :
    scan averaging = [] ∧ validateBackendPython averaging = none ∧ Agrees averaging :=
  ⟨rfl, rfl, (accepted_iff rfl rfl).mpr ⟨by decide +kernel, rfl⟩⟩

/-- `for f in state.fills: pass`. -/
def looping : Program :=
  onTick [.forLoop (.name "f" .store) (stateField "fills" .load) [pass] []]

/-- A loop over the fills is refused, as a read of an unknown field; and `state.s0 += 1` is
no write. -/
theorem fills_refused :
    (scan looping = [] ∧ validateBackendPython looping = none ∧ ¬ Agrees looping) ∧
      scan counting = [] ∧ validateBackendPython counting = none ∧ ¬ Agrees counting := by
  refine ⟨⟨rfl, rfl, fun h => h.known "fills" rfl⟩, rfl, rfl, fun h => ?_⟩
  exact absurd (h.written _ rfl).length_eq (by decide)

end VidhiArena.Forge.Python
