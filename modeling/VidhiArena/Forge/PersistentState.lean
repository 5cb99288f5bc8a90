import Mathlib.Tactic.Linarith
import VidhiArena.Forge.AcceptedFields
import VidhiArena.Forge.OrderBuffer

/-!
# State that persists

The life of `order_out` under the loader: zero at first, its order slots cleared by the
loader and by the wrapper of `forge.py` at the start of every call, and otherwise left
alone. What a transpiled strategy does to it is a sequence of statements that the visitor
has emitted, with whatever values their expressions come to; reads do nothing to it.

A slot keeps a number in millionths as an `int64_t`. So a value comes back truncated, and it
comes back at all if it has room.
-/

namespace VidhiArena.Forge.Python

open VidhiArena.Sandbox VidhiArena.GameMaster

/-! ## Millionths -/

/-- `v * 1000000`, truncated toward zero. -/
def micro (v : ℚ) : Int := (v * 1000000).num.tdiv (v * 1000000).den

/-- `v`, truncated toward zero to a multiple of a millionth. -/
def truncated (v : ℚ) : ℚ := micro v / 1000000

/-- The number of millionths is an `int64_t`. -/
def Fits (v : ℚ) : Prop := -2 ^ 63 ≤ micro v ∧ micro v < 2 ^ 63

instance (v : ℚ) : Decidable (Fits v) := inferInstanceAs (Decidable (_ ∧ _))

/-- `int(v * 1000000.0)` as a word, where that has room. -/
def Converts (fixed : ℚ → Int64) : Prop := ∀ v, Fits v → (fixed v).toInt = micro v

/-! ## Statements of the result -/

/-- The slot of `_oo` that a statement assigns. -/
def Stmt.outTarget? : Stmt → Option Int
  | .assign [target] _ => target.outSlot?
  | .compound cls _ [.expr target, .expr _] => if cls = "AugAssign" then target.outSlot? else none
  | _ => none

/-- The value of `_oo[slot] / 1000000.0`. -/
def Expr.quotientOf (oo : Slots) : Expr → Option ℚ
  | .node cls ops [source, scale] =>
      if cls = "BinOp" ∧ ops = ["Div"] ∧ scale.literal? = some (.float "1000000.0") then
        source.outSlot?.map fun slot => ((oo slot.toNat).toInt : ℚ) / 1000000
      else none
  | _ => none

/-- The value of `state.field`, for a field in `_oo`. -/
def stateRead (oo : Slots) (field : String) : Option ℚ :=
  match marketRead field with
  | .ok e => e.quotientOf oo
  | .error _ => none

/-- A statement that writes to `_oo`, when it is executed. -/
inductive Step where
  /-- `state.field = value`, where `value` has come to `v` -/
  | assign (field : String) (value : Expr) (v : ℚ)
  /-- a statement for a call of `orders`, with the word that it stores -/
  | order (idx : Fin 4) (call : OrderCall) (s : Stmt)
      (h : s ∈ increment :: call.emit (1 + idx.val * 4)) (word : Int64)

namespace Step

def stmt : Step → Stmt
  | assign field value _ => stateWrite field value
  | order _ _ s _ _ => s

def word (fixed : ℚ → Int64) : Step → Int64
  | assign _ _ v => fixed v
  | order _ _ _ _ word => word

def exec (fixed : ℚ → Int64) (oo : Slots) (step : Step) : Slots :=
  match step.stmt.outTarget? with
  | some slot => Function.update oo slot.toNat (step.word fixed)
  | none => oo

/-- The value that the step assigns to the field. -/
def assigned? (field : String) : Step → Option ℚ
  | assign field' _ v => if field' = field then some v else none
  | order .. => none

end Step

/-- What has last been assigned to the field. -/
def lastAssigned (field : String) (steps : List Step) : Option ℚ :=
  (steps.filterMap (Step.assigned? field)).getLast?

/-! ## Ticks -/

/-- The start of a call: the loader clears the order slots, and then the wrapper does. -/
def callStart (oo : Slots) : Slots :=
  let oo := Host.loader.orderOut .zero oo
  fun slot => if slot ≤ 16 then 0 else oo slot

/-- `order_out` after ticks in which these statements have been executed. -/
def persistentRun (fixed : ℚ → Int64) (ticks : List (List Step)) : Slots :=
  ticks.foldl (fun oo steps => steps.foldl (Step.exec fixed) (callStart oo)) fun _ => 0

/-! ## Frames -/

variable {fixed : ℚ → Int64} {field : String} {oo : Slots}

theorem persistent_tables : ∀ field ∈ persistent, field ≠ "bid_depth" ∧ field ≠ "ask_depth" ∧
    marketDataSlots.lookup field = none ∧
    ∃ j ∈ List.range 12, orderOutSlots.lookup field = some ((48 + j : Nat) : Int) := by
  decide +kernel

theorem slot_of_persistent (h : field ∈ persistent) :
    ∃ slot : Nat, 16 < slot ∧ orderOutSlots.lookup field = some (slot : Int) ∧
      fieldAt slot = some field ∧
      ∀ oo, stateRead oo field = some (((oo slot).toInt : ℚ) / 1000000) := by
  obtain ⟨hbid, hask, hmarket, j, -, hslot⟩ := persistent_tables field h
  refine ⟨48 + j, by omega, hslot, ?_, fun oo => ?_⟩
  · rcases fieldAt_lookup field (mem_of_lookup hslot) _ hslot with ⟨hfield, -⟩ | ⟨-, hnot⟩
    · exact hfield
    · exact absurd h hnot
  · unfold stateRead marketRead
    rw [if_neg hbid, if_neg hask, hmarket, hslot]
    rfl

/-- The statements for a call of `orders` stay out of the slots that persist. -/
theorem outTarget_order {idx : Fin 4} {call : OrderCall} {s : Stmt}
    (h : s ∈ increment :: call.emit (1 + idx.val * 4)) {slot : Int}
    (hslot : s.outTarget? = some slot) : fieldAt slot = none := by
  obtain ⟨h₀, h₁, h₂, h₃⟩ := fieldAt_order idx
  have hassign : ∀ {slot' value}, fieldAt slot' = none → s = makeAssign slot' value →
      fieldAt slot = none := by
    rintro slot' value hnone rfl
    cases hslot
    exact hnone
  rcases List.mem_cons.mp h with rfl | h
  · cases hslot
    rfl
  · cases call <;>
    · simp only [OrderCall.emit, emitOrder, emitCancel, List.mem_cons, List.not_mem_nil,
        or_false] at h
      rcases h with h | h | h | h
      · exact hassign h₀ h
      · exact hassign h₁ h
      · exact hassign h₂ h
      · exact hassign h₃ h

theorem outTarget_stateWrite (field : String) (value : Expr) :
    (stateWrite field value).outTarget? = orderOutSlots.lookup field := by
  unfold stateWrite
  cases orderOutSlots.lookup field with
  | none => rfl
  | some slot => rfl

/-- The frame: a step that assigns the field stores its value, and no other step touches it. -/
theorem exec_slot {slot : Nat} (hslot : 16 < slot) (hlookup : orderOutSlots.lookup field = some (slot : Int))
    (hfield : fieldAt slot = some field) (step : Step) (oo : Slots) :
    step.exec fixed oo slot = ((step.assigned? field).map fixed).getD (oo slot) := by
  cases step with
  | assign field' value v =>
      rw [Step.exec, Step.stmt, outTarget_stateWrite, Step.assigned?]
      by_cases heq : field' = field
      · rw [heq, hlookup, if_pos rfl]
        exact Function.update_self slot _ _
      · rw [if_neg heq]
        cases hslot' : orderOutSlots.lookup field' with
        | none => rfl
        | some slot' =>
            refine Function.update_of_ne (fun hsame => heq ?_) ..
            obtain rfl : slot' = slot := by omega
            rcases fieldAt_lookup field' (mem_of_lookup hslot') _ hslot' with ⟨hat, -⟩ | ⟨hat, -⟩
            · exact Option.some.inj (hat.symm.trans hfield)
            · rw [hat] at hfield
              cases hfield
  | order idx call s h word =>
      rw [Step.exec, Step.stmt]
      cases hslot' : s.outTarget? with
      | none => rfl
      | some slot' =>
          refine Function.update_of_ne (fun hsame => ?_) ..
          obtain rfl : slot' = slot := by omega
          rw [outTarget_order h hslot'] at hfield
          cases hfield

theorem callStart_slot {slot : Nat} (hslot : 16 < slot) (oo : Slots) : callStart oo slot = oo slot := by
  unfold callStart Host.orderOut
  dsimp only
  rw [if_neg (by omega), if_neg (by omega)]

/-! ## Runs -/

theorem lastAssigned_append (field : String) (steps : List Step) (step : Step) :
    lastAssigned field (steps ++ [step]) = (step.assigned? field).or (lastAssigned field steps) := by
  unfold lastAssigned
  rw [List.filterMap_append]
  cases hstep : step.assigned? field with
  | none => rw [List.filterMap_cons_none hstep, List.filterMap_nil, List.append_nil, Option.none_or]
  | some v =>
      rw [List.filterMap_cons_some hstep, List.filterMap_nil, List.getLast?_concat, Option.some_or]

theorem steps_slot {slot : Nat} (hslot : 16 < slot)
    (hlookup : orderOutSlots.lookup field = some (slot : Int)) (hfield : fieldAt slot = some field)
    (steps : List Step) {oo : Slots} {before : List Step}
    (hbefore : oo slot = ((lastAssigned field before).map fixed).getD 0) :
    steps.foldl (Step.exec fixed) oo slot =
      ((lastAssigned field (before ++ steps)).map fixed).getD 0 := by
  induction steps using List.reverseRecOn with
  | nil => rwa [List.append_nil]
  | append_singleton steps step ih =>
      rw [List.foldl_append, List.foldl_cons, List.foldl_nil, exec_slot hslot hlookup hfield, ih,
        ← List.append_assoc, lastAssigned_append]
      cases step.assigned? field with
      | none => rfl
      | some v => rfl

theorem run_slot {slot : Nat} (hslot : 16 < slot)
    (hlookup : orderOutSlots.lookup field = some (slot : Int)) (hfield : fieldAt slot = some field)
    (ticks : List (List Step)) : persistentRun fixed ticks slot =
      ((lastAssigned field ticks.flatten).map fixed).getD 0 := by
  induction ticks using List.reverseRecOn with
  | nil => rfl
  | append_singleton ticks steps ih =>
      rw [persistentRun, List.foldl_append, List.foldl_cons, List.foldl_nil, List.flatten_append,
        List.flatten_singleton]
      exact steps_slot hslot hlookup hfield steps ((callStart_slot hslot _).trans ih)

/-- Persistent state: whatever has been executed in earlier calls and in this one so
far, a field reads as the value last assigned to it, truncated, if that has room; and as 0 if
there was no assignment. -/
theorem reads_last_assigned (hfixed : Converts fixed) (ticks : List (List Step))
    (hmem : field ∈ persistent) (hfits : ∀ v ∈ lastAssigned field ticks.flatten, Fits v) :
    stateRead (persistentRun fixed ticks) field =
      some (((lastAssigned field ticks.flatten).map truncated).getD 0) := by
  obtain ⟨slot, hslot, hlookup, hfield, hread⟩ := slot_of_persistent hmem
  rw [hread, run_slot hslot hlookup hfield]
  cases hlast : lastAssigned field ticks.flatten with
  | none => exact congrArg some (zero_div (1000000 : ℚ))
  | some v =>
      show some (((fixed v).toInt : ℚ) / 1000000) = some (truncated v)
      rw [hfixed v (hfits v hlast)]
      rfl

/-- The conversion of the exact machine. -/
def fixedWord (v : ℚ) : Int64 := Int64.ofInt (micro v)

theorem converts_fixedWord : Converts fixedWord := fun v hv => by
  obtain ⟨hlow, hhigh⟩ := hv
  exact Int64.toInt_ofInt_of_le hlow hhigh

/-- `state.s0 = -2.5000004`, an order, `state.s1 = 7`, and a call without any statements. -/
def assignsAndTrades : List (List Step) :=
  [[.assign "s0" (int 0) (-25000004 / 10000000),
    .order ⟨0, Nat.succ_pos _⟩ (.market 3 (int 5)) increment List.mem_cons_self 1,
    .assign "s1" (int 7) 7], []]

theorem reads_last_assigned_trades :
    stateRead (persistentRun fixedWord assignsAndTrades) "s0" = some (-25 / 10) := by
  refine (reads_last_assigned converts_fixedWord assignsAndTrades (by decide) ?_).trans ?_
  · decide +kernel
  · decide +kernel

/-- A word has no room for ten trillion, whatever the conversion makes of it. -/
theorem large_value_lost : ¬ ∃ fixed : ℚ → Int64,
    stateRead (persistentRun fixed [[.assign "s0" (int 10000000000000) 10000000000000]]) "s0" =
      some (truncated 10000000000000) := by
  rintro ⟨fixed, h⟩
  obtain ⟨slot, hslot, hlookup, hfield, hread⟩ :=
    slot_of_persistent (show "s0" ∈ persistent by decide)
  rw [hread, run_slot hslot hlookup hfield] at h
  have hread : some (((fixed 10000000000000).toInt : ℚ) / 1000000) =
    some (truncated 10000000000000) := h
  have hvalue : truncated 10000000000000 = 10000000000000 := by decide +kernel
  have hroom := Int64.toInt_lt (fixed 10000000000000)
  rw [hvalue] at hread
  have hword : ((fixed 10000000000000).toInt : ℚ) = ((10000000000000000000 : Int) : ℚ) := by
    have := Option.some.inj hread
    push_cast
    linarith
  have := Int.cast_injective hword
  omega

end VidhiArena.Forge.Python
