import Mathlib.Data.List.Basic

/-!
# Runs

`RunResult` and its row in the table `runs`: `persistRun` and `loadRunFromDB` of
`backend/main.go`, `Worker.updateRunStatus` of `backend/worker/job_worker.go`, and the table
in `backend/db/schema.sql`. `F` is the type of the float64 values, times are milliseconds and
0 is the zero `time.Time`.

The only `INSERT` gives every column it names a value, so these columns are not `Option`s. A
submission has put its user into `contestants`, and no round is ever deleted. The columns
`phase` and `error_msg` are neither written nor read.
-/

namespace VidhiArena.Backend

/-- The statuses that the backend gives a run. -/
inductive RunStatus where
  | queued
  | compilingCpp
  | scanning
  | transpiling
  | compiling
  | validating
  | queuedGm
  | running
  | complete
  | error
  | tle
deriving DecidableEq

/-- What is measured about a run. -/
structure Measured (F : Type) where
  pnl : F
  pnlPct : F
  p50NS : F
  p90NS : F
  p99NS : F
  totalFills : Int
  totalTicks : Int
  tleCount : Int
  correctness : F
  violations : Int
deriving DecidableEq

def Measured.zero {F : Type} [Zero F] : Measured F := ⟨0, 0, 0, 0, 0, 0, 0, 0, 0, 0⟩

structure RunResult (F : Type) extends Measured F where
  runID : String
  userID : String
  roundID : String
  isPractice : Bool
  status : RunStatus
  startedAt : Int
  completedAt : Int
deriving DecidableEq

/-- A row of `runs`. -/
structure RunRow (F : Type) extends Measured F where
  runID : String
  userID : String
  roundID : Option String
  status : RunStatus
  codeHash : String
  startedAt : Int
  completedAt : Int
deriving DecidableEq

/-- The fields of the worker's `GMResult` that it writes. -/
structure GMResult (F : Type) where
  pnl : F
  pnlPct : F
  p50NS : F
  p99NS : F
  totalTicks : Int
  totalFills : Int
  tleCount : Int
  correctness : F
  violations : Int
deriving DecidableEq

variable {F : Type}

/-- The `round_id` that `persistRun` stores: none for a practice run. -/
def RunResult.storedRound (r : RunResult F) : Option String :=
  if !r.isPractice && r.roundID != "" then some r.roundID else none

/-- What `persistRun` inserts; `code_hash` is left to its default. -/
def RunResult.row (r : RunResult F) : RunRow F where
  toMeasured := r.toMeasured
  runID := r.runID
  userID := r.userID
  roundID := r.storedRound
  status := r.status
  codeHash := ""
  startedAt := r.startedAt
  completedAt := r.completedAt

/-- What `ON CONFLICT(run_id) DO UPDATE` leaves of the row that is there. -/
def RunResult.overwrite (r : RunResult F) (row : RunRow F) : RunRow F :=
  { row with toMeasured := r.toMeasured, status := r.status, completedAt := r.completedAt }

/-- The constraint `runs_round_id_fkey`. -/
def RunRow.referencesRound (rounds : List String) (row : RunRow F) : Bool :=
  row.roundID.all fun q => rounds.contains q

/-- `persistRun`: a row that names an unknown round is refused. -/
def persistRun (rounds : List String) (runs : List (RunRow F)) (r : RunResult F) :
    List (RunRow F) :=
  if runs.any fun row => row.runID == r.runID then
    runs.map fun row => if row.runID = r.runID then r.overwrite row else row
  else if r.row.referencesRound rounds then runs ++ [r.row] else runs

/-- What `Worker.updateRunStatus` sets in the row of the run; `p90_ns` is not among it. -/
def GMResult.overwrite (result : GMResult F) (now : Int) (row : RunRow F) : RunRow F :=
  { row with
    pnl := result.pnl, pnlPct := result.pnlPct, p50NS := result.p50NS, p99NS := result.p99NS,
    totalTicks := result.totalTicks, tleCount := result.tleCount,
    violations := result.violations, correctness := result.correctness,
    totalFills := result.totalFills, completedAt := now }

/-- `Worker.updateRunStatus`, with the clock of the database. -/
def updateRunStatus (runs : List (RunRow F)) (runID : String) (status : RunStatus)
    (result : Option (GMResult F)) (now : Int) : List (RunRow F) :=
  runs.map fun row =>
    if row.runID = runID then
      match result with
      | none => { row with status }
      | some result => { result.overwrite now row with status }
    else row

/-- `loadRunFromDB`: the flag of a practice run is not stored. -/
def loadRunFromDB (runs : List (RunRow F)) (runID : String) : Option (RunResult F) :=
  (runs.find? fun row => row.runID == runID).map fun row =>
    { toMeasured := row.toMeasured
      runID := row.runID
      userID := row.userID
      roundID := row.roundID.getD ""
      isPractice := false
      status := row.status
      startedAt := row.startedAt
      completedAt := row.completedAt }

/-! ## One run -/

def rowOf (runs : List (RunRow F)) (runID : String) : Option (RunRow F) :=
  runs.find? fun row => row.runID == runID

theorem rowOf_map (runs : List (RunRow F)) (runID : String) {f : RunRow F → RunRow F}
    (hf : ∀ row, (f row).runID = row.runID) :
    rowOf (runs.map fun row => if row.runID = runID then f row else row) runID =
      (rowOf runs runID).map f := by
  have hid : (fun row : RunRow F => row.runID == runID) ∘
      (fun row => if row.runID = runID then f row else row) = fun row => row.runID == runID := by
    funext row
    simp only [Function.comp]
    split
    · rw [hf]
    · rfl
  rw [rowOf, List.find?_map, hid, rowOf]
  cases hrow : runs.find? fun row => row.runID == runID with
  | none => rfl
  | some row => exact congrArg some (if_pos (eq_of_beq (List.find?_some hrow :)))

theorem rowOf_updateRunStatus_none (runs : List (RunRow F)) (runID : String) (status : RunStatus)
    (now : Int) : rowOf (updateRunStatus runs runID status none now) runID =
      (rowOf runs runID).map fun row => { row with status } :=
  rowOf_map (f := fun row => { row with status }) runs runID fun _ => rfl

theorem rowOf_updateRunStatus_some (runs : List (RunRow F)) (runID : String) (status : RunStatus)
    (result : GMResult F) (now : Int) :
    rowOf (updateRunStatus runs runID status (some result) now) runID =
      (rowOf runs runID).map fun row => { result.overwrite now row with status } :=
  rowOf_map (f := fun row => { result.overwrite now row with status }) runs runID fun _ => rfl

/-- `persistRun` writes over the row that is there, or adds one that names no unknown round. -/
theorem rowOf_persistRun (rounds : List String) (runs : List (RunRow F)) (r : RunResult F) :
    rowOf (persistRun rounds runs r) r.runID =
      match rowOf runs r.runID with
      | some row => some (r.overwrite row)
      | none => if r.row.referencesRound rounds then some r.row else none := by
  have hany : (runs.any fun row => row.runID == r.runID) = (rowOf runs r.runID).isSome := by
    rw [Bool.eq_iff_iff, rowOf, List.find?_isSome, List.any_eq_true]
  rw [persistRun, hany]
  cases hrow : rowOf runs r.runID with
  | some row =>
      rw [Option.isSome_some, if_pos rfl, rowOf_map (f := r.overwrite) runs r.runID fun _ => rfl,
        hrow]
      rfl
  | none =>
      rw [Option.isSome_none, if_neg Bool.false_ne_true]
      split
      · rw [rowOf, List.find?_append]
        change (rowOf runs r.runID).or _ = _
        rw [hrow]
        simp [RunResult.row]
      · exact hrow

/-! ## Many runs -/

theorem mem_persistRun {rounds : List String} {runs : List (RunRow F)} {r : RunResult F}
    {row : RunRow F} (h : row ∈ persistRun rounds runs r) :
    row ∈ runs ∨ (∃ old ∈ runs, old.runID = r.runID ∧ row = r.overwrite old) ∨
      (r.row.referencesRound rounds = true ∧ row = r.row) := by
  unfold persistRun at h
  split at h
  · obtain ⟨old, hold, rfl⟩ := List.mem_map.mp h
    split
    · next hid => exact Or.inr (Or.inl ⟨old, hold, hid, rfl⟩)
    · exact Or.inl hold
  · split at h
    · next href =>
        rcases List.mem_append.mp h with h | h
        · exact Or.inl h
        · exact Or.inr (Or.inr ⟨href, List.mem_singleton.mp h⟩)
    · exact Or.inl h

theorem mem_updateRunStatus {runs : List (RunRow F)} {runID : String} {status : RunStatus}
    {result : Option (GMResult F)} {now : Int} {row : RunRow F}
    (h : row ∈ updateRunStatus runs runID status result now) :
    ∃ old ∈ runs, row.runID = old.runID ∧ row.userID = old.userID ∧ row.roundID = old.roundID ∧
      row.codeHash = old.codeHash := by
  obtain ⟨old, hold, rfl⟩ := List.mem_map.mp h
  refine ⟨old, hold, ?_⟩
  split
  · cases result <;> exact ⟨rfl, rfl, rfl, rfl⟩
  · exact ⟨rfl, rfl, rfl, rfl⟩

/-- Runs with different ids are stored one by one, those that name no unknown round. -/
theorem foldl_persistRun (rounds : List String) : ∀ {rs : List (RunResult F)}
    {runs : List (RunRow F)}, (rs.map RunResult.runID).Nodup →
    (∀ r ∈ rs, ∀ row ∈ runs, row.runID ≠ r.runID) →
    rs.foldl (persistRun rounds) runs =
      runs ++ (rs.map RunResult.row).filter (RunRow.referencesRound rounds)
  | [], runs, _, _ => (List.append_nil runs).symm
  | r :: rs, runs, hnodup, hfresh => by
      obtain ⟨hr, hrs⟩ := List.nodup_cons.mp hnodup
      have hnew : runs.any (fun row => row.runID == r.runID) = false := by
        rw [List.any_eq_false]
        exact fun row hrow h => hfresh r List.mem_cons_self row hrow (eq_of_beq h)
      have hstep : persistRun rounds runs r =
          runs ++ [r.row].filter (RunRow.referencesRound rounds) := by
        rw [persistRun, if_neg (Bool.not_eq_true _ ▸ hnew)]
        split
        · next href => rw [List.filter_cons_of_pos href, List.filter_nil]
        · next href => rw [List.filter_cons_of_neg href, List.filter_nil, List.append_nil]
      have hfresh' : ∀ r' ∈ rs, ∀ row ∈ persistRun rounds runs r, row.runID ≠ r'.runID := by
        intro r' hr' row hrow
        rw [hstep] at hrow
        rcases List.mem_append.mp hrow with hrow | hrow
        · exact hfresh r' (List.mem_cons_of_mem _ hr') row hrow
        · obtain rfl := List.mem_singleton.mp (List.mem_of_mem_filter hrow)
          exact fun h => hr (List.mem_map.mpr ⟨r', hr', h.symm⟩)
      rw [List.foldl_cons, foldl_persistRun rounds hrs hfresh', hstep, List.append_assoc,
        ← List.filter_append]
      rfl

end VidhiArena.Backend
