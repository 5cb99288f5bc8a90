import Mathlib.Algebra.Ring.Int.Defs
import Mathlib.Data.String.Basic
import Mathlib.Order.OrderDual
import VidhiArena.Backend.RunTable
import VidhiArena.Foundation.Rows
import VidhiArena.Worker.JobQueue

/-!
# The final evaluation

`handleFinalEval` of `backend/main.go`, over the tables that `handleSubmit`, the pipeline and
the workers leave. The database and Redis are up. A submission enters with the round it is
for, once that is decided; the clock enters with the moves.

`codes` records which code was submitted as which run. The program does not: `code_hash` is
the only column for it.
-/

namespace VidhiArena.Backend

open VidhiArena.Foundation Rows OrderDual
open VidhiArena.Worker (RunJob)

structure ArenaState (F : Type) where
  /-- the ids and the bot configurations -/
  rounds : List (String × String)
  runCache : List (RunResult F)
  runs : List (RunRow F)
  /-- the jobs in Redis, the next one first -/
  pending : List RunJob
  /-- the runs and the digests of their codes -/
  codes : List (String × String)

inductive ArenaMove (F : Type) where
  | submit (userID roundID : String) (isPractice : Bool) (code : List UInt8) (now : Int)
  /-- `updateRunStatus` of the pipeline -/
  | setStatus (runID : String) (status : RunStatus)
  /-- `failRun` -/
  | fail (runID : String) (now : Int)
  /-- step 6 of the pipeline -/
  | finish (runID : String) (result : Measured F) (now : Int)
  /-- `Worker.updateRunStatus` -/
  | work (runID : String) (status : RunStatus) (result : Option (GMResult F)) (now : Int)
  | addRound (roundID botConfig : String)
  | finalEval (roundID : String) (clock : Nat → Int)

/-- `filepath.Join(cfg.SoCache, hash+".so")`. -/
def soPath (soCache hash : String) : String := soCache ++ "/" ++ hash ++ ".so"

/-- `codeHash[:8]`, of a column that holds digits; the index is out of range otherwise. -/
def firstEight (codeHash : String) : Option String :=
  if codeHash.utf8ByteSize < 8 then none else some (String.ofList (codeHash.toList.take 8))

namespace ArenaState

variable {F : Type} [Zero F]

def init : ArenaState F := ⟨[("round1", "MM:0.5,NOISE:0.5"),
  ("round2", "MM:1.0,NOISE:1.0,MOM:0.5")], [], [], [], []⟩

/-- `cacheRun`. -/
def cacheRun (s : ArenaState F) (r : RunResult F) : ArenaState F :=
  { s with runCache := r :: s.runCache.filter fun r' => r'.runID ≠ r.runID }

/-- `persistRun`. -/
def persist (s : ArenaState F) (r : RunResult F) : ArenaState F :=
  { s with runs := persistRun (s.rounds.map Prod.fst) s.runs r }

/-- What the pipeline does to the entry of a run. -/
def editCached (s : ArenaState F) (runID : String) (f : RunResult F → RunResult F) :
    ArenaState F :=
  { s with runCache := s.runCache.map fun r => if r.runID = runID then f r else r }

/-- `persistRun` of the entry of a run, if there is one. -/
def persistCached (s : ArenaState F) (runID : String) : ArenaState F :=
  match s.runCache.find? fun r => r.runID == runID with
  | some r => s.persist r
  | none => s

/-- A run that has just been created. -/
def newRun (runID userID roundID : String) (isPractice : Bool) (now : Int) : RunResult F where
  toMeasured := .zero
  runID := runID
  userID := userID
  roundID := roundID
  isPractice := isPractice
  status := .queued
  startedAt := now
  completedAt := 0

/-- `handleSubmit`, from the digest on. -/
def handleSubmit (sha256 : List UInt8 → String) (s : ArenaState F) (userID roundID : String)
    (isPractice : Bool) (code : List UInt8) (now : Int) : ArenaState F :=
  let hash := sha256 code
  let runID := "run_" ++ String.ofList (hash.toList.take 8) ++ "_" ++ toString now
  let run := newRun runID userID roundID isPractice now
  { (s.cacheRun run).persist run with codes := s.codes ++ [(runID, hash)] }

/-! ## `handleFinalEval` -/

/-- `SELECT DISTINCT ON(user_id) … WHERE round_id=$1 AND status='complete'
ORDER BY user_id, completed_at DESC`. -/
def participants (runs : List (RunRow F)) (roundID : String) : List (RunRow F) :=
  leastOfGroups RunRow.userID (fun row => toDual row.completedAt)
    (runs.filter fun row => row.roundID = some roundID && row.status = .complete)

/-- The body of the loop for a row whose hash has been cut to `prefix8`. -/
def evalRun (soCache roundID : String) (s : ArenaState F) (row : RunRow F) (prefix8 : String)
    (now : Int) : ArenaState F × RunJob :=
  let runID := "run_final_" ++ prefix8 ++ "_" ++ toString now
  let run := newRun runID row.userID roundID false now
  let botConfig := ((s.rounds.find? fun round => round.1 == roundID).map Prod.snd).getD ""
  let job : RunJob := ⟨runID, row.userID, soPath soCache row.codeHash, roundID, botConfig, 0, now⟩
  let s' := (s.cacheRun run).persist run
  ({ s' with pending := s'.pending ++ [job], codes := s'.codes ++ [(runID, row.codeHash)] }, job)

/-- The loop over the rows, with the jobs enqueued so far; a panic leaves the state as it
is. -/
def evalRuns (soCache roundID : String) (clock : Nat → Int) :
    List (RunRow F) → ArenaState F → List RunJob →
      Except (ArenaState F) (ArenaState F × List RunJob)
  | [], s, jobs => .ok (s, jobs)
  | row :: rows, s, jobs =>
      match firstEight row.codeHash with
      | none => .error s
      | some prefix8 =>
          let (s', job) := evalRun soCache roundID s row prefix8 (clock jobs.length)
          evalRuns soCache roundID clock rows s' (jobs ++ [job])

def handleFinalEval (soCache : String) (s : ArenaState F) (roundID : String)
    (clock : Nat → Int) : Except (ArenaState F) (ArenaState F × List RunJob) :=
  evalRuns soCache roundID clock (participants s.runs roundID) s []

/-! ## Runs -/

variable (sha256 : List UInt8 → String) (soCache : String)

def step (s : ArenaState F) : ArenaMove F → ArenaState F
  | .submit userID roundID isPractice code now =>
      s.handleSubmit sha256 userID roundID isPractice code now
  | .setStatus runID status => s.editCached runID fun r => { r with status }
  | .fail runID now =>
      (s.editCached runID fun r =>
        { r with status := .error, completedAt := now }).persistCached runID
  | .finish runID result now =>
      (s.editCached runID fun r =>
        { r with
          toMeasured := result, status := .complete, completedAt := now }).persistCached runID
  | .work runID status result now =>
      { s with runs := updateRunStatus s.runs runID status result now }
  | .addRound roundID botConfig =>
      if s.rounds.any fun round => round.1 == roundID then s
      else { s with rounds := s.rounds ++ [(roundID, botConfig)] }
  | .finalEval roundID clock =>
      match s.handleFinalEval soCache roundID clock with
      | .ok (s', _) => s'
      | .error s' => s'

def run (moves : List (ArenaMove F)) : ArenaState F :=
  moves.foldl (step sha256 soCache) init

/-! ## The hash that is never stored -/

def Unhashed (s : ArenaState F) : Prop := ∀ row ∈ s.runs, row.codeHash = ""

variable {sha256 soCache} {s : ArenaState F}

omit [Zero F] in
theorem Unhashed.persist (h : s.Unhashed) (r : RunResult F) : (s.persist r).Unhashed := by
  intro row hrow
  rcases mem_persistRun hrow with hrow | ⟨old, hold, -, rfl⟩ | ⟨-, rfl⟩
  · exact h row hrow
  · exact h old hold
  · rfl

omit [Zero F] in
theorem Unhashed.persistCached (h : s.Unhashed) (runID : String) :
    (s.persistCached runID).Unhashed := by
  unfold ArenaState.persistCached
  split
  · exact h.persist _
  · exact h

omit [Zero F] in
theorem participants_subset {runs : List (RunRow F)} {roundID : String} {row : RunRow F}
    (h : row ∈ participants runs roundID) :
    row ∈ runs ∧ row.roundID = some roundID ∧ row.status = .complete := by
  obtain ⟨hrow, hcond⟩ := List.mem_filter.mp (mem_of_leastOfGroups h)
  rw [Bool.and_eq_true, decide_eq_true_eq, decide_eq_true_eq] at hcond
  exact ⟨hrow, hcond⟩

omit [Zero F] in
theorem participants_eq_nil_iff {runs : List (RunRow F)} {roundID : String} :
    participants runs roundID = [] ↔
      ∀ row ∈ runs, row.roundID = some roundID → row.status ≠ .complete := by
  constructor
  · intro hnil row hrow hround hcomplete
    have hmem : row ∈ runs.filter
        fun row => row.roundID = some roundID && row.status = .complete :=
      List.mem_filter.mpr ⟨hrow, by rw [hround, hcomplete, decide_eq_true rfl]; rfl⟩
    obtain ⟨first, hfirst, -⟩ := exists_leastOfGroups RunRow.userID
      (fun row => toDual row.completedAt) hmem
    change first ∈ participants runs roundID at hfirst
    exact List.not_mem_nil (hnil ▸ hfirst)
  · intro hnone
    refine List.eq_nil_iff_forall_not_mem.mpr fun row hrow => ?_
    obtain ⟨hmem, hround, hcomplete⟩ := participants_subset hrow
    exact hnone row hmem hround hcomplete

/-- The first row stops the handler, before anything is enqueued. -/
theorem handleFinalEval_of_unhashed (soCache : String) (h : s.Unhashed) (roundID : String)
    (clock : Nat → Int) :
    s.handleFinalEval soCache roundID clock =
      if participants s.runs roundID = [] then .ok (s, []) else .error s := by
  unfold handleFinalEval
  cases hrows : participants s.runs roundID with
  | nil => rfl
  | cons row rows =>
      have hrow : row ∈ participants s.runs roundID := hrows ▸ List.mem_cons_self
      have hhash : firstEight row.codeHash = none := by
        rw [h row (participants_subset hrow).1]
        decide
      rw [evalRuns, hhash, if_neg (List.cons_ne_nil row rows)]

theorem Unhashed.step (h : s.Unhashed) (m : ArenaMove F) : (s.step sha256 soCache m).Unhashed := by
  cases m with
  | submit => exact Unhashed.persist (s := s.cacheRun _) h _
  | setStatus => exact h
  | fail runID | finish runID => exact Unhashed.persistCached (s := s.editCached runID _) h runID
  | work runID status result now =>
      intro row hrow
      obtain ⟨old, hold, -, -, -, hhash⟩ := mem_updateRunStatus hrow
      exact hhash.trans (h old hold)
  | addRound =>
      rw [ArenaState.step]
      split <;> exact h
  | finalEval roundID clock =>
      rw [ArenaState.step, handleFinalEval_of_unhashed _ h]
      by_cases hnil : participants s.runs roundID = []
      · rw [if_pos hnil]
        exact h
      · rw [if_neg hnil]
        exact h

theorem unhashed_run (moves : List (ArenaMove F)) : (run sha256 soCache moves).Unhashed := by
  refine List.foldlRecOn (motive := Unhashed) moves _ ?_ fun s h m _ => h.step m
  exact fun _ hrow => absurd hrow List.not_mem_nil

/-! ## What an evaluation has to do -/

variable (soCache s) in
/-- For any clock, the handler returns and has enqueued one job for each user with a complete
run in the round, for the code of the one that was completed last, under ids of their own. -/
def EvaluatesAll (roundID : String) : Prop :=
  ∀ clock : Nat → Int, ∃ s' jobs, s.handleFinalEval soCache roundID clock = .ok (s', jobs) ∧
    s'.pending = s.pending ++ jobs ∧ (jobs.map RunJob.userId).Nodup ∧
    (jobs.map RunJob.runId).Nodup ∧
    (∀ userID, userID ∈ jobs.map RunJob.userId ↔ ∃ row ∈ s.runs,
      row.roundID = some roundID ∧ row.status = .complete ∧ row.userID = userID) ∧
    ∀ job ∈ jobs, ∃ row ∈ s.runs, row.roundID = some roundID ∧ row.status = .complete ∧
      row.userID = job.userId ∧
      (∀ row' ∈ s.runs, row'.roundID = some roundID → row'.status = .complete →
        row'.userID = job.userId → row'.completedAt ≤ row.completedAt) ∧
      ∃ hash, (row.runID, hash) ∈ s.codes ∧ job.soPath = soPath soCache hash

/-- The final evaluation does its work exactly when there is none: no run of the round is
complete. -/
theorem final_eval_iff (sha256 : List UInt8 → String) (soCache : String)
    (moves : List (ArenaMove F)) (roundID : String) :
    EvaluatesAll soCache (run sha256 soCache moves) roundID ↔
      ∀ row ∈ (run sha256 soCache moves).runs, row.roundID = some roundID →
        row.status ≠ .complete := by
  have hunhashed : (run sha256 soCache moves).Unhashed := unhashed_run moves
  have hresult := handleFinalEval_of_unhashed soCache hunhashed roundID
  rw [← participants_eq_nil_iff]
  constructor
  · intro h
    by_contra hne
    obtain ⟨s', jobs, hok, -⟩ := h fun _ => 0
    rw [hresult, if_neg hne] at hok
    exact nomatch hok
  · intro hnil clock
    have hnone := participants_eq_nil_iff.mp hnil
    refine ⟨_, [], (hresult clock).trans (if_pos hnil), (List.append_nil _).symm, List.nodup_nil,
      List.nodup_nil, ?_, fun _ hjob => absurd hjob List.not_mem_nil⟩
    intro userID
    constructor
    · exact fun h => absurd h List.not_mem_nil
    · rintro ⟨row, hrow, hround, hcomplete, -⟩
      exact absurd hcomplete (hnone row hrow hround)

/-- A submission that does nothing, and its digest. -/
def idleCode : List UInt8 :=
  [100, 101, 102, 32, 111, 110, 95, 116, 105, 99, 107, 40, 115, 116, 97, 116, 101, 44, 32, 111,
    114, 100, 101, 114, 115, 41, 58, 10, 32, 32, 32, 32, 112, 97, 115, 115, 10]

def idleDigest : String := "68c5f7f7634d062a801e6854fecce5746181ab437196d8911f2aeb0c7fecc10e"

/-- It is submitted, and a worker completes it. -/
def oneRun : List (ArenaMove Int) :=
  [.submit "alice" "round1" false idleCode 1780000000000,
    .work "run_68c5f7f7_1780000000000" .complete (some ⟨0, 0, 90, 140, 100000, 0, 0, 1, 0⟩)
      1780000060000]

/-- One complete run, and the handler panics. -/
theorem final_eval_panics : ¬ EvaluatesAll "/tmp/vidhi/so"
    (run (fun _ => idleDigest) "/tmp/vidhi/so" oneRun) "round1" := by
  intro h
  obtain ⟨s', jobs, hok, -⟩ := h fun _ => 1780000120000
  have hpanic : ((run (fun _ => idleDigest) "/tmp/vidhi/so" oneRun).handleFinalEval
      "/tmp/vidhi/so" "round1" fun _ => 1780000120000).toOption.isNone := by
    decide +kernel
  rw [hok] at hpanic
  exact nomatch hpanic

end ArenaState

end VidhiArena.Backend
