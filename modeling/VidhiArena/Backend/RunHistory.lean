import Mathlib.Algebra.Ring.Int.Defs
import VidhiArena.Backend.RunTable

/-!
# What is reported about a run

One run from `handleSubmit` on, through `runForgePipeline`, `failRun` and the worker, and what
`handleGetRun` returns of it. The pipeline keeps the run in `runCache` and stores it now and
then; the worker only knows the table `runs`; the reader asks the table first.

Which backends are available does not change. A `Move` is one step of the pipeline or of a
worker that changes what is kept about the run; a move whose time has not come does nothing.
`recorded` is what was meant to be kept last. It is no part of the program.
-/

namespace VidhiArena.Backend

variable {F : Type}

/-! ## State -/

/-- The backends and the ids in `rounds`. -/
structure Backends where
  postgres : Bool
  redis : Bool
  rounds : List String

/-- Where `runForgePipeline` is. -/
inductive Stage where
  | forging
  /-- `queued_gm` -/
  | dispatching
  /-- the worker will handle the rest -/
  | enqueued
  /-- in `dispatchToGameMaster` -/
  | direct
  | ended
deriving DecidableEq

/-- The statuses that the pipeline sets before `queued_gm`. -/
def isForgeStatus : RunStatus → Bool
  | .compilingCpp | .scanning | .transpiling | .compiling | .validating => true
  | _ => false

/-- The statuses that the worker sets without a result. -/
def isWorkerStatus : RunStatus → Bool
  | .queued | .running | .error | .tle => true
  | _ => false

/-- What was recorded last. -/
inductive Recorded (F : Type) where
  | submitted
  /-- by the pipeline's `updateRunStatus` -/
  | status (status : RunStatus)
  /-- by `failRun` -/
  | failed
  /-- by step 6 of the pipeline -/
  | completed (result : Measured F)
  /-- by the worker's `updateRunStatus` -/
  | workerStatus (status : RunStatus)
  | workerCompleted (result : GMResult F)

structure RunHistory (F : Type) where
  stage : Stage
  /-- the entry of `runCache`, which is never taken out -/
  cache : RunResult F
  runs : List (RunRow F)
  recorded : Recorded F

inductive HistoryMove (F : Type) where
  | status (status : RunStatus)
  | fail (now : Int)
  | queueGM
  | dispatch
  | complete (result : Measured F) (now : Int)
  | worker (status : RunStatus) (now : Int)
  /-- `processJob` returns nil -/
  | workerComplete (result : GMResult F) (now : Int)

/-! ## Steps -/

/-- `persistRun`, if there is a database. -/
def Backends.persist (b : Backends) (runs : List (RunRow F)) (r : RunResult F) :
    List (RunRow F) :=
  if b.postgres then persistRun b.rounds runs r else runs

/-- `Worker.updateRunStatus`, if there is a database. -/
def Backends.update (b : Backends) (runs : List (RunRow F)) (runID : String) (status : RunStatus)
    (result : Option (GMResult F)) (now : Int) : List (RunRow F) :=
  if b.postgres then updateRunStatus runs runID status result now else runs

/-- The run that `handleSubmit` makes. -/
def newRun [Zero F] (runID userID roundID : String) (isPractice : Bool) (now : Int) :
    RunResult F where
  toMeasured := .zero
  runID := runID
  userID := userID
  roundID := roundID
  isPractice := isPractice
  status := .queued
  startedAt := now
  completedAt := 0

namespace RunHistory

/-- After `handleSubmit`, among the rows of other runs. -/
def init (b : Backends) (others : List (RunRow F)) (r : RunResult F) : RunHistory F where
  stage := .forging
  cache := r
  runs := b.persist (others.filter fun row => row.runID != r.runID) r
  recorded := .submitted

def step (b : Backends) (s : RunHistory F) : HistoryMove F → RunHistory F
  | .status status =>
      if s.stage = .forging ∧ isForgeStatus status then
        { s with cache := { s.cache with status }, recorded := .status status }
      else s
  | .fail now =>
      if s.stage = .forging ∨ s.stage = .direct then
        let r := { s.cache with status := .error, completedAt := now }
        { stage := .ended, cache := r, runs := b.persist s.runs r, recorded := .failed }
      else s
  | .queueGM =>
      if s.stage = .forging then
        { s with
          stage := .dispatching, cache := { s.cache with status := .queuedGm },
          recorded := .status .queuedGm }
      else s
  | .dispatch =>
      if s.stage = .dispatching then
        if b.redis then { s with stage := .enqueued }
        else
          { s with
            stage := .direct, cache := { s.cache with status := .running },
            recorded := .status .running }
      else s
  | .complete result now =>
      if s.stage = .direct then
        let r := { s.cache with toMeasured := result, status := .complete, completedAt := now }
        { stage := .ended, cache := r, runs := b.persist s.runs r, recorded := .completed result }
      else s
  | .worker status now =>
      if s.stage = .enqueued ∧ isWorkerStatus status then
        { s with
          runs := b.update s.runs s.cache.runID status none now, recorded := .workerStatus status }
      else s
  | .workerComplete result now =>
      if s.stage = .enqueued then
        { s with
          runs := b.update s.runs s.cache.runID .complete (some result) now
          recorded := .workerCompleted result }
      else s

def run (b : Backends) (others : List (RunRow F)) (r : RunResult F)
    (moves : List (HistoryMove F)) : RunHistory F := moves.foldl (step b) (init b others r)

/-- `handleGetRun`. -/
def handleGetRun (b : Backends) (s : RunHistory F) : RunResult F :=
  if b.postgres then (loadRunFromDB s.runs s.cache.runID).getD s.cache else s.cache

end RunHistory

/-! ## What is wanted -/

/-- A status, and once complete the results, are those recorded. The worker's result has no
90th percentile. -/
def Recorded.Shown (status : RunStatus) (m : Measured F) : Recorded F → Prop
  | .submitted => status = .queued
  | .status st | .workerStatus st => status = st
  | .failed => status = .error
  | .completed result => status = .complete ∧ m = result
  | .workerCompleted result =>
      status = .complete ∧ m.pnl = result.pnl ∧ m.pnlPct = result.pnlPct ∧
        m.p50NS = result.p50NS ∧ m.p99NS = result.p99NS ∧ m.totalTicks = result.totalTicks ∧
        m.totalFills = result.totalFills ∧ m.tleCount = result.tleCount ∧
        m.correctness = result.correctness ∧ m.violations = result.violations

/-- There is a row of the run: Postgres is up, and the run is a practice run or its round is
known. -/
def Backends.stores (b : Backends) (r : RunResult F) : Bool :=
  b.postgres && r.row.referencesRound b.rounds

/-- The last record went where `handleGetRun` looks: that of the pipeline's
`updateRunStatus` to the cache, that of the worker to the row, all others to both. -/
def Recorded.whereRead (stored : Bool) : Recorded F → Bool
  | .status _ => !stored
  | .workerStatus _ | .workerCompleted _ => stored
  | _ => true

/-! ## Cache and table -/

def Recorded.inTable : Recorded F → Recorded F
  | .status _ => .submitted
  | recorded => recorded

def Recorded.inCache : Recorded F → Recorded F
  | .workerStatus _ | .workerCompleted _ => .status .queuedGm
  | recorded => recorded

/-- What may be recorded at a stage. -/
def Stage.Allows : Stage → Recorded F → Prop
  | .forging, .submitted => True
  | .forging, .status st => isForgeStatus st = true
  | .dispatching, .status st => st = .queuedGm
  | .enqueued, .status st => st = .queuedGm
  | .enqueued, .workerStatus st => isWorkerStatus st = true
  | .enqueued, .workerCompleted _ => True
  | .direct, .status st => st = .running
  | .ended, .failed => True
  | .ended, .completed _ => True
  | _, _ => False

/-- The table has nothing new before the run is enqueued or over. -/
theorem Stage.Allows.inTable {stage : Stage} {recorded : Recorded F} (h : stage.Allows recorded)
    (henqueued : stage ≠ .enqueued) (hended : stage ≠ .ended) : recorded.inTable = .submitted := by
  cases recorded with
  | submitted | status => rfl
  | failed | completed | workerStatus | workerCompleted =>
      cases stage with
      | forging | dispatching | direct => exact h.elim
      | enqueued => exact absurd rfl henqueued
      | ended => exact absurd rfl hended

theorem Stage.Allows.enqueued {recorded : Recorded F} (h : Stage.dispatching.Allows recorded) :
    Stage.enqueued.Allows recorded := by
  cases recorded with
  | status st => exact h
  | submitted | failed | completed | workerStatus | workerCompleted => exact h.elim

theorem Stage.Allows.status_ne {stage : Stage} {st : RunStatus}
    (h : stage.Allows (F := F) (.status st)) : st ≠ .queued := by
  rintro rfl
  cases stage with
  | forging | dispatching | enqueued | direct => exact nomatch h
  | ended => exact h

theorem Stage.Allows.workerStatus_ne {stage : Stage} {st : RunStatus}
    (h : stage.Allows (F := F) (.workerStatus st)) : st ≠ .queuedGm := by
  rintro rfl
  cases stage with
  | enqueued => exact nomatch h
  | forging | dispatching | direct | ended => exact h

namespace RunHistory

variable {b : Backends} {r : RunResult F} {s : RunHistory F}

/-- The cache and the row of run `r` each show what reaches them. -/
structure Tracked (b : Backends) (r : RunResult F) (s : RunHistory F) : Prop where
  id : s.cache.runID = r.runID
  round : s.cache.row.referencesRound b.rounds = r.row.referencesRound b.rounds
  allowed : s.stage.Allows s.recorded
  cache : s.recorded.inCache.Shown s.cache.status s.cache.toMeasured
  stored : (rowOf s.runs r.runID).isSome = b.stores r
  table : ∀ row, rowOf s.runs r.runID = some row →
    s.recorded.inTable.Shown row.status row.toMeasured

/-- `persistRun` of the cached run writes over the row, if there is one. -/
theorem rowOf_persist {runs : List (RunRow F)} {r' : RunResult F} (hid : r'.runID = r.runID)
    (hround : r'.row.referencesRound b.rounds = r.row.referencesRound b.rounds)
    (hstored : (rowOf runs r.runID).isSome = b.stores r) :
    rowOf (b.persist runs r') r.runID = (rowOf runs r.runID).map r'.overwrite := by
  rw [Backends.persist]
  rw [Backends.stores] at hstored
  split
  · next hpg =>
      rw [hpg, Bool.true_and] at hstored
      rw [← hid, rowOf_persistRun, hid]
      cases hrow : rowOf runs r.runID with
      | some row => rfl
      | none =>
          rw [hrow] at hstored
          rw [hround, ← hstored]
          rfl
  · next hpg =>
      rw [Bool.eq_false_iff.mpr hpg, Bool.false_and] at hstored
      rw [Option.isSome_eq_false_iff, Option.isNone_iff_eq_none] at hstored
      rw [hstored]
      rfl

theorem Tracked.init (others : List (RunRow F)) (hstatus : r.status = .queued) :
    (init b others r).Tracked b r := by
  have hothers : rowOf (others.filter fun row => row.runID != r.runID) r.runID = none := by
    refine List.find?_eq_none.mpr fun row hrow hid => ?_
    have hne := (List.mem_filter.mp hrow).2
    rw [bne, hid] at hne
    exact Bool.false_ne_true hne
  have hrow : rowOf (RunHistory.init b others r).runs r.runID =
      if b.stores r then some r.row else none := by
    change rowOf (b.persist _ r) r.runID = _
    rw [Backends.persist, Backends.stores]
    split
    · next hpg => rw [rowOf_persistRun, hothers, hpg, Bool.true_and]
    · next hpg => rw [hothers, Bool.eq_false_iff.mpr hpg, Bool.false_and, if_neg Bool.false_ne_true]
  refine ⟨rfl, rfl, trivial, hstatus, ?_, ?_⟩
  · rw [hrow]
    cases b.stores r <;> rfl
  · intro row heq
    rw [hrow] at heq
    split at heq
    · obtain rfl := Option.some.inj heq
      exact hstatus
    · exact nomatch heq

/-- The pipeline's `updateRunStatus`, before anything is stored. -/
theorem Tracked.setStatus (h : s.Tracked b r) {st : RunStatus} (stage : Stage)
    (hsubmitted : s.recorded.inTable = .submitted) (hallows : stage.Allows (F := F) (.status st)) :
    { s with stage, cache := { s.cache with status := st }, recorded := .status st :
      RunHistory F }.Tracked b r where
  id := h.id
  round := h.round
  allowed := hallows
  cache := rfl
  stored := h.stored
  table row hrow := by
    have hshown := h.table row hrow
    rw [hsubmitted] at hshown
    exact hshown

theorem Tracked.persist (h : s.Tracked b r) {r' : RunResult F} {recorded : Recorded F}
    (hid : r'.runID = s.cache.runID)
    (hround : r'.row.referencesRound b.rounds = s.cache.row.referencesRound b.rounds)
    (hallows : Stage.ended.Allows recorded) (hshown : recorded.Shown r'.status r'.toMeasured) :
    (⟨.ended, r', b.persist s.runs r', recorded⟩ : RunHistory F).Tracked b r := by
  have hboth : recorded.inCache = recorded ∧ recorded.inTable = recorded := by
    cases recorded with
    | failed | completed => exact ⟨rfl, rfl⟩
    | submitted | status | workerStatus | workerCompleted => exact hallows.elim
  have hrow : rowOf (b.persist s.runs r') r.runID = (rowOf s.runs r.runID).map r'.overwrite :=
    rowOf_persist (hid.trans h.id) (hround.trans h.round) h.stored
  refine ⟨hid.trans h.id, hround.trans h.round, hallows, ?_, ?_, ?_⟩
  · exact hboth.1.symm ▸ hshown
  · change (rowOf (b.persist s.runs r') r.runID).isSome = _
    rw [hrow, Option.isSome_map, h.stored]
  · intro row heq
    obtain ⟨old, -, rfl⟩ := Option.map_eq_some_iff.mp (hrow.symm.trans heq)
    exact hboth.2.symm ▸ hshown

/-- The worker's `updateRunStatus`, which writes over the row, if there is one. -/
theorem Tracked.update (h : s.Tracked b r) {f : RunRow F → RunRow F} {status : RunStatus}
    {result : Option (GMResult F)} {now : Int} {recorded : Recorded F}
    (hstage : s.stage = .enqueued) (hallows : Stage.enqueued.Allows recorded)
    (hcache : recorded.inCache = .status .queuedGm)
    (hrow : rowOf (updateRunStatus s.runs r.runID status result now) r.runID =
      (rowOf s.runs r.runID).map f)
    (hshown : ∀ row, recorded.inTable.Shown (f row).status (f row).toMeasured) :
    { s with
      runs := b.update s.runs s.cache.runID status result now, recorded :
      RunHistory F }.Tracked b r := by
  have hqueued : s.cache.status = .queuedGm := by
    have hallowed := h.allowed
    have hshown := h.cache
    rw [hstage] at hallowed
    cases hrec : s.recorded with
    | status st =>
        rw [hrec] at hallowed hshown
        exact hshown.trans hallowed
    | workerStatus | workerCompleted =>
        rw [hrec] at hshown
        exact hshown
    | submitted | failed | completed =>
        rw [hrec] at hallowed
        exact hallowed.elim
  have hupdate : rowOf (b.update s.runs s.cache.runID status result now) r.runID =
      (rowOf s.runs r.runID).map f := by
    rw [Backends.update, h.id]
    split
    · exact hrow
    · next hpg =>
        have hstored := h.stored
        rw [Backends.stores, Bool.eq_false_iff.mpr hpg, Bool.false_and, Option.isSome_eq_false_iff,
          Option.isNone_iff_eq_none] at hstored
        rw [hstored]
        rfl
  refine ⟨h.id, h.round, hstage ▸ hallows, ?_, ?_, ?_⟩
  · rw [hcache]
    exact hqueued
  · change (rowOf (b.update s.runs s.cache.runID status result now) r.runID).isSome = _
    rw [hupdate, Option.isSome_map, h.stored]
  · intro row heq
    obtain ⟨old, -, rfl⟩ := Option.map_eq_some_iff.mp (hupdate.symm.trans heq)
    exact hshown old

theorem Tracked.step (h : s.Tracked b r) (m : HistoryMove F) : (s.step b m).Tracked b r := by
  have hsubmitted := h.allowed.inTable
  cases m with
  | status st =>
      rw [RunHistory.step]
      split
      · next hforge =>
          obtain ⟨hstage, hst⟩ := hforge
          rw [hstage] at hsubmitted
          exact h.setStatus s.stage (hsubmitted (by decide) (by decide)) (hstage ▸ hst)
      · exact h
  | fail now =>
      rw [RunHistory.step]
      split
      · exact h.persist rfl rfl trivial rfl
      · exact h
  | queueGM =>
      rw [RunHistory.step]
      split
      · next hstage =>
          rw [hstage] at hsubmitted
          exact h.setStatus .dispatching (hsubmitted (by decide) (by decide)) rfl
      · exact h
  | dispatch =>
      rw [RunHistory.step]
      split
      · next hstage =>
          rw [hstage] at hsubmitted
          split
          · obtain ⟨hid, hround, hallowed, hcache, hstored, htable⟩ := h
            exact ⟨hid, hround, (hstage ▸ hallowed).enqueued, hcache, hstored, htable⟩
          · exact h.setStatus .direct (hsubmitted (by decide) (by decide)) rfl
      · exact h
  | complete result now =>
      rw [RunHistory.step]
      split
      · exact h.persist rfl rfl trivial ⟨rfl, rfl⟩
      · exact h
  | worker st now =>
      rw [RunHistory.step]
      split
      · next hwork =>
          obtain ⟨hstage, hst⟩ := hwork
          exact h.update hstage hst rfl (rowOf_updateRunStatus_none s.runs r.runID st now)
            fun _ => rfl
      · exact h
  | workerComplete result now =>
      rw [RunHistory.step]
      split
      · next hstage =>
          exact h.update hstage trivial rfl
            (rowOf_updateRunStatus_some s.runs r.runID .complete result now)
            fun _ => ⟨rfl, rfl, rfl, rfl, rfl, rfl, rfl, rfl, rfl, rfl⟩
      · exact h

theorem Tracked.run (others : List (RunRow F)) (hstatus : r.status = .queued)
    (moves : List (HistoryMove F)) : (run b others r moves).Tracked b r :=
  List.foldlRecOn moves (RunHistory.step b) (Tracked.init others hstatus)
    fun _ hs m _ => hs.step m

/-! ## Reading -/

theorem Tracked.reads_row (h : s.Tracked b r) {row : RunRow F}
    (hrow : rowOf s.runs r.runID = some row) :
    (s.handleGetRun b).status = row.status ∧ (s.handleGetRun b).toMeasured = row.toMeasured := by
  have hpg : b.postgres = true := by
    have hstored := h.stored
    rw [hrow, Option.isSome_some] at hstored
    exact (Bool.and_eq_true_iff.mp hstored.symm).1
  have hload : loadRunFromDB s.runs s.cache.runID = (rowOf s.runs s.cache.runID).map _ := rfl
  rw [handleGetRun, if_pos hpg, hload, h.id, hrow]
  exact ⟨rfl, rfl⟩

theorem Tracked.reads_cache (h : s.Tracked b r) (hrow : rowOf s.runs r.runID = none) :
    s.handleGetRun b = s.cache := by
  rw [handleGetRun]
  split
  · have hload : loadRunFromDB s.runs s.cache.runID = (rowOf s.runs s.cache.runID).map _ := rfl
    rw [hload, h.id, hrow]
    rfl
  · rfl

/-- With a row, all but the pipeline's own statuses are reported. -/
theorem Tracked.reports_row (h : s.Tracked b r) {row : RunRow F}
    (hrow : rowOf s.runs r.runID = some row) :
    s.recorded.Shown (s.handleGetRun b).status (s.handleGetRun b).toMeasured ↔
      s.recorded.whereRead true = true := by
  obtain ⟨hstatus, hmeasured⟩ := h.reads_row hrow
  have hallowed := h.allowed
  have hshown := h.table row hrow
  rw [hstatus, hmeasured]
  cases hrec : s.recorded with
  | status st =>
      rw [hrec] at hallowed hshown
      exact iff_of_false (fun heq => hallowed.status_ne (heq.symm.trans hshown)) Bool.false_ne_true
  | submitted | failed | completed | workerStatus | workerCompleted =>
      rw [hrec] at hshown
      exact iff_of_true hshown rfl

theorem Tracked.reports_cache (h : s.Tracked b r) (hrow : rowOf s.runs r.runID = none) :
    s.recorded.Shown (s.handleGetRun b).status (s.handleGetRun b).toMeasured ↔
      s.recorded.whereRead false = true := by
  have hallowed := h.allowed
  have hshown := h.cache
  rw [h.reads_cache hrow]
  cases hrec : s.recorded with
  | workerStatus st =>
      rw [hrec] at hallowed hshown
      exact iff_of_false (fun heq => hallowed.workerStatus_ne (heq.symm.trans hshown))
        Bool.false_ne_true
  | workerCompleted result =>
      rw [hrec] at hshown
      exact iff_of_false (fun heq => nomatch hshown.symm.trans heq.1) Bool.false_ne_true
  | submitted | status | failed | completed =>
      rw [hrec] at hshown
      exact iff_of_true hshown rfl

/-- What is recorded last is what is reported if and only if it went where
`handleGetRun` looks, in every history of a run. -/
theorem handleGetRun_reports_iff [Zero F] (b : Backends) (others : List (RunRow F))
    (runID userID roundID : String) (isPractice : Bool) (now : Int)
    (moves : List (HistoryMove F)) :
    let r := newRun (F := F) runID userID roundID isPractice now
    let s := run b others r moves
    s.recorded.Shown (s.handleGetRun b).status (s.handleGetRun b).toMeasured ↔
      s.recorded.whereRead (b.stores r) = true := by
  intro r s
  have h : s.Tracked b r := Tracked.run others rfl moves
  cases hrow : rowOf s.runs r.runID with
  | some row =>
      rw [← h.stored, hrow]
      exact h.reports_row hrow
  | none =>
      rw [← h.stored, hrow]
      exact h.reports_cache hrow

/-- Without Postgres a completed job leaves its run in the queue. -/
theorem completed_job_reported_queued :
    ¬ ∀ (b : Backends) (others : List (RunRow Int)) (runID userID roundID : String)
        (isPractice : Bool) (now : Int) (moves : List (HistoryMove Int)),
      let s := run b others (newRun runID userID roundID isPractice now) moves
      s.recorded.Shown (s.handleGetRun b).status (s.handleGetRun b).toMeasured := by
  intro h
  have hshown := h ⟨false, true, []⟩ [] "run_68c5f7f7_1780000000000" "ada" "round1" true 0
    [.status .scanning, .queueGM, .dispatch, .worker .running 1,
      .workerComplete ⟨5, 1, 300, 900, 1000, 12, 0, 1, 0⟩ 2]
  exact nomatch hshown.1

end RunHistory

end VidhiArena.Backend
