import Mathlib.Data.List.Basic
import Mathlib.Logic.Function.Basic
import Mathlib.Order.Nat
import VidhiArena.Foundation.Faulting
import VidhiArena.Foundation.Processes

/-!
# The job queue

`backend/worker/job_worker.go`, with the submission path of `backend/main.go` that
feeds it. Any number of worker loops and the reaper share two Redis lists, one
heartbeat key a run and the `runs` table. A `Move` lets one of them execute its
next command, be it of Redis or of the database; a run is any list of moves.

What is outside the process enters with the moves: the clock that `Enqueue` reads,
the verdict on the binary, how the Game Master ends, and when a heartbeat expires. A
process that crashes loses what it holds in memory and starts over.

Payloads are `RunJob`s. `Enqueue` writes them as JSON and the workers read them
back, so equal payloads are equal jobs.
-/

namespace VidhiArena.Worker

open VidhiArena.Foundation

/-! ## Jobs, statuses, processes -/

structure RunJob where
  runId : String
  userId : String
  soPath : String
  roundId : String
  botConfig : String
  retries : Int
  enqueuedAt : Int
deriving DecidableEq

def maxRetries : Int := 3

/-- The statuses that reach the `runs` table. -/
inductive Status where
  | queued
  | running
  | complete
  | error
  | tle
deriving DecidableEq

/-- The states on which the client stops polling. -/
def Status.terminal : Status → Bool
  | complete | error | tle => true
  | queued | running => false

/-- Where a worker loop is: what it has done last, with the job it has in hand. -/
inductive WorkerPc where
  | idle
  /-- `BRPOP`; the heartbeat is next -/
  | popped (job : RunJob)
  /-- `SET` of the heartbeat; `LPUSH` to the active list is next -/
  | marked (job : RunJob)
  /-- in `processJob` -/
  | processing (job : RunJob)
  /-- in `processJob`, the Game Master is running -/
  | running (job : RunJob)
  /-- `processJob` has returned an error; `LREM` is next -/
  | failed (job : RunJob)
  /-- off the active list; `DEL` is next -/
  | unlisted (job : RunJob)
  /-- before `Enqueue`, or before the job is given up -/
  | cleared (job : RunJob)
  /-- enqueued again; the status is next -/
  | requeued (job : RunJob)
  /-- `processJob` has returned nil; `LREM` is next -/
  | done (job : RunJob)
  /-- off the active list for good; `DEL` is next -/
  | retired (job : RunJob)
deriving DecidableEq

/-- Where the reaper is. -/
inductive ReaperPc where
  | idle
  /-- the rest of the snapshot of the active list -/
  | scanning (items : List RunJob)
  /-- no heartbeat for this one; `LREM` is next -/
  | stale (job : RunJob) (items : List RunJob)
  /-- before `Enqueue`, or before the job is given up -/
  | unlisted (job : RunJob) (items : List RunJob)
deriving DecidableEq

/-- What has happened to the runs. -/
inductive Event where
  | submitted (runId : String)
  | pushed (runId : String)
  /-- `processJob` is called -/
  | started (runId : String)
  /-- `processJob` returns nil -/
  | completed (runId : String)
  /-- the retries are used up -/
  | abandoned (runId : String)
deriving DecidableEq

structure System where
  /-- `vidhi:jobs:pending`, the next one to be popped first -/
  pending : List RunJob
  /-- `vidhi:jobs:active` -/
  active : List RunJob
  heartbeat : String → Bool
  status : String → Option Status
  /-- submissions in `runForgePipeline` -/
  building : List RunJob
  workers : List WorkerPc
  reaper : ReaperPc
  log : List Event

def System.init (n : Nat) : System :=
  ⟨[], [], fun _ => false, fun _ => none, [], List.replicate n .idle, .idle, []⟩

/-! ## The commands -/

namespace System

/-- `UPDATE runs SET status=$1 WHERE run_id=$2`. -/
def updateRunStatus (s : System) (runId : String) (status : Status) : System :=
  { s with status := Function.update s.status runId ((s.status runId).map fun _ => status) }

/-- `Enqueue` of a job that gets another try. -/
def retry (s : System) (job : RunJob) (now : Int) : System :=
  { s with pending := s.pending ++ [{ job with retries := job.retries + 1, enqueuedAt := now }] }

def note (s : System) (e : Event) : System := { s with log := s.log ++ [e] }

def setWorker (s : System) (i : Nat) (pc : WorkerPc) : System :=
  { s with workers := s.workers.set i pc }

end System

/-- How `processJob` gets on before the Game Master runs. -/
inductive Check where
  | soMissing
  | elfInvalid
  | startFailed
  | started
deriving DecidableEq

/-- How the Game Master ends: a timeout, an error or unusable output, a result. -/
inductive Exit where
  | timedOut
  | failed
  | complete
deriving DecidableEq

/-- How `runForgePipeline` ends: a build error, a job in the queue, or, without Redis,
a direct run. -/
inductive Forge where
  | failed
  | enqueued
  | directError
  | directComplete
deriving DecidableEq

inductive Move where
  | submit (runId userId soPath roundId : String)
  | forge (job : RunJob) (result : Forge) (now : Int)
  | worker (i : Nat) (now : Int) (check : Check) (exit : Exit)
  | reaper (now : Int)
  | expire (runId : String)
  | crash (i : Nat)
  | crashReaper
deriving DecidableEq

/-! ## The processes -/

namespace System

/-- `Worker.loop` and `processJob`. -/
def stepWorker (s : System) (i : Nat) (now : Int) (check : Check) (exit : Exit) :
    WorkerPc → System
  | .idle =>
      match s.pending with
      | [] => s
      | job :: pending => { s with pending }.setWorker i (.popped job)
  | .popped job =>
      { s with heartbeat := Function.update s.heartbeat job.runId true }.setWorker i (.marked job)
  | .marked job =>
      ({ s with active := job :: s.active }.setWorker i (.processing job)).note (.started job.runId)
  | .processing job =>
      match check with
      | .soMissing => s.setWorker i (.failed job)
      | .elfInvalid => (s.updateRunStatus job.runId .error).setWorker i (.failed job)
      | .startFailed => s.setWorker i (.failed job)
      | .started => (s.updateRunStatus job.runId .running).setWorker i (.running job)
  | .running job =>
      match exit with
      | .timedOut => (s.updateRunStatus job.runId .tle).setWorker i (.failed job)
      | .failed => s.setWorker i (.failed job)
      | .complete =>
          ((s.updateRunStatus job.runId .complete).setWorker i (.done job)).note
            (.completed job.runId)
  | .failed job => { s with active := s.active.erase job }.setWorker i (.unlisted job)
  | .unlisted job =>
      { s with heartbeat := Function.update s.heartbeat job.runId false }.setWorker i (.cleared job)
  | .cleared job =>
      if job.retries < maxRetries then (s.retry job now).setWorker i (.requeued job)
      else ((s.updateRunStatus job.runId .error).setWorker i .idle).note (.abandoned job.runId)
  | .requeued job => (s.updateRunStatus job.runId .queued).setWorker i .idle
  | .done job => { s with active := s.active.erase job }.setWorker i (.retired job)
  | .retired job =>
      { s with heartbeat := Function.update s.heartbeat job.runId false }.setWorker i .idle

/-- `reapStale`. -/
def stepReaper (s : System) (now : Int) : System :=
  match s.reaper with
  | .idle => { s with reaper := .scanning s.active }
  | .scanning [] => { s with reaper := .idle }
  | .scanning (job :: items) =>
      if s.heartbeat job.runId then { s with reaper := .scanning items }
      else { s with reaper := .stale job items }
  | .stale job items => { s with active := s.active.erase job, reaper := .unlisted job items }
  | .unlisted job items =>
      if job.retries < maxRetries then { s.retry job now with reaper := .scanning items }
      else { s.updateRunStatus job.runId .error with reaper := .scanning items }.note
        (.abandoned job.runId)

/-- The end of `runForgePipeline` for a submission. -/
def stepForge (s : System) (job : RunJob) (now : Int) : Forge → System
  | .failed => { s with building := s.building.erase job }.updateRunStatus job.runId .error
  | .enqueued =>
      { s with
        building := s.building.erase job
        pending := s.pending ++ [{ job with enqueuedAt := now }] }.note (.pushed job.runId)
  | .directError => { s with building := s.building.erase job }.updateRunStatus job.runId .error
  | .directComplete =>
      { s with building := s.building.erase job }.updateRunStatus job.runId .complete

def step (s : System) : Move → System
  | .submit runId userId soPath roundId =>
      { s with
        status := Function.update s.status runId (some .queued)
        building := ⟨runId, userId, soPath, roundId, "", 0, 0⟩ :: s.building }.note
          (.submitted runId)
  | .forge job result now => if job ∈ s.building then s.stepForge job now result else s
  | .worker i now check exit =>
      match s.workers[i]? with
      | some pc => s.stepWorker i now check exit pc
      | none => s
  | .reaper now => s.stepReaper now
  | .expire runId => { s with heartbeat := Function.update s.heartbeat runId false }
  | .crash i => s.setWorker i .idle
  | .crashReaper => { s with reaper := .idle }

/-- A run of `n` worker loops and the reaper. -/
def run (n : Nat) (moves : List Move) : System := moves.foldl step (init n)

end System

/-! ## Who has a job of which run -/

/-- In the hands of a worker, on neither list. -/
def WorkerPc.carried : WorkerPc → Option RunJob
  | popped job | marked job | unlisted job | cleared job => some job
  | idle | processing _ | running _ | failed _ | requeued _ | done _ | retired _ => none

/-- In the hands of a worker that has put it on the active list. -/
def WorkerPc.listed : WorkerPc → Option RunJob
  | processing job | running job | failed job | done job => some job
  | idle | popped _ | marked _ | unlisted _ | cleared _ | requeued _ | retired _ => none

/-- On the active list and not completed. -/
def WorkerPc.unfinished : WorkerPc → Option RunJob
  | processing job | running job | failed job => some job
  | idle | popped _ | marked _ | unlisted _ | cleared _ | requeued _ | done _ | retired _ => none

/-- In `processJob`. -/
def WorkerPc.executing : WorkerPc → Option RunJob
  | processing job | running job => some job
  | _ => none

/-- In the hands of the reaper, on neither list. -/
def ReaperPc.carried : ReaperPc → Option RunJob
  | unlisted job _ => some job
  | idle | scanning _ | stale .. => none

/-- The job is one of run `R`. -/
def RunJob.isOf (R : String) (job : RunJob) : Bool := job.runId = R

/-- There is a job, of run `R`. -/
def hasRun (R : String) (job : Option RunJob) : Bool := job.any (RunJob.isOf R)

namespace System

def carriers (s : System) (R : String) : Nat := s.workers.countP fun pc => hasRun R pc.carried

def listers (s : System) (R : String) : Nat := s.workers.countP fun pc => hasRun R pc.listed

/-- The copies of a job of run `R`, wherever they are. -/
def copies (s : System) (R : String) : Nat :=
  s.pending.countP (RunJob.isOf R) + s.active.countP (RunJob.isOf R) + s.carriers R +
    (hasRun R s.reaper.carried).toNat

end System

/-! ## What a step does with the jobs -/

/-- Not yet given to `processJob`. -/
def WorkerPc.fresh : WorkerPc → Bool
  | popped _ | marked _ => true
  | _ => false

/-- A worker's step: it takes a job, puts it on the active list, takes it off,
enqueues it again, completes it or gives it up; or it keeps what it has. -/
inductive Handled (s : System) (i : Nat) : WorkerPc → System → Prop
  | stay (none : s.pending = []) : Handled s i .idle s
  | take {job : RunJob} {pending : List RunJob} (next : s.pending = job :: pending) :
      Handled s i .idle ({ s with pending }.setWorker i (.popped job))
  | keep {pc pc' : WorkerPc} (heartbeat : String → Bool) (status : String → Option Status)
      (carried : pc'.carried = pc.carried) (listed : pc'.listed = pc.listed)
      (unfinished : pc'.unfinished = pc.unfinished) (fresh : pc'.fresh = pc.fresh)
      (done : ∀ job, pc' ≠ .done job) :
      Handled s i pc ({ s with heartbeat, status }.setWorker i pc')
  | list (job : RunJob) : Handled s i (.marked job)
      (({ s with active := job :: s.active }.setWorker i (.processing job)).note
        (.started job.runId))
  | complete (job : RunJob) (status : String → Option Status) : Handled s i (.running job)
      (({ s with status }.setWorker i (.done job)).note (.completed job.runId))
  | unlist (job : RunJob) : Handled s i (.failed job)
      ({ s with active := s.active.erase job }.setWorker i (.unlisted job))
  | requeue (job : RunJob) (now : Int) (left : job.retries < maxRetries) :
      Handled s i (.cleared job) ((s.retry job now).setWorker i (.requeued job))
  | abandon (job : RunJob) (status : String → Option Status) (spent : ¬ job.retries < maxRetries) :
      Handled s i (.cleared job) (({ s with status }.setWorker i .idle).note (.abandoned job.runId))
  | retire (job : RunJob) : Handled s i (.done job)
      ({ s with active := s.active.erase job }.setWorker i (.retired job))

theorem System.stepWorker_handled (s : System) (i : Nat) (now : Int) (check : Check) (exit : Exit)
    (pc : WorkerPc) : Handled s i pc (s.stepWorker i now check exit pc) := by
  cases pc with
  | idle =>
      cases hp : s.pending with
      | nil =>
          simp only [stepWorker, hp]
          exact .stay hp
      | cons job pending =>
          simp only [stepWorker, hp]
          exact .take hp
  | popped job => exact .keep _ _ rfl rfl rfl rfl nofun
  | marked job => exact .list job
  | processing job =>
      cases check with
      | soMissing => exact .keep _ _ rfl rfl rfl rfl nofun
      | elfInvalid => exact .keep _ _ rfl rfl rfl rfl nofun
      | startFailed => exact .keep _ _ rfl rfl rfl rfl nofun
      | started => exact .keep _ _ rfl rfl rfl rfl nofun
  | running job =>
      cases exit with
      | timedOut => exact .keep _ _ rfl rfl rfl rfl nofun
      | failed => exact .keep _ _ rfl rfl rfl rfl nofun
      | complete => exact .complete job _
  | failed job => exact .unlist job
  | unlisted job => exact .keep _ _ rfl rfl rfl rfl nofun
  | cleared job =>
      simp only [stepWorker]
      split
      · next h => exact .requeue job now h
      · next h => exact .abandon job _ h
  | requeued job => exact .keep _ _ rfl rfl rfl rfl nofun
  | done job => exact .retire job
  | retired job => exact .keep _ _ rfl rfl rfl rfl nofun

/-- The reaper's step, likewise. -/
inductive Reaped (s : System) : System → Prop
  | keep {reaper : ReaperPc} (before : s.reaper.carried = none) (after : reaper.carried = none)
      (unsuspected : ∀ job items, reaper ≠ .stale job items) : Reaped s { s with reaper }
  | suspect {job : RunJob} {items : List RunJob} (pc : s.reaper = .scanning (job :: items))
      (gone : s.heartbeat job.runId = false) : Reaped s { s with reaper := .stale job items }
  | unlist {job : RunJob} {items : List RunJob} (pc : s.reaper = .stale job items) :
      Reaped s { s with active := s.active.erase job, reaper := .unlisted job items }
  | requeue {job : RunJob} {items : List RunJob} (pc : s.reaper = .unlisted job items) (now : Int)
      (left : job.retries < maxRetries) :
      Reaped s { s.retry job now with reaper := .scanning items }
  | abandon {job : RunJob} {items : List RunJob} (pc : s.reaper = .unlisted job items)
      (status : String → Option Status) (spent : ¬ job.retries < maxRetries) :
      Reaped s ({ s with status, reaper := .scanning items }.note (.abandoned job.runId))

theorem System.stepReaper_reaped (s : System) (now : Int) : Reaped s (s.stepReaper now) := by
  unfold stepReaper
  split
  · next h => exact .keep (by rw [h]; rfl) rfl nofun
  · next h => exact .keep (by rw [h]; rfl) rfl nofun
  · next job items h =>
      split
      · exact .keep (by rw [h]; rfl) rfl nofun
      · next hgone => exact .suspect h (Bool.eq_false_iff.mpr hgone)
  · next job items h => exact .unlist h
  · next job items h =>
      split
      · next hlt => exact .requeue h now hlt
      · next hlt => exact .abandon h _ hlt

end VidhiArena.Worker
