import VidhiArena.Backend.RunTable
import VidhiArena.Foundation.Faulting
import VidhiArena.Foundation.Processes

/-!
# Completion in the browser

How `vidhi_context/src/engine/VidhiEngine.js` calls its completion subscribers for runs on a
backend: `startSimulation`, `_startCloudRun`, `_startBackendRun`, `_handleWSMessage` and the
callbacks of `pollRunUntilDone` (`api/client.js`). A `Move` is one turn of the event loop: a
call, the answer to a request, or a message. What the turns of telemetry and of the user's
other buttons do is left out.

A message enters only while the socket is open; `starts` remembers the calls of
`startSimulation` in order, and of a run whether the subscribers have been called for it,
which the engine does not keep.
-/

namespace VidhiArena.Browser

open VidhiArena.Foundation
open VidhiArena.Backend (RunStatus)

/-! ## State -/

/-- `mode`, of a run that is not local. -/
inductive Kind where
  | backend
  | cloud
deriving DecidableEq

/-- Where a call of `startSimulation` is. -/
inductive Start where
  /-- `checkBackendHealth` is under way -/
  | probing
  | onWorker
  /-- the worker has ended -/
  | finished
  /-- the API key or the submission is under way -/
  | submitting (kind : Kind)
  /-- submitted; `polling` until a poll has seen a final status -/
  | running (kind : Kind) (runId : String) (polling completed : Bool)
  /-- `_failBeforeRun` -/
  | failed
deriving DecidableEq

/-- A call of the completion subscribers. -/
inductive Completion where
  /-- by `_handleLocalMessage`, for this start -/
  | worker (start : Nat)
  /-- by `_failBeforeRun` of this start -/
  | failed (start : Nat)
  /-- by a message about run `runId`, while the start `during` was under way -/
  | terminal (runId : String) (during : Option Start)
deriving DecidableEq

structure VidhiEngine where
  currentRunId : Option String
  pollStopped : Bool
  /-- a telemetry socket is open -/
  connected : Bool
  starts : List Start
  log : List Completion

inductive EngineMove where
  | startLocal
  /-- `valid`: `_validateBackendPython` finds nothing -/
  | startCloud (valid : Bool)
  | startAuto
  | probed (k : Nat) (up valid : Bool)
  /-- `complete`: with `SIMULATION_COMPLETE` -/
  | workerEnded (k : Nat) (complete : Bool)
  | submitted (k : Nat) (runId : String)
  | rejected (k : Nat)
  /-- a `RUN_UPDATE` -/
  | update (runId : String) (status : RunStatus)
  /-- `onProgress` of the poll of a start -/
  | poll (k : Nat) (status : RunStatus)
deriving DecidableEq

def terminal : RunStatus → Bool
  | .complete | .error | .tle => true
  | _ => false

/-- The statuses that a poll reports as a failure. -/
def failure : RunStatus → Bool
  | .error | .tle => true
  | _ => false

def Start.isRun (runId : String) : Start → Bool
  | .running _ r _ _ => r == runId
  | _ => false

/-- Its run has this id, and the subscribers have not been called for it. -/
def Start.isOpen (runId : String) : Start → Bool
  | .running _ r _ completed => r == runId && !completed
  | _ => false

def Start.underWay : Start → Bool
  | .probing | .onWorker | .submitting _ => true
  | .running _ _ _ completed => !completed
  | .finished | .failed => false

/-- The subscribers have been called for its run. -/
def Start.complete : Start → Start
  | .running kind runId polling _ => .running kind runId polling true
  | st => st

def Completion.isFor (runId : String) : Completion → Bool
  | .terminal r _ => r == runId
  | _ => false

/-! ## Turns -/

namespace VidhiEngine

def init : VidhiEngine := ⟨none, false, false, [], []⟩

/-- The first lines of `startSimulation`. -/
def begin (s : VidhiEngine) : VidhiEngine :=
  { s with pollStopped := false, connected := false, starts := s.starts ++ [.probing] }

def setStart (s : VidhiEngine) (k : Nat) (st : Start) : VidhiEngine :=
  { s with starts := s.starts.set k st }

/-- `_failBeforeRun`. -/
def failBeforeRun (s : VidhiEngine) (k : Nat) : VidhiEngine :=
  { s.setStart k .failed with log := s.log ++ [.failed k] }

/-- `_startCloudRun` and `_startBackendRun`, up to their first `await`. -/
def startRun (s : VidhiEngine) (k : Nat) (kind : Kind) (valid : Bool) : VidhiEngine :=
  if valid then { s.setStart k (.submitting kind) with connected := true } else s.failBeforeRun k

/-- The last start, while it is under way. -/
def during (s : VidhiEngine) : Option Start := s.starts.getLast?.filter Start.underWay

/-- `completeSubscribers.forEach(…)`, upon a message about a run. -/
def report (s : VidhiEngine) (runId : String) : VidhiEngine :=
  { s with
    log := s.log ++ [.terminal runId s.during]
    starts := match s.starts.findIdx? (Start.isOpen runId) with
      | some k => s.starts.modify k Start.complete
      | none => s.starts }

/-- `_handleWSMessage` does not drop a message about this run. -/
def hears (s : VidhiEngine) (runId : String) : Bool :=
  s.connected && !s.currentRunId.any fun c => c != "" && runId != c

/-- `_handleWSMessage`, upon a `RUN_UPDATE`. -/
def handleWSMessage (s : VidhiEngine) (runId : String) (status : RunStatus) : VidhiEngine :=
  if s.hears runId && terminal status then { s.report runId with pollStopped := true } else s

/-- The callback of a poll: that of a cloud run looks at `_pollStopped`, that of a backend
run does not. -/
def onProgress (s : VidhiEngine) (kind : Kind) (runId : String) (status : RunStatus) :
    VidhiEngine :=
  match kind with
  | .cloud =>
      if !s.pollStopped && failure status then { s.report runId with pollStopped := true } else s
  | .backend => if failure status then s.report runId else s

/-- The poll of a start ends upon a final status. -/
def endPoll (s : VidhiEngine) (k : Nat) : VidhiEngine :=
  match s.starts[k]? with
  | some (.running kind runId _ completed) => s.setStart k (.running kind runId false completed)
  | _ => s

def step (s : VidhiEngine) : EngineMove → VidhiEngine
  | .startLocal => s.begin.setStart s.starts.length .onWorker
  | .startCloud valid => s.begin.startRun s.starts.length .cloud valid
  | .startAuto => s.begin
  | .probed k up valid =>
      match s.starts[k]? with
      | some .probing => if up then s.startRun k .backend valid else s.setStart k .onWorker
      | _ => s
  | .workerEnded k complete =>
      match s.starts[k]? with
      | some .onWorker =>
          { s.setStart k .finished with log := if complete then s.log ++ [.worker k] else s.log }
      | _ => s
  | .submitted k runId =>
      match s.starts[k]? with
      | some (.submitting kind) =>
          { s.setStart k (.running kind runId true false) with currentRunId := some runId }
      | _ => s
  | .rejected k =>
      match s.starts[k]? with
      | some (.submitting _) => s.failBeforeRun k
      | _ => s
  | .update runId status => s.handleWSMessage runId status
  | .poll k status =>
      match s.starts[k]? with
      | some (.running kind runId true _) =>
          if terminal status then (s.onProgress kind runId status).endPoll k
          else s.onProgress kind runId status
      | _ => s

def run (moves : List EngineMove) : VidhiEngine := moves.foldl step init

/-! ## What is wanted -/

/-- The subscribers are called at most once for each run and at most once for a start that
gets none, and no message calls them while a start is under way whose run it is not about. -/
structure CompletesOnce (s : VidhiEngine) : Prop where
  once : ∀ runId, s.log.countP (Completion.isFor runId) ≤ s.starts.countP (Start.isRun runId)
  failed : ∀ k, s.log.count (.failed k) ≤ 1
  own : ∀ runId during, .terminal runId during ∈ s.log → during.all (Start.isRun runId) = true

/-- A run with this id waits for its completion, and no other start is under way. -/
def awaits (s : VidhiEngine) (runId : String) : Bool :=
  s.starts.any (Start.isOpen runId) && s.during.all (Start.isRun runId)

/-- The callback of a poll calls the subscribers. -/
def tells (s : VidhiEngine) (kind : Kind) (status : RunStatus) : Bool :=
  match kind with
  | .cloud => !s.pollStopped && failure status
  | .backend => failure status

/-- A final message that gets past the guards is about a run that is awaited. -/
def inTurn (s : VidhiEngine) : EngineMove → Bool
  | .update runId status => !(s.hears runId && terminal status) || s.awaits runId
  | .poll k status =>
      match s.starts[k]? with
      | some (.running kind runId true _) => !s.tells kind status || s.awaits runId
      | _ => true
  | _ => true

end VidhiEngine

end VidhiArena.Browser
