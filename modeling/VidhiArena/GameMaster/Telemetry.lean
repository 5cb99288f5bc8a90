import VidhiArena.GameMaster.ShadowLOB
import VidhiArena.GameMaster.TickLoop

/-!
# Telemetry

`game-master/telemetry.hpp` and the part of `run_simulation` that uses it: the
ring between the Game Master and the watchdog thread, the thread itself, and the
two of them at work side by side. The watchdog feeds the shadow book from the
ring; every thousandth tick the Game Master asks the shadow to validate the
contestant's account.

The atomic actions of both threads interleave in any order. The copies of events
that the watchdog prints, and the percentiles in them, are left out: nothing
reads them back.
-/

namespace VidhiArena.GameMaster

open VidhiArena.Foundation

/-! ## The ring -/

inductive TelemetryEvent where
  | tickMetrics (tickId tickNs pnlFp position : Int64)
  | limitAdd (tickId : Int64) (isBid : Bool) (participant : ParticipantID)
      (priceFp volume : Int64) (orderId : UInt64)
  | fill (tickId : Int64) (takerIsBuy : Bool) (takerParticipant makerParticipant : ParticipantID)
      (priceFp volume : Int64) (makerOrderId : UInt64)
  | cancel (tickId : Int64) (orderId : UInt64) (liveSucceeded : Bool)
deriving DecidableEq

structure TelemetryRing where
  events : UInt64 → TelemetryEvent
  writeHead : UInt64
  readHead : UInt64

namespace TelemetryRing

/-- `memset(events, 0, …)`: event type 0 is `TICK_METRICS`. -/
def init : TelemetryRing := ⟨fun _ => .tickMetrics 0 0 0 0, 0, 0⟩

/-- `index & (RING_SIZE - 1)`. -/
def slot (index : UInt64) : UInt64 := index &&& 65535

/-- `wait_for_space` spins until this holds. -/
def HasSpace (ring : TelemetryRing) : Prop := ring.writeHead - ring.readHead < 65472

instance (ring : TelemetryRing) : Decidable ring.HasSpace := inferInstanceAs (Decidable (_ < _))

/-- The stores of `record_*`, before the fence. -/
def write (ring : TelemetryRing) (ev : TelemetryEvent) : TelemetryRing :=
  { ring with events := Function.update ring.events (slot ring.writeHead) ev }

/-- `write_head.fetch_add(1)`. -/
def publish (ring : TelemetryRing) : TelemetryRing := { ring with writeHead := ring.writeHead + 1 }

def getEvent (ring : TelemetryRing) (index : UInt64) : TelemetryEvent := ring.events (slot index)

def advanceReadHead (ring : TelemetryRing) (head : UInt64) : TelemetryRing :=
  { ring with readHead := head }

end TelemetryRing

/-! ## The latency histogram -/

structure HDRHistogram where
  counts : UInt64 → Int64
  totalCount : Int64

namespace HDRHistogram

def empty : HDRHistogram := ⟨fun _ => 0, 0⟩

/-- Exact below 32; above, the top six bits. -/
def getHdrBucket (latencyNs : UInt64) : UInt64 :=
  if latencyNs < 32 then latencyNs
  else
    let msb := latencyNs.log2
    let shift := msb - 5
    let subBucket := (latencyNs >>> shift) &&& 31
    (msb <<< 5) + subBucket

def record (hdr : HDRHistogram) (ns : Int64) : HDRHistogram :=
  let bucket := min (getHdrBucket (max 0 ns).toUInt64) 2047
  { counts := Function.update hdr.counts bucket (hdr.counts bucket + 1)
    totalCount := hdr.totalCount + 1 }

end HDRHistogram

/-! ## The watchdog thread -/

/-- Where `run` stands; `drain` holds the write head that it has loaded. -/
inductive WatchdogPhase where
  | test
  | load
  | drain (writeHead : UInt64)
  | advance
  | exited
deriving DecidableEq

structure TelemetryWatchdog where
  running : Bool
  phase : WatchdogPhase
  readHead : UInt64
  lastSwapTick : Int64
  hdrA : HDRHistogram
  hdrB : HDRHistogram
  currentIsA : Bool
  shadow : ShadowLOB

namespace TelemetryWatchdog

/-- The thread as `start` leaves it. -/
def start : TelemetryWatchdog :=
  ⟨true, .test, 0, -1, HDRHistogram.empty, HDRHistogram.empty, true, ShadowLOB.init⟩

def recordLatency (wd : TelemetryWatchdog) (ns : Int64) : TelemetryWatchdog :=
  if wd.currentIsA then { wd with hdrA := wd.hdrA.record ns }
  else { wd with hdrB := wd.hdrB.record ns }

def swapHdr (wd : TelemetryWatchdog) : TelemetryWatchdog :=
  if wd.currentIsA then { wd with hdrB := HDRHistogram.empty, currentIsA := false }
  else { wd with hdrA := HDRHistogram.empty, currentIsA := true }

def handle (wd : TelemetryWatchdog) : TelemetryEvent → TelemetryWatchdog
  | .tickMetrics tickId tickNs _ _ =>
      let wd := wd.recordLatency tickNs
      if wd.lastSwapTick < tickId ∧ tickId % 1000 = 999 then
        { wd.swapHdr with lastSwapTick := tickId }
      else wd
  | .limitAdd tickId isBid _ priceFp volume orderId =>
      { wd with shadow := wd.shadow.onLimitAdd isBid priceFp volume orderId tickId }
  | .fill tickId takerIsBuy takerParticipant makerParticipant priceFp volume makerOrderId =>
      -- the fields that the event does not carry stay zero
      let f : MatchedFill :=
        { priceFp, volume, takerParticipant, makerParticipant, makerOrderId := 0, takerIsBuy,
          contestantIsTaker := false, contestantIsMaker := false }
      { wd with shadow := wd.shadow.onFill f makerOrderId tickId }
  | .cancel tickId orderId liveSucceeded =>
      { wd with shadow := wd.shadow.onCancel orderId liveSucceeded tickId }

/-- One atomic action of `run`. -/
def step (ring : TelemetryRing) (wd : TelemetryWatchdog) : TelemetryRing × TelemetryWatchdog :=
  match wd.phase with
  | .test =>
      if wd.running ∨ wd.readHead < ring.writeHead then (ring, { wd with phase := .load })
      else (ring, { wd with phase := .exited })
  | .load => (ring, { wd with phase := .drain ring.writeHead })
  | .drain writeHead =>
      if wd.readHead < writeHead then
        (ring, { wd.handle (ring.getEvent wd.readHead) with readHead := wd.readHead + 1 })
      else (ring, { wd with phase := .advance })
  | .advance => (ring.advanceReadHead wd.readHead, { wd with phase := .test })
  | .exited => (ring, wd)

end TelemetryWatchdog

/-! ## Both threads -/

/-- Where the Game Master stands in the body of its loop. -/
inductive GmPhase where
  | tick
  | validate
  | write
  | publish
  | stopped
deriving DecidableEq

structure Arena where
  sim : SimState
  tick : Int64
  phase : GmPhase
  ring : TelemetryRing
  watchdog : TelemetryWatchdog

inductive Action where
  /-- the Game Master moves; a tick takes the input, `record_metrics` the latency -/
  | gm (input : TickInput) (tickNs : Int64)
  | watchdog

namespace Arena

/-- Both threads started on a seeded book. -/
def start (cfg : SimConfig) (lob : PersistentLOB) : Arena :=
  ⟨(lob, Master.init cfg), 0, .tick, TelemetryRing.init, TelemetryWatchdog.start⟩

def pnl (a : Arena) : PnLTracker := a.sim.2.pnl

/-- One atomic action of the Game Master; steps 1 to 7 touch neither ring nor shadow. -/
def gmStep (cfg : SimConfig) (maxTicks : Int64) (a : Arena) (input : TickInput)
    (tickNs : Int64) : Except Fault (BookHistory × Arena) :=
  match a.phase with
  | .tick =>
      if a.tick < maxTicks then do
        let (h, sim) ← SimState.step cfg a.sim input
        return (h, { a with sim, phase := .validate })
      else
        return ([], { a with phase := .stopped, watchdog := { a.watchdog with running := false } })
  | .validate =>
      let shadow := if a.tick % 1000 = 999 then
          a.watchdog.shadow.validateContestantState a.pnl.position a.pnl.cashFpSafe a.tick
        else a.watchdog.shadow
      return ([], { a with phase := .write, watchdog := { a.watchdog with shadow } })
  | .write =>
      if a.ring.HasSpace then
        return ([], { a with
          phase := .publish
          ring := a.ring.write
            (.tickMetrics a.tick tickNs (cfg.pnlFp a.pnl a.sim.1.lastTradeFp) a.pnl.position) })
      else return ([], a)
  | .publish => return ([], { a with phase := .tick, tick := a.tick + 1, ring := a.ring.publish })
  | .stopped => return ([], a)

def step (cfg : SimConfig) (maxTicks : Int64) (a : Arena) :
    Action → Except Fault (BookHistory × Arena)
  | .gm input tickNs => a.gmStep cfg maxTicks input tickNs
  | .watchdog =>
      let (ring, watchdog) := a.watchdog.step a.ring
      return ([], { a with ring, watchdog })

/-! ## The loop inside -/

variable {cfg : SimConfig} {maxTicks : Int64}

/-- An action is a tick of the loop or leaves the loop where it was. -/
theorem step_sim {a a' : Arena} {act : Action} {h : BookHistory}
    (hstep : a.step cfg maxTicks act = .ok (h, a')) :
    (∃ input, SimState.step cfg a.sim input = .ok (h, a'.sim)) ∨ h = [] ∧ a'.sim = a.sim := by
  cases act with
  | watchdog =>
      cases hstep
      exact Or.inr ⟨rfl, rfl⟩
  | gm input tickNs =>
      have hstep : a.gmStep cfg maxTicks input tickNs = .ok (h, a') := hstep
      unfold gmStep at hstep
      split at hstep
      · split at hstep
        · obtain ⟨⟨h', sim⟩, htick, hstep⟩ := bind_eq_ok.mp hstep
          cases hstep
          exact Or.inl ⟨input, htick⟩
        · cases hstep
          exact Or.inr ⟨rfl, rfl⟩
      · cases hstep
        exact Or.inr ⟨rfl, rfl⟩
      · split at hstep
        · cases hstep
          exact Or.inr ⟨rfl, rfl⟩
        · cases hstep
          exact Or.inr ⟨rfl, rfl⟩
      · cases hstep
        exact Or.inr ⟨rfl, rfl⟩
      · cases hstep
        exact Or.inr ⟨rfl, rfl⟩

/-- Telemetry does not change the loop: under every interleaving the calls of the
book and the state of the loop are those of a run of the tick loop alone. -/
theorem run_sim : ∀ {acts : List Action} {a a' : Arena} {hs : List BookHistory},
    runFrom (step cfg maxTicks) a acts = .ok (hs, a') →
    ∃ inputs hs', runFrom (SimState.step cfg) a.sim inputs = .ok (hs', a'.sim) ∧
      hs'.flatten = hs.flatten
  | [], _, _, _, hrun => by
      cases hrun
      exact ⟨[], [], rfl, rfl⟩
  | act :: acts, a, a', hs, hrun => by
      obtain ⟨⟨h, a₁⟩, hstep, hrun⟩ := bind_eq_ok.mp hrun
      obtain ⟨⟨hs₁, a₂⟩, hrest, hrun⟩ := bind_eq_ok.mp hrun
      cases hrun
      obtain ⟨inputs, hs', hticks, hflat⟩ := run_sim hrest
      rcases step_sim hstep with ⟨input, htick⟩ | ⟨rfl, hsame⟩
      · refine ⟨input :: inputs, h :: hs', ?_, ?_⟩
        · simp only [runFrom, htick, ok_bind, hticks, pure_ok]
        · rw [List.flatten_cons, List.flatten_cons, hflat]
      · refine ⟨inputs, hs', ?_, ?_⟩
        · rw [← hsame]
          exact hticks
        · rw [hflat]
          rfl

end Arena

end VidhiArena.GameMaster
