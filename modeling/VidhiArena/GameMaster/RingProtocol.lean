import VidhiArena.Foundation.ByteLayout
import VidhiArena.Foundation.ByteMemory
import VidhiArena.Foundation.FreeRunning
import VidhiArena.GameMaster.Telemetry

/-!
# The telemetry ring, store by store

`TelemetryRing` and `TelemetryWatchdog::run` of `game-master/telemetry.hpp` as two threads
over one memory. A `Move` lets the Game Master enter `record_*` or `stop`, or lets one of
the threads do one load or one store. An event is a union of four structures: it is
written member by member, and read back the same way, so an event that is overwritten
while it is read would come out torn.

The two heads are 64-bit counters. What is counted in `handled` and `recorded` is not
bounded, and the results hold across the wrap except where they say so.
-/

namespace VidhiArena.GameMaster

open VidhiArena.Foundation ByteLayout

/-! ## An event in memory -/

namespace TelemetryEvent

/-- The stores of `record_*`, in their order: offset and bytes. `tsc` is `tsc_at_write`,
which only `record_metrics` fills in. -/
def stores (tsc : UInt64) : TelemetryEvent → List ByteMemory.Store
  | tickMetrics tickId tickNs pnlFp position =>
      -- the type is streamed as a whole word
      [(0, word64 0), (8, int64 tickId), (16, int64 tickNs), (24, int64 pnlFp),
        (32, int64 position), (56, word64 tsc)]
  | limitAdd tickId isBid participant priceFp volume orderId =>
      [(0, [1]), (8, int64 tickId), (16, bool isBid), (20, int32 participant),
        (24, int64 priceFp), (32, int64 volume), (40, word64 orderId)]
  | fill tickId takerIsBuy takerParticipant makerParticipant priceFp volume makerOrderId =>
      [(0, [2]), (8, int64 tickId), (16, bool takerIsBuy), (20, int32 takerParticipant),
        (24, int32 makerParticipant), (32, int64 priceFp), (40, int64 volume),
        (48, word64 makerOrderId)]
  | cancel tickId orderId liveSucceeded =>
      [(0, [3]), (8, int64 tickId), (16, word64 orderId), (24, bool liveSucceeded)]

/-- Loads from the slot of an event: offset and width. -/
abbrev Loads := Prog ByteMemory (Nat × Nat) (List UInt8)

namespace Loads

variable {α β : Type} {m : ByteMemory}

def byteAt (offset : Nat) : Loads UInt8 := .call (offset, 1) fun bs => .ret (bs.headD 0)

def int64At (offset : Nat) : Loads Int64 := .call (offset, 8) fun bs => .ret (takeInt64 bs).1

def word64At (offset : Nat) : Loads UInt64 := .call (offset, 8) fun bs => .ret (takeWord64 bs).1

def int32At (offset : Nat) : Loads Int32 := .call (offset, 4) fun bs => .ret (takeInt32 bs).1

def boolAt (offset : Nat) : Loads Bool := .call (offset, 1) fun bs => .ret (takeBool bs).1

def answer (m : ByteMemory) (place : Nat × Nat) : List UInt8 × ByteMemory :=
  (m.load place.1 place.2, m)

/-- What the loads yield if nobody else moves. -/
def value (p : Loads α) (m : ByteMemory) : α := (p.exec answer m).1

@[simp] theorem value_ret (a : α) : value (.ret a : Loads α) m = a := rfl

@[simp] theorem value_bind (p : Loads α) (f : α → Loads β) :
    value (p >>= f) m = value (f (value p m)) m := by
  have hkeep : ∀ (p : Loads α) (m : ByteMemory), (p.exec answer m).2.2 = m := by
    intro p
    induction p with
    | ret a => exact fun _ => rfl
    | read k ih => exact fun m => ih m m
    | call i k ih => exact fun m => ih _ _
  rw [value, Prog.exec_bind, hkeep]
  rfl

theorem value_byteAt {offset : Nat} {b : UInt8} (h : m.load offset 1 = [b]) :
    value (byteAt offset) m = b := by
  change (m.load offset 1).headD 0 = b
  rw [h]
  rfl

theorem value_boolAt {offset : Nat} {b : Bool} (h : m.load offset 1 = bool b) :
    value (boolAt offset) m = b := by
  change (takeBool (m.load offset 1)).1 = b
  rw [h]
  exact congrArg Prod.fst (takeBool_bool b [])

theorem value_int32At {offset : Nat} {x : Int32} (h : m.load offset 4 = int32 x) :
    value (int32At offset) m = x := by
  have hback := takeInt32_int32 x []
  rw [List.append_nil] at hback
  change (takeInt32 (m.load offset 4)).1 = x
  rw [h, hback]

theorem value_int64At {offset : Nat} {x : Int64} (h : m.load offset 8 = int64 x) :
    value (int64At offset) m = x := by
  have hback := takeInt64_int64 x []
  rw [List.append_nil] at hback
  change (takeInt64 (m.load offset 8)).1 = x
  rw [h, hback]

theorem value_word64At {offset : Nat} {x : UInt64} (h : m.load offset 8 = word64 x) :
    value (word64At offset) m = x := by
  have hback := takeWord64_word64 x []
  rw [List.append_nil] at hback
  change (takeWord64 (m.load offset 8)).1 = x
  rw [h, hback]

end Loads

open Loads

/-- The loads of `run`; an event of an unknown type is passed over. -/
def read : Loads (Option TelemetryEvent) := do
  let type ← byteAt 0
  if type = 0 then do
    let tickNs ← int64At 16
    let tickId ← int64At 8
    let pnlFp ← int64At 24
    let position ← int64At 32
    return some (tickMetrics tickId tickNs pnlFp position)
  else if type = 1 then do
    let isBid ← boolAt 16
    let priceFp ← int64At 24
    let volume ← int64At 32
    let participant ← int32At 20
    let orderId ← word64At 40
    let tickId ← int64At 8
    return some (limitAdd tickId isBid participant priceFp volume orderId)
  else if type = 2 then do
    let takerIsBuy ← boolAt 16
    let takerParticipant ← int32At 20
    let makerParticipant ← int32At 24
    let priceFp ← int64At 32
    let volume ← int64At 40
    let makerOrderId ← word64At 48
    let tickId ← int64At 8
    return some (fill tickId takerIsBuy takerParticipant makerParticipant priceFp volume
      makerOrderId)
  else if type = 3 then do
    let orderId ← word64At 16
    let liveSucceeded ← boolAt 24
    let tickId ← int64At 8
    return some (cancel tickId orderId liveSucceeded)
  else return none

theorem stores_apart (tsc : UInt64) (ev : TelemetryEvent) :
    (ev.stores tsc).Pairwise ByteMemory.Apart := by
  cases ev <;> simp [stores, ByteMemory.Apart]

/-- Round trip: an event whose stores are all done is read back as it was. -/
theorem value_read_stores (tsc : UInt64) (ev : TelemetryEvent) (m : ByteMemory) :
    value read (m.storeAll (ev.stores tsc)) = some ev := by
  have hload : ∀ offset bs, (offset, bs) ∈ ev.stores tsc →
      (m.storeAll (ev.stores tsc)).load offset bs.length = bs :=
    fun _ _ hmem => ByteMemory.load_storeAll (stores_apart tsc ev) hmem
  generalize m.storeAll (ev.stores tsc) = m at hload
  cases ev with
  | tickMetrics tickId tickNs pnlFp position =>
      have hword : m.load 0 8 = word64 0 := hload 0 (word64 0) (by simp [stores])
      have htype : value (byteAt 0) m = 0 := by
        refine value_byteAt ?_
        have hone : (m.load 0 8).take 1 = m.load 0 1 := ByteMemory.load_take (by decide)
        rw [← hone, hword]
        rfl
      have hid := value_int64At (hload 8 (int64 tickId) (by simp [stores]))
      have hns := value_int64At (hload 16 (int64 tickNs) (by simp [stores]))
      have hpnl := value_int64At (hload 24 (int64 pnlFp) (by simp [stores]))
      have hpos := value_int64At (hload 32 (int64 position) (by simp [stores]))
      rw [read, value_bind, htype, if_pos rfl]
      simp only [value_bind, hid, hns, hpnl, hpos, Prog.pure_eq, value_ret]
  | limitAdd tickId isBid participant priceFp volume orderId =>
      have htype := value_byteAt (hload 0 [1] (by simp [stores]))
      have hid := value_int64At (hload 8 (int64 tickId) (by simp [stores]))
      have hbid := value_boolAt (hload 16 (bool isBid) (by simp [stores]))
      have hwho := value_int32At (hload 20 (int32 participant) (by simp [stores]))
      have hprice := value_int64At (hload 24 (int64 priceFp) (by simp [stores]))
      have hvolume := value_int64At (hload 32 (int64 volume) (by simp [stores]))
      have horder := value_word64At (hload 40 (word64 orderId) (by simp [stores]))
      rw [read, value_bind, htype, if_neg (by decide), if_pos rfl]
      simp only [value_bind, hid, hbid, hwho, hprice, hvolume, horder, Prog.pure_eq, value_ret]
  | fill tickId takerIsBuy takerParticipant makerParticipant priceFp volume makerOrderId =>
      have htype := value_byteAt (hload 0 [2] (by simp [stores]))
      have hid := value_int64At (hload 8 (int64 tickId) (by simp [stores]))
      have hbuy := value_boolAt (hload 16 (bool takerIsBuy) (by simp [stores]))
      have htaker := value_int32At (hload 20 (int32 takerParticipant) (by simp [stores]))
      have hmaker := value_int32At (hload 24 (int32 makerParticipant) (by simp [stores]))
      have hprice := value_int64At (hload 32 (int64 priceFp) (by simp [stores]))
      have hvolume := value_int64At (hload 40 (int64 volume) (by simp [stores]))
      have horder := value_word64At (hload 48 (word64 makerOrderId) (by simp [stores]))
      rw [read, value_bind, htype, if_neg (by decide), if_neg (by decide), if_pos rfl]
      simp only [value_bind, hid, hbuy, htaker, hmaker, hprice, hvolume, horder, Prog.pure_eq,
        value_ret]
  | cancel tickId orderId liveSucceeded =>
      have htype := value_byteAt (hload 0 [3] (by simp [stores]))
      have hid := value_int64At (hload 8 (int64 tickId) (by simp [stores]))
      have horder := value_word64At (hload 16 (word64 orderId) (by simp [stores]))
      have hlive := value_boolAt (hload 24 (bool liveSucceeded) (by simp [stores]))
      rw [read, value_bind, htype, if_neg (by decide), if_neg (by decide), if_neg (by decide),
        if_pos rfl]
      simp only [value_bind, hid, horder, hlive, Prog.pure_eq, value_ret]

end TelemetryEvent

/-! ## The two threads -/

/-- Where the Game Master stands. -/
inductive RecorderPc where
  | idle
  /-- in `wait_for_space` -/
  | waiting (ev : TelemetryEvent) (tsc : UInt64)
  /-- what is left to store before the fence; then `write_head.fetch_add(1)` -/
  | storing (ev : TelemetryEvent) (todo : List ByteMemory.Store)

/-- Where `TelemetryWatchdog::run` stands. -/
inductive WatchdogPc where
  /-- the first half of the loop test -/
  | testRunning
  /-- the second half -/
  | testHead
  | fetch
  /-- in the inner loop, up to `writeHead` -/
  | batch (writeHead : UInt64)
  | reading (writeHead : UInt64) (todo : TelemetryEvent.Loads (Option TelemetryEvent))
  | advance
  | exited

structure Channel where
  slots : UInt64 → ByteMemory
  writeHead : UInt64
  readHead : UInt64
  running : Bool
  recorder : RecorderPc
  watchdog : WatchdogPc
  /-- the local `read_head` of `run` -/
  cursor : UInt64
  /-- the events that the Game Master has recorded, and what the watchdog has handled -/
  recorded : List TelemetryEvent
  handled : List (Option TelemetryEvent)
  /-- how many events had been recorded when `stop` was called -/
  recordedAtStop : Option Nat

namespace Channel

/-- A ring of zeros, the thread just started. -/
def start : Channel :=
  ⟨fun _ _ => 0, 0, 0, true, .idle, .testRunning, 0, [], [], none⟩

inductive Move where
  | record (ev : TelemetryEvent) (tsc : UInt64)
  | stop
  /-- the Game Master goes on in `record_*` -/
  | recorder
  | watchdog

def slotOf (s : Channel) (index : UInt64) : ByteMemory := s.slots (TelemetryRing.slot index)

/-- `wait_for_space` leaves its loop; `write_head` is the Game Master's own. -/
def HasSpace (s : Channel) : Prop := s.writeHead - s.readHead < 65472

instance (s : Channel) : Decidable s.HasSpace := inferInstanceAs (Decidable (_ < _))

/-- The Game Master calls `record_*`. -/
def enterRecord (s : Channel) (ev : TelemetryEvent) (tsc : UInt64) : Channel :=
  match s.recorder with
  | .idle => { s with recorder := .waiting ev tsc }
  | _ => s

/-- It calls `stop`. -/
def callStop (s : Channel) : Channel :=
  match s.recorder with
  | .idle =>
      { s with
        running := false
        recordedAtStop := s.recordedAtStop.or (some s.recorded.length) }
  | _ => s

def stepRecorder (s : Channel) : Channel :=
  match s.recorder with
  | .idle => s
  | .waiting ev tsc => if s.HasSpace then { s with recorder := .storing ev (ev.stores tsc) } else s
  | .storing ev ((offset, bs) :: todo) =>
      { s with
        slots := Function.update s.slots (TelemetryRing.slot s.writeHead)
          ((s.slotOf s.writeHead).store offset bs)
        recorder := .storing ev todo }
  | .storing ev [] =>
      { s with
        writeHead := s.writeHead + 1
        recorder := .idle
        recorded := s.recorded ++ [ev] }

def stepWatchdog (s : Channel) : Channel :=
  match s.watchdog with
  | .testRunning => { s with watchdog := if s.running then .fetch else .testHead }
  | .testHead => { s with watchdog := if s.cursor < s.writeHead then .fetch else .exited }
  | .fetch => { s with watchdog := .batch s.writeHead }
  | .batch writeHead =>
      { s with
        watchdog := if s.cursor < writeHead then .reading writeHead TelemetryEvent.read
          else .advance }
  | .reading writeHead (.call (offset, width) k) =>
      { s with watchdog := .reading writeHead (k ((s.slotOf s.cursor).load offset width)) }
  | .reading writeHead (.read k) =>
      { s with watchdog := .reading writeHead (k (s.slotOf s.cursor)) }
  | .reading writeHead (.ret ev) =>
      { s with
        watchdog := .batch writeHead
        cursor := s.cursor + 1
        handled := s.handled ++ [ev] }
  | .advance => { s with readHead := s.cursor, watchdog := .testRunning }
  | .exited => s

def step (s : Channel) : Move → Channel
  | .record ev tsc => s.enterRecord ev tsc
  | .stop => s.callStop
  | .recorder => s.stepRecorder
  | .watchdog => s.stepWatchdog

def run (moves : List Move) : Channel := moves.foldl step start

/-! ## What the ring is for -/

/-- A FIFO that loses nothing on the way. -/
structure Fifo (s : Channel) : Prop where
  /-- what has been handled is what was recorded, in the same order, as far as it goes -/
  order : s.handled <+: s.recorded.map some
  /-- event `j` is in the slot of index `j`; while it is unread the Game Master stores into
  another one -/
  unharmed : ∀ ev todo, s.recorder = .storing ev todo → ∀ j, s.handled.length ≤ j →
    j < s.recorded.length →
      TelemetryRing.slot (UInt64.ofNat j) ≠ TelemetryRing.slot s.writeHead

/-- The thread leaves nothing behind: once it has exited, all that had been recorded
before `stop` is handled. -/
def Drained (s : Channel) : Prop :=
  s.watchdog = .exited → ∀ n, s.recordedAtStop = some n → n ≤ s.handled.length

def Move.isWatchdog : Move → Bool
  | .watchdog => true
  | _ => false

/-- The steps of its own after which the thread is done with what has been recorded so far:
at most sixteen for an event, and one more round of its loops. -/
def backlog (s : Channel) : Nat := 16 * (s.recorded.length - s.handled.length) + 16

/-- The thread keeps up from a state to a later one. -/
structure KeepsUp (s s' : Channel) : Prop where
  /-- it has handled all that had been recorded -/
  handles : s.watchdog ≠ .exited → s.recorded.map some <+: s'.handled
  /-- and once it is told to stop and nothing more is recorded it exits -/
  exits : s.running = false → s'.recorded.length = s.recorded.length → s'.watchdog = .exited

end Channel

end VidhiArena.GameMaster
