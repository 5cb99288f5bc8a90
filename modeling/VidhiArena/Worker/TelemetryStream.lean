import VidhiArena.Foundation.ByteLayout
import VidhiArena.Foundation.TaggedStream

/-!
# The telemetry on the standard output of the Game Master

`telemetry.hpp` writes a tag and a C structure for every tick row and every fill,
`local_gm.py` a tag and a packed record for every tick row; both end with one JSON object.
The reader of `job_worker.go` skips 80 bytes behind the tag `0x01` and 40 behind `0x02`,
keeps all that as `binaryTelemetry` and takes the rest from the first `{` for the JSON;
`streamTelemetryToDB` cuts `binaryTelemetry` into rows again.

A double is its eight bytes. The bytes in the gaps of a structure are arbitrary.
-/

namespace VidhiArena.Worker

open Foundation.ByteLayout Foundation.TaggedStream

/-! ## Rows -/

structure TickRow where
  tickId : Int64
  pnlFp : Int64
  pos : Int64
  latP50 : Int64
  latP99 : Int64
  bidPrice : UInt64
  askPrice : UInt64
  spread : UInt64
  lastTrade : UInt64
  fillCount : Int32
deriving DecidableEq

structure FillRow where
  tickId : Int64
  price : UInt64
  volume : Int64
  makerParticipant : Int32
  takerParticipant : Int32
  takerIsBuy : Bool
deriving DecidableEq

/-! ## What is written -/

/-- `batch_row` of `telemetry.hpp`. -/
def batchRow (memory : Nat → UInt8) (row : TickRow) : List UInt8 :=
  cStruct memory [int64 row.tickId, int64 row.pnlFp, int64 row.pos, int64 row.latP50,
    int64 row.latP99, word64 row.bidPrice, word64 row.askPrice, word64 row.spread,
    word64 row.lastTrade, int32 row.fillCount]

/-- `fill_row` of `telemetry.hpp`. -/
def fillRow (memory : Nat → UInt8) (row : FillRow) : List UInt8 :=
  cStruct memory [int64 row.tickId, word64 row.price, int64 row.volume,
    int32 row.makerParticipant, int32 row.takerParticipant, bool row.takerIsBuy]

/-- `struct.pack('<BqqqqqddddiI4x', …)` of `local_gm.py`, without the leading tag. -/
def packedRow (row : TickRow) : List UInt8 :=
  int64 row.tickId ++ int64 row.pnlFp ++ int64 row.pos ++ int64 row.latP50 ++
    int64 row.latP99 ++ word64 row.bidPrice ++ word64 row.askPrice ++ word64 row.spread ++
    word64 row.lastTrade ++ int32 row.fillCount ++ int32 0 ++ [0, 0, 0, 0]

/-- A packet: a tick or a fill of the Game Master, or a tick of the local Game Master. -/
inductive Packet where
  | tick (memory : Nat → UInt8) (row : TickRow)
  | fill (memory : Nat → UInt8) (row : FillRow)
  | localTick (row : TickRow)

namespace Packet

def encode : Packet → List UInt8
  | tick memory row => 0x01 :: batchRow memory row
  | fill memory row => 0x02 :: fillRow memory row
  | localTick row => 0x01 :: packedRow row

def tickRow? : Packet → Option TickRow
  | tick _ row => some row
  | fill .. => none
  | localTick row => some row

def fillRow? : Packet → Option FillRow
  | fill _ row => some row
  | _ => none

end Packet

/-- The code of `{`. -/
def brace : UInt8 := 0x7B

/-- A run's output: the packets, then the JSON object. -/
def output (packets : List Packet) (json : List UInt8) : List UInt8 :=
  packets.flatMap Packet.encode ++ brace :: json

/-! ## What is read -/

/-- The goroutine of `processJob`: `binaryTelemetry` and `jsonResult`, which is `nil` when the
stream ends without one. -/
def stdoutReader : List UInt8 → List UInt8 × Option (List UInt8)
  | [] => ([], none)
  | packetType :: pr =>
      if packetType = brace then ([], some (packetType :: pr))
      else if packetType = 0x01 then
        if 80 ≤ pr.length then
          let (telemetry, json) := stdoutReader (pr.drop 80)
          (packetType :: (pr.take 80 ++ telemetry), json)
        else ([packetType], none)
      else if packetType = 0x02 then
        if 40 ≤ pr.length then
          let (telemetry, json) := stdoutReader (pr.drop 40)
          (packetType :: (pr.take 40 ++ telemetry), json)
        else ([packetType], none)
      else
        let (telemetry, json) := stdoutReader pr
        (packetType :: telemetry, json)
termination_by pr => pr.length
decreasing_by all_goals simp only [List.length_drop, List.length_cons]; omega

/-- `binary.Read` into `TickRow`; the padding field is read and not used. -/
def TickRow.read (buf : List UInt8) : TickRow :=
  let (tickId, buf) := takeInt64 buf
  let (pnlFp, buf) := takeInt64 buf
  let (pos, buf) := takeInt64 buf
  let (latP50, buf) := takeInt64 buf
  let (latP99, buf) := takeInt64 buf
  let (bidPrice, buf) := takeWord64 buf
  let (askPrice, buf) := takeWord64 buf
  let (spread, buf) := takeWord64 buf
  let (lastTrade, buf) := takeWord64 buf
  let (fillCount, _) := takeInt32 buf
  { tickId, pnlFp, pos, latP50, latP99, bidPrice, askPrice, spread, lastTrade, fillCount }

def FillRow.read (buf : List UInt8) : FillRow :=
  let (tickId, buf) := takeInt64 buf
  let (price, buf) := takeWord64 buf
  let (volume, buf) := takeInt64 buf
  let (makerParticipant, buf) := takeInt32 buf
  let (takerParticipant, buf) := takeInt32 buf
  let (takerIsBuy, _) := takeBool buf
  { tickId, price, volume, makerParticipant, takerParticipant, takerIsBuy }

/-- The parsing loop of `streamTelemetryToDB`: `ticks` and `fills`. -/
def telemetryRows : List UInt8 → List TickRow × List FillRow
  | [] => ([], [])
  | packetType :: reader =>
      if packetType = 0x01 then
        if 80 ≤ reader.length then
          let (ticks, fills) := telemetryRows (reader.drop 80)
          (TickRow.read (reader.take 80) :: ticks, fills)
        else ([], [])
      else if packetType = 0x02 then
        if 40 ≤ reader.length then
          let (ticks, fills) := telemetryRows (reader.drop 40)
          (ticks, FillRow.read (reader.take 40) :: fills)
        else ([], [])
      else telemetryRows reader
termination_by reader => reader.length
decreasing_by all_goals simp only [List.length_drop, List.length_cons]; omega

/-! ## Sizes -/

theorem batchRow_eq (memory : Nat → UInt8) (row : TickRow) :
    batchRow memory row = int64 row.tickId ++ int64 row.pnlFp ++ int64 row.pos ++
      int64 row.latP50 ++ int64 row.latP99 ++ word64 row.bidPrice ++ word64 row.askPrice ++
      word64 row.spread ++ word64 row.lastTrade ++ int32 row.fillCount ++
      [memory 76, memory 77, memory 78, memory 79] := by
  simp [batchRow, cStruct, members, gap, List.range']

theorem fillRow_eq (memory : Nat → UInt8) (row : FillRow) :
    fillRow memory row = int64 row.tickId ++ word64 row.price ++ int64 row.volume ++
      int32 row.makerParticipant ++ int32 row.takerParticipant ++ bool row.takerIsBuy ++
      [memory 33, memory 34, memory 35, memory 36, memory 37, memory 38, memory 39] := by
  simp [fillRow, cStruct, members, gap, List.range']

theorem packedRow_eq (row : TickRow) :
    packedRow row = (int64 row.tickId ++ int64 row.pnlFp ++ int64 row.pos ++
      int64 row.latP50 ++ int64 row.latP99 ++ word64 row.bidPrice ++ word64 row.askPrice ++
      word64 row.spread ++ word64 row.lastTrade ++ int32 row.fillCount ++ [0, 0, 0, 0]) ++
      [0, 0, 0, 0] := rfl

@[simp] theorem length_batchRow (memory : Nat → UInt8) (row : TickRow) :
    (batchRow memory row).length = 80 := by
  simp [batchRow_eq]

@[simp] theorem length_fillRow (memory : Nat → UInt8) (row : FillRow) :
    (fillRow memory row).length = 40 := by
  simp [fillRow_eq]

/-! ## One row -/

theorem TickRow.read_append (row : TickRow) (pad : List UInt8) :
    TickRow.read (int64 row.tickId ++ int64 row.pnlFp ++ int64 row.pos ++ int64 row.latP50 ++
      int64 row.latP99 ++ word64 row.bidPrice ++ word64 row.askPrice ++ word64 row.spread ++
      word64 row.lastTrade ++ int32 row.fillCount ++ pad) = row := by
  simp only [TickRow.read, List.append_assoc, takeInt64_int64, takeWord64_word64, takeInt32_int32]

theorem TickRow.read_batchRow (memory : Nat → UInt8) (row : TickRow) :
    TickRow.read (batchRow memory row) = row := by
  rw [batchRow_eq, TickRow.read_append]

theorem FillRow.read_fillRow (memory : Nat → UInt8) (row : FillRow) :
    FillRow.read (fillRow memory row) = row := by
  simp only [fillRow_eq, FillRow.read, List.append_assoc, takeInt64_int64, takeWord64_word64,
    takeInt32_int32, takeBool_bool]

/-! ## One packet -/

section Packets

variable {buf : List UInt8}

theorem stdoutReader_tick (hlen : buf.length = 80) (rest : List UInt8) :
    stdoutReader (0x01 :: (buf ++ rest)) =
      (0x01 :: (buf ++ (stdoutReader rest).1), (stdoutReader rest).2) := by
  have hle : 80 ≤ (buf ++ rest).length := by
    rw [List.length_append]
    omega
  rw [stdoutReader, if_neg (by decide), if_pos rfl, if_pos hle, List.drop_left' hlen,
    List.take_left' hlen]

theorem stdoutReader_fill (hlen : buf.length = 40) (rest : List UInt8) :
    stdoutReader (0x02 :: (buf ++ rest)) =
      (0x02 :: (buf ++ (stdoutReader rest).1), (stdoutReader rest).2) := by
  have hle : 40 ≤ (buf ++ rest).length := by
    rw [List.length_append]
    omega
  rw [stdoutReader, if_neg (by decide), if_neg (by decide), if_pos rfl, if_pos hle,
    List.drop_left' hlen, List.take_left' hlen]

theorem stdoutReader_stray (rest : List UInt8) :
    stdoutReader (0 :: rest) = (0 :: (stdoutReader rest).1, (stdoutReader rest).2) := by
  rw [stdoutReader, if_neg (by decide), if_neg (by decide), if_neg (by decide)]

theorem telemetryRows_tick (hlen : buf.length = 80) (rest : List UInt8) :
    telemetryRows (0x01 :: (buf ++ rest)) =
      (TickRow.read buf :: (telemetryRows rest).1, (telemetryRows rest).2) := by
  have hle : 80 ≤ (buf ++ rest).length := by
    rw [List.length_append]
    omega
  rw [telemetryRows, if_pos rfl, if_pos hle, List.drop_left' hlen, List.take_left' hlen]

theorem telemetryRows_fill (hlen : buf.length = 40) (rest : List UInt8) :
    telemetryRows (0x02 :: (buf ++ rest)) =
      ((telemetryRows rest).1, FillRow.read buf :: (telemetryRows rest).2) := by
  have hle : 40 ≤ (buf ++ rest).length := by
    rw [List.length_append]
    omega
  rw [telemetryRows, if_neg (by decide), if_pos rfl, if_pos hle, List.drop_left' hlen,
    List.take_left' hlen]

theorem telemetryRows_stray (rest : List UInt8) : telemetryRows (0 :: rest) = telemetryRows rest := by
  rw [telemetryRows, if_neg (by decide), if_neg (by decide)]

end Packets

namespace Packet

/-- The reader passes one packet and keeps it. The packed record is four bytes too
long; they are zero, and the reader takes them for tags that it does not know. -/
theorem stdoutReader_encode (packet : Packet) (rest : List UInt8) :
    stdoutReader (packet.encode ++ rest) =
      (packet.encode ++ (stdoutReader rest).1, (stdoutReader rest).2) := by
  cases packet with
  | tick memory row => exact stdoutReader_tick (length_batchRow memory row) rest
  | fill memory row => exact stdoutReader_fill (length_fillRow memory row) rest
  | localTick row =>
      rw [encode, packedRow_eq, List.cons_append, List.append_assoc, stdoutReader_tick (by simp)]
      simp only [List.cons_append, List.nil_append, stdoutReader_stray, List.append_assoc]

theorem telemetryRows_encode (packet : Packet) (rest : List UInt8) :
    telemetryRows (packet.encode ++ rest) =
      (packet.tickRow?.toList ++ (telemetryRows rest).1,
        packet.fillRow?.toList ++ (telemetryRows rest).2) := by
  cases packet with
  | tick memory row =>
      rw [encode, List.cons_append, telemetryRows_tick (length_batchRow memory row),
        TickRow.read_batchRow]
      rfl
  | fill memory row =>
      rw [encode, List.cons_append, telemetryRows_fill (length_fillRow memory row),
        FillRow.read_fillRow]
      rfl
  | localTick row =>
      rw [encode, packedRow_eq, List.cons_append, List.append_assoc, telemetryRows_tick (by simp),
        TickRow.read_append]
      simp only [List.cons_append, List.nil_append, telemetryRows_stray]
      rfl

end Packet

/-! ## Whole streams -/

theorem stdoutReader_json (json : List UInt8) :
    stdoutReader (brace :: json) = ([], some (brace :: json)) := by
  rw [stdoutReader, if_pos rfl]

theorem stdoutReader_output (packets : List Packet) (json : List UInt8) :
    stdoutReader (output packets json) =
      (packets.flatMap Packet.encode, some (brace :: json)) := by
  unfold output
  induction packets with
  | nil => exact stdoutReader_json json
  | cons packet packets ih =>
      rw [List.flatMap_cons, List.append_assoc, Packet.stdoutReader_encode, ih]

theorem telemetryRows_flatMap (packets : List Packet) :
    telemetryRows (packets.flatMap Packet.encode) =
      (packets.filterMap Packet.tickRow?, packets.filterMap Packet.fillRow?) := by
  induction packets with
  | nil => rw [List.flatMap_nil, telemetryRows]; rfl
  | cons packet packets ih =>
      rw [List.flatMap_cons, Packet.telemetryRows_encode, ih]
      cases packet <;> rfl

/-- The telemetry comes back: from any packets followed by a JSON object, whatever the
padding bytes are, the reader recovers the whole object, and the database stream recovers the
rows of the ticks and of the fills in order. -/
theorem telemetry_round_trip (packets : List Packet) (json : List UInt8) :
    (stdoutReader (output packets json)).2 = some (brace :: json) ∧
      telemetryRows (stdoutReader (output packets json)).1 =
        (packets.filterMap Packet.tickRow?, packets.filterMap Packet.fillRow?) := by
  rw [stdoutReader_output]
  exact ⟨rfl, telemetryRows_flatMap packets⟩

end VidhiArena.Worker
