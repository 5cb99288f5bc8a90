import VidhiArena.Foundation.ByteLayout

/-!
# The VIDHI tick tape

The file that `convert_csv_to_bin` in `backend/scripts/generate_datasets.py` writes: eight
bytes of magic, the number of records as an `int64_t` and the records, 88 bytes each. A
double is its eight bytes; how the writer computes its values from a row of the table is
left out, a record may hold any words.
-/

namespace VidhiArena.Dataset

open VidhiArena.Foundation ByteLayout

/-! ## Records -/

/-- `TickRecord`. -/
@[ext] structure TickRecord where
  tickId : Int64
  bidPrice : UInt64
  askPrice : UInt64
  midPrice : UInt64
  fairValue : UInt64
  spread : UInt64
  volatility : UInt64
  bidVol : UInt64
  askVol : UInt64
  lastTradePx : UInt64
  isNewsFlag : UInt64
deriving DecidableEq

namespace TickRecord

/-- The ten doubles, in the order of the file. -/
def doubles (r : TickRecord) : List UInt64 :=
  [r.bidPrice, r.askPrice, r.midPrice, r.fairValue, r.spread, r.volatility, r.bidVol, r.askVol,
    r.lastTradePx, r.isNewsFlag]

/-- `record_struct.pack(...)` with `record_struct = struct.Struct('<q10d')`. -/
def pack (r : TickRecord) : List UInt8 := int64 r.tickId ++ r.doubles.flatMap word64

@[simp] theorem length_pack (r : TickRecord) : r.pack.length = 88 := by
  rw [pack, List.length_append, length_flatMap_width length_word64, length_int64]
  rfl

/-- A record in memory, where the packed structure has its members. -/
def atOffset (bs : List UInt8) (offset : Nat) : TickRecord where
  tickId := (takeInt64 (bs.drop offset)).1
  bidPrice := wordAt bs (offset + 8)
  askPrice := wordAt bs (offset + 16)
  midPrice := wordAt bs (offset + 24)
  fairValue := wordAt bs (offset + 32)
  spread := wordAt bs (offset + 40)
  volatility := wordAt bs (offset + 48)
  bidVol := wordAt bs (offset + 56)
  askVol := wordAt bs (offset + 64)
  lastTradePx := wordAt bs (offset + 72)
  isNewsFlag := wordAt bs (offset + 80)

/-- `struct.unpack('<q' + 'd' * 10, raw)`. -/
def unpack (raw : List UInt8) : Int64 × List UInt64 :=
  ((takeInt64 raw).1, takeWords 10 (takeInt64 raw).2)

def row (r : TickRecord) : Int64 × List UInt64 := (r.tickId, r.doubles)

theorem wordAt_pack {bs rest : List UInt8} {offset : Nat} {r : TickRecord}
    (h : bs.drop offset = r.pack ++ rest) (i : Nat) (hi : i < 10) {p : Nat}
    (hp : p = offset + (8 + i * 8)) : wordAt bs p = r.doubles.get ⟨i, hi⟩ := by
  rw [hp, wordAt, ← List.drop_drop, ← List.drop_drop, h, pack, List.append_assoc,
    List.drop_left' (length_int64 _)]
  exact wordAt_flatMap hi rest

theorem atOffset_pack {bs rest : List UInt8} {offset : Nat} {r : TickRecord}
    (h : bs.drop offset = r.pack ++ rest) : atOffset bs offset = r := by
  ext1
  · change (takeInt64 (bs.drop offset)).1 = r.tickId
    rw [h, pack, List.append_assoc, takeInt64_int64]
  · exact wordAt_pack h 0 (by decide) rfl
  · exact wordAt_pack h 1 (by decide) rfl
  · exact wordAt_pack h 2 (by decide) rfl
  · exact wordAt_pack h 3 (by decide) rfl
  · exact wordAt_pack h 4 (by decide) rfl
  · exact wordAt_pack h 5 (by decide) rfl
  · exact wordAt_pack h 6 (by decide) rfl
  · exact wordAt_pack h 7 (by decide) rfl
  · exact wordAt_pack h 8 (by decide) rfl
  · exact wordAt_pack h 9 (by decide) rfl

theorem unpack_pack (r : TickRecord) : unpack r.pack = r.row := by
  have hwords : takeWords 10 (r.doubles.flatMap word64) = r.doubles := by
    have := takeWords_flatMap r.doubles []
    rwa [List.append_nil] at this
  rw [unpack, pack, takeInt64_int64, hwords]
  rfl

end TickRecord

/-! ## Files -/

/-- `b'VIDHI\0\0\0'`. -/
def magicBytes : List UInt8 := [0x56, 0x49, 0x44, 0x48, 0x49, 0, 0, 0]

/-- What the writer leaves in the file; `struct.pack('<q', …)` refuses a count that is no
`int64_t`. -/
def convertToBin (records : List TickRecord) : Option (List UInt8) :=
  if records.length < 2 ^ 63 then
    some (magicBytes ++ int64 (Int64.ofNat records.length) ++ records.flatMap TickRecord.pack)
  else none

def storedCount (bytes : List UInt8) : Int64 := (takeInt64 (bytes.drop 8)).1

/-- A file of a file system whose sizes are `off_t`. -/
structure File where
  bytes : List UInt8
  length_lt : bytes.length < 2 ^ 63

section Written

variable {records : List TickRecord} {bytes : List UInt8} (h : convertToBin records = some bytes)
include h

theorem written_eq : bytes = magicBytes ++ (int64 (Int64.ofNat records.length) ++
    records.flatMap TickRecord.pack) := by
  unfold convertToBin at h
  split at h
  · rw [← Option.some.inj h, List.append_assoc]
  · exact nomatch h

theorem written_magic : bytes.take 8 = magicBytes := by
  rw [written_eq h]
  exact List.take_left' rfl

theorem written_count : storedCount bytes = Int64.ofNat records.length := by
  rw [storedCount, written_eq h, List.drop_left' (by rfl), takeInt64_int64]

theorem written_count_toInt : (storedCount bytes).toInt = records.length := by
  rw [written_count h]
  unfold convertToBin at h
  split at h
  · next hlt => exact Int64.toInt_ofNat_of_lt hlt
  · exact nomatch h

theorem written_rest : bytes.drop 16 = records.flatMap TickRecord.pack := by
  have hdrop : bytes.drop 16 = (bytes.drop 8).drop 8 := by rw [List.drop_drop]
  rw [hdrop, written_eq h, List.drop_left' (by rfl), List.drop_left' (length_int64 _)]

theorem written_length : bytes.length = 16 + records.length * 88 := by
  rw [written_eq h, List.length_append, List.length_append, length_int64,
    length_flatMap_width TickRecord.length_pack, ← Nat.add_assoc]
  rfl

theorem written_record {k : Nat} (hk : k < records.length) :
    bytes.drop (16 + k * 88) = records[k].pack ++ (records.drop (k + 1)).flatMap TickRecord.pack := by
  rw [← List.drop_drop, written_rest h, drop_flatMap_width TickRecord.length_pack,
    List.drop_eq_getElem_cons hk, List.flatMap_cons]

end Written

end VidhiArena.Dataset
