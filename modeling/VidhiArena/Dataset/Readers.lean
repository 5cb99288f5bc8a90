import VidhiArena.Dataset.Format
import VidhiArena.Foundation.DoubleCount
import VidhiArena.Foundation.Utf8
import VidhiArena.GameMaster.TickLoop

/-!
# Three readers of the tick tape

`TickDataset` of the game master (`price_signal.hpp`) maps the file and reads a row when its
tick comes, `local_gm.py` reads the records it needs, and the browser's `parseVidhiBinary`
takes the mid prices out of a fetched buffer. What the operating system answers to `mmap`
and how large a buffer the browser makes are parameters; so is the fixed-point value of a
double.
-/

namespace VidhiArena.Dataset

open VidhiArena.Foundation ByteLayout GameMaster

/-! ## The game master -/

/-- `mmap(nullptr, len, PROT_READ, MAP_PRIVATE, fd, 0) != MAP_FAILED`. -/
structure Os where
  mmap : File → UInt64 → Bool

/-- A file that was loaded. -/
structure TickDataset where
  file : File
  mapLen : UInt64
  nTicks : Int64

/-- What the game master does with the doubles of a row. -/
structure RowArithmetic where
  toFp : UInt64 → Int64
  /-- `r.is_news_flag >= 0.5` -/
  isNews : UInt64 → Bool

namespace TickDataset

/-- `VIDHI_BIN_HEADER + n * TICK_RECORD_BYTES`, as a `size_t`. -/
def mapLength (n : Int64) : UInt64 := 16 + n.toUInt64 * 88

def load (os : Os) (file : File) : Option TickDataset :=
  let magic := file.bytes.take 8
  if magic.length ≠ 8 ∨ ((file.bytes.drop 8).take 8).length ≠ 8 then none
  else
    let n := storedCount file.bytes
    -- `memcmp` over the five letters; the three zero bytes are not looked at
    if magic.take 5 ≠ magicBytes.take 5 ∨ n ≤ 0 then none
    else if os.mmap file (mapLength n) then some ⟨file, mapLength n, n⟩
    else none

/-- `rows_[tick]`, or nothing where a part of the row lies beyond the end of the file. -/
def rows (d : TickDataset) (tick : Nat) : Option TickRecord :=
  if 16 + tick * 88 + 88 ≤ d.file.bytes.length then
    some (TickRecord.atOffset d.file.bytes (16 + tick * 88))
  else none

/-- `snapshot`: `next` is the next step of the fallback. It fails where it reads a row that
`rows` has not. -/
def snapshot (fp : RowArithmetic) (next : PriceTick) (dataset : Option TickDataset)
    (tick curBidFp curAskFp : Int64) : Option MarketSnapshot :=
  match dataset with
  | none => some (next.snapshot curBidFp curAskFp)
  | some d =>
      if tick < 0 ∨ d.nTicks ≤ tick then some (next.snapshot curBidFp curAskFp)
      else (d.rows tick.toInt.toNat).map fun r =>
        (PriceTick.row (fp.toFp r.bidPrice) (fp.toFp r.askPrice) (fp.toFp r.midPrice)
          (fp.toFp r.spread) (fp.toFp r.fairValue) (fp.toFp r.volatility)
          (fp.isNews r.isNewsFlag)).snapshot curBidFp curAskFp

end TickDataset

/-! ## The local game master -/

/-- The records that the loop reads; it stops at a short one. -/
def readRecords : Nat → List UInt8 → List (Int64 × List UInt64)
  | 0, _ => []
  | n + 1, bytes =>
      let raw := bytes.take 88
      if raw.length < 88 then [] else TickRecord.unpack raw :: readRecords n (bytes.drop 88)

/-- The dataset block of `local_gm.py`; nothing when `dataset_prices` stays `None`, be it that
the magic differs or that `struct.unpack` raises. -/
def loadDataset (bytes : List UInt8) (ticks : Int) : Option (List (Int64 × List UInt64)) :=
  if bytes.take 8 = magicBytes then
    if ((bytes.drop 8).take 8).length < 8 then none
    else
      let nTicks := min (storedCount bytes).toInt ticks
      some (readRecords nTicks.toNat (bytes.drop 16))
  else none

/-! ## The browser -/

/-- A JavaScript engine: the largest buffer it makes, in bytes. -/
structure JsEngine where
  maxByteLength : Nat
  maxByteLength_lt : maxByteLength < 2 ^ 53

structure ArrayBuffer (engine : JsEngine) where
  bytes : List UInt8
  length_le : bytes.length ≤ engine.maxByteLength

inductive ParseError where
  /-- `'Invalid VIDHI dataset magic'` -/
  | invalidMagic
  /-- a read past the end of the buffer, or no such array length -/
  | rangeError
deriving DecidableEq

/-- The loop over a zeroed `Float64Array` with `n` places left, at `offset`. -/
def fillPrices (bytes : List UInt8) : Nat → Nat → List UInt64
  | 0, _ => []
  | n + 1, offset =>
      if bytes.length < offset + 88 then List.replicate (n + 1) 0
      else wordAt bytes (offset + 24) :: fillPrices bytes n (offset + 88)

/-- `DATASET_MAGIC`, as code points. -/
def datasetMagic : List Nat := ['V', 'I', 'D', 'H', 'I', '\x00', '\x00', '\x00'].map Char.toNat

def parseVidhiBinary {engine : JsEngine} (buffer : ArrayBuffer engine) :
    Except ParseError (List UInt64) :=
  if Utf8.decode (buffer.bytes.take 8) ≠ datasetMagic then .error .invalidMagic
  -- `getBigInt64(8)`
  else if buffer.bytes.length < 16 then .error .rangeError
  else
    let count := storedCount buffer.bytes
    -- `new Float64Array(Number(count))`
    if count < 0 then .error .rangeError
    else
      let tickCount := DoubleCount.toDouble count.toInt.toNat
      if engine.maxByteLength < tickCount * 8 then .error .rangeError
      else .ok (fillPrices buffer.bytes tickCount 16)

/-! ## What each reader accepts -/

section Header

variable {bytes : List UInt8}

theorem header_short_iff :
    (bytes.take 8).length ≠ 8 ∨ ((bytes.drop 8).take 8).length ≠ 8 ↔ bytes.length < 16 := by
  rw [List.length_take, List.length_take, List.length_drop]
  omega

theorem short_count_iff : ((bytes.drop 8).take 8).length < 8 ↔ bytes.length < 16 := by
  rw [List.length_take, List.length_drop]
  omega

theorem letters_of_magic (h : bytes.take 8 = magicBytes) :
    (bytes.take 8).take 5 = magicBytes.take 5 := congrArg (List.take 5) h

end Header

/-- `load` accepts a header of the five letters and a positive count, when the mapping is
made. -/
theorem TickDataset.load_eq_some_iff {os : Os} {file : File} {d : TickDataset} :
    load os file = some d ↔
      16 ≤ file.bytes.length ∧ (file.bytes.take 8).take 5 = magicBytes.take 5 ∧
      0 < storedCount file.bytes ∧ os.mmap file (mapLength (storedCount file.bytes)) = true ∧
      d = ⟨file, mapLength (storedCount file.bytes), storedCount file.bytes⟩ := by
  unfold load
  dsimp only
  rw [if_congr header_short_iff rfl rfl]
  split
  · next hshort => exact iff_of_false nofun fun h => absurd h.1 (Nat.not_le.mpr hshort)
  · next hlong =>
      split
      · next hbad =>
          refine iff_of_false nofun fun h => ?_
          rcases hbad with hletters | hcount
          · exact hletters h.2.1
          · exact absurd h.2.2.1 (Int64.not_lt.mpr hcount)
      · next hgood =>
          rw [not_or, not_not, Int64.not_le] at hgood
          split
          · next hmap =>
              rw [Option.some.injEq]
              constructor
              · rintro rfl
                exact ⟨Nat.not_lt.mp hlong, hgood.1, hgood.2, hmap, rfl⟩
              · exact fun h => h.2.2.2.2.symm
          · next hmap => exact iff_of_false nofun fun h => hmap h.2.2.2.1

theorem loadDataset_eq {bytes : List UInt8} {ticks : Int} (hmagic : bytes.take 8 = magicBytes)
    (hlen : 16 ≤ bytes.length) : loadDataset bytes ticks =
      some (readRecords (min (storedCount bytes).toInt ticks).toNat (bytes.drop 16)) := by
  rw [loadDataset, if_pos hmagic, if_neg]
  rw [short_count_iff]
  exact Nat.not_lt.mpr hlen

theorem loadDataset_eq_none {bytes : List UInt8} {ticks : Int}
    (h : bytes.take 8 ≠ magicBytes ∨ bytes.length < 16) : loadDataset bytes ticks = none := by
  unfold loadDataset
  split
  · next hmagic =>
      refine if_pos ?_
      rw [short_count_iff]
      exact h.resolve_left fun hne => hne hmagic
  · rfl

theorem decode_magic_iff {bytes : List UInt8} :
    Utf8.decode (bytes.take 8) = datasetMagic ↔ bytes.take 8 = magicBytes := by
  have hascii : ∀ b ∈ magicBytes, b.toNat ≤ 0x7F := by decide +kernel
  exact Utf8.decode_eq_ascii_iff hascii (List.length_take_le 8 bytes)

section Browser

variable {engine : JsEngine} {buffer : ArrayBuffer engine}

theorem parseVidhiBinary_error (h : buffer.bytes.take 8 ≠ magicBytes ∨ buffer.bytes.length < 16) :
    ∃ e, parseVidhiBinary buffer = .error e := by
  unfold parseVidhiBinary
  split
  · exact ⟨_, rfl⟩
  · next hmagic =>
      rw [not_not, decode_magic_iff] at hmagic
      exact ⟨_, if_pos (h.resolve_left fun hne => hne hmagic)⟩

theorem parseVidhiBinary_eq (hmagic : buffer.bytes.take 8 = magicBytes)
    (hlen : 16 ≤ buffer.bytes.length) (hcount : 0 ≤ storedCount buffer.bytes)
    (hfits : (storedCount buffer.bytes).toInt.toNat * 8 ≤ buffer.bytes.length) :
    parseVidhiBinary buffer =
      .ok (fillPrices buffer.bytes (storedCount buffer.bytes).toInt.toNat 16) := by
  have hsmall := buffer.length_le.trans_lt engine.maxByteLength_lt
  have hexact : DoubleCount.toDouble (storedCount buffer.bytes).toInt.toNat =
      (storedCount buffer.bytes).toInt.toNat := DoubleCount.toDouble_of_small (by omega)
  rw [parseVidhiBinary, if_neg (not_not.mpr (decode_magic_iff.mpr hmagic)),
    if_neg (Nat.not_lt.mpr hlen), if_neg (Int64.not_lt.mpr hcount)]
  dsimp only
  rw [hexact, if_neg (Nat.not_lt.mpr (hfits.trans buffer.length_le))]

end Browser

end VidhiArena.Dataset
