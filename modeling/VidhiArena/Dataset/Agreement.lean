import VidhiArena.Dataset.Readers

/-!
# What the readers make of a file

On a file of the writer the three readers find the records that were written. On other
files they part: each checks another part of the header, and only one looks at how long the
file is before it believes the count.
-/

namespace VidhiArena.Dataset

open VidhiArena.Foundation ByteLayout GameMaster

/-! ## Loops over records -/

theorem readRecords_pack (records : List TickRecord) (n : Nat) :
    readRecords n (records.flatMap TickRecord.pack) = (records.take n).map TickRecord.row := by
  induction n generalizing records with
  | zero => rfl
  | succ n ih =>
      cases records with
      | nil => rfl
      | cons r rs =>
          rw [readRecords, List.flatMap_cons, List.take_left' r.length_pack,
            List.drop_left' r.length_pack, ih, TickRecord.unpack_pack, List.take_succ_cons,
            List.map_cons]
          exact if_neg (by rw [r.length_pack]; decide)

theorem length_readRecords (n : Nat) (bytes : List UInt8) :
    (readRecords n bytes).length = min n (bytes.length / 88) := by
  induction n generalizing bytes with
  | zero => exact (Nat.zero_min _).symm
  | succ n ih =>
      rw [readRecords]
      split
      · next hshort =>
          rw [List.length_take] at hshort
          rw [List.length_nil, Nat.div_eq_of_lt (by omega), Nat.min_zero]
      · next hlong =>
          rw [List.length_take] at hlong
          rw [List.length_cons, ih, List.length_drop]
          omega

theorem fillPrices_pack {bytes : List UInt8} (records : List TickRecord) {offset : Nat}
    (h : bytes.drop offset = records.flatMap TickRecord.pack) :
    fillPrices bytes records.length offset = records.map TickRecord.midPrice := by
  induction records generalizing offset with
  | nil => rfl
  | cons r rs ih =>
      rw [List.flatMap_cons] at h
      have hlen := congrArg List.length h
      rw [List.length_drop, List.length_append, r.length_pack] at hlen
      have hrest : bytes.drop (offset + 88) = rs.flatMap TickRecord.pack := by
        rw [← List.drop_drop, h, List.drop_left' r.length_pack]
      rw [List.length_cons, fillPrices, if_neg (by omega), ih hrest, List.map_cons]
      exact congrArg (· :: _) (TickRecord.wordAt_pack h 2 (by decide) rfl)

theorem length_fillPrices (bytes : List UInt8) (n offset : Nat) :
    (fillPrices bytes n offset).length = n := by
  induction n generalizing offset with
  | zero => rfl
  | succ n ih =>
      rw [fillPrices]
      split
      · exact List.length_replicate
      · rw [List.length_cons, ih]

/-! ## The length of the mapping -/

theorem toNat_toUInt64_of_nonneg {n : Int64} (h : 0 ≤ n.toInt) :
    n.toUInt64.toNat = n.toInt.toNat := by
  change 0 ≤ n.toBitVec.toInt at h
  change n.toBitVec.toNat = n.toBitVec.toInt.toNat
  rw [BitVec.toInt_eq_toNat_cond] at h ⊢
  split at h
  · next hsmall => rw [if_pos hsmall, Int.toNat_natCast]
  · have := n.toBitVec.isLt
    omega

/-- Where the records fit into the file the length of the mapping does not wrap. -/
theorem toNat_mapLength {file : File} {n : Int64} (hpos : 0 ≤ n.toInt)
    (hfits : 16 + n.toInt.toNat * 88 ≤ file.bytes.length) :
    (TickDataset.mapLength n).toNat = 16 + n.toInt.toNat * 88 := by
  have hlt := hfits.trans_lt file.length_lt
  have hproduct : n.toInt.toNat * 88 % 2 ^ 64 = n.toInt.toNat * 88 := Nat.mod_eq_of_lt (by omega)
  have hsum : (16 + n.toInt.toNat * 88) % 2 ^ 64 = 16 + n.toInt.toNat * 88 :=
    Nat.mod_eq_of_lt (by omega)
  have hmap : (TickDataset.mapLength n).toNat = (16 + n.toUInt64.toNat * 88 % 2 ^ 64) % 2 ^ 64 := by
    rw [TickDataset.mapLength, UInt64.toNat_add, UInt64.toNat_mul]
    rfl
  rw [hmap, toNat_toUInt64_of_nonneg hpos, hproduct, hsum]

/-- `mmap` of bytes that the file has succeeds. -/
def Os.MapsWithin (os : Os) (file : File) : Prop :=
  ∀ len : UInt64, 0 < len → len.toNat ≤ file.bytes.length → os.mmap file len = true

theorem Os.MapsWithin.mapLength {os : Os} {file : File} (h : os.MapsWithin file) {n : Int64}
    (hpos : 0 ≤ n.toInt) (hfits : 16 + n.toInt.toNat * 88 ≤ file.bytes.length) :
    os.mmap file (TickDataset.mapLength n) = true := by
  have hlen := toNat_mapLength hpos hfits
  refine h _ ?_ (hlen ▸ hfits)
  rw [UInt64.lt_iff_toNat_lt, hlen]
  exact Nat.lt_of_lt_of_le (by decide) (Nat.le_add_right 16 _)

/-! ## A written file -/

section Written

variable {os : Os} {engine : JsEngine} {file : File} {buffer : ArrayBuffer engine}
  {records : List TickRecord} (hfile : convertToBin records = some file.bytes)
include hfile

theorem written_count_pos (hne : records ≠ []) : 0 < storedCount file.bytes := by
  rw [Int64.lt_iff_toInt_lt, written_count_toInt hfile]
  exact Int.natCast_pos.mpr (List.length_pos_iff.mpr hne)

theorem load_written (hne : records ≠ []) (hmap : os.MapsWithin file) :
    ∃ d, TickDataset.load os file = some d ∧ d.nTicks.toInt = records.length ∧
      ∀ k (hk : k < records.length), d.rows k = some records[k] := by
  have hlen := written_length hfile
  have hcount := written_count_toInt hfile
  have hmapped : os.mmap file (TickDataset.mapLength (storedCount file.bytes)) = true := by
    refine hmap.mapLength (by omega) ?_
    rw [hcount, Int.toNat_natCast, hlen]
  refine ⟨_, TickDataset.load_eq_some_iff.mpr ⟨by omega, letters_of_magic (written_magic hfile),
    written_count_pos hfile hne, hmapped, rfl⟩, hcount, fun k hk => ?_⟩
  have hin : 16 + k * 88 + 88 ≤ file.bytes.length := by omega
  rw [TickDataset.rows, if_pos hin, TickRecord.atOffset_pack (written_record hfile hk)]

theorem loadDataset_written (ticks : Int) : loadDataset file.bytes ticks =
    some ((records.take (min (records.length : Int) ticks).toNat).map TickRecord.row) := by
  have hlen := written_length hfile
  rw [loadDataset_eq (written_magic hfile) (by omega), written_count_toInt hfile,
    written_rest hfile, readRecords_pack]

theorem parseVidhiBinary_written (hbuffer : buffer.bytes = file.bytes) :
    parseVidhiBinary buffer = .ok (records.map TickRecord.midPrice) := by
  rw [← hbuffer] at hfile
  have hlen := written_length hfile
  have hcount := written_count_toInt hfile
  rw [parseVidhiBinary_eq (written_magic hfile) (by omega)
    (Int64.le_iff_toInt_le.mpr (by rw [hcount]; exact Int.natCast_nonneg _))
    (by rw [hcount, Int.toNat_natCast]; omega), hcount, Int.toNat_natCast,
    fillPrices_pack records (written_rest hfile)]

end Written

/-- A written dataset comes back. `TickDataset::load` accepts the file and its rows are the
records, `local_gm.py` reads the first `--ticks` of them and `parseVidhiBinary` their mid
prices. -/
theorem dataset_round_trip {os : Os} {engine : JsEngine} {file : File}
    {buffer : ArrayBuffer engine} {records : List TickRecord} (ticks : Int) (hne : records ≠ [])
    (hfile : convertToBin records = some file.bytes) (hbuffer : buffer.bytes = file.bytes)
    (hmap : os.MapsWithin file) :
    (∃ d, TickDataset.load os file = some d ∧ d.nTicks.toInt = records.length ∧
      ∀ k (hk : k < records.length), d.rows k = some records[k]) ∧
    loadDataset file.bytes ticks =
      some ((records.take (min (records.length : Int) ticks).toNat).map TickRecord.row) ∧
    parseVidhiBinary buffer = .ok (records.map TickRecord.midPrice) :=
  ⟨load_written hfile hne hmap, loadDataset_written hfile ticks,
    parseVidhiBinary_written hfile hbuffer⟩

/-! ## Worked files -/

/-- An engine whose buffers reach the limit of the language. -/
def largeEngine : JsEngine := ⟨2 ^ 53 - 1, by decide⟩

/-- A system with 47 bits of address space for a process. -/
def largeOs : Os := ⟨fun _ len => decide (0 < len ∧ len < 2 ^ 47)⟩

def twoRecords : List TickRecord :=
  [⟨0, 1, 2, 3, 4, 5, 6, 7, 8, 9, 10⟩, ⟨1, 11, 12, 13, 14, 15, 16, 17, 18, 19, 20⟩]

def twoTicks : File := ⟨(convertToBin twoRecords).getD [], by decide +kernel⟩

def fetched (file : File) (h : file.bytes.length < 2 ^ 53) : ArrayBuffer largeEngine :=
  ⟨file.bytes, Nat.le_pred_of_lt h⟩

theorem largeOs_mapsWithin {file : File} (h : file.bytes.length < 2 ^ 47) :
    largeOs.MapsWithin file := by
  intro len hpos hle
  refine decide_eq_true ⟨hpos, ?_⟩
  rw [UInt64.lt_iff_toNat_lt]
  exact hle.trans_lt h

theorem dataset_round_trip_two :
    (∃ d, TickDataset.load largeOs twoTicks = some d ∧ d.nTicks.toInt = 2 ∧
      ∀ k (hk : k < 2), d.rows k = some (twoRecords.get ⟨k, hk⟩)) ∧
    loadDataset twoTicks.bytes 1 = some [(0, [1, 2, 3, 4, 5, 6, 7, 8, 9, 10])] ∧
    parseVidhiBinary (fetched twoTicks (by decide +kernel)) = .ok [3, 13] :=
  have hne : twoRecords ≠ [] := by decide
  dataset_round_trip 1 hne (by decide +kernel) rfl (largeOs_mapsWithin (by decide +kernel))

/-! ## Any bytes -/

section Malformed

variable (os : Os) {engine : JsEngine} (file : File) (buffer : ArrayBuffer engine) (ticks : Int)

/-- The readers agree whether there is a dataset and how many ticks it has. -/
def Agree : Prop :=
  (TickDataset.load os file).map (fun d => d.nTicks.toInt) =
      (loadDataset file.bytes ticks).map (fun rows => (rows.length : Int)) ∧
    (parseVidhiBinary buffer).toOption.map (fun prices => (prices.length : Int)) =
      (loadDataset file.bytes ticks).map fun rows => (rows.length : Int)

instance : Decidable (Agree os file buffer ticks) := inferInstanceAs (Decidable (_ ∧ _))

/-- No call of `snapshot` reads a row beyond the end of the file. -/
def RowsInFile : Prop :=
  ∀ fp next tick curBidFp curAskFp,
    (TickDataset.snapshot fp next (TickDataset.load os file) tick curBidFp curAskFp).isSome = true

/-- No reader takes it, or the file holds all the records that it counts. -/
def Consistent : Prop :=
  file.bytes.length < 16 ∨ (file.bytes.take 8).take 5 ≠ magicBytes.take 5 ∨
    (file.bytes.take 8 ≠ magicBytes ∧ (storedCount file.bytes ≤ 0 ∨
      os.mmap file (TickDataset.mapLength (storedCount file.bytes)) = false)) ∨
    (file.bytes.take 8 = magicBytes ∧ 0 < storedCount file.bytes ∧
      16 + (storedCount file.bytes).toInt * 88 ≤ file.bytes.length)

instance : Decidable (Consistent os file) := inferInstanceAs (Decidable (_ ∨ _))

end Malformed

section Cases

variable {os : Os} {engine : JsEngine} {file : File} {buffer : ArrayBuffer engine} {ticks : Int}

theorem rowsInFile_of_rejected (h : TickDataset.load os file = none) : RowsInFile os file := by
  intro fp next tick curBidFp curAskFp
  rw [h]
  rfl

theorem agree_and_rowsInFile_iff_rejected (hbuffer : buffer.bytes = file.bytes)
    (h : file.bytes.take 8 ≠ magicBytes ∨ file.bytes.length < 16) :
    Agree os file buffer ticks ∧ RowsInFile os file ↔ TickDataset.load os file = none := by
  have hbad : buffer.bytes.take 8 ≠ magicBytes ∨ buffer.bytes.length < 16 := hbuffer ▸ h
  obtain ⟨e, he⟩ := parseVidhiBinary_error hbad
  rw [Agree, loadDataset_eq_none h, he]
  constructor
  · exact fun hagree => Option.map_eq_none_iff.mp hagree.1.1
  · exact fun hnone => ⟨⟨congrArg _ hnone, rfl⟩, rowsInFile_of_rejected hnone⟩

theorem load_eq_none_iff : TickDataset.load os file = none ↔
    file.bytes.length < 16 ∨ (file.bytes.take 8).take 5 ≠ magicBytes.take 5 ∨
      storedCount file.bytes ≤ 0 ∨
      os.mmap file (TickDataset.mapLength (storedCount file.bytes)) = false := by
  rw [Option.eq_none_iff_forall_ne_some]
  constructor
  · intro h
    by_contra! hall
    exact h _ (TickDataset.load_eq_some_iff.mpr ⟨hall.1, hall.2.1, Int64.not_le.mp hall.2.2.1,
      Bool.not_eq_false _ ▸ hall.2.2.2, rfl⟩)
  · intro h d hd
    obtain ⟨hlen, hletters, hcount, hmap, -⟩ := TickDataset.load_eq_some_iff.mp hd
    rcases h with h | h | h | h
    · exact absurd h (Nat.not_lt.mpr hlen)
    · exact h hletters
    · exact absurd hcount (Int64.not_lt.mpr h)
    · exact absurd (hmap.symm.trans h) nofun

/-- All the rows that `snapshot` reads lie in a file that holds what it counts. -/
theorem rowsInFile_of_fits (hfits : 16 + (storedCount file.bytes).toInt * 88 ≤ file.bytes.length) :
    RowsInFile os file := by
  intro fp next tick curBidFp curAskFp
  unfold TickDataset.snapshot
  split
  · rfl
  · next d hd =>
      obtain ⟨-, -, -, -, rfl⟩ := TickDataset.load_eq_some_iff.mp hd
      split
      · rfl
      · next hin =>
          rw [not_or, Int64.not_lt, Int64.not_le, Int64.le_iff_toInt_le,
            Int64.lt_iff_toInt_lt] at hin
          dsimp only at hin
          have hrow : 16 + tick.toInt.toNat * 88 + 88 ≤ file.bytes.length := by
            have hzero : (0 : Int64).toInt = 0 := rfl
            omega
          rw [Option.isSome_map, TickDataset.rows, if_pos hrow]
          rfl

/-- Without a positive count `load` rejects what the local game master takes for a dataset of
no ticks. -/
theorem not_agree_of_count_le (hmagic : file.bytes.take 8 = magicBytes)
    (hlen : 16 ≤ file.bytes.length) (hcount : storedCount file.bytes ≤ 0) :
    ¬ Agree os file buffer ticks := by
  rintro ⟨hload, -⟩
  rw [load_eq_none_iff.mpr (Or.inr (Or.inr (Or.inl hcount))), loadDataset_eq hmagic hlen] at hload
  exact nomatch hload

/-- The local game master counts what is there, the others believe the header. -/
theorem agree_iff_fits (hbuffer : buffer.bytes = file.bytes) (hmap : os.MapsWithin file)
    (hmagic : file.bytes.take 8 = magicBytes) (hlen : 16 ≤ file.bytes.length)
    (hcount : 0 < storedCount file.bytes) (hticks : (storedCount file.bytes).toInt ≤ ticks) :
    Agree os file buffer ticks ↔
      16 + (storedCount file.bytes).toInt * 88 ≤ file.bytes.length := by
  have hpos : 0 < (storedCount file.bytes).toInt := Int64.lt_iff_toInt_lt.mp hcount
  have hread : ((loadDataset file.bytes ticks).map fun rows => (rows.length : Int)) =
      some ((min (storedCount file.bytes).toInt.toNat ((file.bytes.length - 16) / 88) : Nat) :
        Int) := by
    rw [loadDataset_eq hmagic hlen, Option.map_some, length_readRecords, List.length_drop,
      min_eq_left hticks]
  constructor
  · rintro ⟨hload, -⟩
    rw [hread] at hload
    obtain ⟨d, hd, hn⟩ := Option.map_eq_some_iff.mp hload
    obtain ⟨-, -, -, -, rfl⟩ := TickDataset.load_eq_some_iff.mp hd
    dsimp only at hn
    omega
  · intro hfits
    have hfits' : 16 + (storedCount file.bytes).toInt.toNat * 88 ≤ file.bytes.length := by omega
    have hwhole : min (storedCount file.bytes).toInt.toNat ((file.bytes.length - 16) / 88) =
        (storedCount file.bytes).toInt.toNat := by omega
    have hload := TickDataset.load_eq_some_iff.mpr ⟨hlen, letters_of_magic hmagic, hcount,
      hmap.mapLength hpos.le hfits', rfl⟩
    have hmagic' : buffer.bytes.take 8 = magicBytes := hbuffer ▸ hmagic
    have hparse := parseVidhiBinary_eq hmagic' (hbuffer ▸ hlen)
      (hbuffer ▸ Int64.le_of_lt hcount) (by rw [hbuffer]; omega)
    rw [Agree, hread, hload, hparse, hwhole, Int.toNat_of_nonneg hpos.le]
    refine ⟨rfl, congrArg some ?_⟩
    dsimp only
    rw [length_fillPrices, hbuffer, Int.toNat_of_nonneg hpos.le]

end Cases

/-- The readers agree on a file, and `snapshot` stays inside it, exactly when none of them
takes it for a dataset or its length covers the count of its header. -/
theorem dataset_agree_iff {os : Os} {engine : JsEngine} {file : File} {buffer : ArrayBuffer engine}
    {ticks : Int} (hbuffer : buffer.bytes = file.bytes)
    (hticks : 16 ≤ file.bytes.length → (storedCount file.bytes).toInt ≤ ticks)
    (hmap : os.MapsWithin file) :
    Agree os file buffer ticks ∧ RowsInFile os file ↔ Consistent os file := by
  rcases Nat.lt_or_ge file.bytes.length 16 with hshort | hlen
  · rw [agree_and_rowsInFile_iff_rejected hbuffer (Or.inr hshort), load_eq_none_iff]
    exact iff_of_true (Or.inl hshort) (Or.inl hshort)
  by_cases hmagic : file.bytes.take 8 = magicBytes
  · rcases Int64.lt_or_le 0 (storedCount file.bytes) with hcount | hcount
    · rw [agree_iff_fits hbuffer hmap hmagic hlen hcount (hticks hlen)]
      constructor
      · exact fun h => Or.inr (Or.inr (Or.inr ⟨hmagic, hcount, h.1⟩))
      · rintro (h | h | h | h)
        · exact absurd h (Nat.not_lt.mpr hlen)
        · exact absurd (letters_of_magic hmagic) h
        · exact absurd hmagic h.1
        · exact ⟨h.2.2, rowsInFile_of_fits h.2.2⟩
    · refine iff_of_false (fun h => not_agree_of_count_le hmagic hlen hcount h.1) ?_
      rintro (h | h | h | h)
      · exact absurd h (Nat.not_lt.mpr hlen)
      · exact absurd (letters_of_magic hmagic) h
      · exact absurd hmagic h.1
      · exact absurd h.2.1 (Int64.not_lt.mpr hcount)
  · rw [agree_and_rowsInFile_iff_rejected hbuffer (Or.inl hmagic), load_eq_none_iff]
    unfold Consistent
    tauto

theorem readers_agree_two :
    Agree largeOs twoTicks (fetched twoTicks (by decide +kernel)) 5 ∧ RowsInFile largeOs twoTicks :=
  (dataset_agree_iff rfl (fun _ => by decide +kernel) (largeOs_mapsWithin (by decide +kernel))).mpr
    (by decide +kernel)

/-- The header says two, the file ends after the first record. -/
def cutTicks : File := ⟨twoTicks.bytes.take 104, by decide +kernel⟩

theorem cut_file_disagrees :
    ¬ (Agree largeOs cutTicks (fetched cutTicks (by decide +kernel)) 2 ∧
      RowsInFile largeOs cutTicks) :=
  fun h => absurd h.1 (by decide +kernel)

end VidhiArena.Dataset
