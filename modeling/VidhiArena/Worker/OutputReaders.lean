import VidhiArena.Worker.TelemetryStream

/-!
# Two readers of one output

`main.go` starts the Game Master itself and reads the same stream with a loop of its own.
It discards 39 bytes behind the tag `0x02`, where a fill has 40, and takes the last padding
byte of every fill for a tag. `mainWidth` is what it reads behind each tag; both readers find
the object if and only if the packets happen to be blocks of that width too.
-/

namespace VidhiArena.Worker

open Foundation.ByteLayout Foundation.TaggedStream

/-- The goroutine of `main.go`: `jsonResult`. `io.CopyN` may come up short, and the error is
dropped. -/
def mainReader : List UInt8 → Option (List UInt8)
  | [] => none
  | packetType :: pr =>
      if packetType = brace then some (packetType :: pr)
      else if packetType = 0x01 then
        if 80 ≤ pr.length then mainReader (pr.drop 80) else none
      else if packetType = 0x02 then mainReader (pr.drop 39)
      else mainReader pr
termination_by pr => pr.length
decreasing_by all_goals simp only [List.length_drop, List.length_cons]; omega

/-- How many bytes `main.go` reads behind a tag. -/
def mainWidth (tag : UInt8) : Nat :=
  if tag = 0x01 then 80 else if tag = 0x02 then 39 else 0

/-- The stream in the format of `main.go`: `0x01` and 80 bytes, `0x02` and 39 bytes, or one
byte that is neither of them nor a brace. -/
abbrev MainBlocks : List UInt8 → Prop := Blocks brace mainWidth

theorem mainReader_eq_object : ∀ bs : List UInt8, mainReader bs = object brace mainWidth bs
  | [] => by rw [mainReader, object]
  | tag :: bs => by
      rw [mainReader, object]
      by_cases hbrace : tag = brace
      · rw [if_pos hbrace, if_pos hbrace]
      rw [if_neg hbrace, if_neg hbrace, mainWidth]
      by_cases htick : tag = 0x01
      · rw [if_pos htick, if_pos htick]
        by_cases hlen : 80 ≤ bs.length
        · rw [if_pos hlen, mainReader_eq_object (bs.drop 80)]
        · rw [if_neg hlen, List.drop_eq_nil_of_le (Nat.le_of_not_le hlen), object]
      rw [if_neg htick, if_neg htick]
      by_cases hfill : tag = 0x02
      · rw [if_pos hfill, if_pos hfill, mainReader_eq_object (bs.drop 39)]
      · rw [if_neg hfill, if_neg hfill, mainReader_eq_object bs, List.drop_zero]
termination_by bs => bs.length
decreasing_by all_goals simp only [List.length_drop, List.length_cons]; omega

/-! ## Packets as blocks -/

theorem mainBlocks_stray {tag : UInt8} (h₁ : tag ≠ 0x01) (h₂ : tag ≠ 0x02) (h₃ : tag ≠ brace)
    {bs : List UInt8} (h : MainBlocks bs) : MainBlocks (tag :: bs) := by
  change MainBlocks (tag :: ([] ++ bs))
  refine Blocks.cons h₃ ?_ h
  rw [mainWidth, if_neg h₁, if_neg h₂]
  rfl

theorem mainBlocks_tick {buf : List UInt8} (hlen : buf.length = 80) :
    MainBlocks (0x01 :: buf) := by
  rw [← List.append_nil buf]
  exact Blocks.cons (by decide) hlen .nil

theorem fillRow_split (memory : Nat → UInt8) (row : FillRow) : ∃ payload,
    payload.length = 39 ∧ fillRow memory row = payload ++ [memory 39] := by
  refine ⟨int64 row.tickId ++ word64 row.price ++ int64 row.volume ++
    int32 row.makerParticipant ++ int32 row.takerParticipant ++ bool row.takerIsBuy ++
    [memory 33, memory 34, memory 35, memory 36, memory 37, memory 38], by simp, ?_⟩
  rw [fillRow_eq, List.append_assoc]
  rfl

namespace Packet

/-- The byte of a packet that `main.go` takes for a tag means nothing to it. -/
def Inert : Packet → Prop
  | fill memory _ => memory 39 ≠ 0x01 ∧ memory 39 ≠ 0x02 ∧ memory 39 ≠ brace
  | _ => True

theorem Inert.mainBlocks {packet : Packet} (h : packet.Inert) : MainBlocks packet.encode := by
  cases packet with
  | tick memory row => exact mainBlocks_tick (length_batchRow memory row)
  | fill memory row =>
      obtain ⟨h₁, h₂, h₃⟩ := h
      obtain ⟨payload, hlen, hsplit⟩ := fillRow_split memory row
      rw [encode, hsplit]
      exact Blocks.cons (by decide) hlen (mainBlocks_stray h₁ h₂ h₃ .nil)
  | localTick row =>
      have hzero : ∀ {bs : List UInt8}, MainBlocks bs → MainBlocks (0 :: bs) :=
        fun h => mainBlocks_stray (by decide) (by decide) (by decide) h
      rw [encode, packedRow_eq, ← List.cons_append]
      exact (mainBlocks_tick (by simp)).append (hzero (hzero (hzero (hzero .nil))))

end Packet

theorem mainBlocks_of_inert {packets : List Packet} (h : ∀ packet ∈ packets, packet.Inert) :
    MainBlocks (packets.flatMap Packet.encode) := by
  induction packets with
  | nil => exact .nil
  | cons packet packets ih =>
      obtain ⟨hpacket, hpackets⟩ := List.forall_mem_cons.mp h
      exact hpacket.mainBlocks.append (ih hpackets)

/-- Behind inert packets a brace in the last byte of a fill is fatal. -/
theorem not_mainBlocks_of_brace {packets : List Packet} (h : ∀ packet ∈ packets, packet.Inert)
    {memory : Nat → UInt8} (hbrace : memory 39 = brace) (row : FillRow) (rest : List UInt8) :
    ¬ MainBlocks (packets.flatMap Packet.encode ++ ((Packet.fill memory row).encode ++ rest)) := by
  obtain ⟨payload, hlen, hsplit⟩ := fillRow_split memory row
  have hblock : MainBlocks (0x02 :: payload) := by
    rw [← List.append_nil payload]
    exact Blocks.cons (by decide) hlen .nil
  have hcut : (Packet.fill memory row).encode ++ rest = (0x02 :: payload) ++ (brace :: rest) := by
    rw [Packet.encode, hsplit, hbrace]
    simp
  intro hblocks
  have hfill := (mainBlocks_of_inert h).append_iff.mp hblocks
  rw [hcut] at hfill
  exact not_blocks_stop rest (hblock.append_iff.mp hfill)

/-! ## Agreement -/

/-- The two readers find the same object if and only if the bytes of the packets are a
sequence of the blocks that `main.go` reads. -/
theorem readers_agree_iff (packets : List Packet) (json : List UInt8) :
    mainReader (output packets json) = (stdoutReader (output packets json)).2 ↔
      MainBlocks (packets.flatMap Packet.encode) := by
  rw [stdoutReader_output, mainReader_eq_object]
  exact object_eq_iff json

/-- A padding byte is taken for the object: one fill, with a brace in its last padding
byte, before the object `{}`. -/
theorem main_takes_padding_for_json :
    let out := output [.fill (fun _ => brace) ⟨999, 0, 1, 3, 0, true⟩] [0x7D]
    mainReader out = some [0x7B, 0x7B, 0x7D] ∧ (stdoutReader out).2 = some [0x7B, 0x7D] := by
  intro out
  obtain ⟨payload, hlen, hsplit⟩ := fillRow_split (fun _ => brace) ⟨999, 0, 1, 3, 0, true⟩
  have hout : out = 0x02 :: (payload ++ brace :: [0x7B, 0x7D]) := by
    simp only [out, output, List.flatMap_cons, List.flatMap_nil, Packet.encode, hsplit]
    simp [brace]
  constructor
  · rw [mainReader_eq_object, hout, object_block (by decide) hlen, object_stop]
    rfl
  · rw [stdoutReader_output]
    rfl

end VidhiArena.Worker
