import Hipft.Client.Frames
import Hipft.Server.FileTransfer

/-! # Error-free transfer

Over a connection that changes nothing, the client counts every block that the
server ships and logs nothing. The decoder leaves the last byte of the trailer
unwritten, which is beyond the fields that the client compares.
-/

namespace Hipft

open CMemory ByteLayout Stuffing

/-! ## One frame -/

theorem MsgHeader.memory_take (h : MsgHeader) :
    h.memory.take 8 = leBytes 2 h.mbz.toNat ++ (leBytes 1 h.chanType.toNat ++
      (leBytes 1 h.dataType.toNat ++ leBytes 4 h.msgID.toNat)) := by
  simp [MsgHeader.memory, List.take_append, List.take_of_length_le]

/-- The first eight bytes of a header in memory are those of its first eight bytes
on the wire. -/
theorem MsgHeader.memory_take_ofBytes {b b' : Bytes} (hsame : slice b 0 8 = slice b' 0 8) :
    (MsgHeader.ofBytes b).memory.take 8 = (MsgHeader.ofBytes b').memory.take 8 := by
  have hfield {off w : Nat} (hfits : off + w ≤ 8) : slice b off w = slice b' off w := by
    have hb : slice (slice b 0 8) off w = slice b (0 + off) w := slice_slice hfits
    have hb' : slice (slice b' 0 8) off w = slice b' (0 + off) w := slice_slice hfits
    rw [hsame, hb', Nat.zero_add] at hb
    exact hb.symm
  simp only [MsgHeader.memory_take, MsgHeader.ofBytes, MsgHeader.toHost, MsgHeader.ofMemory,
    hfield (show 0 + 2 ≤ 8 by omega), hfield (show 2 + 1 ≤ 8 by omega),
    hfield (show 3 + 1 ≤ 8 by omega), hfield (show 4 + 4 ≤ 8 by omega)]

theorem validateMessage_silent {m : Msg} {len : Nat} (chunkcount : Nat)
    (hrange : InRange m.head len) (hsame : m.head.memory.take 8 = m.trail.memory.take 8) :
    validateMessage m chunkcount len = .ok (true, []) := by
  rw [validateMessage, validateRanges_eq_none.mpr hrange]
  simp only [if_neg (not_not.mpr hsame)]
  rfl

theorem inRange_of_link {h : MsgHeader} {len : Nat} (hlink : LengthsLink h)
    (hchan : h.chanType ≤ 1) (hdata : h.dataType ≤ 4) (hlen : h.totalLength.toNat = len)
    (hsmall : len ≤ 65536) : InRange h len := by
  have htotal := hlink.total
  have hbody := hlink.body
  have hlt := h.bodyLength.toNat_lt
  exact ⟨hchan, hdata, ⟨by omega, by omega⟩, by omega⟩

/-- The frame of a message with equal header and trailer counts, and nothing is
logged for it. -/
theorem handleChunk_bytes (heap : Heap) (chunkcount : Nat) {m : Msg} (hstored : m.Stored)
    (hlink : LengthsLink m.head) (htrail : m.trail = m.head) (hcrc : m.head.crc = 0)
    (hchan : m.head.chanType ≤ 1) (hdata : m.head.dataType ≤ 4)
    (hshort : (frame (cobsBlocks m.bytes)).length < blockInitialSize) :
    handleChunk heap chunkcount (chunkBuffer (frame (cobsBlocks m.bytes)))
      (frame (cobsBlocks m.bytes)).length = .ok (true, []) := by
  have htext : text (cobsBlocks m.bytes) = m.bytes := text_cobsBlocks_bytes (by rw [htrail, hcrc])
  have hlength := (hstored.sized hlink.parity).bytes_length
  have hframe := text_length_le_frame (cobsBlocks m.bytes)
  have hsize : blockInitialSize = 8192 := rfl
  rw [htext] at hframe
  have hpieces := pieces_bytes hstored hlink.parity
  have htotal := hlink.total
  have hparity := hlink.parity
  rw [handleChunk_frame heap chunkcount _ hshort (by omega), htext, hpieces.head,
    MsgHeader.ofBytes_bytes, if_pos (fits_bytes hstored hlink (by omega))]
  generalize hd : decoded heap chunkcount (cobsBlocks m.bytes) = d
  have hslice {off w : Nat} (hfits : off + w < m.bytes.length) :
      slice d off w = slice m.bytes off w := by
    rw [← hd, slice_decoded heap chunkcount _ (by rwa [htext]), htext]
  have hhead : (parsedMsg d).head = m.head := by
    rw [parsedMsg, hslice (by omega), hpieces.head, MsgHeader.ofBytes_bytes]
  apply validateMessage_silent
  · rw [hhead]
    exact inRange_of_link hlink hchan hdata (by omega) (by omega)
  · have hplace : (parsedMsg d).trail = MsgHeader.ofBytes
        (slice d (56 + m.head.contentLength.toNat + m.head.parityLength.toNat) 56) := by
      rw [← hhead]
      rfl
    have hfirst : slice (slice d (56 + m.head.contentLength.toNat + m.head.parityLength.toNat) 56)
        0 8 = slice m.trail.bytes 0 8 := by
      rw [slice_slice (by omega), hslice (by omega), ← hpieces.trail, slice_slice (by omega)]
    rw [hhead, hplace, MsgHeader.memory_take_ofBytes hfirst, MsgHeader.ofBytes_bytes, htrail]

/-! ## The whole stream -/

/-- A stream of frames that each count in silence. -/
theorem foldlM_readByte_frames (heap : Heap) {chunks : List Bytes}
    (hchunks : ∀ chunk ∈ chunks, specialChar ∉ chunk ∧ chunk.length < blockInitialSize ∧
      ∀ chunkcount, handleChunk heap chunkcount (chunkBuffer chunk) chunk.length = .ok (true, []))
    (chunkcount blockcount : Nat) (log : List LogEntry) :
    (chunks.map fun chunk => chunk ++ [specialChar]).flatten.foldlM (readByte heap)
        (Reader.fresh chunkcount blockcount log) =
      .ok (Reader.fresh (chunkcount + chunks.length) (blockcount + chunks.length) log) := by
  induction chunks generalizing chunkcount blockcount with
  | nil => rfl
  | cons chunk rest ih =>
      rw [List.forall_mem_cons] at hchunks
      obtain ⟨⟨hzero, hshort, hsilent⟩, hrest⟩ := hchunks
      rw [List.map_cons, List.flatten_cons, List.append_assoc, List.singleton_append,
        foldlM_readByte_frame heap chunkcount blockcount log hzero hshort, hsilent, ok_bind]
      simp only [if_true, List.append_nil]
      rw [ih hrest, List.length_cons, Nat.add_right_comm chunkcount, Nat.add_right_comm blockcount,
        Nat.add_assoc chunkcount, Nat.add_assoc blockcount]

/-- The frame that is shipped for a block counts in silence. -/
theorem shipBlock_silent (msgID : UInt32) {block : Bytes} (hsize : block.length ≤ hipftBlockSize) :
    ∃ chunk, shipBlock msgID block = .ok (chunk ++ [specialChar]) ∧ specialChar ∉ chunk ∧
      chunk.length < blockInitialSize ∧ ∀ heap chunkcount,
        handleChunk heap chunkcount (chunkBuffer chunk) chunk.length = .ok (true, []) := by
  have hblock : hipftBlockSize = 4096 := rfl
  have hinitial : blockInitialSize = 8192 := rfl
  obtain ⟨m, hship, hstored, hconsistent, hhead, htrail, hlength⟩ :=
    shipBlock_eq msgID (show block.length < 65536 by omega)
  have hencode : cobsEncode m.bytes = frame (cobsBlocks m.bytes) ++ [specialChar] :=
    cobsEncode_eq m.bytes
  have hwire := cobsEncode_bytes_length (show m.trail.crc = 0 by rw [htrail, hconsistent.crc])
  have hshort : (frame (cobsBlocks m.bytes)).length < blockInitialSize := by
    rw [hencode, List.length_append, List.length_singleton, hlength, hparityBytes] at hwire
    omega
  refine ⟨frame (cobsBlocks m.bytes), hencode ▸ hship, specialChar_notMem_frame _, hshort, ?_⟩
  intro heap chunkcount
  apply handleChunk_bytes heap chunkcount hstored hconsistent.lengths htrail hconsistent.crc
  · rw [hhead]
    exact UInt8.zero_le
  · rw [hhead]
    exact UInt8.zero_le
  · exact hshort

/-- What is shipped for a list of blocks is a frame for each, and all count in
silence. -/
theorem shipBlocks_silent {blocks : List (UInt32 × Bytes)}
    (hsize : ∀ block ∈ blocks, block.2.length ≤ hipftBlockSize) :
    ∃ chunks : List Bytes,
      shipBlocks blocks = .ok (chunks.map fun chunk => chunk ++ [specialChar]).flatten ∧
      chunks.length = blocks.length ∧
      ∀ chunk ∈ chunks, specialChar ∉ chunk ∧ chunk.length < blockInitialSize ∧
        ∀ heap chunkcount,
          handleChunk heap chunkcount (chunkBuffer chunk) chunk.length = .ok (true, []) := by
  suffices hsent : ∃ chunks : List Bytes,
      (blocks.mapM fun block => shipBlock block.1 block.2) =
        .ok (chunks.map fun chunk => chunk ++ [specialChar]) ∧ chunks.length = blocks.length ∧
      ∀ chunk ∈ chunks, specialChar ∉ chunk ∧ chunk.length < blockInitialSize ∧
        ∀ heap chunkcount,
          handleChunk heap chunkcount (chunkBuffer chunk) chunk.length = .ok (true, []) by
    obtain ⟨chunks, hships, hall⟩ := hsent
    refine ⟨chunks, ?_, hall⟩
    rw [shipBlocks, hships]
    rfl
  induction blocks with
  | nil => exact ⟨[], rfl, rfl, List.forall_mem_nil _⟩
  | cons block blocks ih =>
      rw [List.forall_mem_cons] at hsize
      obtain ⟨chunk, hship, hsilent⟩ := shipBlock_silent block.1 hsize.1
      obtain ⟨chunks, hships, hlength, hall⟩ := ih hsize.2
      refine ⟨chunk :: chunks, ?_, congrArg Nat.succ hlength, List.forall_mem_cons.mpr
        ⟨hsilent, hall⟩⟩
      rw [List.mapM_cons, hship, ok_bind, hships]
      rfl

/-- Whatever is in the blocks, all of them arrive and nothing is logged. -/
theorem readBlocks_shipBlocks (blocks : List (UInt32 × Bytes))
    (hsize : ∀ block ∈ blocks, 1 ≤ block.2.length ∧ block.2.length ≤ hipftBlockSize) :
    ∃ stream, shipBlocks blocks = .ok stream ∧
      ∀ heap, readBlocks heap stream = .ok (blocks.length, []) := by
  obtain ⟨chunks, hships, hlength, hall⟩ :=
    shipBlocks_silent fun block hblock => (hsize block hblock).2
  refine ⟨_, hships, ?_⟩
  intro heap
  have hrun := foldlM_readByte_frames heap (fun chunk hchunk =>
    ⟨(hall chunk hchunk).1, (hall chunk hchunk).2.1, (hall chunk hchunk).2.2 heap⟩) 0 0 []
  rw [readBlocks, hrun, ok_bind, ← hlength]
  simp only [Reader.fresh, Nat.zero_add]
  rfl

theorem readBlocks_shipBlocks_two :
    ∃ stream, shipBlocks [(7, [0]), (9, [1, 2, 3])] = .ok stream ∧
      ∀ heap, readBlocks heap stream = .ok (2, []) :=
  readBlocks_shipBlocks _ (by decide)

end Hipft
