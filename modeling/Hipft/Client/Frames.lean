import Hipft.Client.ReceiveBuffer
import Hipft.Cobs.PartialDecode
import Hipft.Foundation.Delimited
import Hipft.Message.Grammar

/-! # Reading is a matter of single frames

Whether a chunk is a valid block depends on its bytes alone, not on its number,
on what was read before or on what fresh memory holds. The last byte that the
parser sees may be one that the decoder did not write, but a message that parses
has its header well before it.
-/

namespace Hipft

open CMemory ByteLayout Stuffing

/-! ## Handling a chunk -/

/-- The receive buffer after the bytes of a short chunk. -/
def chunkBuffer (chunk : Bytes) : Bytes :=
  chunk ++ List.replicate (blockInitialSize - chunk.length) 0

theorem chunkBuffer_take (chunk : Bytes) : (chunkBuffer chunk).take chunk.length = chunk :=
  List.take_left

theorem chunkBuffer_eq {chunk : Bytes} (hshort : chunk.length < blockInitialSize) :
    ∃ rest, chunkBuffer chunk = chunk ++ specialChar :: rest := by
  have hroom : blockInitialSize - chunk.length = blockInitialSize - chunk.length - 1 + 1 := by
    omega
  refine ⟨List.replicate (blockInitialSize - chunk.length - 1) 0, ?_⟩
  rw [chunkBuffer, hroom, List.replicate_succ]
  rfl

theorem chunkBuffer_length {chunk : Bytes} (hshort : chunk.length < blockInitialSize) :
    (chunkBuffer chunk).length = blockInitialSize := by
  rw [chunkBuffer, List.length_append, List.length_replicate]
  omega

/-- The bytes of the decode buffer: what the decoder wrote, then fresh memory. -/
def decoded (heap : Heap) (chunkcount : Nat) (blocks : List Block) : Bytes :=
  openText blocks ++
    ((List.range (frame blocks).length).map (heap.decode chunkcount)).drop (openText blocks).length

theorem openText_length (blocks : List Block) :
    (openText blocks).length ≤ (text blocks).length ∧
      (text blocks).length ≤ (openText blocks).length + 1 := by
  rcases openText_eq blocks with heq | heq
  · rw [heq]
    omega
  · rw [heq, List.length_append, List.length_singleton]
    omega

theorem text_length_le_frame (blocks : List Block) :
    (text blocks).length ≤ (frame blocks).length := text_length_le blockCode blocks

theorem decoded_length (heap : Heap) (chunkcount : Nat) (blocks : List Block) :
    (decoded heap chunkcount blocks).length = (frame blocks).length := by
  have hopen := openText_length blocks
  have hframe := text_length_le_frame blocks
  rw [decoded, List.length_append, List.length_drop, List.length_map, List.length_range]
  omega

/-- Where the decoder has written, fresh memory does not show. -/
theorem slice_decoded (heap : Heap) (chunkcount : Nat) (blocks : List Block) {off w : Nat}
    (hfits : off + w < (text blocks).length) :
    slice (decoded heap chunkcount blocks) off w = slice (text blocks) off w := by
  have hopen := openText_length blocks
  rw [decoded, slice_append_left (by omega)]
  rcases openText_eq blocks with heq | heq
  · rw [heq]
  · rw [heq, slice_append_left (by rw [heq] at hfits; simp at hfits; omega)]

/-- Decoding a string of blocks that the delimiter stands behind. -/
theorem decodeChunk_frame (heap : Heap) (chunkcount : Nat) (blocks : List Block) (rest : Bytes) :
    decodeChunk heap chunkcount (frame blocks ++ specialChar :: rest) (frame blocks).length =
      .ok (decoded heap chunkcount blocks, (text blocks).length) := by
  have hopen := openText_length blocks
  have hframe := text_length_le_frame blocks
  rw [decodeChunk, cobsDecode_openFrame, ok_bind, writeFront_of_le (by simp; omega),
    ok_bind, cobsDecodedLength_frame, ok_bind]
  rfl

theorem decodeChunk_eq (heap : Heap) (chunkcount : Nat) (blocks : List Block)
    (hshort : (frame blocks).length < blockInitialSize) :
    decodeChunk heap chunkcount (chunkBuffer (frame blocks)) (frame blocks).length =
      .ok (decoded heap chunkcount blocks, (text blocks).length) := by
  obtain ⟨rest, hbuffer⟩ := chunkBuffer_eq hshort
  rw [hbuffer, decodeChunk_frame]

/-- The range checks of the client, and the sizes that the parser asks for. -/
structure InRange (h : MsgHeader) (len : Nat) : Prop where
  chanType : h.chanType ≤ 1
  dataType : h.dataType ≤ 4
  totalLength : h.totalLength.toNat ≤ 65536 ∧ h.totalLength.toNat ≤ len
  bodyLength : h.bodyLength.toNat ≤ h.totalLength.toNat

theorem validateRanges_eq_none {h : MsgHeader} {len : Nat} :
    validateRanges h len = none ↔ InRange h len := by
  have hmax : h.totalLength.toUInt64 > maxMessageSize ↔ 65536 < h.totalLength.toNat := by
    rw [gt_iff_lt, UInt64.lt_iff_toNat_lt, UInt32.toNat_toUInt64]
    rfl
  simp only [validateRanges, check_eq_none, hmax, gt_iff_lt, UInt32.lt_iff_toNat_lt, not_lt,
    and_true, UInt8.not_lt]
  constructor
  · rintro ⟨hchan, hdata, hmax, hlen, hbody⟩
    exact ⟨hchan, hdata, ⟨hmax, hlen⟩, hbody⟩
  · rintro ⟨hchan, hdata, ⟨hmax, hlen⟩, hbody⟩
    exact ⟨hchan, hdata, hmax, hlen, hbody⟩

/-- A chunk that the client counts: a string of blocks whose text starts with a
header that asks for what is there and passes the range checks. -/
def ValidBlock (chunk : Bytes) : Prop :=
  ∃ blocks, chunk = frame blocks ∧
    Fits (MsgHeader.ofBytes (slice (text blocks) 0 56)) (text blocks).length ∧
    InRange (MsgHeader.ofBytes (slice (text blocks) 0 56)) (text blocks).length

theorem hdcmp_eq {b1 b2 : Bytes} {l : Nat} (h1 : b1.length = l) (h2 : b2.length = l) :
    hdcmp b1 b2 l = .ok ((List.range l).foldl (fun state i =>
      (state.1 + hdTable.getD (b1.getD i 0 ^^^ b2.getD i 0).toNat 0,
        state.2 ++ [b1.getD i 0 ^^^ b2.getD i 0])) (0, [])) := by
  have hpass : ∀ i ∈ List.range l, ∀ state : Nat × Bytes, hdcmpPass b1 b2 state i =
      .ok (state.1 + hdTable.getD (b1.getD i 0 ^^^ b2.getD i 0).toNat 0,
        state.2 ++ [b1.getD i 0 ^^^ b2.getD i 0]) := by
    intro i hi state
    have hi := List.mem_range.mp hi
    have hlt1 : i < b1.length := by omega
    have hlt2 : i < b2.length := by omega
    have hsize : hdTable.length = 256 := by decide +kernel
    have htable : (b1[i] ^^^ b2[i]).toNat < hdTable.length := hsize ▸ UInt8.toNat_lt _
    rw [hdcmpPass, readAt_of_lt hlt1, ok_bind, readAt_of_lt hlt2, ok_bind, readAt_of_lt htable,
      ok_bind, pure_eq_ok, List.getD_eq_getElem _ _ hlt1, List.getD_eq_getElem _ _ hlt2,
      List.getD_eq_getElem _ _ htable]
  exact foldlM_eq_ok hpass (0, [])

/-- The result of `validate_message` is that of its range checks. -/
theorem validateMessage_eq (m : Msg) (chunkcount len : Nat) :
    ∃ valid entries, validateMessage m chunkcount len = .ok (valid, entries) ∧
      (valid = true ↔ InRange m.head len) := by
  unfold validateMessage
  rw [← validateRanges_eq_none]
  cases validateRanges m.head len with
  | some specific => exact ⟨_, _, rfl, by simp⟩
  | none =>
      by_cases hsame : m.head.memory.take 8 ≠ m.trail.memory.take 8
      · have hdistance := hdcmp_eq m.head.memory_length (MsgHeader.memory_length m.trail)
        simp only [if_pos hsame, hdistance, ok_bind]
        exact ⟨_, _, rfl, by simp⟩
      · simp only [if_neg hsame]
        exact ⟨_, _, rfl, by simp⟩

theorem handleBustedMsg1_total (chunkcount : Nat) {buffer : Bytes} {len : UInt64}
    (hlen : len.toNat ≤ buffer.length) :
    ∃ entry, handleBustedMsg1 chunkcount buffer len = .ok entry := by
  have hfits : 0 + len.toNat ≤ buffer.length := by omega
  simp only [handleBustedMsg1, msgHtFromBytes_eq hfits, ok_bind]
  by_cases hheader : 56 ≤ len.toNat
  · simp only [if_pos hheader]
    split
    · exact ⟨_, rfl⟩
    split
    · exact ⟨_, rfl⟩
    split
    · exact ⟨_, rfl⟩
    · exact ⟨_, rfl⟩
  · simp only [if_neg hheader, if_pos (Nat.lt_of_not_le hheader),
      readRange_of_le hfits]
    exact ⟨_, rfl⟩

theorem handleCobsErrors_total (chunkcount : Nat) {buffer : Bytes} {len : Nat}
    (hlen : len ≤ buffer.length) :
    ∃ entry, handleCobsErrors chunkcount buffer len = .ok entry := by
  obtain ⟨⟨decoded, mh⟩, hr⟩ := cobsPartialDecode_total buffer len 56 hlen
  have hheader : ∃ entry, hceTryHeader chunkcount buffer len = .ok entry := by
    simp only [hceTryHeader, hr, ok_bind]
    split
    · exact ⟨_, rfl⟩
    split
    · exact ⟨_, rfl⟩
    · exact ⟨_, rfl⟩
  obtain ⟨entry, hentry⟩ := hheader
  rw [handleCobsErrors, hentry, ok_bind]
  cases entry with
  | none => exact ⟨_, rfl⟩
  | some entry => exact ⟨_, rfl⟩

/-- What fresh memory holds does not decide whether a header fits. -/
theorem fits_decoded (heap : Heap) (chunkcount : Nat) (blocks : List Block) :
    Fits (MsgHeader.ofBytes (slice (decoded heap chunkcount blocks) 0 56)) (text blocks).length ↔
      Fits (MsgHeader.ofBytes (slice (text blocks) 0 56)) (text blocks).length := by
  by_cases hlong : 56 < (text blocks).length
  · rw [slice_decoded heap chunkcount blocks (by omega)]
  · constructor
    · intro hfits
      have htotal := hfits.total
      omega
    · intro hfits
      have htotal := hfits.total
      omega

/-- A string of blocks is parsed; a message goes to `validate_message`, anything
else to `handle_busted_msg1`. -/
theorem handleChunk_frame (heap : Heap) (chunkcount : Nat) (blocks : List Block)
    (hshort : (frame blocks).length < blockInitialSize) (hpos : (frame blocks).length ≠ 0) :
    handleChunk heap chunkcount (chunkBuffer (frame blocks)) (frame blocks).length =
      if Fits (MsgHeader.ofBytes (slice (text blocks) 0 56)) (text blocks).length then
        validateMessage (parsedMsg (decoded heap chunkcount blocks)) chunkcount (text blocks).length
      else (do
        let entry ← handleBustedMsg1 chunkcount (chunkBuffer (frame blocks))
          (UInt64.ofNat (text blocks).length)
        pure (false, [entry])) := by
  have hframe := text_length_le_frame blocks
  have hbuffer := chunkBuffer_length hshort
  have hsize : blockInitialSize = 8192 := rfl
  have hnat : (UInt64.ofNat (text blocks).length).toNat = (text blocks).length := by
    rw [UInt64.toNat_ofNat', Nat.mod_eq_of_lt (by omega)]
  obtain ⟨verified, hverify, hiff⟩ :=
    altCobsVerify_eq (chunkBuffer (frame blocks)) (frame blocks).length (by omega)
  rw [chunkBuffer_take] at hiff
  have htrue : verified = true := hiff.mpr ⟨blocks, rfl⟩
  have hparse : msgFromBytes (decoded heap chunkcount blocks)
      (UInt64.ofNat (text blocks).length) = _ :=
    msgFromBytes_eq (by rw [hnat, decoded_length]; exact hframe)
  rw [hnat] at hparse
  simp only [handleChunk, if_neg hpos, hverify, htrue, ok_bind, decodeChunk_eq _ _ _ hshort,
    hparse, Bool.not_true, Bool.false_eq_true, if_false]
  by_cases hfits : Fits (MsgHeader.ofBytes (slice (text blocks) 0 56)) (text blocks).length
  · rw [if_pos hfits, if_pos ((fits_decoded heap chunkcount blocks).mpr hfits)]
  · rw [if_neg hfits, if_neg (mt (fits_decoded heap chunkcount blocks).mp hfits)]

theorem validBlock_frame {blocks : List Block} :
    ValidBlock (frame blocks) ↔
      Fits (MsgHeader.ofBytes (slice (text blocks) 0 56)) (text blocks).length ∧
        InRange (MsgHeader.ofBytes (slice (text blocks) 0 56)) (text blocks).length := by
  constructor
  · rintro ⟨blocks', hsame, hgood⟩
    rwa [frame_injective hsame]
  · exact fun hgood => ⟨blocks, rfl, hgood⟩

/-- What is not a string of blocks goes to `handle_cobs_errors`. -/
theorem handleChunk_of_not_frame (heap : Heap) (chunkcount : Nat) {chunk : Bytes}
    (hshort : chunk.length < blockInitialSize) (hnot : ∀ blocks, chunk ≠ frame blocks) :
    ∃ entries, handleChunk heap chunkcount (chunkBuffer chunk) chunk.length =
      .ok (false, entries) := by
  have hbuffer := chunkBuffer_length hshort
  obtain ⟨verified, hverify, hiff⟩ := altCobsVerify_eq (chunkBuffer chunk) chunk.length (by omega)
  rw [chunkBuffer_take] at hiff
  have hfalse : verified = false := by
    rw [← Bool.not_eq_true, hiff]
    rintro ⟨blocks, hchunk⟩
    exact hnot blocks hchunk
  have hpos : chunk.length ≠ 0 := fun hempty => hnot [] (List.length_eq_zero_iff.mp hempty)
  obtain ⟨entry, hentry⟩ : ∃ entry,
      handleCobsErrors chunkcount (chunkBuffer chunk) chunk.length = .ok entry :=
    handleCobsErrors_total chunkcount (by omega)
  simp only [handleChunk, if_neg hpos, hverify, hfalse, ok_bind, Bool.not_false, if_true, hentry]
  exact ⟨[entry], rfl⟩

/-- A short chunk is handled without a fault, and whether it counts is a matter
of its bytes. -/
theorem handleChunk_eq (heap : Heap) (chunkcount : Nat) {chunk : Bytes}
    (hshort : chunk.length < blockInitialSize) :
    ∃ valid entries, handleChunk heap chunkcount (chunkBuffer chunk) chunk.length =
        .ok (valid, entries) ∧ (valid = true ↔ ValidBlock chunk) := by
  by_cases hblocks : ∃ blocks, chunk = frame blocks
  case neg =>
    obtain ⟨entries, hrun⟩ := handleChunk_of_not_frame heap chunkcount hshort
      (not_exists.mp hblocks)
    refine ⟨false, entries, hrun, iff_of_false Bool.false_ne_true ?_⟩
    rintro ⟨blocks, hchunk, -⟩
    exact hblocks ⟨blocks, hchunk⟩
  obtain ⟨blocks, rfl⟩ := hblocks
  have hframe := text_length_le_frame blocks
  rw [validBlock_frame]
  by_cases hempty : (frame blocks).length = 0
  · simp only [handleChunk, if_pos hempty]
    refine ⟨false, _, rfl, iff_of_false Bool.false_ne_true ?_⟩
    rintro ⟨hfits, -⟩
    have hheader := hfits.header
    omega
  rw [handleChunk_frame heap chunkcount blocks hshort hempty]
  by_cases hfits : Fits (MsgHeader.ofBytes (slice (text blocks) 0 56)) (text blocks).length
  · have htotal := hfits.total
    have hhead : (parsedMsg (decoded heap chunkcount blocks)).head =
        MsgHeader.ofBytes (slice (text blocks) 0 56) := by
      rw [← slice_decoded heap chunkcount blocks (by omega)]
      rfl
    obtain ⟨valid, entries, hrun, hrange⟩ := validateMessage_eq
      (parsedMsg (decoded heap chunkcount blocks)) chunkcount (text blocks).length
    rw [if_pos hfits, and_iff_right hfits, ← hhead]
    exact ⟨valid, entries, hrun, hrange⟩
  · have hbuffer := chunkBuffer_length hshort
    have hsize : blockInitialSize = 8192 := rfl
    have hlen : (UInt64.ofNat (text blocks).length).toNat ≤
        (chunkBuffer (frame blocks)).length := by
      rw [UInt64.toNat_ofNat', Nat.mod_eq_of_lt (by omega), hbuffer]
      omega
    obtain ⟨entry, hentry⟩ := handleBustedMsg1_total chunkcount hlen
    rw [if_neg hfits, hentry]
    exact ⟨false, [entry], rfl, iff_of_false Bool.false_ne_true fun hgood => hfits hgood.1⟩

/-! ## Reading a stream -/

/-- The reader after the bytes of an unfinished chunk. -/
def Reader.holding (chunk : Bytes) (chunkcount blockcount : Nat) (log : List LogEntry) :
    Reader where
  buffer := chunkBuffer chunk
  bindex := chunk.length
  chunkcount := chunkcount
  blockcount := blockcount
  log := log

section Reading

variable (heap : Heap) (chunkcount blockcount : Nat) (log : List LogEntry)

theorem fresh_eq_holding :
    Reader.fresh chunkcount blockcount log = Reader.holding [] chunkcount blockcount log := rfl

theorem holding_eq_collected {chunk : Bytes} (hshort : chunk.length < blockInitialSize) :
    Reader.holding chunk chunkcount blockcount log =
      Reader.collected heap chunk chunkcount blockcount log := by
  simp only [Reader.holding, Reader.collected, chunkBuffer, room_of_lt heap chunkcount hshort]

/-- The bytes of a chunk are collected in the buffer. -/
theorem foldlM_readByte_chunk (done : Bytes) {chunk : Bytes} (hchunk : specialChar ∉ chunk)
    (hshort : done.length + chunk.length < blockInitialSize) :
    chunk.foldlM (readByte heap) (Reader.holding done chunkcount blockcount log) =
      .ok (Reader.holding (done ++ chunk) chunkcount blockcount log) := by
  have hlength : (done ++ chunk).length < blockInitialSize := by
    rw [List.length_append]
    exact hshort
  rw [holding_eq_collected heap chunkcount blockcount log (by omega : done.length < _),
    foldlM_readByte_collected heap chunkcount blockcount log done hchunk,
    holding_eq_collected heap chunkcount blockcount log hlength]

/-- A delimited chunk is handled, and the reader starts afresh. -/
theorem foldlM_readByte_frame {chunk : Bytes} (hchunk : specialChar ∉ chunk)
    (hshort : chunk.length < blockInitialSize) (rest : Bytes) :
    (chunk ++ specialChar :: rest).foldlM (readByte heap)
        (Reader.fresh chunkcount blockcount log) = (do
      let (valid, entries) ← handleChunk heap (chunkcount + 1) (chunkBuffer chunk) chunk.length
      rest.foldlM (readByte heap) (Reader.fresh (chunkcount + 1)
        (if valid then blockcount + 1 else blockcount) (log ++ entries))) := by
  rw [List.foldlM_append, fresh_eq_holding, foldlM_readByte_chunk heap chunkcount blockcount log []
    hchunk (by simpa using hshort), ok_bind, List.nil_append, List.foldlM_cons, readByte,
    if_pos rfl]
  simp only [Reader.holding]
  cases handleChunk heap (chunkcount + 1) (chunkBuffer chunk) chunk.length with
  | error fault => rfl
  | ok result => rfl

end Reading

open Classical in
/-- The delimited chunks of a stream that are valid blocks. -/
noncomputable def validCount (stream : Bytes) : Nat :=
  (Delimited.frames specialChar stream).countP fun chunk => ValidBlock chunk

/-- Reading ends without a fault, having counted the valid chunks. -/
theorem foldlM_readByte_eq (heap : Heap) (stream : Bytes)
    (hshort : ∀ chunk ∈ stream.splitOn specialChar, chunk.length < blockInitialSize)
    (chunkcount blockcount : Nat) (log : List LogEntry) :
    ∃ r, stream.foldlM (readByte heap) (Reader.fresh chunkcount blockcount log) = .ok r ∧
      r.blockcount = blockcount + validCount stream := by
  induction stream using Delimited.chunk_induction specialChar
    generalizing chunkcount blockcount log with
  | last chunk hchunk =>
      rw [List.splitOn_eq_singleton hchunk] at hshort
      refine ⟨_, foldlM_readByte_chunk heap chunkcount blockcount log [] hchunk
        (by simpa using hshort), ?_⟩
      rw [validCount, Delimited.frames_of_notMem hchunk]
      rfl
  | delimited chunk rest hchunk ih =>
      rw [Delimited.splitOn_append_cons_of_notMem hchunk, List.forall_mem_cons] at hshort
      obtain ⟨valid, entries, hrun, hvalid⟩ := handleChunk_eq heap (chunkcount + 1) hshort.1
      obtain ⟨r, hr, hcount⟩ := ih hshort.2 (chunkcount + 1)
        (if valid then blockcount + 1 else blockcount) (log ++ entries)
      rw [foldlM_readByte_frame heap chunkcount blockcount log hchunk hshort.1, hrun, ok_bind]
      refine ⟨r, hr, ?_⟩
      have hframes : Delimited.frames specialChar (chunk ++ specialChar :: rest) =
          chunk :: Delimited.frames specialChar rest := by
        rw [Delimited.frames_append_cons, List.splitOn_eq_singleton hchunk, List.singleton_append]
      rw [hcount, validCount, validCount, hframes]
      cases valid with
      | true =>
          rw [List.countP_cons_of_pos (by simpa using hvalid)]
          simp only [if_true]
          omega
      | false =>
          rw [List.countP_cons_of_neg (by simpa using hvalid)]
          rfl

/-- The number of blocks that are read from a stream, whatever fresh memory holds. -/
def Counts (stream : Bytes) (n : Nat) : Prop := ∀ heap, ∃ log, readBlocks heap stream = .ok (n, log)

theorem counts_validCount {stream : Bytes}
    (hshort : ∀ chunk ∈ stream.splitOn specialChar, chunk.length < blockInitialSize) :
    Counts stream (validCount stream) := by
  intro heap
  obtain ⟨r, hr, hcount⟩ := foldlM_readByte_eq heap stream hshort 0 0 []
  rw [Nat.zero_add] at hcount
  refine ⟨r.log, ?_⟩
  rw [readBlocks, hr, ok_bind, hcount]
  rfl

/-! ## Resynchronisation -/

theorem validCount_resync (front back : Bytes) :
    validCount (front ++ [specialChar] ++ back) =
      validCount (front ++ [specialChar]) + validCount back := by
  rw [validCount, Delimited.frames_resync, List.countP_append]
  rfl

theorem validCount_of_notMem {stream : Bytes} (hstream : specialChar ∉ stream) :
    validCount stream = 0 := by
  rw [validCount, Delimited.frames_of_notMem hstream]
  rfl

theorem validCount_frame_le {chunk : Bytes} (hchunk : specialChar ∉ chunk) :
    validCount (chunk ++ [specialChar]) ≤ 1 := by
  rw [validCount, Delimited.frames_append_singleton, List.splitOn_eq_singleton hchunk]
  exact List.countP_le_length

/-- Chunks stay short when two streams are joined at a delimiter. -/
theorem short_append_cons {front back : Bytes}
    (hfront : ∀ chunk ∈ front.splitOn specialChar, chunk.length < blockInitialSize)
    (hback : ∀ chunk ∈ back.splitOn specialChar, chunk.length < blockInitialSize) :
    ∀ chunk ∈ (front ++ [specialChar] ++ back).splitOn specialChar,
      chunk.length < blockInitialSize := by
  intro chunk hchunk
  rw [List.append_assoc, List.singleton_append, List.splitOn_append_cons_self,
    List.mem_append] at hchunk
  exact hchunk.elim (hfront chunk) (hback chunk)

/-- What is counted after a delimiter adds to what is counted up to it: a chunk of
garbage between two streams changes the count by its own verdict and no more, and
what no delimiter ends does not count. -/
theorem readBlocks_resync {s1 s2 : Bytes}
    (h1 : ∀ chunk ∈ s1.splitOn specialChar, chunk.length < blockInitialSize)
    (h2 : ∀ chunk ∈ s2.splitOn specialChar, chunk.length < blockInitialSize) :
    ∃ n1 n2, Counts (s1 ++ [specialChar]) n1 ∧ Counts s2 n2 ∧
      Counts (s1 ++ [specialChar] ++ s2) (n1 + n2) ∧ (specialChar ∉ s2 → n2 = 0) ∧
      ∀ garbage, specialChar ∉ garbage → garbage.length < blockInitialSize →
        ∃ n ≤ 1, Counts (garbage ++ [specialChar]) n ∧
          Counts (s1 ++ [specialChar] ++ (garbage ++ [specialChar] ++ s2)) (n1 + (n + n2)) := by
  have hnil : ∀ chunk ∈ ([] : Bytes).splitOn specialChar, chunk.length < blockInitialSize := by
    decide
  have hended : ∀ {s : Bytes},
      (∀ chunk ∈ s.splitOn specialChar, chunk.length < blockInitialSize) →
        Counts (s ++ [specialChar]) (validCount (s ++ [specialChar])) := by
    intro s hs
    have hshort := short_append_cons hs hnil
    rw [List.append_nil] at hshort
    exact counts_validCount hshort
  refine ⟨validCount (s1 ++ [specialChar]), validCount s2, hended h1, counts_validCount h2, ?_,
    validCount_of_notMem, ?_⟩
  · rw [← validCount_resync]
    exact counts_validCount (short_append_cons h1 h2)
  intro garbage hgarbage hsize
  have hchunk : ∀ chunk ∈ garbage.splitOn specialChar, chunk.length < blockInitialSize := by
    rw [List.splitOn_eq_singleton hgarbage]
    intro chunk hmem
    rwa [List.mem_singleton.mp hmem]
  refine ⟨_, validCount_frame_le hgarbage, hended hchunk, ?_⟩
  rw [← validCount_resync, ← validCount_resync]
  exact counts_validCount (short_append_cons h1 (short_append_cons hchunk h2))

/-- The COBS blocks of a message without content, all of whose parity bytes are `parity`. -/
def emptyMsgBlocks (parity : UInt8) : List Block :=
  let header : Bytes := List.replicate 11 0 ++ 144 :: (List.replicate 3 0 ++ 32 ::
    (List.replicate 7 0 ++ 32 :: List.replicate 32 0))
  cobsBlocks (header ++ (List.replicate 32 parity ++ header))

/-- Fresh memory that happens to be zero. -/
def zeroHeap : Heap where
  decode := fun _ _ => 0
  grown := fun _ _ => 0

/-- Two frames that count, with anything between them. -/
theorem readBlocks_resync_frames :
    Counts (frame (emptyMsgBlocks 0xFF) ++ [specialChar]) 1 ∧
      Counts (frame (emptyMsgBlocks 0xFF) ++ [specialChar] ++
        (frame (emptyMsgBlocks 0xFF) ++ [specialChar])) 2 ∧
      ∀ garbage, specialChar ∉ garbage → garbage.length < blockInitialSize →
        ∃ n ≤ 1, Counts (garbage ++ [specialChar]) n ∧
          Counts (frame (emptyMsgBlocks 0xFF) ++ [specialChar] ++
            (garbage ++ [specialChar] ++ (frame (emptyMsgBlocks 0xFF) ++ [specialChar])))
            (1 + (n + 1)) := by
  obtain ⟨n1, n2, h1, h2, hboth, -, hgarbage⟩ :=
    @readBlocks_resync (frame (emptyMsgBlocks 0xFF))
      (frame (emptyMsgBlocks 0xFF) ++ [specialChar]) (by decide +kernel) (by decide +kernel)
  have hread : (readBlocks zeroHeap (frame (emptyMsgBlocks 0xFF) ++ [specialChar])).map Prod.fst =
      .ok 1 := by decide +kernel
  have hone : ∀ n, Counts (frame (emptyMsgBlocks 0xFF) ++ [specialChar]) n → n = 1 := by
    intro n hcounts
    obtain ⟨log, hlog⟩ := hcounts zeroHeap
    rw [hlog] at hread
    exact Except.ok.inj hread
  obtain rfl := hone n1 h1
  obtain rfl := hone n2 h2
  exact ⟨h1, hboth, hgarbage⟩

end Hipft
