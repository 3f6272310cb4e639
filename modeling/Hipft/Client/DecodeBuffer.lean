import Hipft.Client.Frames

/-! # The decode buffer

The decoder keeps to the string it is given and to a buffer of its size, but the length
that the client passes on is that of the string with its delimiter: unless the last block
is full, it counts a zero that was not written. And the delimiter that the length routine
looks for is behind the string only as long as the first buffer was large enough.
-/

namespace Hipft

open CMemory Stuffing

theorem openText_length_le (blocks : List Block) :
    (openText blocks).length ≤ (frame blocks).length - 1 := by
  rcases List.eq_nil_or_concat' blocks with rfl | ⟨front, last, rfl⟩
  · exact Nat.le_refl 0
  · rw [openText_append_singleton, frame_append_singleton_length]
    omega

/-- Decoding an accepted string reads no byte but its own and writes fewer, and with the
delimiter behind it the length routine stops there with no more than its length; so the
client's decode buffer holds what is written and what is parsed. -/
theorem cobsDecode_inBounds {e : Bytes} (hverify : altCobsVerify e e.length = .ok true) :
    (∃ d, cobsDecode e e.length = .ok d ∧ d.length ≤ e.length - 1) ∧
    (∃ n, cobsDecodedLengthFromEncoded (e ++ [specialChar]) = .ok n ∧ n ≤ e.length) ∧
    ∀ heap chunkcount rest, ∃ decodeBuffer n,
      decodeChunk heap chunkcount (e ++ specialChar :: rest) e.length = .ok (decodeBuffer, n) ∧
        decodeBuffer.length = e.length ∧ n ≤ e.length := by
  obtain ⟨blocks, rfl⟩ := (altCobsVerify_iff e).mp hverify
  refine ⟨⟨openText blocks, cobsDecode_undelimited blocks, openText_length_le blocks⟩,
    ⟨(text blocks).length, cobsDecodedLength_frame blocks [], text_length_le_frame blocks⟩, ?_⟩
  intro heap chunkcount rest
  exact ⟨_, _, decodeChunk_frame heap chunkcount blocks rest,
    decoded_length heap chunkcount blocks, text_length_le_frame blocks⟩

theorem cobsDecode_inBounds_two :
    (∃ d, cobsDecode [0x02, 0x05] 2 = .ok d ∧ d.length ≤ 2 - 1) ∧
    (∃ n, cobsDecodedLengthFromEncoded ([0x02, 0x05] ++ [specialChar]) = .ok n ∧ n ≤ 2) ∧
    ∀ heap chunkcount rest, ∃ decodeBuffer n,
      decodeChunk heap chunkcount ([0x02, 0x05] ++ specialChar :: rest) 2 =
          .ok (decodeBuffer, n) ∧
        decodeBuffer.length = 2 ∧ n ≤ 2 :=
  cobsDecode_inBounds (e := [0x02, 0x05]) (by decide +kernel)

/-! ## What the parser sees -/

/-- The last block is a full one, if there is any. -/
def EndsFull (e : Bytes) : Prop := ∀ front last, e = frame (front ++ [last]) → last.Full

theorem endsFull_frame (blocks : List Block) :
    EndsFull (frame blocks) ↔ (openText blocks).length = (text blocks).length := by
  rcases List.eq_nil_or_concat' blocks with rfl | ⟨front, last, rfl⟩
  · refine iff_of_true ?_ rfl
    intro front last hframe
    simpa using frame_injective hframe
  · have hlast : EndsFull (frame (front ++ [last])) ↔ last.Full := by
      constructor
      · exact fun hfull => hfull front last rfl
      · intro hfull front' last' hframe
        obtain ⟨-, hsame⟩ := List.append_inj' (frame_injective hframe) rfl
        rwa [← List.singleton_inj.mp hsame]
    rw [hlast, openText_append_singleton, text_append, text_cons, text_nil, List.append_nil,
      List.length_append, List.length_append]
    by_cases hfull : last.Full
    · rw [Block.text_full hfull]
      exact iff_of_true hfull rfl
    · rw [Block.text_open hfull, List.length_append, List.length_singleton]
      exact iff_of_false hfull (by omega)

/-- Memory that holds one value everywhere. -/
def filledHeap (value : UInt8) : Heap where
  decode _ _ := value
  grown _ _ := value

/-- The zero that is counted and not written is a byte of fresh memory. -/
theorem take_decoded (heap : Heap) (chunkcount : Nat) (blocks : List Block) :
    (decoded heap chunkcount blocks).take (text blocks).length =
      openText blocks ++
        if (openText blocks).length = (text blocks).length then []
        else [heap.decode chunkcount (openText blocks).length] := by
  have hopen := openText_length blocks
  have hframe := text_length_le_frame blocks
  rw [decoded, List.take_append, List.take_of_length_le hopen.1, List.append_right_inj]
  by_cases hsame : (openText blocks).length = (text blocks).length
  · rw [if_pos hsame, hsame, Nat.sub_self, List.take_zero]
  · have hone : (text blocks).length - (openText blocks).length = 1 := by omega
    have hlt : (openText blocks).length <
        ((List.range (frame blocks).length).map (heap.decode chunkcount)).length := by
      rw [List.length_map, List.length_range]
      omega
    rw [if_neg hsame, hone, List.drop_eq_getElem_cons hlt, List.take_succ_cons, List.take_zero,
      List.getElem_map, List.getElem_range]

/-- In `read_blocks` the bytes that the decoder writes are as many as the length that is
passed to the parser. -/
def WrittenIsCounted (e : Bytes) : Prop :=
  ∀ heap chunkcount blockcount log, ∃ buffer d,
    receive heap chunkcount blockcount log e = .ok buffer ∧ cobsDecode buffer e.length = .ok d ∧
      cobsDecodedLengthFromEncoded buffer = .ok d.length

/-- In `read_blocks` the bytes that the parser is given do not depend on fresh memory. -/
def ParsesDecodedOnly (e : Bytes) : Prop :=
  ∃ parsed, ∀ heap chunkcount blockcount log, ∃ buffer decodeBuffer n,
    receive heap chunkcount blockcount log e = .ok buffer ∧
      decodeChunk heap (chunkcount + 1) buffer e.length = .ok (decodeBuffer, n) ∧
        decodeBuffer.take n = parsed

section Short

variable {blocks : List Block} (hshort : (frame blocks).length < blockInitialSize)

include hshort

theorem receive_short (heap : Heap) (chunkcount blockcount : Nat) (log : List LogEntry) :
    receive heap chunkcount blockcount log (frame blocks) = .ok (chunkBuffer (frame blocks)) := by
  rw [receive_eq heap chunkcount blockcount log (specialChar_notMem_frame blocks),
    room_of_lt heap chunkcount hshort]
  rfl

theorem writtenIsCounted_iff : WrittenIsCounted (frame blocks) ↔ EndsFull (frame blocks) := by
  obtain ⟨rest, hbuffer⟩ := chunkBuffer_eq hshort
  have hdecode := cobsDecode_openFrame blocks (specialChar :: rest)
  have hlength := cobsDecodedLength_frame blocks rest
  rw [← hbuffer] at hdecode hlength
  rw [endsFull_frame]
  constructor
  · intro hcounted
    obtain ⟨buffer, d, hreceive, hd, hn⟩ := hcounted (filledHeap 0) 0 0 []
    rw [receive_short hshort, Except.ok.injEq] at hreceive
    rw [← hreceive, hdecode, Except.ok.injEq] at hd
    rw [← hreceive, hlength, Except.ok.injEq, ← hd] at hn
    exact hn.symm
  · intro hsame heap chunkcount blockcount log
    exact ⟨_, _, receive_short hshort heap chunkcount blockcount log, hdecode, hsame ▸ hlength⟩

theorem parsesDecodedOnly_iff : ParsesDecodedOnly (frame blocks) ↔ EndsFull (frame blocks) := by
  rw [endsFull_frame]
  constructor
  · rintro ⟨parsed, hparsed⟩
    by_contra hmore
    -- two runs whose fresh memory differs
    have hrun : ∀ value, openText blocks ++ [value] = parsed := by
      intro value
      obtain ⟨buffer, decodeBuffer, n, hreceive, hdecode, htake⟩ :=
        hparsed (filledHeap value) 0 0 []
      rw [receive_short hshort, Except.ok.injEq] at hreceive
      rw [← hreceive, decodeChunk_eq _ _ _ hshort, Except.ok.injEq, Prod.mk.injEq] at hdecode
      rw [← hdecode.1, ← hdecode.2, take_decoded, if_neg hmore] at htake
      exact htake
    have hsame := List.append_cancel_left ((hrun 0).trans (hrun 1).symm)
    cases hsame
  · intro hsame
    refine ⟨openText blocks, ?_⟩
    intro heap chunkcount blockcount log
    refine ⟨_, _, _, receive_short hshort heap chunkcount blockcount log,
      decodeChunk_eq heap _ blocks hshort, ?_⟩
    rw [take_decoded, if_pos hsame, List.append_nil]

end Short

/-- For a chunk that the first buffer holds, the client parses decoded bytes only exactly
when the last block is full. -/
theorem writtenIsCounted_iff_endsFull {e : Bytes}
    (hverify : altCobsVerify e e.length = .ok true) (hshort : e.length < blockInitialSize) :
    (WrittenIsCounted e ↔ EndsFull e) ∧ (ParsesDecodedOnly e ↔ EndsFull e) := by
  obtain ⟨blocks, rfl⟩ := (altCobsVerify_iff e).mp hverify
  exact ⟨writtenIsCounted_iff hshort, parsesDecodedOnly_iff hshort⟩

theorem writtenIsCounted_iff_endsFull_two :
    (WrittenIsCounted [0x02, 0x05] ↔ EndsFull [0x02, 0x05]) ∧
      (ParsesDecodedOnly [0x02, 0x05] ↔ EndsFull [0x02, 0x05]) :=
  writtenIsCounted_iff_endsFull (by decide +kernel) (by decide)

/-- One byte is written, and two are parsed. -/
theorem not_writtenIsCounted_two :
    ¬ ∀ e, altCobsVerify e e.length = .ok true → e.length < blockInitialSize →
      WrittenIsCounted e ∧ ParsesDecodedOnly e := by
  intro hall
  have hverify : altCobsVerify [0x02, 0x05] 2 = .ok true := by decide +kernel
  have hframe : ([0x02, 0x05] : Bytes) = frame [⟨[0x05], by decide, by decide⟩] := rfl
  have hcounted := (hall [0x02, 0x05] hverify (by decide)).1
  rw [hframe, writtenIsCounted_iff (by decide), endsFull_frame] at hcounted
  revert hcounted
  decide

/-! ## Long chunks -/

theorem scanSpecialChar_of_notMem {src : Bytes} (hsrc : specialChar ∉ src) (cur : Nat) :
    scanSpecialChar src cur = .error .outOfBounds := by
  induction cur using scanSpecialChar.induct src with
  | case1 cur hlt hfound => exact absurd (hfound ▸ List.getElem_mem hlt) hsrc
  | case2 cur hlt hother ih => rw [scanSpecialChar, dif_pos hlt, if_neg hother, ih]
  | case3 cur hstop => rw [scanSpecialChar, dif_neg hstop]

/-- Behind a long chunk memory may hold no delimiter at all. -/
theorem receive_long {e : Bytes} (he : specialChar ∉ e) (hlong : blockInitialSize ≤ e.length)
    (chunkcount blockcount : Nat) (log : List LogEntry) :
    ∃ buffer, receive (filledHeap 1) chunkcount blockcount log e = .ok buffer ∧
      scanSpecialChar buffer 0 = .error .outOfBounds ∧
      cobsDecodedLengthFromEncoded buffer = .error .outOfBounds := by
  refine ⟨_, receive_eq (filledHeap 1) chunkcount blockcount log he, ?_⟩
  have hclean : specialChar ∉ e ++ room (filledHeap 1) chunkcount e.length := by
    rw [List.mem_append, not_or]
    refine ⟨he, ?_⟩
    intro hmem
    obtain ⟨i, hi⟩ := mem_room_of_le (filledHeap 1) chunkcount hlong hmem
    cases hi
  have hscan := scanSpecialChar_of_notMem hclean 0
  exact ⟨hscan, by rw [cobsDecodedLengthFromEncoded, hscan, error_bind]⟩

/-- The length that `read_blocks` obtains for a chunk is one that the chunk alone decides. -/
def LengthFromChunk (e : Bytes) : Prop :=
  ∃ n ≤ e.length, ∀ heap chunkcount blockcount log, ∃ buffer,
    receive heap chunkcount blockcount log e = .ok buffer ∧
      cobsDecodedLengthFromEncoded buffer = .ok n

/-- The scan of the receive buffer stops behind the chunk. -/
def ScanStops (e : Bytes) : Prop :=
  ∀ heap chunkcount blockcount log, ∃ buffer,
    receive heap chunkcount blockcount log e = .ok buffer ∧
      scanSpecialChar buffer 0 = .ok e.length

/-- Two memories are enough to tell that a long chunk does not decide its length. -/
theorem not_lengthFromChunk_of_long {e : Bytes} (he : specialChar ∉ e)
    (hlong : blockInitialSize ≤ e.length) : ¬ LengthFromChunk e ∧ ¬ ScanStops e := by
  obtain ⟨buffer, hreceive, hscan, hfault⟩ := receive_long he hlong 0 0 []
  constructor
  · rintro ⟨n, -, hlength⟩
    obtain ⟨buffer', hreceive', hn⟩ := hlength (filledHeap 1) 0 0 []
    rw [hreceive, Except.ok.injEq] at hreceive'
    rw [← hreceive', hfault] at hn
    cases hn
  · intro hstops
    obtain ⟨buffer', hreceive', hstop⟩ := hstops (filledHeap 1) 0 0 []
    rw [hreceive, Except.ok.injEq] at hreceive'
    rw [← hreceive', hscan] at hstop
    cases hstop

/-- The length of an accepted chunk comes from its own bytes, and the scan stops behind
them, exactly when the first buffer has room for the delimiter. -/
theorem lengthFromChunk_iff {e : Bytes} (hverify : altCobsVerify e e.length = .ok true) :
    (LengthFromChunk e ↔ e.length < blockInitialSize) ∧
      (ScanStops e ↔ e.length < blockInitialSize) := by
  obtain ⟨blocks, rfl⟩ := (altCobsVerify_iff e).mp hverify
  by_cases hshort : (frame blocks).length < blockInitialSize
  · obtain ⟨rest, hbuffer⟩ := chunkBuffer_eq hshort
    refine ⟨iff_of_true ?_ hshort, iff_of_true ?_ hshort⟩
    · refine ⟨(text blocks).length, text_length_le_frame blocks, ?_⟩
      intro heap chunkcount blockcount log
      refine ⟨_, receive_short hshort heap chunkcount blockcount log, ?_⟩
      rw [hbuffer, cobsDecodedLength_frame]
    · intro heap chunkcount blockcount log
      refine ⟨_, receive_short hshort heap chunkcount blockcount log, ?_⟩
      rw [hbuffer, scanSpecialChar_frame]
  · obtain ⟨hlength, hstops⟩ := not_lengthFromChunk_of_long (specialChar_notMem_frame blocks)
      (Nat.le_of_not_lt hshort)
    exact ⟨iff_of_false hlength hshort, iff_of_false hstops hshort⟩

theorem lengthFromChunk_iff_two :
    (LengthFromChunk [0x02, 0x05] ↔ [0x02, 0x05].length < blockInitialSize) ∧
      (ScanStops [0x02, 0x05] ↔ [0x02, 0x05].length < blockInitialSize) :=
  lengthFromChunk_iff (by decide +kernel)

theorem frame_replicate_length (n : Nat) :
    (frame (List.replicate n ⟨[], by simp, by simp⟩)).length = n := by
  induction n with
  | zero => rfl
  | succ n ih =>
      rw [List.replicate_succ, frame_cons, List.length_append, Block.wire_length, ih]
      exact Nat.add_comm _ _

/-- 8192 codes of empty blocks fill the first buffer, and nothing delimits them. -/
theorem not_lengthFromChunk_full :
    ¬ ∀ e, 1 ≤ e.length → altCobsVerify e e.length = .ok true →
      LengthFromChunk e ∧ ScanStops e := by
  intro hall
  have hlong := frame_replicate_length blockInitialSize
  have hverify := (altCobsVerify_iff _).mpr
    ⟨List.replicate blockInitialSize ⟨[], by simp, by simp⟩, rfl⟩
  refine (not_lengthFromChunk_of_long (specialChar_notMem_frame _) (Nat.le_of_eq hlong.symm)).1 ?_
  exact (hall _ (by rw [hlong]; decide) hverify).1

/-! ## Damaged chunks -/

/-- A chunk whose first 57 bytes are intact is diagnosed by the header of its message. -/
theorem hceTryHeader_intact {x f : Bytes} (blockcount : Nat) (hx : 56 ≤ x.length)
    (hf : 57 ≤ f.length) (hsame : f.take 57 = (cobsEncode x).take 57) :
    hceTryHeader blockcount f f.length =
      .ok (some (if (ntohl (MsgHeader.ofMemory (x.take 56)).totalLength).toNat > f.length then
        { blockcount, type := .cobs, subtype := .fragmentHeader, packet := []
          specific := .messageOverBuffer (ntohl (MsgHeader.ofMemory (x.take 56)).totalLength)
            f.length }
      else
        { blockcount, type := .cobs, subtype := .smashedPacket, specific := .uninitialised
          packet := [] })) := by
  have hrun := cobsPartialDecode_intact 56 (by decide) hx hf hsame
  have hwanted : ¬ Int32.ofNat 56 ≠ 56 := not_not.mpr rfl
  simp only [hceTryHeader, hrun, ok_bind, if_neg hwanted]
  split
  · rfl
  · rfl

end Hipft
