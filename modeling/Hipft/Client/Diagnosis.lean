import Hipft.Client.DecodeBuffer

/-! # The diagnosis of a message that does not parse

`handle_busted_msg1` looks for a header again, in the buffer it is given. The client gives
it the encoded bytes with the decoded length. No encoded byte is zero, so the header that
it finds there always asks for more than any message may have.
-/

namespace Hipft

open CMemory ByteLayout Stuffing

/-! ## The header that is diagnosed -/

theorem msgHtFromBytes_front {mem : Bytes} {len : UInt64}
    (hfront : 56 ≤ len.toNat → 56 ≤ mem.length) :
    msgHtFromBytes mem 0 len =
      .ok (if 56 ≤ len.toNat then
        some (MsgHeader.ofBytes (slice mem 0 56), 56, len - calculateHeaderLength)
      else none) := by
  have hsize : calculateHeaderLength.toUInt32.toNat = 56 := rfl
  rw [msgHtFromBytes, safeMemcpy, hsize]
  by_cases hheader : 56 ≤ len.toNat
  · rw [if_neg (by omega), if_pos hheader, readRange_of_le (hfront hheader)]
    rfl
  · rw [if_pos (by omega), if_neg hheader]
    rfl

/-- The parser that comes to a result has read a header where there is room for one. -/
theorem le_length_of_msgFromBytes {b : Bytes} {len : UInt64} {r : Option Msg}
    (hparse : msgFromBytes b len = .ok r) (hheader : 56 ≤ len.toNat) : 56 ≤ b.length := by
  have hsize : calculateHeaderLength.toUInt32.toNat = 56 := rfl
  obtain ⟨found, hfound, -⟩ := bind_eq_ok.mp hparse
  obtain ⟨copied, hcopied, -⟩ := bind_eq_ok.mp hfound
  rw [safeMemcpy, hsize, if_neg (by omega)] at hcopied
  obtain ⟨bytes, hbytes, -⟩ := bind_eq_ok.mp hcopied
  exact readRange_eq_ok hbytes (by decide)

theorem decodeChunk_length {heap : Heap} {chunkcount bindex n : Nat} {buffer d : Bytes}
    (hdecode : decodeChunk heap chunkcount buffer bindex = .ok (d, n)) : d.length = bindex := by
  obtain ⟨written, -, hdecode⟩ := bind_eq_ok.mp hdecode
  obtain ⟨filled, hfilled, hdecode⟩ := bind_eq_ok.mp hdecode
  obtain ⟨len, -, hlen⟩ := bind_eq_ok.mp hdecode
  cases hlen
  rw [writeFront_length hfilled, List.length_map, List.length_range]

/-- A header without a zero byte asks for at least 2^24 bytes. -/
theorem totalLength_of_specialChar_notMem {e : Bytes} (rest : Bytes) (hlength : 56 ≤ e.length)
    (hclean : specialChar ∉ e) :
    256 ^ 3 ≤ (MsgHeader.ofBytes (slice (e ++ rest) 0 56)).totalLength.toNat := by
  have hfield : slice (e ++ rest) 8 4 = slice e 8 4 := slice_append_left (by omega)
  have hwidth : (slice e 8 4).length = 3 + 1 := slice_length (by omega)
  have hroom : 0 + 56 ≤ (e ++ rest).length := by
    rw [List.length_append]
    omega
  obtain ⟨byte, low, hbytes⟩ := List.exists_of_length_succ _ hwidth
  have hlow : low.length = 3 := by
    rw [hbytes, List.length_cons] at hwidth
    exact Nat.succ.inj hwidth
  have hbyte : byte ≠ 0 := by
    rintro rfl
    have hmem : (0 : UInt8) ∈ slice e 8 4 := hbytes ▸ List.mem_cons_self
    exact hclean (List.mem_of_mem_drop (List.mem_of_mem_take hmem))
  rw [(headerAt_ofBytes hroom).totalLength, Nat.zero_add, hfield, hbytes, ← hlow]
  exact le_ofBe_cons hbyte low

/-! ## What is logged -/

/-- The entry is one that the `n` decoded bytes justify. -/
structure Diagnosed (d : Bytes) (n : Nat) (specific : LogSpecific) : Prop where
  totalLength : ∀ total limit, specific = .totalLengthOver total limit →
    65536 < (MsgHeader.ofBytes (slice d 0 56)).totalLength.toNat ∨
      n < (MsgHeader.ofBytes (slice d 0 56)).totalLength.toNat
  bodyLength : ∀ body total, specific = .bodyLengthOver body total →
    (MsgHeader.ofBytes (slice d 0 56)).totalLength.toNat <
      (MsgHeader.ofBytes (slice d 0 56)).bodyLength.toNat
  contentLength : ∀ content limit, specific = .contentLenOver content limit →
    n - 56 < (MsgHeader.ofBytes (slice d 0 56)).contentLength.toNat
  runt : (∃ len, specific = .runt len) ↔ n < 56

theorem diagnosed_runt {d : Bytes} {n : Nat} (hshort : n < 56) : Diagnosed d n (.runt n) := by
  constructor
  · rintro total limit ⟨⟩
  · rintro body total ⟨⟩
  · rintro content limit ⟨⟩
  · exact iff_of_true ⟨n, rfl⟩ hshort

theorem diagnosed_totalLengthOver {d : Bytes} {n : Nat} (hheader : 56 ≤ n) (total : UInt32)
    (limit : Nat) :
    Diagnosed d n (.totalLengthOver total limit) ↔
      65536 < (MsgHeader.ofBytes (slice d 0 56)).totalLength.toNat ∨
        n < (MsgHeader.ofBytes (slice d 0 56)).totalLength.toNat := by
  constructor
  · exact fun hdiagnosed => hdiagnosed.totalLength total limit rfl
  · intro hover
    constructor
    · exact fun _ _ _ => hover
    · rintro body total ⟨⟩
    · rintro content limit ⟨⟩
    · refine iff_of_false ?_ (Nat.not_lt.mpr hheader)
      rintro ⟨len, ⟨⟩⟩

/-- With the buffer of a chunk the handler logs a runt or the total length. -/
theorem handleBustedMsg1_encoded (blockcount : Nat) {e : Bytes} (rest : Bytes) {len : UInt64}
    (hclean : specialChar ∉ e) (hheader : 56 ≤ len.toNat → 56 ≤ e.length)
    (hroom : 56 ≤ (e ++ rest).length) :
    ∃ entry, handleBustedMsg1 blockcount (e ++ rest) len = .ok entry ∧
      if 56 ≤ len.toNat then ∃ total limit, entry.specific = .totalLengthOver total limit
      else entry.specific = .runt len.toNat := by
  simp only [handleBustedMsg1, msgHtFromBytes_front fun _ => hroom, ok_bind]
  by_cases hlong : 56 ≤ len.toNat
  · have htotal := totalLength_of_specialChar_notMem rest (hheader hlong) hclean
    have hmax : (MsgHeader.ofBytes (slice (e ++ rest) 0 56)).totalLength.toUInt64 >
        maxMessageSize := by
      rw [gt_iff_lt, UInt64.lt_iff_toNat_lt, UInt32.toNat_toUInt64]
      exact Nat.lt_of_lt_of_le (by decide) htotal
    simp only [if_pos hlong, if_pos (Or.inl hmax)]
    exact ⟨_, rfl, _, _, rfl⟩
  · have hshort : len.toNat < 56 := Nat.lt_of_not_le hlong
    have hread : 0 + len.toNat ≤ (e ++ rest).length := by omega
    simp only [if_neg hlong, if_pos hshort, readRange_of_le hread]
    exact ⟨_, rfl, rfl⟩

theorem room_length (heap : Heap) (chunkcount n : Nat) :
    blockInitialSize ≤ n + (room heap chunkcount n).length := by
  have hsize : blockInitialSize = 8192 := rfl
  rw [room, List.length_map, List.length_range', hsize]
  omega

/-- A message that does not parse is diagnosed by its own bytes exactly when it is a runt,
or when its total length is wrong. -/
theorem handleBustedMsg1_diagnosed {heap : Heap} {chunkcount blockcount : Nat}
    {log : List LogEntry} {e buffer d : Bytes} {len : UInt64}
    (hverify : altCobsVerify e e.length = .ok true)
    (hreceive : receive heap chunkcount blockcount log e = .ok buffer)
    (hdecode : decodeChunk heap (chunkcount + 1) buffer e.length = .ok (d, len.toNat))
    (hrejected : msgFromBytes d len = .ok none) :
    ∃ entry, handleBustedMsg1 (chunkcount + 1) buffer len = .ok entry ∧
      (e ≠ [] → handleChunk heap (chunkcount + 1) buffer e.length = .ok (false, [entry])) ∧
      (Diagnosed d len.toNat entry.specific ↔ len.toNat < 56 ∨
        65536 < (MsgHeader.ofBytes (slice d 0 56)).totalLength.toNat ∨
        len.toNat < (MsgHeader.ofBytes (slice d 0 56)).totalLength.toNat) := by
  obtain ⟨blocks, rfl⟩ := (altCobsVerify_iff e).mp hverify
  have hclean := specialChar_notMem_frame blocks
  rw [receive_eq heap chunkcount blockcount log hclean, Except.ok.injEq] at hreceive
  subst hreceive
  have hbuffer := room_length heap chunkcount (frame blocks).length
  have hsize : blockInitialSize = 8192 := rfl
  have hheader : 56 ≤ len.toNat → 56 ≤ (frame blocks).length := by
    intro hlong
    rw [← decodeChunk_length hdecode]
    exact le_length_of_msgFromBytes hrejected hlong
  obtain ⟨entry, hentry, hspecific⟩ := handleBustedMsg1_encoded (chunkcount + 1)
    (room heap chunkcount (frame blocks).length) hclean hheader
    (by rw [List.length_append]; omega)
  refine ⟨entry, hentry, ?_, ?_⟩
  · intro hpos
    have hlength : (frame blocks).length ≠ 0 := mt List.length_eq_zero_iff.mp hpos
    obtain ⟨verified, hrun, hiff⟩ := altCobsVerify_eq
      (frame blocks ++ room heap chunkcount (frame blocks).length) (frame blocks).length
      (by rw [List.length_append]; omega)
    have htrue : verified = true := hiff.mpr ⟨blocks, List.take_left⟩
    rw [htrue] at hrun
    simp only [handleChunk, if_neg hlength, hrun, hdecode, ok_bind, UInt64.ofNat_toNat, hrejected,
      hentry, Bool.not_true, Bool.false_eq_true, if_false]
    rfl
  · by_cases hlong : 56 ≤ len.toNat
    · rw [if_pos hlong] at hspecific
      obtain ⟨total, limit, hspecific⟩ := hspecific
      rw [hspecific, diagnosed_totalLengthOver hlong, or_iff_right (Nat.not_lt.mpr hlong)]
    · rw [if_neg hlong] at hspecific
      have hshort := Nat.lt_of_not_le hlong
      rw [hspecific]
      exact iff_of_true (diagnosed_runt hshort) (Or.inl hshort)

/-- 56 codes of empty blocks: the string of 56 zeros. -/
def zeroBlocks : List Block := List.replicate 56 ⟨[], by decide, by decide⟩

theorem handleBustedMsg1_diagnosed_zeros :
    ∃ entry, handleBustedMsg1 1 (chunkBuffer (frame zeroBlocks)) 56 = .ok entry ∧
      (frame zeroBlocks ≠ [] → handleChunk (filledHeap 0) 1 (chunkBuffer (frame zeroBlocks))
        (frame zeroBlocks).length = .ok (false, [entry])) ∧
      (Diagnosed (decoded (filledHeap 0) 1 zeroBlocks) 56 entry.specific ↔ 56 < 56 ∨
        65536 < (MsgHeader.ofBytes
          (slice (decoded (filledHeap 0) 1 zeroBlocks) 0 56)).totalLength.toNat ∨
        56 < (MsgHeader.ofBytes
          (slice (decoded (filledHeap 0) 1 zeroBlocks) 0 56)).totalLength.toNat) :=
  handleBustedMsg1_diagnosed (by decide +kernel)
    (receive_short (by decide) (filledHeap 0) 0 0 [])
    (decodeChunk_eq (filledHeap 0) 1 zeroBlocks (by decide)) (by decide +kernel)

/-- The header of zeros asks for nothing, and the entry says that it asks for too much. -/
theorem handleBustedMsg1_misdiagnosed :
    ¬ ∀ heap chunkcount blockcount log e buffer d (len : UInt64),
      altCobsVerify e e.length = .ok true →
      receive heap chunkcount blockcount log e = .ok buffer →
      decodeChunk heap (chunkcount + 1) buffer e.length = .ok (d, len.toNat) →
      msgFromBytes d len = .ok none →
      ∀ entry, handleChunk heap (chunkcount + 1) buffer e.length = .ok (false, [entry]) →
        Diagnosed d len.toNat entry.specific := by
  intro hevery
  have hlogged : handleChunk (filledHeap 0) 1 (chunkBuffer (frame zeroBlocks))
      (frame zeroBlocks).length =
        .ok (false, [⟨1, .msg, .parse, .totalLengthOver 16843009 0, []⟩]) := by
    decide +kernel
  have hdiagnosed := hevery (filledHeap 0) 0 0 [] (frame zeroBlocks) _ _ 56 (by decide +kernel)
    (receive_short (by decide) (filledHeap 0) 0 0 [])
    (decodeChunk_eq (filledHeap 0) 1 zeroBlocks (by decide)) (by decide +kernel) _ hlogged
  have hover := hdiagnosed.totalLength _ _ rfl
  revert hover
  decide +kernel

end Hipft
