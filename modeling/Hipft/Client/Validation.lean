import Hipft.Client.Transfer

/-! # Validation and verification

`validate_message` leaves the parities and the CRC alone and only logs where
header and trailer differ, so it counts more than `verify_msg` accepts.
-/

namespace Hipft

open CMemory ByteLayout Stuffing

/-- A stream of one frame is a matter of its one chunk. -/
theorem readBlocks_frame (heap : Heap) {chunk : Bytes} (hchunk : specialChar ∉ chunk)
    (hshort : chunk.length < blockInitialSize) {valid : Bool} {entries : List LogEntry}
    (hrun : handleChunk heap 1 (chunkBuffer chunk) chunk.length = .ok (valid, entries)) :
    readBlocks heap (chunk ++ [specialChar]) = .ok (if valid then 1 else 0, entries) := by
  rw [readBlocks, foldlM_readByte_frame heap 0 0 [] hchunk hshort, hrun]
  rfl

theorem counts_frame {chunk : Bytes} (hchunk : specialChar ∉ chunk)
    (hshort : chunk.length < blockInitialSize) {valid : Bool}
    (hvalid : valid = true ↔ ValidBlock chunk) :
    Counts (chunk ++ [specialChar]) (if valid then 1 else 0) := by
  intro heap
  obtain ⟨counted, entries, hrun, hcounted⟩ := handleChunk_eq heap 1 hshort
  have hsame : counted = valid := Bool.eq_iff_iff.mpr (hcounted.trans hvalid.symm)
  subst hsame
  exact ⟨entries, readBlocks_frame heap hchunk hshort hrun⟩

/-- A frame that parses is counted only if `verify_msg` accepts its message, exactly when,
with its header in the client's ranges, it is what `form_msg` makes, but for bits that no
check looks at. -/
theorem handleChunk_verifyMsg (heap : Heap) (chunkcount : Nat) {e d : Bytes} {n : Nat} {m : Msg}
    (hshort : e.length < blockInitialSize) (hverify : altCobsVerify e e.length = .ok true)
    (hdecode : decodeChunk heap chunkcount (chunkBuffer e) e.length = .ok (d, n))
    (hparse : msgFromBytes d (UInt64.ofNat n) = .ok (some m)) :
    ∃ valid entries,
      handleChunk heap chunkcount (chunkBuffer e) e.length = .ok (valid, entries) ∧
      Counts (e ++ [specialChar]) (if valid then 1 else 0) ∧
      ((valid = true → verifyMsg m = .ok true) ↔ (InRange m.head n → FormedBut m)) := by
  obtain ⟨verified, hrun, hiff⟩ := altCobsVerify_eq e e.length (Nat.le_refl _)
  rw [hverify, Except.ok.injEq] at hrun
  rw [List.take_length] at hiff
  obtain ⟨blocks, rfl⟩ := hiff.mp hrun.symm
  rw [decodeChunk_eq heap chunkcount blocks hshort, Except.ok.injEq, Prod.mk.injEq] at hdecode
  obtain ⟨rfl, rfl⟩ := hdecode
  have hframe := text_length_le_frame blocks
  have hlength := decoded_length heap chunkcount blocks
  have hnat : (UInt64.ofNat (text blocks).length).toNat = (text blocks).length := by
    have hsize : blockInitialSize = 8192 := rfl
    rw [UInt64.toNat_ofNat', Nat.mod_eq_of_lt (by omega)]
  rw [msgFromBytes_eq (by omega), hnat] at hparse
  split at hparse
  next hfits =>
    cases hparse
    have hpos : (frame blocks).length ≠ 0 := by
      have hheader := hfits.header
      omega
    obtain ⟨valid, entries, hchunk, hvalid⟩ := handleChunk_eq heap chunkcount hshort
    refine ⟨valid, entries, hchunk,
      counts_frame (specialChar_notMem_frame blocks) hshort hvalid, ?_⟩
    rw [handleChunk_frame heap chunkcount blocks hshort hpos,
      if_pos ((fits_decoded heap chunkcount blocks).mp hfits)] at hchunk
    obtain ⟨counted, logged, hvalidate, hrange⟩ := validateMessage_eq
      (parsedMsg (decoded heap chunkcount blocks)) chunkcount (text blocks).length
    rw [hvalidate, Except.ok.injEq, Prod.mk.injEq] at hchunk
    have hstored : (parsedMsg (decoded heap chunkcount blocks)).Stored :=
      stored_parsedMsg (by omega) hfits
    have hsize : (parsedMsg (decoded heap chunkcount blocks)).head.contentLength.toNat < 65536 :=
      hfits.content
    rw [← hchunk.1, hrange, verifyMsg_iff hstored,
      consistent_iff_formedBut hsize hstored.content]
  next => cases hparse

/-- With the parity that `form_msg` gives it, the empty message counts and verifies. -/
theorem handleChunk_verifyMsg_empty :
    ∃ valid entries,
      handleChunk zeroHeap 1 (chunkBuffer (frame (emptyMsgBlocks 0xFF)))
        (frame (emptyMsgBlocks 0xFF)).length = .ok (valid, entries) ∧
      Counts (frame (emptyMsgBlocks 0xFF) ++ [specialChar]) (if valid then 1 else 0) ∧
      ((valid = true →
          verifyMsg (parsedMsg (decoded zeroHeap 1 (emptyMsgBlocks 0xFF))) = .ok true) ↔
        (InRange (parsedMsg (decoded zeroHeap 1 (emptyMsgBlocks 0xFF))).head
            (text (emptyMsgBlocks 0xFF)).length →
          FormedBut (parsedMsg (decoded zeroHeap 1 (emptyMsgBlocks 0xFF))))) :=
  handleChunk_verifyMsg zeroHeap 1 (by decide +kernel) (by decide +kernel)
    (decodeChunk_eq zeroHeap 1 (emptyMsgBlocks 0xFF) (by decide +kernel)) (by decide +kernel)

/-- With no parity bit set it counts as well, and does not verify. -/
theorem handleChunk_verifyMsg_unset :
    ¬ ∀ (heap : Heap) (e d : Bytes) (n : Nat) (m : Msg), e.length < blockInitialSize →
      altCobsVerify e e.length = .ok true →
      decodeChunk heap 1 (chunkBuffer e) e.length = .ok (d, n) →
      msgFromBytes d (UInt64.ofNat n) = .ok (some m) →
      (∃ log, readBlocks heap (e ++ [specialChar]) = .ok (1, log)) →
      verifyMsg m = .ok true := by
  intro hevery
  have hshort : (frame (emptyMsgBlocks 0)).length < blockInitialSize := by decide +kernel
  have hvalid : ValidBlock (frame (emptyMsgBlocks 0)) :=
    validBlock_frame.mpr ⟨by decide +kernel, validateRanges_eq_none.mp (by decide +kernel)⟩
  have hcounted : ∃ log, readBlocks zeroHeap (frame (emptyMsgBlocks 0) ++ [specialChar]) =
      .ok (1, log) :=
    counts_frame (specialChar_notMem_frame _) hshort (iff_of_true rfl hvalid) zeroHeap
  have hverified := hevery zeroHeap (frame (emptyMsgBlocks 0)) _ _
    (parsedMsg (decoded zeroHeap 1 (emptyMsgBlocks 0))) hshort (by decide +kernel)
    (decodeChunk_eq zeroHeap 1 (emptyMsgBlocks 0) hshort) (by decide +kernel) hcounted
  revert hverified
  decide +kernel

/-! ## The size limit -/

/-- The receiver takes the first `n` bytes: they parse, and `validate_message` returns 1. -/
def Accepted (chunkcount : Nat) (bytes : Bytes) (n : Nat) : Prop :=
  ∃ m entries, msgFromBytes bytes (UInt64.ofNat n) = .ok (some m) ∧
    validateMessage m chunkcount n = .ok (true, entries)

/-- A message that parses is accepted up to `MAX_MESSAGE_SIZE` bytes in total. -/
theorem accepted_bytes_iff (chunkcount : Nat) {m : Msg} (hstored : m.Stored)
    (hlink : LengthsLink m.head) (hchan : m.head.chanType ≤ 1) (hdata : m.head.dataType ≤ 4)
    (hsize : m.head.contentLength.toNat < 65536) :
    Accepted chunkcount m.bytes m.bytes.length ↔ m.bytes.length ≤ 65536 := by
  have htotal := hlink.total
  have hlength := (hstored.sized hlink.parity).bytes_length
  obtain ⟨valid, entries, hrun, hvalid⟩ := validateMessage_eq m chunkcount m.bytes.length
  have hparse := msgFromBytes_bytes hstored hlink hsize
  constructor
  · rintro ⟨parsed, logged, hparsed, hvalidate⟩
    rw [hparse, Except.ok.injEq, Option.some.injEq] at hparsed
    subst hparsed
    rw [hrun, Except.ok.injEq, Prod.mk.injEq] at hvalidate
    have hrange := (hvalid.mp hvalidate.1).totalLength.1
    omega
  · intro hmax
    have hrange := inRange_of_link hlink hchan hdata (by omega) hmax
    exact ⟨m, entries, hparse, hvalid.mpr hrange ▸ hrun⟩

/-- A content of `MAX_MESSAGE_SIZE` bytes or more does not parse. -/
theorem not_accepted_bytes (chunkcount : Nat) {m : Msg} (hsized : m.Sized)
    (hsize : 65536 ≤ m.head.contentLength.toNat) :
    ¬ Accepted chunkcount m.bytes m.bytes.length := by
  rintro ⟨parsed, entries, hparsed, -⟩
  have hlength := hsized.bytes_length
  have hcontent := m.head.contentLength.toNat_lt
  have hrows : hparityBytes m.head.contentLength.toNat < 2 ^ 32 := by
    unfold hparityBytes
    omega
  have hnat : (UInt64.ofNat m.bytes.length).toNat = m.bytes.length := by
    rw [UInt64.toNat_ofNat', Nat.mod_eq_of_lt (by omega)]
  have hhead : slice m.bytes 0 56 = m.head.bytes := by
    rw [Msg.bytes, slice_append_left (by simp), slice_zero_of_length m.head.bytes_length]
  rw [msgFromBytes_eq (Nat.le_of_eq hnat), hhead, MsgHeader.ofBytes_bytes,
    if_neg (fun hfits => absurd hfits.content (by omega))] at hparsed
  cases hparsed

/-- `form_msg` and `msg_to_bytes` take every length, and the receiver accepts what they
make exactly up to `MAX_MESSAGE_SIZE` bytes with header, parities and trailer. -/
theorem formMsg_accepted (msgID : UInt32) (sID rID : UInt64) (chant datat : UInt8)
    (snum : UInt64) (content : Bytes) (clen : UInt32) (chunkcount : Nat)
    (hclen : clen.toNat = content.length) (hchan : chant ≤ 1) (hdata : datat ≤ 4) :
    ∃ m bytes n, formMsg msgID sID rID chant datat snum content clen = .ok m ∧
      msgToBytes m = .ok (bytes, n) ∧
      (Accepted chunkcount bytes n ↔ clen.toNat + hparityBytes clen.toNat + 144 ≤ 65536) := by
  by_cases hsize : content.length < 65536
  · obtain rfl : clen = UInt32.ofNat content.length := by rw [← hclen, UInt32.ofNat_toNat]
    obtain ⟨m, hform, hformed, hstored, hconsistent⟩ :=
      formMsg_consistent msgID sID rID chant datat snum hsize
    have hlink := hconsistent.lengths
    have hsized := hstored.sized hlink.parity
    have hcontent : m.head.contentLength = UInt32.ofNat content.length := by
      rw [hformed.head]
      rfl
    refine ⟨m, m.bytes, m.bytes.length, hform, msgToBytes_eq hsized, ?_⟩
    rw [← hcontent, ← hsized.bytes_length]
    apply accepted_bytes_iff chunkcount hstored hlink
    · rw [hformed.head]
      exact hchan
    · rw [hformed.head]
      exact hdata
    · rw [hcontent, hclen]
      exact hsize
  · obtain ⟨m, hform, hformed⟩ := formMsg_eq msgID sID rID chant datat snum hclen
    have hcontent : m.head.contentLength = clen := by
      rw [hformed.head]
      rfl
    have hsized : m.Sized := hformed.sized (by rw [hcontent, hclen])
    refine ⟨m, m.bytes, m.bytes.length, hform, msgToBytes_eq hsized, ?_⟩
    have hbig : 65536 ≤ m.head.contentLength.toNat := by
      rw [hcontent]
      omega
    exact iff_of_false (not_accepted_bytes chunkcount hsized hbig) (by omega)

theorem formMsg_accepted_small :
    ∃ m bytes n, formMsg 7 1 2 0 0 1 [1, 2, 3] 3 = .ok m ∧ msgToBytes m = .ok (bytes, n) ∧
      (Accepted 1 bytes n ↔ 3 + hparityBytes 3 + 144 ≤ 65536) :=
  formMsg_accepted 7 1 2 0 0 1 [1, 2, 3] 3 1 (by decide) (by decide) (by decide)

/-- A content of 65535 bytes has the largest length that parses; its message does not
validate. -/
theorem formMsg_accepted_over :
    ¬ ∀ (content : Bytes) (clen : UInt32), clen.toNat = content.length →
      ∀ m bytes n, formMsg 7 1 2 0 0 1 content clen = .ok m → msgToBytes m = .ok (bytes, n) →
        Accepted 1 bytes n := by
  intro hevery
  have hzeros : (List.replicate 65535 (0 : UInt8)).length = 65535 := List.length_replicate
  generalize List.replicate 65535 (0 : UInt8) = content at hzeros
  obtain ⟨m, hform, hformed, hstored, hconsistent⟩ :=
    formMsg_consistent 7 1 2 0 0 1 (show content.length < 65536 by omega)
  rw [hzeros] at hform hformed
  have hlink := hconsistent.lengths
  have hsized := hstored.sized hlink.parity
  have hcontent : m.head.contentLength.toNat = 65535 := by
    rw [hformed.head]
    rfl
  have haccepted := hevery content 65535 hzeros.symm m m.bytes m.bytes.length hform
    (msgToBytes_eq hsized)
  have hmax := (accepted_bytes_iff 1 hstored hlink (by rw [hformed.head]; decide)
    (by rw [hformed.head]; decide) (by omega)).mp haccepted
  have htotal := hsized.bytes_length
  omega

end Hipft
