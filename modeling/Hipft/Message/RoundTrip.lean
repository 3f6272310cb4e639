import Hipft.Cobs.RoundTrip
import Hipft.Message.Verify

/-! # Messages there and back

A formed message survives serialising, stuffing, unstuffing and parsing. A byte
string that parses and verifies is reproduced by serialising up to the length
its header gives; nothing looks at what comes after.
-/

namespace Hipft

open CMemory ByteLayout Stuffing

/-! ## Serialising and parsing -/

theorem vparityBytes_vparityWords {b : Bytes} (hlength : b.length = 32) :
    vparityBytes (vparityWords b) = b := by
  have hword {off : Nat} (hfits : off + 8 ≤ 32) :
      leBytes 8 (hton64 (ntoh64 (UInt64.ofNat (ofLe (slice b off 8))))).toNat = slice b off 8 := by
    have hslice : (slice b off 8).length = 8 := slice_length (hlength ▸ hfits)
    have hlt := ofLe_lt (slice b off 8)
    rw [hslice] at hlt
    rw [hton64, ntoh64_ntoh64, UInt64.toNat_ofNat',
      Nat.mod_eq_of_lt (show _ < 2 ^ 64 from hlt), leBytes_ofLe_of_length hslice]
  have hrange : List.range 4 = [0, 1, 2, 3] := rfl
  simp (disch := decide) only [vparityBytes, vparityWords, hrange, List.map_cons, List.map_nil,
    List.flatMap_cons, List.flatMap_nil, hword, List.append_nil, slice_append_slice, Nat.reduceMul,
    Nat.reduceAdd, slice_zero_of_length hlength]

theorem vparityWords_vparityBytes {vparityData : List UInt64} (hfour : vparityData.length = 4) :
    vparityWords (vparityBytes vparityData) = vparityData := by
  have hword (n : UInt64) :
      ntoh64 (UInt64.ofNat (ofLe (leBytes 8 (hton64 n).toNat))) = n := by
    rw [ofLe_leBytes (by have := (hton64 n).toNat_lt; omega), UInt64.ofNat_toNat, hton64,
      ntoh64_ntoh64]
  have hrange : List.range 4 = [0, 1, 2, 3] := rfl
  obtain ⟨w₀, w₁, w₂, w₃, rfl⟩ := List.length_eq_four.mp hfour
  simp (disch := decide) only [vparityBytes, vparityWords, hrange, List.map_cons, List.map_nil,
    List.flatMap_cons, List.flatMap_nil, List.append_nil, Nat.reduceMul, slice_leBytes_skip,
    slice_leBytes_here, slice_zero_of_length (leBytes_length _ _), Nat.reduceSub, hword]

theorem Msg.Stored.sized {m : Msg} (hstored : m.Stored)
    (hparity : m.head.parityLength.toNat = 32 + hparityBytes m.head.contentLength.toNat) :
    m.Sized where
  content := hstored.content
  vparity := hstored.vparity
  hparity := by rw [hstored.hparity, hparity, Nat.add_sub_cancel_left]

/-- The parts of `m` lie in `b` one behind the other. -/
structure Pieces (b : Bytes) (m : Msg) : Prop where
  head : slice b 0 56 = m.head.bytes
  content : slice b 56 m.head.contentLength.toNat = m.body.content
  vparity : slice b (56 + m.head.contentLength.toNat) 32 = vparityBytes m.body.vparityData
  hparity : slice b (56 + m.head.contentLength.toNat + 32) (m.head.parityLength.toNat - 32) =
    m.body.hparityData
  trail : slice b (56 + m.head.contentLength.toNat + m.head.parityLength.toNat) 56 =
    m.trail.bytes

theorem pieces_bytes {m : Msg} (hstored : m.Stored)
    (hparity : m.head.parityLength.toNat = 32 + hparityBytes m.head.contentLength.toNat) :
    Pieces m.bytes m := by
  have hcontent := hstored.content
  have hwords : (vparityBytes m.body.vparityData).length = 32 := by
    rw [vparityBytes_length, hstored.vparity]
  have hrows : m.body.hparityData.length = hparityBytes m.head.contentLength.toNat := by
    rw [hstored.hparity, hparity, Nat.add_sub_cancel_left]
  have hbytes : m.bytes = m.head.bytes ++ (m.body.content ++ (vparityBytes m.body.vparityData ++
      (m.body.hparityData ++ (m.trail.bytes ++ [])))) := by
    rw [Msg.bytes, List.append_nil, ← hrows, List.take_length]
  constructor
  · rw [hbytes, slice_append_left (by simp), slice_zero_of_length m.head.bytes_length]
  · rw [hbytes, slice_append_middle (by simp) hcontent.symm]
  · rw [hbytes, ← List.append_assoc, slice_append_middle (by simp [hcontent]) hwords.symm]
  · rw [hbytes, ← List.append_assoc, ← List.append_assoc,
      slice_append_middle (by simp [hcontent, hwords]; omega) hstored.hparity.symm]
  · rw [hbytes, ← List.append_assoc, ← List.append_assoc, ← List.append_assoc,
      slice_append_middle (by simp [hcontent, hwords, hrows, hparity]; omega) (by simp)]

theorem parsedMsg_of_pieces {b : Bytes} {m : Msg} (hpieces : Pieces b m)
    (hfour : m.body.vparityData.length = 4) : parsedMsg b = m := by
  simp only [parsedMsg, bodyAt, hpieces.head, MsgHeader.ofBytes_bytes, hpieces.content,
    hpieces.vparity, hpieces.hparity, hpieces.trail, vparityWords_vparityBytes hfour]

/-- Parsing undoes serialising for a message whose parity length is right. -/
theorem parsedMsg_bytes {m : Msg} (hstored : m.Stored)
    (hparity : m.head.parityLength.toNat = 32 + hparityBytes m.head.contentLength.toNat) :
    parsedMsg m.bytes = m :=
  parsedMsg_of_pieces (pieces_bytes hstored hparity) hstored.vparity

theorem fits_bytes {m : Msg} (hstored : m.Stored) (hlink : LengthsLink m.head)
    (hsize : m.head.contentLength.toNat < 65536) : Fits m.head m.bytes.length := by
  have hparity := hlink.parity
  have hlength := (hstored.sized hparity).bytes_length
  have hsmall : hparityBytes m.head.contentLength.toNat < 65536 := by
    unfold hparityBytes
    omega
  exact ⟨by omega, hsize, by omega, by omega⟩

/-- The parser gives back a message from its bytes. -/
theorem msgFromBytes_bytes {m : Msg} (hstored : m.Stored) (hlink : LengthsLink m.head)
    (hsize : m.head.contentLength.toNat < 65536) :
    msgFromBytes m.bytes (UInt64.ofNat m.bytes.length) = .ok (some m) := by
  have hparsed := parsedMsg_bytes hstored hlink.parity
  have hhead : MsgHeader.ofBytes (slice m.bytes 0 56) = m.head := congrArg Msg.head hparsed
  have hfits := fits_bytes hstored hlink hsize
  have hlength := (hstored.sized hlink.parity).bytes_length
  have hnat : (UInt64.ofNat m.bytes.length).toNat = m.bytes.length := by
    have hsmall := hfits.parity
    rw [hlink.parity] at hsmall
    rw [UInt64.toNat_ofNat', Nat.mod_eq_of_lt (by omega)]
  rw [msgFromBytes_eq (Nat.le_of_eq hnat), hhead, hnat, if_pos hfits, hparsed]

/-- Serialising what was parsed gives back the bytes up to the trailer's end. -/
theorem bytes_parsedMsg {b : Bytes} {len : Nat} (hlen : len ≤ b.length)
    (hfits : Fits (MsgHeader.ofBytes (slice b 0 56)) len)
    (hparity : (parsedMsg b).head.parityLength.toNat =
      32 + hparityBytes (parsedMsg b).head.contentLength.toNat) :
    (parsedMsg b).bytes = slice b 0
      (112 + (parsedMsg b).head.contentLength.toNat + (parsedMsg b).head.parityLength.toNat) := by
  have htotal := hfits.total
  have hhead : (parsedMsg b).head = MsgHeader.ofBytes (slice b 0 56) := rfl
  rw [← hhead] at htotal
  generalize hc : (parsedMsg b).head.contentLength.toNat = c at htotal hparity ⊢
  generalize hp : (parsedMsg b).head.parityLength.toNat = p at htotal hparity ⊢
  have hcontent : (parsedMsg b).body.content = slice b 56 c := by rw [← hc]; rfl
  have hvertical : (parsedMsg b).body.vparityData = vparityWords (slice b (56 + c) 32) := by
    rw [← hc]
    rfl
  have hhorizontal : (parsedMsg b).body.hparityData = slice b (56 + c + 32) (hparityBytes c) := by
    rw [show hparityBytes c = p - 32 by omega, ← hc, ← hp]
    rfl
  have htrail : (parsedMsg b).trail = MsgHeader.ofBytes (slice b (56 + c + p) 56) := by
    rw [← hc, ← hp]
    rfl
  have hrows : (slice b (56 + c + 32) (hparityBytes c)).take (hparityBytes c) =
      slice b (56 + c + 32) (hparityBytes c) := by
    rw [slice, List.take_take, Nat.min_self]
  rw [Msg.bytes, hc, hhead, hcontent, hvertical, hhorizontal, htrail, hrows,
    MsgHeader.bytes_ofBytes (slice_length (by omega)),
    MsgHeader.bytes_ofBytes (slice_length (by omega)),
    vparityBytes_vparityWords (slice_length (by omega)), slice_append_slice (by omega),
    slice_append_slice (by omega), slice_append_slice (by omega), slice_append_slice (by omega)]
  have hwidth : 56 + (c + (32 + (hparityBytes c + 56))) = 112 + c + p := by omega
  rw [hwidth]

/-! ## Stuffed messages -/

/-- With a zero checksum in its trailer a message ends in a zero byte. -/
theorem bytes_endsZero {m : Msg} (hcrc : m.trail.crc = 0) :
    ∃ front, m.bytes = front ++ [specialChar] := by
  have htrail : ∃ front, m.trail.bytes = front ++ [specialChar] := by
    have hzero : leBytes 8 (hton64 0).toNat = [0, 0, 0, 0, 0, 0, 0] ++ [specialChar] := by
      decide +kernel
    rw [MsgHeader.bytes, MsgHeader.memory, MsgHeader.toNetwork]
    simp only [hcrc, hzero, ← List.append_assoc]
    exact ⟨_, rfl⟩
  obtain ⟨front, hfront⟩ := htrail
  refine ⟨m.head.bytes ++ (m.body.content ++ (vparityBytes m.body.vparityData ++
    (m.body.hparityData.take (hparityBytes m.head.contentLength.toNat) ++ front))), ?_⟩
  rw [Msg.bytes, hfront]
  simp only [List.append_assoc]

theorem text_cobsBlocks_bytes {m : Msg} (hcrc : m.trail.crc = 0) :
    text (cobsBlocks m.bytes) = m.bytes := by
  obtain ⟨front, hfront⟩ := bytes_endsZero hcrc
  rw [hfront]
  exact (text_split_eq_iff _ _).mpr (by rw [tailLength_append_zero]; exact Nat.dvd_zero 254)

theorem cobsEncode_bytes_length {m : Msg} (hcrc : m.trail.crc = 0) :
    254 * (cobsEncode m.bytes).length ≤ 255 * m.bytes.length + 254 := by
  have hwire := wire_length_le blockCode (cobsBlocks m.bytes)
  rw [text_cobsBlocks_bytes hcrc] at hwire
  have hencode : (cobsEncode m.bytes).length =
      (wire blockCode (cobsBlocks m.bytes)).length + 1 := by
    rw [cobsEncode_eq, List.length_append]
    rfl
  omega

/-- `msg_to_cobs` stays inside the block it asks for. -/
theorem msgToCobs_eq {m : Msg} (hsized : m.Sized) (hcrc : m.trail.crc = 0) :
    msgToCobs m = .ok (cobsEncode m.bytes, (cobsEncode m.bytes).length) := by
  have hlength := hsized.bytes_length
  have hencode := cobsEncode_bytes_length hcrc
  rw [msgToCobs, msgToBytes_eq hsized, ok_bind]
  simp only
  rw [if_pos (by omega), cobsEncodedLengthFromEncoded_cobsEncode]
  rfl

/-- A message built, serialised and stuffed comes back from unstuffing and
parsing equal in every field, and verifies. -/
theorem formMsg_roundTrip (msgID : UInt32) (sID rID : UInt64) (chant datat : UInt8)
    (snum : UInt64) (content : Bytes) (hsize : content.length < 65536) :
    ∃ m bytes buf buflen n decoded m',
      formMsg msgID sID rID chant datat snum content (UInt32.ofNat content.length) = .ok m ∧
      msgToBytes m = .ok (bytes, n) ∧ msgToCobs m = .ok (buf, buflen) ∧
      cobsDecodedLengthFromEncoded buf = .ok n ∧ n = m.head.totalLength.toNat ∧
      cobsDecode buf buflen = .ok decoded ∧ decoded.length = n ∧
      msgFromBytes decoded (UInt64.ofNat n) = .ok (some m') ∧ m' = m ∧
      verifyMsg m' = .ok true := by
  obtain ⟨m, hform, hformed, hstored, hgood⟩ :=
    formMsg_consistent msgID sID rID chant datat snum hsize
  have hparity := hgood.lengths.parity
  have htotal := hgood.lengths.total
  have hsized := hstored.sized hparity
  have hlength := hsized.bytes_length
  have hcrc : m.trail.crc = 0 := by rw [← hgood.fields.crc, hgood.crc]
  have hcontent : m.head.contentLength.toNat < 65536 := by
    rw [← hstored.content, hformed.content]
    exact hsize
  have hdecoded : cobsDecodedLengthFromEncoded (cobsEncode m.bytes) = .ok m.bytes.length := by
    rw [cobsEncode_eq, cobsDecodedLength_frame, text_cobsBlocks_bytes hcrc]
  have hdecode : cobsDecode (cobsEncode m.bytes) (cobsEncode m.bytes).length = .ok m.bytes := by
    rw [cobsDecode_cobsEncode_eq, text_cobsBlocks_bytes hcrc]
  exact ⟨m, m.bytes, _, _, m.bytes.length, m.bytes, m, hform, msgToBytes_eq hsized,
    msgToCobs_eq hsized hcrc, hdecoded, by rw [hlength, htotal], hdecode, rfl,
    msgFromBytes_bytes hstored hgood.lengths hcontent, rfl, (verifyMsg_iff hstored).mpr hgood⟩

/-- A message of three bytes, one of them zero. -/
theorem formMsg_roundTrip_small :
    ∃ m bytes buf buflen n decoded m',
      formMsg 7 1 2 0 0 3 [5, 0, 9] 3 = .ok m ∧
      msgToBytes m = .ok (bytes, n) ∧ msgToCobs m = .ok (buf, buflen) ∧
      cobsDecodedLengthFromEncoded buf = .ok n ∧ n = m.head.totalLength.toNat ∧
      cobsDecode buf buflen = .ok decoded ∧ decoded.length = n ∧
      msgFromBytes decoded (UInt64.ofNat n) = .ok (some m') ∧ m' = m ∧
      verifyMsg m' = .ok true :=
  formMsg_roundTrip 7 1 2 0 0 3 [5, 0, 9] (by decide)

/-! ## Verified messages -/

/-- A verified message is serialised to its bytes exactly when these are as many
as the total length in its header: bytes after the message are not noticed. -/
theorem msgToBytes_msgFromBytes (b : Bytes) (len : UInt64) (hlen : len.toNat = b.length) (m : Msg)
    (hparse : msgFromBytes b len = .ok (some m)) (hverify : verifyMsg m = .ok true) :
    msgToBytes m = .ok (b, b.length) ↔ b.length = ofBe (slice b 8 4) := by
  rw [msgFromBytes_eq (Nat.le_of_eq hlen), hlen] at hparse
  split at hparse
  next hfits =>
    cases hparse
    have hstored := stored_parsedMsg (Nat.le_refl _) hfits
    have hgood := (verifyMsg_iff hstored).mp hverify
    have hparity := hgood.lengths.parity
    have htotal := hgood.lengths.total
    have hheader : (parsedMsg b).head.totalLength.toNat = ofBe (slice b 8 4) := by
      rw [← Nat.zero_add 8]
      exact (headerAt_ofBytes hfits.header).totalLength
    have hbytes := bytes_parsedMsg (Nat.le_refl _) hfits hparity
    rw [msgToBytes_eq (hstored.sized hparity), Except.ok.injEq, Prod.mk.injEq, ← hheader]
    constructor
    · rintro ⟨-, hsame⟩
      rw [← hsame, (hstored.sized hparity).bytes_length, htotal]
    · intro hall
      have hwhole : (parsedMsg b).bytes = b := by
        rw [hbytes]
        exact slice_zero_of_length (by omega)
      exact ⟨hwhole, congrArg _ hwhole⟩
  next => cases hparse

/-- The bytes of an empty message: a header, four words of parity, a trailer. -/
def emptyMsgBytes : Bytes :=
  let header : Bytes := List.replicate 11 0 ++ 144 :: (List.replicate 3 0 ++ 32 ::
    (List.replicate 7 0 ++ 32 :: List.replicate 32 0))
  header ++ (List.replicate 32 0xFF ++ header)

theorem msgToBytes_msgFromBytes_empty :
    ∃ m, msgFromBytes emptyMsgBytes 144 = .ok (some m) ∧
      msgToBytes m = .ok (emptyMsgBytes, 144) := by
  have hparse : msgFromBytes emptyMsgBytes 144 = .ok (some (parsedMsg emptyMsgBytes)) := by
    decide +kernel
  exact ⟨_, hparse, (msgToBytes_msgFromBytes emptyMsgBytes 144 (by decide +kernel) _ hparse
    (by decide +kernel)).mpr (by decide +kernel)⟩

/-- One byte after the empty message is accepted and lost. -/
theorem msgToBytes_msgFromBytes_trailing :
    ¬ ∀ (b : Bytes) (len : UInt64) (m : Msg), len.toNat = b.length →
      msgFromBytes b len = .ok (some m) → verifyMsg m = .ok true →
      msgToBytes m = .ok (b, b.length) := by
  intro hevery
  have hsame := hevery (emptyMsgBytes ++ [7]) 145 (parsedMsg (emptyMsgBytes ++ [7]))
    (by decide +kernel) (by decide +kernel) (by decide +kernel)
  have hactual : msgToBytes (parsedMsg (emptyMsgBytes ++ [7])) = .ok (emptyMsgBytes, 144) := by
    decide +kernel
  rw [hactual] at hsame
  exact absurd hsame (by decide +kernel)

end Hipft
