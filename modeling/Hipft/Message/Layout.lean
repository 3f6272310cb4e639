import Hipft.Message.Format
import Hipft.Message.ParityLaws

/-! # The layout of a message

The bytes of a header determine its fields and are determined by them. What
`msg_to_bytes` fills is the concatenation of header, content, both parities and
trailer, and it fills the block it asked for exactly.
-/

namespace Hipft

open CMemory ByteLayout

/-! ## Headers -/

/-- The bytes of a header on the wire. -/
def MsgHeader.bytes (h : MsgHeader) : Bytes := h.toNetwork.memory

/-- The header whose bytes lie at the front of `b`. -/
def MsgHeader.ofBytes (b : Bytes) : MsgHeader := (MsgHeader.ofMemory b).toHost

/-- The fields of `h` are the big-endian numbers from offset `off` on. -/
structure HeaderAt (b : Bytes) (off : Nat) (h : MsgHeader) : Prop where
  mbz : h.mbz.toNat = ofBe (slice b off 2)
  chanType : h.chanType.toNat = ofBe (slice b (off + 2) 1)
  dataType : h.dataType.toNat = ofBe (slice b (off + 3) 1)
  msgID : h.msgID.toNat = ofBe (slice b (off + 4) 4)
  totalLength : h.totalLength.toNat = ofBe (slice b (off + 8) 4)
  bodyLength : h.bodyLength.toNat = ofBe (slice b (off + 12) 4)
  contentLength : h.contentLength.toNat = ofBe (slice b (off + 16) 4)
  parityLength : h.parityLength.toNat = ofBe (slice b (off + 20) 4)
  sendID : h.sendID.toNat = ofBe (slice b (off + 24) 8)
  recvID : h.recvID.toNat = ofBe (slice b (off + 32) 8)
  segmentNum : h.segmentNum.toNat = ofBe (slice b (off + 40) 8)
  crc : h.crc.toNat = ofBe (slice b (off + 48) 8)

theorem MsgHeader.memory_length (h : MsgHeader) : h.memory.length = 56 := by
  simp [MsgHeader.memory]

@[simp] theorem MsgHeader.bytes_length (h : MsgHeader) : h.bytes.length = 56 :=
  h.toNetwork.memory_length

theorem MsgHeader.toHost_toNetwork (h : MsgHeader) : h.toNetwork.toHost = h := by
  simp only [MsgHeader.toHost, MsgHeader.toNetwork, hton64, htonl, htons, ntoh64_ntoh64,
    ntohl_ntohl, ntohs_ntohs]

theorem MsgHeader.toNetwork_toHost (h : MsgHeader) : h.toHost.toNetwork = h := by
  simp only [MsgHeader.toHost, MsgHeader.toNetwork, hton64, htonl, htons, ntoh64_ntoh64,
    ntohl_ntohl, ntohs_ntohs]

theorem MsgHeader.ofMemory_memory (h : MsgHeader) : MsgHeader.ofMemory h.memory = h := by
  have h8 (n : UInt64) : UInt64.ofNat (ofLe (leBytes 8 n.toNat)) = n := by
    rw [ofLe_leBytes (by have := n.toNat_lt; omega), UInt64.ofNat_toNat]
  have h4 (n : UInt32) : UInt32.ofNat (ofLe (leBytes 4 n.toNat)) = n := by
    rw [ofLe_leBytes (by have := n.toNat_lt; omega), UInt32.ofNat_toNat]
  have h2 (n : UInt16) : UInt16.ofNat (ofLe (leBytes 2 n.toNat)) = n := by
    rw [ofLe_leBytes (by have := n.toNat_lt; omega), UInt16.ofNat_toNat]
  have h1 (n : UInt8) : UInt8.ofNat (ofLe (leBytes 1 n.toNat)) = n := by
    rw [ofLe_leBytes (by have := n.toNat_lt; omega), UInt8.ofNat_toNat]
  simp (disch := decide) only [MsgHeader.ofMemory, MsgHeader.memory, slice_leBytes_here,
    slice_leBytes_skip, Nat.reduceSub, slice_zero_of_length (leBytes_length _ _), h8, h4, h2, h1]

theorem MsgHeader.memory_ofMemory {b : Bytes} (hlength : b.length = 56) :
    (MsgHeader.ofMemory b).memory = b := by
  have hfield {off w : Nat} (hfits : off + w ≤ 56) :
      leBytes w (ofLe (slice b off w)) = slice b off w :=
    leBytes_ofLe_of_length (slice_length (hlength ▸ hfits))
  have hlt {off w : Nat} (hfits : off + w ≤ 56) : ofLe (slice b off w) < 256 ^ w := by
    have hvalue := ofLe_lt (slice b off w)
    rwa [slice_length (hlength ▸ hfits)] at hvalue
  have h8 {off : Nat} (hfits : off + 8 ≤ 56) :
      leBytes 8 (UInt64.ofNat (ofLe (slice b off 8))).toNat = slice b off 8 := by
    rw [UInt64.toNat_ofNat', Nat.mod_eq_of_lt (show _ < 2 ^ 64 from hlt hfits), hfield hfits]
  have h4 {off : Nat} (hfits : off + 4 ≤ 56) :
      leBytes 4 (UInt32.ofNat (ofLe (slice b off 4))).toNat = slice b off 4 := by
    rw [UInt32.toNat_ofNat', Nat.mod_eq_of_lt (show _ < 2 ^ 32 from hlt hfits), hfield hfits]
  have h2 {off : Nat} (hfits : off + 2 ≤ 56) :
      leBytes 2 (UInt16.ofNat (ofLe (slice b off 2))).toNat = slice b off 2 := by
    rw [UInt16.toNat_ofNat', Nat.mod_eq_of_lt (show _ < 2 ^ 16 from hlt hfits), hfield hfits]
  have h1 {off : Nat} (hfits : off + 1 ≤ 56) :
      leBytes 1 (UInt8.ofNat (ofLe (slice b off 1))).toNat = slice b off 1 := by
    rw [UInt8.toNat_ofNat', Nat.mod_eq_of_lt (show _ < 2 ^ 8 from hlt hfits), hfield hfits]
  simp (disch := decide) only [MsgHeader.memory, MsgHeader.ofMemory, h8, h4, h2, h1,
    slice_append_slice, Nat.reduceAdd, slice_zero_of_length hlength]

theorem MsgHeader.ofBytes_bytes (h : MsgHeader) : MsgHeader.ofBytes h.bytes = h := by
  rw [MsgHeader.ofBytes, MsgHeader.bytes, MsgHeader.ofMemory_memory, MsgHeader.toHost_toNetwork]

theorem MsgHeader.bytes_ofBytes {b : Bytes} (hlength : b.length = 56) :
    (MsgHeader.ofBytes b).bytes = b := by
  rw [MsgHeader.bytes, MsgHeader.ofBytes, MsgHeader.toNetwork_toHost,
    MsgHeader.memory_ofMemory hlength]

/-- The header read from a slice has the big-endian fields at its offset. -/
theorem headerAt_ofBytes {b : Bytes} {off : Nat} (hfits : off + 56 ≤ b.length) :
    HeaderAt b off (MsgHeader.ofBytes (slice b off 56)) := by
  have hslice {o w : Nat} (ho : o + w ≤ 56) :
      slice (slice b off 56) o w = slice b (off + o) w := slice_slice ho
  have hlength {o w : Nat} (ho : o + w ≤ 56) : (slice b (off + o) w).length = w :=
    slice_length (by omega)
  have h8 {o : Nat} (ho : o + 8 ≤ 56) :
      (ntoh64 (UInt64.ofNat (ofLe (slice b (off + o) 8)))).toNat = ofBe (slice b (off + o) 8) :=
    ntoh64_ofLe (hlength ho)
  have h4 {o : Nat} (ho : o + 4 ≤ 56) :
      (ntohl (UInt32.ofNat (ofLe (slice b (off + o) 4)))).toNat = ofBe (slice b (off + o) 4) :=
    ntohl_ofLe (hlength ho)
  have h2 : (ntohs (UInt16.ofNat (ofLe (slice b off 2)))).toNat = ofBe (slice b off 2) :=
    ntohs_ofLe (slice_length (by omega))
  have h1 {o : Nat} (ho : o + 1 ≤ 56) :
      (UInt8.ofNat (ofLe (slice b (off + o) 1))).toNat = ofBe (slice b (off + o) 1) := by
    obtain ⟨byte, hbyte⟩ := List.length_eq_one_iff.mp (hlength ho)
    rw [hbyte]
    simp [ofLe, ofBe]
  constructor <;>
    simp (disch := decide) only [MsgHeader.ofBytes, MsgHeader.ofMemory, MsgHeader.toHost, hslice,
      Nat.add_zero, h8, h4, h2, h1]

/-! ## Lengths -/

/-- The horizontal parity bytes of `n` bytes: one bit for each 4-byte word. -/
def hparityBytes (n : Nat) : Nat := ((n + 3) / 4 + 7) / 8

theorem computeHparityLength_eq (clen : UInt32) :
    (computeHparityLength clen.toUInt64).toNat = hparityBytes clen.toNat := by
  rw [computeHparityLength_toNat, UInt32.toNat_toUInt64, hparityBytes]

theorem calculateParityLength_toNat (clen : UInt32) :
    (calculateParityLength clen.toUInt64).toNat = 32 + hparityBytes clen.toNat := by
  have hclen := clen.toNat_lt
  have hvparity : computeVparityLength.toNat = 32 := rfl
  have hsmall : hparityBytes clen.toNat < 2 ^ 32 := by
    unfold hparityBytes
    omega
  rw [calculateParityLength, UInt64.toNat_add, computeHparityLength_eq, hvparity]
  omega

theorem calculateBodyLength_toNat (clen : UInt32) :
    (calculateBodyLength clen.toUInt64).toNat = clen.toNat + (32 + hparityBytes clen.toNat) := by
  have hclen := clen.toNat_lt
  have hsmall : hparityBytes clen.toNat < 2 ^ 32 := by
    unfold hparityBytes
    omega
  rw [calculateBodyLength, UInt64.toNat_add, calculateParityLength_toNat, UInt32.toNat_toUInt64]
  omega

theorem calculateTotalLength_toNat (clen : UInt32) :
    (calculateTotalLength clen.toUInt64).toNat =
      clen.toNat + hparityBytes clen.toNat + 144 := by
  have hclen := clen.toNat_lt
  have hheader : calculateHeaderLength.toNat = 56 := rfl
  have htrailer : calculateTrailerLength.toNat = 56 := rfl
  have hsmall : hparityBytes clen.toNat < 2 ^ 32 := by
    unfold hparityBytes
    omega
  rw [calculateTotalLength, UInt64.toNat_add, UInt64.toNat_add, calculateBodyLength_toNat,
    hheader, htrailer]
  omega

/-! ## The bytes of a message -/

/-- The vertical parity words on the wire. -/
def vparityBytes (vparityData : List UInt64) : Bytes :=
  vparityData.flatMap fun word => leBytes 8 (hton64 word).toNat

/-- The buffers of a message are as long as its content length asks for. -/
structure Msg.Sized (m : Msg) : Prop where
  content : m.body.content.length = m.head.contentLength.toNat
  vparity : m.body.vparityData.length = 4
  hparity : hparityBytes m.head.contentLength.toNat ≤ m.body.hparityData.length

/-- Header, content, vertical parity, horizontal parity and trailer. -/
def Msg.bytes (m : Msg) : Bytes :=
  m.head.bytes ++ (m.body.content ++ (vparityBytes m.body.vparityData ++
    (m.body.hparityData.take (hparityBytes m.head.contentLength.toNat) ++ m.trail.bytes)))

theorem vparityBytes_length (vparityData : List UInt64) :
    (vparityBytes vparityData).length = 8 * vparityData.length := by
  induction vparityData with
  | nil => rfl
  | cons word rest ih =>
      rw [vparityBytes, List.flatMap_cons, List.length_append, leBytes_length, ← vparityBytes, ih,
        List.length_cons]
      omega

theorem Msg.Sized.bytes_length {m : Msg} (hsized : m.Sized) :
    m.bytes.length =
      m.head.contentLength.toNat + hparityBytes m.head.contentLength.toNat + 144 := by
  have hhparity := hsized.hparity
  simp only [Msg.bytes, List.length_append, MsgHeader.bytes_length, hsized.content,
    vparityBytes_length, hsized.vparity, List.length_take]
  omega

/-- The copying loop from any word on. -/
theorem putVparity_loop (front words : List UInt64) (done room : Bytes)
    (hroom : 8 * words.length ≤ room.length) :
    (List.range' front.length words.length).foldlM (putVparity (front ++ words))
        (Cursor.over done room) =
      .ok (Cursor.over (done ++ vparityBytes words) (room.drop (8 * words.length))) := by
  induction words generalizing front done room with
  | nil => simp [vparityBytes]
  | cons word words ih =>
      rw [List.length_cons] at hroom
      have hnext := ih (front ++ [word]) (done ++ leBytes 8 (hton64 word).toNat) (room.drop 8)
        (by rw [List.length_drop]; omega)
      rw [List.append_assoc, List.singleton_append, List.length_append, List.length_singleton]
        at hnext
      rw [List.length_cons, List.range'_succ, List.foldlM_cons, putVparity, readAt_append_length,
        ok_bind, Cursor.put_over (by rw [leBytes_length]; omega), ok_bind, leBytes_length, hnext,
        List.drop_drop, List.append_assoc, Nat.mul_succ, Nat.add_comm]
      rfl

theorem msgHeaderToBytes_over {h : MsgHeader} {done room : Bytes} {dstlen : Nat}
    (hassert : 56 ≤ dstlen) (hroom : 56 ≤ room.length) :
    msgHeaderToBytes h (Cursor.over done room) dstlen =
      .ok (Cursor.over (done ++ h.bytes) (room.drop 56)) := by
  rw [msgHeaderToBytes, if_neg (by omega), ← MsgHeader.bytes,
    Cursor.put_over (by rw [MsgHeader.bytes_length]; exact hroom), MsgHeader.bytes_length]

theorem msgTrailerToBytes_over {t : MsgTrailer} {done room : Bytes} (hdone : 56 ≤ done.length)
    (hroom : 56 ≤ room.length) :
    msgTrailerToBytes t (Cursor.over done room) (Cursor.over done room).filled =
      .ok (Cursor.over (done ++ t.bytes) (room.drop 56)) := by
  have hfilled : (Cursor.over done room).filled = done.length := rfl
  rw [msgTrailerToBytes, hfilled, if_neg (by omega), msgHeaderToBytes_over hdone hroom]

/-- `msg_to_bytes` ends inside its blocks with the bytes of the message. -/
theorem msgToBytes_eq {m : Msg} (hsized : m.Sized) :
    msgToBytes m = .ok (m.bytes, m.bytes.length) := by
  have htotal := calculateTotalLength_toNat m.head.contentLength
  have hlength := hsized.bytes_length
  have hcontent := hsized.content
  have hhparity := hsized.hparity
  have hfour := hsized.vparity
  have hstart : (⟨List.replicate (calculateTotalLength m.head.contentLength.toUInt64).toNat 0, 0⟩ :
      Cursor UInt8) = Cursor.over [] (List.replicate m.bytes.length 0) := by
    rw [htotal, ← hlength]
    rfl
  have hloop := putVparity_loop [] m.body.vparityData (m.head.bytes ++ m.body.content)
    ((List.replicate m.bytes.length 0).drop (56 + m.body.content.length))
    (by rw [List.length_drop, List.length_replicate]; omega)
  rw [List.length_nil, List.nil_append, hfour, ← List.range_eq_range'] at hloop
  have htake : (m.body.hparityData.take (hparityBytes m.head.contentLength.toNat)).length =
      hparityBytes m.head.contentLength.toNat := by
    rw [List.length_take]
    omega
  have hend : ∀ done : Bytes, done = m.bytes →
      ((Cursor.over done []).block, (Cursor.over done []).filled) = (m.bytes, m.bytes.length) := by
    rintro done rfl
    rw [Cursor.over, List.append_nil]
  simp only [msgToBytes, hstart]
  rw [msgHeaderToBytes_over (by omega) (by simp; omega), ok_bind, readRange_of_le (by omega),
    ok_bind, List.drop_zero, ← hcontent, List.take_length, Cursor.put_over (by simp; omega),
    ok_bind, List.drop_drop, List.nil_append, hloop, ok_bind, computeHparityLength_eq,
    readRange_of_le (by omega), ok_bind, List.drop_zero, Cursor.put_over (by simp; omega), ok_bind,
    msgTrailerToBytes_over (by simp) (by simp; omega), ok_bind, pure_eq_ok,
    List.drop_eq_nil_of_le (by simp; omega), hend]
  rw [Msg.bytes]
  simp only [List.append_assoc]

/-! ## Formed messages -/

/-- The two parities of the body make every column odd in each word and every
row odd. -/
structure ParityOdd (content : Bytes) (vparityData : List UInt64) (hparityData : Bytes) :
    Prop where
  columns : ∀ w < 4, ∀ c < 32, columnSum content c + storedColumn (vparityData.getD w 0) c = 1
  rows : ∀ w < (content.length + 3) / 4, rowSum content w + BitString.bitAt hparityData w = 1

/-- A message that `form_msg` can return: the trailer is the header, and the
parity bits are set for what is even. -/
structure Formed (h : MsgHeader) (bytes : Bytes) (m : Msg) : Prop where
  head : m.head = h
  trail : m.trail = h
  content : m.body.content = bytes
  vparity : m.body.vparityData.length = 4
  hparity : m.body.hparityData.length = hparityBytes bytes.length
  columns : ∀ w < 4, ∀ i < 64,
    ((m.body.vparityData.getD w 0).toNat.testBit i = true ↔ columnSum bytes (min i 31) = 0)
  rows : ∀ w < (bytes.length + 3) / 4, rowSum bytes w + BitString.bitAt m.body.hparityData w = 1

theorem Formed.odd {h : MsgHeader} {bytes : Bytes} {m : Msg} (hformed : Formed h bytes m) :
    ParityOdd m.body.content m.body.vparityData m.body.hparityData where
  columns := by
    intro w hw c hc
    rw [hformed.content]
    exact column_odd_of_bits (hformed.columns w hw) hc
  rows := by
    rw [hformed.content]
    exact hformed.rows

theorem Formed.sized {h : MsgHeader} {bytes : Bytes} {m : Msg} (hformed : Formed h bytes m)
    (hclen : m.head.contentLength.toNat = bytes.length) : m.Sized where
  content := by rw [hformed.content, hclen]
  vparity := hformed.vparity
  hparity := by rw [hformed.hparity, hclen]

theorem formMsg_eq (msgID : UInt32) (sID rID : UInt64) (chant datat : UInt8) (snum : UInt64)
    {content : Bytes} {clen : UInt32} (hclen : clen.toNat = content.length) :
    ∃ m, formMsg msgID sID rID chant datat snum content clen = .ok m ∧
      Formed (formHeader msgID sID rID chant datat snum clen) content m := by
  have hlen : clen.toUInt64.toNat = content.length := by rw [UInt32.toNat_toUInt64, hclen]
  obtain ⟨vparity, hvrun, hfour, hcolumns⟩ := computeVparity_eq hlen
  obtain ⟨hparity, hhrun, hhlength, hrows⟩ := computeHparity_eq hlen
  rw [computeHparityLength_eq, hclen] at hhlength
  rw [computeHparityWords_toNat, hlen] at hrows
  simp only [formMsg]
  rw [readRange_of_le (by omega), ok_bind, List.drop_zero, hclen, List.take_length, hvrun, ok_bind,
    hhrun, ok_bind]
  exact ⟨_, rfl, rfl, rfl, rfl, hfour, hhlength, hcolumns, hrows⟩

/-- `form_msg` of a longer buffer takes its first `clen` bytes. -/
theorem formMsg_prefix (msgID : UInt32) (sID rID : UInt64) (chant datat : UInt8) (snum : UInt64)
    {content : Bytes} {clen : UInt32} (hclen : clen.toNat ≤ content.length) :
    ∃ m, formMsg msgID sID rID chant datat snum content clen = .ok m ∧
      Formed (formHeader msgID sID rID chant datat snum clen) (content.take clen.toNat) m := by
  have htake : (content.take clen.toNat).length = clen.toNat := by
    rw [List.length_take]
    omega
  obtain ⟨m, hform, hformed⟩ := formMsg_eq msgID sID rID chant datat snum htake.symm
  refine ⟨m, ?_, hformed⟩
  have hvparity := computeVparity_take content clen.toUInt64
  have hhparity := computeHparity_take content clen.toUInt64
  rw [UInt32.toNat_toUInt64] at hvparity hhparity
  rw [← hform, formMsg, formMsg, hvparity, hhparity, readRange_of_le (by omega),
    readRange_of_le (by omega), List.drop_zero, List.drop_zero, List.take_take, Nat.min_self]

end Hipft
