import Hipft.Cobs.Codec
import Hipft.Message.ByteOrder
import Hipft.Message.Parity

/-! # The message format

A message is a header, a body of content and parities, and a trailer that
repeats the header. Headers and trailers travel as the 56 bytes of the packed
struct, every field in network order.
-/

namespace Hipft

open CMemory ByteLayout

/-- `msg_header_t`. -/
structure MsgHeader where
  mbz : UInt16
  chanType : UInt8
  dataType : UInt8
  msgID : UInt32
  totalLength : UInt32
  bodyLength : UInt32
  contentLength : UInt32
  parityLength : UInt32
  sendID : UInt64
  recvID : UInt64
  segmentNum : UInt64
  crc : UInt64
  deriving DecidableEq, Repr

/-- `msg_trailer_t` has the fields of `msg_header_t`, and the code casts one to
the other. -/
abbrev MsgTrailer := MsgHeader

/-- `msg_body_t`. -/
structure MsgBody where
  content : Bytes
  vparityData : List UInt64
  hparityData : Bytes
  deriving DecidableEq, Repr

/-- `msg_t`. -/
structure Msg where
  head : MsgHeader
  body : MsgBody
  trail : MsgTrailer
  deriving DecidableEq, Repr

/-- `MAX_MESSAGE_SIZE`. -/
def maxMessageSize : UInt64 := 65536

/-! ## Lengths -/

def calculateHeaderLength : UInt64 := 56

def calculateTrailerLength : UInt64 := 56

def calculateParityLength (bufflen : UInt64) : UInt64 :=
  computeVparityLength + computeHparityLength bufflen

def calculateBodyLength (clen : UInt64) : UInt64 := clen + calculateParityLength clen

def calculateTotalLength (clen : UInt64) : UInt64 :=
  calculateHeaderLength + calculateBodyLength clen + calculateTrailerLength

/-! ## Headers in memory -/

/-- The bytes of the struct on a little-endian host; it has no padding. -/
def MsgHeader.memory (h : MsgHeader) : Bytes :=
  leBytes 2 h.mbz.toNat ++ (leBytes 1 h.chanType.toNat ++ (leBytes 1 h.dataType.toNat ++
    (leBytes 4 h.msgID.toNat ++ (leBytes 4 h.totalLength.toNat ++ (leBytes 4 h.bodyLength.toNat ++
    (leBytes 4 h.contentLength.toNat ++ (leBytes 4 h.parityLength.toNat ++
    (leBytes 8 h.sendID.toNat ++ (leBytes 8 h.recvID.toNat ++ (leBytes 8 h.segmentNum.toNat ++
    leBytes 8 h.crc.toNat))))))))))

/-- The struct that lies in the first 56 bytes of a block. -/
def MsgHeader.ofMemory (b : Bytes) : MsgHeader where
  mbz := UInt16.ofNat (ofLe (slice b 0 2))
  chanType := UInt8.ofNat (ofLe (slice b 2 1))
  dataType := UInt8.ofNat (ofLe (slice b 3 1))
  msgID := UInt32.ofNat (ofLe (slice b 4 4))
  totalLength := UInt32.ofNat (ofLe (slice b 8 4))
  bodyLength := UInt32.ofNat (ofLe (slice b 12 4))
  contentLength := UInt32.ofNat (ofLe (slice b 16 4))
  parityLength := UInt32.ofNat (ofLe (slice b 20 4))
  sendID := UInt64.ofNat (ofLe (slice b 24 8))
  recvID := UInt64.ofNat (ofLe (slice b 32 8))
  segmentNum := UInt64.ofNat (ofLe (slice b 40 8))
  crc := UInt64.ofNat (ofLe (slice b 48 8))

/-- The swaps of `msg_header_to_bytes`. -/
def MsgHeader.toNetwork (t : MsgHeader) : MsgHeader :=
  { t with
    sendID := hton64 t.sendID
    recvID := hton64 t.recvID
    segmentNum := hton64 t.segmentNum
    crc := hton64 t.crc
    msgID := htonl t.msgID
    totalLength := htonl t.totalLength
    bodyLength := htonl t.bodyLength
    contentLength := htonl t.contentLength
    parityLength := htonl t.parityLength
    mbz := htons t.mbz }

/-- The swaps of `msg_ht_from_bytes`. -/
def MsgHeader.toHost (result : MsgHeader) : MsgHeader :=
  { result with
    sendID := ntoh64 result.sendID
    recvID := ntoh64 result.recvID
    segmentNum := ntoh64 result.segmentNum
    crc := ntoh64 result.crc
    msgID := ntohl result.msgID
    totalLength := ntohl result.totalLength
    bodyLength := ntohl result.bodyLength
    contentLength := ntohl result.contentLength
    parityLength := ntohl result.parityLength
    mbz := ntohs result.mbz }

/-! ## Forming a message -/

/-- The fields that `form_msg` puts into the header. -/
def formHeader (msgID : UInt32) (sID rID : UInt64) (chant datat : UInt8) (snum : UInt64)
    (clen : UInt32) : MsgHeader where
  mbz := 0
  chanType := chant
  dataType := datat
  msgID := msgID
  totalLength := (calculateTotalLength clen.toUInt64).toUInt32
  bodyLength := (calculateBodyLength clen.toUInt64).toUInt32
  contentLength := clen
  parityLength := (calculateParityLength clen.toUInt64).toUInt32
  sendID := sID
  recvID := rID
  segmentNum := snum
  crc := 0

/-- `form_msg`, with `msgID` the number it draws. -/
def formMsg (msgID : UInt32) (sID rID : UInt64) (chant datat : UInt8) (snum : UInt64)
    (content : Bytes) (clen : UInt32) : CRun Msg := do
  let head := formHeader msgID sID rID chant datat snum clen
  let copy ← readRange content 0 clen.toNat
  let vparityData ← computeVparity content clen.toUInt64
  let hparityData ← computeHparity content clen.toUInt64
  -- The trailer is zeroed, and every field but `mbz` is copied from the header.
  pure { head
         body := { content := copy, vparityData, hparityData }
         trail := { head with mbz := 0 } }

/-! ## Serialising -/

/-- `msg_header_to_bytes(hdr, dst, dstlen, len)`. -/
def msgHeaderToBytes (hdr : MsgHeader) (dst : Cursor UInt8) (dstlen : Nat) :
    CRun (Cursor UInt8) :=
  if dstlen < 56 then .error .assertion else dst.put hdr.toNetwork.memory

/-- `msg_trailer_to_bytes(t, dst, dstlen, currlen)`, whose own assertion
compares with the size of the pointer `t`. -/
def msgTrailerToBytes (t : MsgTrailer) (dst : Cursor UInt8) (dstlen : Nat) :
    CRun (Cursor UInt8) :=
  if dstlen < 8 then .error .assertion else msgHeaderToBytes t dst dstlen

/-- One pass of the loop that copies the vertical parity. -/
def putVparity (vparityData : List UInt64) (dst : Cursor UInt8) (i : Nat) :
    CRun (Cursor UInt8) := do
  let word ← readAt vparityData i
  dst.put (leBytes 8 (hton64 word).toNat)

/-- `msg_to_bytes`: the bytes and their number. -/
def msgToBytes (src : Msg) : CRun (Bytes × Nat) := do
  let len := (calculateTotalLength src.head.contentLength.toUInt64).toNat
  let dst ← msgHeaderToBytes src.head ⟨List.replicate len 0, 0⟩ len
  let content ← readRange src.body.content 0 src.head.contentLength.toNat
  let dst ← dst.put content
  let dst ← (List.range 4).foldlM (putVparity src.body.vparityData) dst
  let hparity ← readRange src.body.hparityData 0
    (computeHparityLength src.head.contentLength.toUInt64).toNat
  let dst ← dst.put hparity
  -- The bytes filled so far are passed as the room that is left.
  let dst ← msgTrailerToBytes src.trail dst dst.filled
  pure (dst.block, dst.filled)

/-- `msg_to_cobs`: the encoded bytes and their number. The encoder writes into a
block of twice the message's length. -/
def msgToCobs (src : Msg) : CRun (Bytes × Nat) := do
  let (bytes, l2) ← msgToBytes src
  let buf := cobsEncode bytes
  if buf.length ≤ 2 * l2 then do
    let len ← cobsEncodedLengthFromEncoded buf
    pure (buf, len)
  else .error .outOfBounds

end Hipft
