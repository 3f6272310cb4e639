import Hipft.Message.Parse

/-! # The client's error handling

Every handler ends in one line of the error log. A line is kept as a record of
its columns, without the peer's address, which is the same in all of them.
-/

namespace Hipft

open CMemory ByteLayout

/-- The `type` column of the log. -/
inductive LogType
  | cobs
  | msg
  deriving DecidableEq, Repr

/-- The `subtype` column of the log. -/
inductive LogSubtype
  | nullPacket
  | fragmentHeader
  | smashedPacket
  | unknown
  | parse
  | headTrail
  deriving DecidableEq, Repr

/-- The `specific` column of the log: what is printed into it. -/
inductive LogSpecific
  | absent
  | uninitialised
  | messageOverBuffer (total : UInt32) (n : Nat)
  | len (n : Nat)
  | runt (n : Nat)
  | totalLengthOver (total : UInt32) (n : Nat)
  | bodyLengthOver (body total : UInt32)
  | contentLenOver (content : UInt32) (n : Nat)
  | chanType (value : UInt8)
  | dataType (value : UInt8)
  | totalLengthOverMax (total : UInt32)
  | totalLengthOverLen (total : UInt32) (n : Nat)
  | bodyLengthOverTotal (body total : UInt32)
  | hammingDistance (hd : Nat)
  deriving DecidableEq, Repr

def LogType.text : LogType → String
  | cobs => "cobs"
  | msg => "msg"

def LogSubtype.text : LogSubtype → String
  | nullPacket => "null packet"
  | fragmentHeader => "fragment-header"
  | smashedPacket => "smashed packet"
  | unknown => "unknown"
  | parse => "parse"
  | headTrail => "head<>trail"

/-- A `uint32` printed by `%d`. -/
def signedText (n : UInt32) : String := toString n.toInt32.toInt

/-- The text of the column, or nothing where an uninitialised buffer is printed. -/
def LogSpecific.text : LogSpecific → Option String
  | absent => some ""
  | uninitialised => none
  | messageOverBuffer total n =>
      some ("msg len(" ++ signedText total ++ ")>buffer len(" ++ toString n ++ ")")
  | len n => some ("len=" ++ toString n)
  | runt n => some ("runt " ++ toString n)
  | totalLengthOver total n => some ("totalLength " ++ toString total.toNat ++ ">" ++ toString n)
  | bodyLengthOver body total =>
      some ("bodyLength " ++ toString body.toNat ++ ">" ++ toString total.toNat)
  | contentLenOver content n => some ("contentLen " ++ toString content.toNat ++ ">" ++ toString n)
  | chanType value => some ("chanType " ++ toString value.toNat)
  | dataType value => some ("dataType " ++ toString value.toNat)
  | totalLengthOverMax total =>
      some ("totalLength>max " ++ signedText total ++ ">" ++ toString maxMessageSize.toNat)
  | totalLengthOverLen total n =>
      some ("totalLength>len " ++ signedText total ++ ">" ++ toString n)
  | bodyLengthOverTotal body total =>
      some ("bodyLength " ++ signedText body ++ ">" ++ signedText total)
  | hammingDistance hd => some ("HD " ++ toString hd)

/-- A call of `log_error`; `packet` is empty where no packet data is given. -/
structure LogEntry where
  blockcount : Nat
  type : LogType
  subtype : LogSubtype
  specific : LogSpecific
  packet : Bytes
  deriving DecidableEq, Repr

/-- A byte printed by `%.2x`. -/
def hexText (byte : UInt8) : String :=
  String.ofList [Nat.digitChar (byte.toNat / 16), Nat.digitChar (byte.toNat % 16)]

/-- The line that `log_error` prints, if all that it prints is initialised. -/
def LogEntry.line (peer : String) (entry : LogEntry) : Option String :=
  entry.specific.text.map fun specific =>
    peer ++ "," ++ toString entry.blockcount ++ "," ++ entry.type.text ++ "," ++
      entry.subtype.text ++ "," ++ specific ++ "," ++ String.join (entry.packet.map hexText) ++
      ",\n"

/-! ## Chunks that are not COBS strings -/

/-- `handle_null_packet(peer, blockcount)`. -/
def handleNullPacket (blockcount : Nat) : LogEntry :=
  { blockcount, type := .cobs, subtype := .nullPacket, specific := .absent, packet := [] }

/-- `hce_try_header(peer, blockcount, cobs, len)`: the entry it logs, or nothing
when it returns 1. -/
def hceTryHeader (blockcount : Nat) (cobs : Bytes) (len : Nat) : CRun (Option LogEntry) := do
  let (decoded, mh) ← cobsPartialDecode cobs len 56
  if decoded ≠ 56 then return none
  let totalLength := ntohl (MsgHeader.ofMemory mh).totalLength
  if totalLength.toNat > len then
    return some { blockcount, type := .cobs, subtype := .fragmentHeader,
                  specific := .messageOverBuffer totalLength len, packet := [] }
  -- Nothing has been printed into `tmp` on this path.
  return some { blockcount, type := .cobs, subtype := .smashedPacket,
                specific := .uninitialised, packet := [] }

/-- `handle_cobs_errors(peer, blockcount, cobs_string, len)`. -/
def handleCobsErrors (blockcount : Nat) (cobsString : Bytes) (len : Nat) : CRun LogEntry := do
  match ← hceTryHeader blockcount cobsString len with
  | some entry => pure entry
  | none =>
      pure { blockcount, type := .cobs, subtype := .unknown, specific := .len len, packet := [] }

/-! ## Messages that do not parse -/

/-- `handle_busted_msg1(peer, blockcount, buffer, len)`. -/
def handleBustedMsg1 (blockcount : Nat) (buffer : Bytes) (len : UInt64) : CRun LogEntry := do
  let parse (specific : LogSpecific) (packet : Bytes) : LogEntry :=
    { blockcount, type := .msg, subtype := .parse, specific, packet }
  match ← msgHtFromBytes buffer 0 len with
  | none =>
      if len.toNat < 56 then do
        let packet ← readRange buffer 0 len.toNat
        pure (parse (.runt len.toNat) packet)
      else pure (parse .absent [])
  | some (head, _, remain) =>
      if head.totalLength.toUInt64 > maxMessageSize ∨ head.totalLength.toUInt64 > remain then
        pure (parse (.totalLengthOver head.totalLength remain.toNat) [])
      else if head.bodyLength > head.totalLength then
        pure (parse (.bodyLengthOver head.bodyLength head.totalLength) [])
      else if head.contentLength.toUInt64 > remain then
        pure (parse (.contentLenOver head.contentLength remain.toNat) [])
      else pure (parse .absent [])

/-! ## Messages that parse -/

/-- `hd_table`: the number of bits set in each byte. -/
def hdTable : List Nat := [
  0, 1, 1, 2, 1, 2, 2, 3, 1, 2, 2, 3, 2, 3, 3, 4,
  1, 2, 2, 3, 2, 3, 3, 4, 2, 3, 3, 4, 3, 4, 4, 5,
  1, 2, 2, 3, 2, 3, 3, 4, 2, 3, 3, 4, 3, 4, 4, 5,
  2, 3, 3, 4, 3, 4, 4, 5, 3, 4, 4, 5, 4, 5, 5, 6,
  1, 2, 2, 3, 2, 3, 3, 4, 2, 3, 3, 4, 3, 4, 4, 5,
  2, 3, 3, 4, 3, 4, 4, 5, 3, 4, 4, 5, 4, 5, 5, 6,
  2, 3, 3, 4, 3, 4, 4, 5, 3, 4, 4, 5, 4, 5, 5, 6,
  3, 4, 4, 5, 4, 5, 5, 6, 4, 5, 5, 6, 5, 6, 6, 7,
  1, 2, 2, 3, 2, 3, 3, 4, 2, 3, 3, 4, 3, 4, 4, 5,
  2, 3, 3, 4, 3, 4, 4, 5, 3, 4, 4, 5, 4, 5, 5, 6,
  2, 3, 3, 4, 3, 4, 4, 5, 3, 4, 4, 5, 4, 5, 5, 6,
  3, 4, 4, 5, 4, 5, 5, 6, 4, 5, 5, 6, 5, 6, 6, 7,
  2, 3, 3, 4, 3, 4, 4, 5, 3, 4, 4, 5, 4, 5, 5, 6,
  3, 4, 4, 5, 4, 5, 5, 6, 4, 5, 5, 6, 5, 6, 6, 7,
  3, 4, 4, 5, 4, 5, 5, 6, 4, 5, 5, 6, 5, 6, 6, 7,
  4, 5, 5, 6, 5, 6, 6, 7, 5, 6, 6, 7, 6, 7, 7, 8]

/-- One pass of `hdcmp`, over byte `i`. -/
def hdcmpPass (b1 b2 : Bytes) (state : Nat × Bytes) (i : Nat) : CRun (Nat × Bytes) := do
  let x ← readAt b1 i
  let y ← readAt b2 i
  let distance ← readAt hdTable (x ^^^ y).toNat
  pure (state.1 + distance, state.2 ++ [x ^^^ y])

/-- `hdcmp(b1, b2, xorbuf, l)`: the Hamming distance, and the bit differences. -/
def hdcmp (b1 b2 : Bytes) (l : Nat) : CRun (Nat × Bytes) :=
  (List.range l).foldlM (hdcmpPass b1 b2) (0, [])

/-- The range checks of `validate_message`: the entry of the first that fails. -/
def validateRanges (head : MsgHeader) (len : Nat) : Option LogSpecific :=
  if head.chanType > 1 then some (.chanType head.chanType)
  else if head.dataType > 4 then some (.dataType head.dataType)
  else if head.totalLength.toUInt64 > maxMessageSize then
    some (.totalLengthOverMax head.totalLength)
  else if head.totalLength.toNat > len then some (.totalLengthOverLen head.totalLength len)
  else if head.bodyLength > head.totalLength then
    some (.bodyLengthOverTotal head.bodyLength head.totalLength)
  else none

/-- `validate_message(m, peer, blockcount, buffer, len)`: what it returns, and the
entries it logs. Header and trailer are compared over the size of a pointer; a
difference is logged and does not change the result. -/
def validateMessage (m : Msg) (blockcount len : Nat) : CRun (Bool × List LogEntry) :=
  match validateRanges m.head len with
  | some specific =>
      pure (false, [{ blockcount, type := .msg, subtype := .parse, specific, packet := [] }])
  | none =>
      if m.head.memory.take 8 ≠ m.trail.memory.take 8 then do
        let (hd, xorbuf) ← hdcmp m.head.memory m.trail.memory 56
        pure (true, [{ blockcount, type := .msg, subtype := .headTrail,
                       specific := .hammingDistance hd, packet := xorbuf }])
      else pure (true, [])

end Hipft
