import Hipft.Server.ChannelThread

/-! # The client of a file

A client asks for a channel until an answer verifies, takes the packets of the
first pass as they come, and asks for those that were damaged one by one. What
it receives it writes to the output file at the position of the stream.
-/

namespace Hipft

open CMemory

/-! ## The output file -/

/-- A stream that was opened for writing: what the file has, and the position. -/
structure OutFile where
  content : Bytes
  pos : Nat
  deriving DecidableEq, Repr

/-- `fwrite` at the position. A gap between the end of the file and the position gets
zeros. -/
def OutFile.fwrite (f : OutFile) (bytes : Bytes) : OutFile :=
  if bytes = [] then f
  else
    { content := f.content.take f.pos ++ List.replicate (f.pos - f.content.length) 0 ++ bytes ++
        f.content.drop (f.pos + bytes.length)
      pos := f.pos + bytes.length }

/-- `fseek(f, offset, SEEK_SET)`, which fails below 0. -/
def OutFile.fseek (f : OutFile) (offset : Int) : OutFile :=
  if offset < 0 then f else { f with pos := offset.toNat }

/-! ## Establishing a channel -/

/-- What `establish_channel` leaves: the value it returns, `*otherID`, what it has sent and
what it has not received. -/
structure Established where
  packets : UInt64
  otherID : UInt64
  sent : List Msg
  inbox : List Msg
  deriving DecidableEq

/-- Form a control message and send it. -/
def request (draw : Nat → UInt32) (sent : List Msg) (selfID otherID : UInt64)
    (dataType : DataType) (segmentNum : UInt64) (content : Bytes) (length : UInt32) :
    CRun (List Msg) := do
  let send ← formMsg (draw sent.length) selfID otherID ChannelType.control.code dataType.code
    segmentNum content length
  let _ ← sendMsg send
  pure (sent ++ [send])

/-- The loop of `establish_channel` and what follows. `segmentNum` is read from the message
that was sent and has been freed; `stale` is what is there then. -/
def awaitAnswer (draw : Nat → UInt32) (stale : UInt64) (selfID otherID : UInt64)
    (maxSize : UInt32) (file : Bytes) (fileLength : UInt32) (sent : List Msg) :
    List Msg → CRun Established
  | [] => .error .hang
  | recv :: inbox => do
      let valid ← verifyMsg recv
      if valid then
        pure { packets := if recv.head.sendID = 0 then 0 else stale
               otherID := recv.head.sendID
               sent, inbox }
      else do
        let sent ← request draw sent selfID otherID .rts maxSize.toUInt64 file fileLength
        awaitAnswer draw stale selfID otherID maxSize file fileLength sent inbox

/-- `establish_channel(sock, selfID, otherID, maxSize, file, fileLength)`, with the messages
that `recv_msg` delivers. -/
def establishChannel (draw : Nat → UInt32) (stale : UInt64) (selfID otherID : UInt64)
    (maxSize : UInt32) (file : Bytes) (fileLength : UInt32) (inbox : List Msg) :
    CRun Established := do
  let sent ← request draw [] selfID otherID .syn maxSize.toUInt64 file fileLength
  awaitAnswer draw stale selfID otherID maxSize file fileLength sent inbox

/-! ## Gathering the file -/

/-- The locals of `gather_file`, and the messages it has sent. -/
structure Gather where
  retransSec : Section
  file : OutFile
  sent : List Msg
  deriving DecidableEq

def Gather.start : Gather := ⟨createSection, ⟨[], 0⟩, []⟩

/-- `fwrite(pck->body->content, sizeof(uchar8), pck->head->contentLength, fhandle)`. -/
def OutFile.writePacket (f : OutFile) (pck : Msg) : CRun OutFile := do
  let bytes ← readRange pck.body.content 0 pck.head.contentLength.toNat
  pure (f.fwrite bytes)

/-- The body of the first loop. A damaged packet leaves no gap in the file. -/
def gatherPacket (numpcks : UInt64) (pck : Msg) (g : Gather) : CRun Gather := do
  let valid ← verifyMsg pck
  if valid then do
    let file ← g.file.writePacket pck
    pure { g with file }
  else pure { g with retransSec := addToSection g.retransSec (numpcks + 1) }

/-- The first loop, with what `recv_msg` delivers: the state and what is not received, or
nothing where `gather_file` returns false. -/
def gatherFirst (numfilepcks : UInt64) :
    UInt64 → Gather → List (Option Msg) → CRun (Option (Gather × List (Option Msg)))
  | numpcks, g, [] => if numpcks ≤ numfilepcks then .error .hang else pure (some (g, []))
  | numpcks, g, pck :: inbox =>
      if numpcks ≤ numfilepcks then
        match pck with
        | none => pure none
        | some pck => do
            let g ← gatherPacket numpcks pck g
            gatherFirst numfilepcks (numpcks + 1) g inbox
      else pure (some (g, pck :: inbox))

/-- The position of a segment, cut to an `int32`. -/
def segmentOffset (num maxSize : UInt64) : Int :=
  (((num - 1) * maxSize).toBitVec.setWidth 32).toInt

/-- The body of the second loop behind `recv_msg`. -/
def gatherAnswer (maxSize numfilepcks : UInt64) (pck : Msg) (g : Gather) : CRun Gather := do
  let low := firstLowInSection g.retransSec
  let valid ← verifyMsg pck
  if valid then do
    let file ← if low < numfilepcks then (g.file.fseek (segmentOffset low maxSize)).writePacket pck
      else pure g.file
    pure { g with file, retransSec := deleteFromSection low g.retransSec }
  else pure g

/-- The second loop. `answer k num` is what comes back when the message with index `k`
asks for `num`. -/
def gatherAgain (draw : Nat → UInt32) (answer : Nat → UInt64 → Option Msg)
    (selfID otherID maxSize numfilepcks : UInt64) : Nat → Gather → CRun (Option Gather)
  | 0, _ => .error .hang
  | fuel + 1, g =>
      match getPieceInSection g.retransSec 0 with
      | none => pure (some g)
      | some _ => do
          let low := firstLowInSection g.retransSec
          let sent ← request draw g.sent selfID otherID .rts low [] 0
          match answer g.sent.length low with
          | none => pure none
          | some pck => do
              let g ← gatherAnswer maxSize numfilepcks pck { g with sent }
              gatherAgain draw answer selfID otherID maxSize numfilepcks fuel g

/-- `gather_file` up to the end of its first loop. -/
def gatherPass (numfilepcks : UInt64) (inbox : List (Option Msg)) :
    CRun (Option (Gather × List (Option Msg))) :=
  if numfilepcks = 0 then pure none else gatherFirst numfilepcks 0 .start inbox

/-- `gather_file(sock, selfID, otherID, maxSize, numfilepcks, outfile)` with an output file
that opens: the state when it returns true, nothing when it returns false. -/
def gatherFile (draw : Nat → UInt32) (inbox : List (Option Msg))
    (answer : Nat → UInt64 → Option Msg) (selfID otherID maxSize numfilepcks : UInt64)
    (fuel : Nat) : CRun (Option Gather) := do
  match ← gatherPass numfilepcks inbox with
  | none => pure none
  | some (g, _) => gatherAgain draw answer selfID otherID maxSize numfilepcks fuel g

end Hipft
