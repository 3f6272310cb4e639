import Hipft.Server.ConnChan

/-! # The main loop of the server

The main loop accepts connections, and from each connection it takes messages
that make, ready, ask or end the channels of that connection. `select` gives the
order in which the sockets have something, so a run takes any order of events;
the steps of the channels' threads are among them.
-/

namespace Hipft

open CMemory

/-- `MAX_CHANNELS`. -/
def maxChannels : UInt64 := 3

/-- `generate_random_uint(min, max)`, with `r` the number that is drawn. -/
def generateRandomUint (r min max : UInt64) : UInt64 := r % (max - min) + min

/-- What is drawn for a message: the ID of the answer, and the `selfID` of a channel. -/
structure Draw where
  msgID : UInt32
  random : UInt64
  deriving DecidableEq, Repr

/-- `find_existing_channel(conns, conn_index, sendID, recvID, rchan, rindex)`: the index,
if there is one. -/
def findExistingChannel (connIndex : Nat) (sendID recvID : UInt64) (s : Server) :
    CRun (Option Nat) := do
  let conn ← slotAt s.conns connIndex
  let indices := List.range conn.numChans.toNat
  match ← findSlot (fun w => w.chan.selfID = recvID) conn.chans indices with
  | some index => pure (some index)
  | none => findSlot (fun w => w.chan.otherID = sendID) conn.chans indices

/-- Write to the channel and its thread. -/
def Server.setChan (connIndex chanIndex : Nat) (f : Worker → Worker) (s : Server) :
    CRun Server := do
  let conn ← slotAt s.conns connIndex
  let _ ← slotAt conn.chans chanIndex
  let chans ← modifyAt conn.chans chanIndex (Option.map f)
  s.setConn connIndex { conn with chans }

/-- Form a control message and give it to `send_msg`. -/
def reply (draw : Draw) (sendID recvID : UInt64) (dataType : DataType) (segmentNum : UInt64)
    (content : Bytes) (length : UInt32) : Run Msg := do
  let sendmsg ← checked (formMsg draw.msgID sendID recvID ChannelType.control.code dataType.code
    segmentNum content length)
  let _ ← checked (sendMsg sendmsg)
  pure sendmsg

/-- nack message "idk". -/
def nack (draw : Draw) (recvmsg : Msg) (s : Server) : Run (Server × List Msg) := do
  let sendmsg ← reply draw recvmsg.head.recvID recvmsg.head.sendID .nack 0 [] 0
  pure (s, [sendmsg])

/-- `CONTROL` and that type. -/
def Msg.isControl (recvmsg : Msg) (dataType : DataType) : Bool :=
  recvmsg.head.chanType = ChannelType.control.code && recvmsg.head.dataType = dataType.code

/-- Both IDs are 0. -/
def connectionControl (draw : Draw) (i : Nat) (recvmsg : Msg) (s : Server) :
    Run (Server × List Msg) :=
  if recvmsg.isControl .fin then do
    let s ← checked (endConnection i s)
    pure (s, [])
  else nack draw recvmsg s

/-- The new channel as the main loop fills it in. -/
def Worker.create (conn : Connection) (draw : Draw) (recvmsg : Msg) (fhandle : FileHandle)
    (w : Worker) : Worker :=
  { w with chan :=
    { w.chan with
      sock := conn.sock
      otherID := recvmsg.head.sendID
      selfID := generateRandomUint draw.random 300 46744073709551615
      maxSize := recvmsg.head.segmentNum
      handle := some fhandle } }

/-- A channel is created and its thread started. -/
def createChannel (spare : Nat → Nat) (draw : Draw) (i : Nat) (recvmsg : Msg) (fhandle : FileHandle)
    (s : Server) : CRun (Server × Nat) := do
  let s ← newChannel spare i s
  let conn ← slotAt s.conns i
  let chanIndex := (conn.numChans - 1).toNat
  let s ← s.setChan i chanIndex (Worker.create conn draw recvmsg fhandle)
  pure (s, chanIndex)

/-- The answer that tells the client about its channel. -/
def acknowledge (draw : Draw) (i chanIndex : Nat) (recvmsg : Msg) (s : Server) :
    Run (Server × List Msg) := do
  let conn ← checked (slotAt s.conns i)
  let w ← checked (slotAt conn.chans chanIndex)
  let fhandle ← deref w.chan.handle
  let numSegments ← numSegmentsInFileHandle fhandle w.chan.maxSize
  let sendmsg ← reply draw w.chan.selfID recvmsg.head.sendID .ack numSegments [] 0
  pure (s, [sendmsg])

/-- channel creation/info. -/
def channelInfo (spare : Nat → Nat) (handles : List FileHandle) (draw : Draw) (i : Nat)
    (recvmsg : Msg) (s : Server) : Run (Server × List Msg) := do
  let fhandle ← checked (fileHandleForFile recvmsg.body.content
    recvmsg.head.contentLength.toNat handles)
  match fhandle with
  | none => do
      let sendmsg ← reply draw 0 recvmsg.head.sendID .fin 0 [] 0
      pure (s, [sendmsg])
  | some fhandle =>
      if s.totalChannels ≥ maxChannels then do
        let sendmsg ← reply draw 0 recvmsg.head.sendID .fin 0 recvmsg.body.content
          recvmsg.head.contentLength
        pure (s, [sendmsg])
      else do
        match ← checked (findExistingChannel i recvmsg.head.sendID 0 s) with
        | some chanIndex => acknowledge draw i chanIndex recvmsg s
        | none => do
            let (s, chanIndex) ← checked (createChannel spare draw i recvmsg fhandle s)
            acknowledge draw i chanIndex recvmsg s

/-- end channel if it exists. -/
def finishChannel (draw : Draw) (i : Nat) (recvmsg : Msg) (s : Server) :
    Run (Server × List Msg) := do
  let s ← match ← checked (findExistingChannel i recvmsg.head.sendID recvmsg.head.recvID s) with
    | some chanIndex => checked (endChannel i chanIndex s)
    | none => pure s
  let sendmsg ← reply draw 0 recvmsg.head.sendID .fin 0 [] 0
  pure (s, [sendmsg])

/-- Write to the channel that the message is for, if there is one. -/
def writeChannel (draw : Draw) (i : Nat) (recvmsg : Msg) (f : Worker → Worker) (s : Server) :
    Run (Server × List Msg) := do
  match ← checked (findExistingChannel i recvmsg.head.sendID recvmsg.head.recvID s) with
  | some chanIndex => do
      let s ← checked (s.setChan i chanIndex f)
      pure (s, [])
  | none => nack draw recvmsg s

/-- `recvID` is 0 and `sendID` is not. -/
def channelControl (spare : Nat → Nat) (handles : List FileHandle) (draw : Draw) (i : Nat)
    (recvmsg : Msg) (s : Server) : Run (Server × List Msg) :=
  if recvmsg.isControl .syn || recvmsg.isControl .rts then
    channelInfo spare handles draw i recvmsg s
  else if recvmsg.isControl .fin then finishChannel draw i recvmsg s
  else nack draw recvmsg s

/-- `recvID` is not 0. -/
def channelMessage (draw : Draw) (i : Nat) (recvmsg : Msg) (s : Server) :
    Run (Server × List Msg) :=
  if recvmsg.isControl .syn then writeChannel draw i recvmsg Worker.setReady s
  else if recvmsg.isControl .rts then
    -- The message that the channel has not yet taken is overwritten.
    writeChannel draw i recvmsg (Worker.receive recvmsg) s
  else if recvmsg.isControl .fin then finishChannel draw i recvmsg s
  else nack draw recvmsg s

/-- A message from connection `i`, with the answers that go back to it. -/
def handleMessage (spare : Nat → Nat) (handles : List FileHandle) (draw : Draw) (i : Nat)
    (recvmsg : Msg) (s : Server) : Run (Server × List Msg) := do
  let valid ← checked (verifyMsg recvmsg)
  if !valid then do
    let sendmsg ← reply draw recvmsg.head.recvID recvmsg.head.sendID .rts 0 [] 0
    pure (s, [sendmsg])
  else if recvmsg.head.sendID = 0 ∧ recvmsg.head.recvID = 0 then connectionControl draw i recvmsg s
  else if recvmsg.head.sendID > 0 ∧ recvmsg.head.recvID = 0 then
    channelControl spare handles draw i recvmsg s
  else channelMessage draw i recvmsg s

/-- An incoming connection. -/
def acceptConnection (spare : Nat → Nat) (sock : Nat) (s : Server) : CRun Server := do
  let s ← newConnection spare s
  s.setConn (s.totalConnections - 1).toNat { sock, numChans := 0, chans := [] }

/-- What happens next: a connection comes in, one of the connections has a message or is
closed by its client, or the thread of a channel does a step. -/
inductive ServerEvent
  | accept (sock : Nat)
  | receive (i : Nat) (recvmsg : Option Msg) (draw : Draw)
  | step (i j : Nat) (msgID : UInt32)

/-- The step of a thread of connection `i`. -/
def threadStep (i j : Nat) (msgID : UInt32) (s : Server) : Run Server := do
  let conn ← checked (slotAt s.conns i)
  if j < conn.numChans.toNat then do
    let w ← checked (slotAt conn.chans j)
    let w ← w.step msgID
    checked (s.setChan i j fun _ => w)
  else pure s

/-- One event. There is nothing from connections that the server does not have. -/
def Server.event (spare : Nat → Nat) (handles : List FileHandle) : ServerEvent → Server → Run Server
  | .accept sock, s => checked (acceptConnection spare sock s)
  | .receive i recvmsg draw, s =>
      if i < s.totalConnections.toNat then
        match recvmsg with
        | none => checked (endConnection i s)
        | some recvmsg => do
            let (s, _) ← handleMessage spare handles draw i recvmsg s
            pure s
      else pure s
  | .step i j msgID, s =>
      if i < s.totalConnections.toNat then threadStep i j msgID s else pure s

/-! ## Clients of one file -/

/-- A client asks for `a` in segments of 8 bytes, as `form_msg` makes it. -/
def askMsg (sendID : UInt64) : Msg where
  head := formHeader 7 sendID 0 ChannelType.control.code DataType.syn.code 8 1
  body := { content := [97], vparityData := List.replicate 4 18446744073709551614
            hparityData := [0] }
  trail := formHeader 7 sendID 0 ChannelType.control.code DataType.syn.code 8 1

/-- One connection, on which one client after the other asks. -/
def askEvents (sendIDs : List UInt64) : List ServerEvent :=
  .accept 5 :: sendIDs.map fun sendID => .receive 0 (some (askMsg sendID)) ⟨9, 1⟩

end Hipft
