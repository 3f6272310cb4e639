import Hipft.Foundation.Transitions
import Hipft.Message.RoundTrip
import Hipft.Section.Pieces
import Hipft.Server.FileHandle
import Hipft.Server.FileTransfer

/-! # The thread of a channel

A channel is a record that the main loop and one thread share. The thread waits
until it may send, sends the segments of the file in order, and from then on
those that are asked for again. Its steps are as small as its reads and writes
of the record, so that the main loop can act between any two of them.
-/

namespace Hipft

open CMemory

/-- `CHANNEL_TYPE`. -/
inductive ChannelType
  | data
  | control
  deriving DecidableEq, Repr

def ChannelType.code : ChannelType → UInt8
  | .data => 0
  | .control => 1

/-- `DATA_TYPE`. -/
inductive DataType
  | syn
  | ack
  | rts
  | nack
  | fin
  deriving DecidableEq, Repr

def DataType.code : DataType → UInt8
  | .syn => 0
  | .ack => 1
  | .rts => 2
  | .nack => 3
  | .fin => 4

/-- `channel_t`, but for the handle of its thread. -/
structure Channel where
  sock : Nat
  selfID : UInt64
  otherID : UInt64
  maxSize : UInt64
  handle : Option FileHandle
  data : Bool
  kill : Bool
  ready : Bool
  value : Option Msg
  deriving DecidableEq

/-- Where the thread is in `fork_server_channel`. -/
inductive Place
  | waiting
  | loop
  | relay
  | add
  | free
  | reset
  | branch
  | ended
  deriving DecidableEq, Repr

/-- A message that the thread gave to `send_msg`, and the branch it is from. -/
inductive Sent
  | first (m : Msg)
  | again (m : Msg)
  deriving DecidableEq, Repr

/-- The locals of `fork_server_channel`. -/
structure Thread where
  place : Place
  finishedFt : Bool
  sendSec : Section
  retransSec : Section
  sent : List Sent
  deriving DecidableEq

/-- A channel and its thread. -/
structure Worker where
  chan : Channel
  thread : Thread
  deriving DecidableEq

/-- The thread at its start. -/
def Thread.start : Thread where
  place := .waiting
  finishedFt := false
  sendSec := addToSection createSection 0
  retransSec := createSection
  sent := []

/-- What a null pointer has to give. -/
def deref {α : Type} : Option α → Run α
  | some a => .ok a
  | none => .error (.memory .outOfBounds)

/-! ## What the main loop does to the record -/

/-- `chan->ready = true`. -/
def Worker.setReady (w : Worker) : Worker := { w with chan := { w.chan with ready := true } }

/-- `chan->kill = true`. -/
def Worker.setKill (w : Worker) : Worker := { w with chan := { w.chan with kill := true } }

/-- `chan->value = recvmsg; chan->data = true`. -/
def Worker.receive (recvmsg : Msg) (w : Worker) : Worker :=
  { w with chan := { w.chan with value := some recvmsg, data := true } }

/-! ## What the thread does -/

def Worker.goto (place : Place) (w : Worker) : Worker :=
  { w with thread := { w.thread with place := place } }

/-- A segment as a message, sent with the drawn `msgID`. -/
def sendSegment (chan : Channel) (msgID : UInt32) (segmentNum : UInt64) : Run Msg := do
  let handle ← deref chan.handle
  let (bytes, numBytes) ← segmentInFileHandle handle segmentNum chan.maxSize
  let tempmsg ← checked (formMsg msgID chan.selfID chan.otherID ChannelType.data.code
    DataType.syn.code segmentNum bytes numBytes.toUInt32)
  let _ ← checked (sendMsg tempmsg)
  pure tempmsg

/-- `add_to_section(retrans_sec, chan->value->head->segmentNum)`. -/
def Worker.addValue (w : Worker) : Run Worker := do
  let value ← deref w.chan.value
  pure { w with thread :=
    { w.thread with retransSec := addToSection w.thread.retransSec value.head.segmentNum } }

/-- `free_msg(chan->value)`. -/
def Worker.freeValue (w : Worker) : Run Worker := do
  let _ ← deref w.chan.value
  pure { w with chan := { w.chan with value := none } }

/-- `chan->data = false`. -/
def Worker.resetData (w : Worker) : Worker := { w with chan := { w.chan with data := false } }

/-- The branch with the file finished: the first segment that is asked for. -/
def Worker.sendAgain (msgID : UInt32) (w : Worker) : Run Worker :=
  match getPieceInSection w.thread.retransSec 0 with
  | none => pure w
  | some _ => do
      let num := firstLowInSection w.thread.retransSec
      let tempmsg ← sendSegment w.chan msgID num
      pure { w with thread :=
        { w.thread with
          retransSec := deleteFromSection num w.thread.retransSec
          sent := w.thread.sent ++ [.again tempmsg] } }

/-- The branch before that: the next segment, up to the empty one behind the last. -/
def Worker.sendNext (msgID : UInt32) (w : Worker) : Run Worker := do
  let handle ← deref w.chan.handle
  let numSegments ← numSegmentsInFileHandle handle w.chan.maxSize
  let high := lastContinualHighInSection w.thread.sendSec
  if high < numSegments + 1 then do
    let tempmsg ← sendSegment w.chan msgID (high + 1)
    pure { w with thread :=
      { w.thread with
        sendSec := addToSection w.thread.sendSec (high + 1)
        sent := w.thread.sent ++ [.first tempmsg] } }
  else pure { w with thread := { w.thread with finishedFt := true } }

def Worker.branch (msgID : UInt32) (w : Worker) : Run Worker :=
  if w.thread.finishedFt then w.sendAgain msgID else w.sendNext msgID

/-- One step of the thread. -/
def Worker.step (msgID : UInt32) (w : Worker) : Run Worker :=
  match w.thread.place with
  | .waiting => pure (if !w.chan.ready && !w.chan.kill then w else w.goto .loop)
  | .loop => pure (w.goto (if w.chan.kill then .ended else .relay))
  | .relay => pure (w.goto (if w.chan.data then .add else .branch))
  | .add => do
      let w ← w.addValue
      pure (w.goto .free)
  | .free => do
      let w ← w.freeValue
      pure (w.goto .reset)
  | .reset => pure (w.resetData.goto .branch)
  | .branch => do
      let w ← w.branch msgID
      pure (w.goto .loop)
  | .ended => pure w

/-- The loop's body as one step: what is there is relayed, and something is sent. -/
def Worker.pass (msgID : UInt32) (w : Worker) : Run Worker :=
  if w.chan.data then do
    let w ← w.addValue
    let w ← w.freeValue
    w.resetData.branch msgID
  else w.branch msgID

/-! ## The relay -/

section Relay

variable {w : Worker} {value : Msg}

theorem Worker.addValue_eq (hvalue : w.chan.value = some value) :
    w.addValue = .ok { w with thread :=
      { w.thread with retransSec := addToSection w.thread.retransSec value.head.segmentNum } } := by
  rw [Worker.addValue, hvalue]
  rfl

theorem Worker.freeValue_eq (hvalue : w.chan.value = some value) :
    w.freeValue = .ok { w with chan := { w.chan with value := none } } := by
  rw [Worker.freeValue, hvalue]
  rfl

/-- The record is empty, and what it held is in the section. -/
def Worker.relayed (value : Msg) (w : Worker) : Worker where
  chan := { w.chan with value := none, data := false }
  thread := { w.thread with
    retransSec := addToSection w.thread.retransSec value.head.segmentNum }

theorem Worker.pass_eq_relayed (hdata : w.chan.data = true) (hvalue : w.chan.value = some value)
    (msgID : UInt32) : w.pass msgID = (w.relayed value).branch msgID := by
  rw [Worker.pass, if_pos hdata, Worker.addValue_eq hvalue, run_bind]
  exact congrArg (· >>= fun w => w.resetData.branch msgID)
    (Worker.freeValue_eq (w := { w with thread :=
      { w.thread with
        retransSec := addToSection w.thread.retransSec value.head.segmentNum } }) hvalue)

end Relay

/-! ## Passes as steps -/

section Passes

variable (w : Worker) (msgID : UInt32)

theorem Worker.goto_sendAgain (place : Place) :
    (do let w' ← (w.goto place).sendAgain msgID; pure (w'.goto w.thread.place)) =
      w.sendAgain msgID := by
  simp only [Worker.sendAgain, Worker.goto]
  cases getPieceInSection w.thread.retransSec 0 with
  | none => rfl
  | some piece =>
      simp only
      cases sendSegment w.chan msgID (firstLowInSection w.thread.retransSec) with
      | error crash => rfl
      | ok m => rfl

theorem Worker.goto_sendNext (place : Place) :
    (do let w' ← (w.goto place).sendNext msgID; pure (w'.goto w.thread.place)) =
      w.sendNext msgID := by
  obtain ⟨chan, ⟨here, finishedFt, sendSec, retransSec, sent⟩⟩ := w
  change (do
    let w' ← Worker.sendNext msgID ⟨chan, ⟨place, finishedFt, sendSec, retransSec, sent⟩⟩
    pure (w'.goto here)) = _
  simp only [Worker.sendNext]
  cases deref chan.handle with
  | error crash => rfl
  | ok handle =>
      simp only [run_bind]
      cases numSegmentsInFileHandle handle chan.maxSize with
      | error crash => rfl
      | ok numSegments =>
          simp only [run_bind]
          by_cases hmore : lastContinualHighInSection sendSec < numSegments + 1
          · simp only [if_pos hmore]
            cases sendSegment chan msgID (lastContinualHighInSection sendSec + 1) with
            | error crash => rfl
            | ok m => rfl
          · simp only [if_neg hmore]
            rfl

theorem Worker.goto_branch (place : Place) :
    (do let w' ← (w.goto place).branch msgID; pure (w'.goto w.thread.place)) =
      w.branch msgID := by
  by_cases hfinished : w.thread.finishedFt = true
  · have hthere : (w.goto place).branch msgID = (w.goto place).sendAgain msgID :=
      if_pos hfinished
    rw [hthere, w.goto_sendAgain msgID place, Worker.branch, if_pos hfinished]
  · have hthere : (w.goto place).branch msgID = (w.goto place).sendNext msgID :=
      if_neg hfinished
    rw [hthere, w.goto_sendNext msgID place, Worker.branch, if_neg hfinished]

end Passes

/-- An undisturbed turn of the loop is a pass. -/
theorem Worker.run_step_eq_pass {w : Worker} (hplace : w.thread.place = .loop)
    (hkill : w.chan.kill = false) (msgID : UInt32) :
    ∃ count, Transitions.run Worker.step (List.replicate count msgID) w = w.pass msgID := by
  have hloop : w.step msgID = .ok (w.goto .relay) := by
    rw [Worker.step, hplace]
    simp only [hkill, Bool.false_eq_true, if_false]
    rfl
  have hbranch (v : Worker) (hv : v.thread.place = .loop) :
      Transitions.run Worker.step [msgID] (v.goto .branch) = v.branch msgID := by
    rw [← v.goto_branch msgID .branch, hv, Transitions.run_cons]
    exact bind_pure _
  by_cases hdata : w.chan.data = true
  · have hrelay : (w.goto .relay).step msgID = .ok (w.goto .add) :=
      congrArg Except.ok (congrArg (w.goto .relay).goto (if_pos hdata))
    refine ⟨6, ?_⟩
    rw [List.replicate_succ, Transitions.run_cons_of_ok hloop, List.replicate_succ,
      Transitions.run_cons_of_ok hrelay, List.replicate_succ, Worker.pass, if_pos hdata]
    cases hvalue : w.chan.value with
    | none =>
        have hadd : (w.goto .add).step msgID = .error (.memory .outOfBounds) := by
          simp only [Worker.step, Worker.goto, Worker.addValue, hvalue]
          rfl
        rw [Transitions.run_cons, hadd, Worker.addValue, hvalue]
        rfl
    | some value =>
        let added : Worker := { w with thread :=
          { w.thread with
            retransSec := addToSection w.thread.retransSec value.head.segmentNum } }
        let freed : Worker := { added with chan := { w.chan with value := none } }
        have hadd : (w.goto .add).step msgID = .ok (added.goto .free) := by
          simp only [Worker.step, Worker.goto, Worker.addValue, hvalue]
          rfl
        have hfree : (added.goto .free).step msgID = .ok (freed.goto .reset) := by
          simp only [Worker.step, Worker.goto, Worker.freeValue, added, hvalue]
          rfl
        have hreset : (freed.goto .reset).step msgID = .ok (freed.resetData.goto .branch) := rfl
        have hfreed : added.freeValue = .ok freed := Worker.freeValue_eq hvalue
        rw [Transitions.run_cons_of_ok hadd, List.replicate_succ, Transitions.run_cons_of_ok hfree,
          List.replicate_succ, Transitions.run_cons_of_ok hreset, Worker.addValue_eq hvalue,
          run_bind, hfreed, run_bind]
        exact hbranch freed.resetData hplace
  · have hrelay : (w.goto .relay).step msgID = .ok (w.goto .branch) :=
      congrArg Except.ok (congrArg (w.goto .relay).goto (if_neg hdata))
    refine ⟨3, ?_⟩
    rw [List.replicate_succ, Transitions.run_cons_of_ok hloop, List.replicate_succ,
      Transitions.run_cons_of_ok hrelay, Worker.pass, if_neg hdata]
    exact hbranch w hplace

/-! ## What stays as it was -/

/-- What the main loop set up in the channel is the same. -/
structure Alike (w w' : Worker) : Prop where
  otherID : w'.chan.otherID = w.chan.otherID
  selfID : w'.chan.selfID = w.chan.selfID
  maxSize : w'.chan.maxSize = w.chan.maxSize
  handle : w'.chan.handle = w.chan.handle

theorem alike_of_chan_eq {w w' : Worker} (hchan : w'.chan = w.chan) : Alike w w' :=
  ⟨congrArg _ hchan, congrArg _ hchan, congrArg _ hchan, congrArg _ hchan⟩

theorem alike_setReady (w : Worker) : Alike w w.setReady := ⟨rfl, rfl, rfl, rfl⟩

theorem alike_setKill (w : Worker) : Alike w w.setKill := ⟨rfl, rfl, rfl, rfl⟩

theorem alike_receive (recvmsg : Msg) (w : Worker) : Alike w (w.receive recvmsg) :=
  ⟨rfl, rfl, rfl, rfl⟩

section Thread

variable {w w' : Worker} {msgID : UInt32}

theorem Worker.sendAgain_chan (hsend : w.sendAgain msgID = .ok w') : w'.chan = w.chan := by
  rw [Worker.sendAgain] at hsend
  split at hsend
  next =>
    cases hsend
    rfl
  next =>
    obtain ⟨m, -, hsend⟩ := run_bind_eq_ok.mp hsend
    cases hsend
    rfl

theorem Worker.sendNext_chan (hsend : w.sendNext msgID = .ok w') : w'.chan = w.chan := by
  obtain ⟨handle, -, hsend⟩ := run_bind_eq_ok.mp hsend
  obtain ⟨numSegments, -, hsend⟩ := run_bind_eq_ok.mp hsend
  simp only at hsend
  split at hsend
  next =>
    obtain ⟨m, -, hsend⟩ := run_bind_eq_ok.mp hsend
    cases hsend
    rfl
  next =>
    cases hsend
    rfl

theorem Worker.branch_chan (hbranch : w.branch msgID = .ok w') : w'.chan = w.chan := by
  rw [Worker.branch] at hbranch
  split at hbranch
  next => exact Worker.sendAgain_chan hbranch
  next => exact Worker.sendNext_chan hbranch

/-- The thread does not touch what the main loop set up. -/
theorem Worker.step_alike (hstep : w.step msgID = .ok w') : Alike w w' := by
  rw [Worker.step] at hstep
  cases hplace : w.thread.place with
  | waiting =>
      rw [hplace] at hstep
      cases hstep
      split
      next => exact alike_of_chan_eq rfl
      next => exact alike_of_chan_eq rfl
  | loop | relay | reset | ended =>
      rw [hplace] at hstep
      cases hstep
      exact ⟨rfl, rfl, rfl, rfl⟩
  | add | free =>
      rw [hplace] at hstep
      obtain ⟨w, hrun, hstep⟩ := run_bind_eq_ok.mp hstep
      obtain ⟨value, -, hrun⟩ := run_bind_eq_ok.mp hrun
      cases hrun
      cases hstep
      exact ⟨rfl, rfl, rfl, rfl⟩
  | branch =>
      rw [hplace] at hstep
      obtain ⟨next, hbranch, hstep⟩ := run_bind_eq_ok.mp hstep
      cases hstep
      have hchan : next.chan = w.chan := Worker.branch_chan hbranch
      exact alike_of_chan_eq hchan

end Thread

end Hipft
