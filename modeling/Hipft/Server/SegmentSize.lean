import Hipft.Server.ChannelTable

/-! # The size of a segment

The server divides by the size that a client named when its channel was made. The answer
to that client is the first to divide, so no channel of size zero outlives the message that
made it, and such a message ends the server.
-/

namespace Hipft

open CMemory Transitions

/-! ## Runs without a division by zero -/

/-- The run does not end in a division by zero. -/
def Undivided {α : Type} (r : Run α) : Prop := r ≠ .error .divideByZero

section Undivided

variable {α β : Type}

@[simp] theorem undivided_ok (a : α) : Undivided (Except.ok a : Run α) := nofun

@[simp] theorem undivided_pure (a : α) : Undivided (pure a : Run α) := nofun

@[simp] theorem undivided_checked (r : CRun α) : Undivided (checked r) := by
  cases r with
  | error fault => rintro ⟨⟩
  | ok a => exact undivided_ok a

@[simp] theorem undivided_deref (a : Option α) : Undivided (deref a) := by
  cases a with
  | none => rintro ⟨⟩
  | some a => exact undivided_ok a

theorem undivided_bind {r : Run α} {next : α → Run β} (hr : Undivided r)
    (hnext : ∀ a, r = .ok a → Undivided (next a)) : Undivided (r >>= next) := by
  cases r with
  | error crash =>
      rintro ⟨⟩
      exact hr rfl
  | ok a => exact hnext a rfl

theorem undivided_bind_iff {r : Run α} {next : α → Run β} (hnext : ∀ a, Undivided (next a)) :
    Undivided (r >>= next) ↔ Undivided r := by
  refine ⟨fun hbind => ?_, fun hr => undivided_bind hr fun a _ => hnext a⟩
  rintro rfl
  exact hbind rfl

end Undivided

/-- A division by a size that is not zero goes through. -/
theorem undivided_numSegments (fhandle : FileHandle) {segmentSize : UInt64}
    (hsize : segmentSize ≠ 0) : Undivided (numSegmentsInFileHandle fhandle segmentSize) := by
  obtain ⟨n, hrun, -⟩ := numSegmentsInFileHandle_eq fhandle hsize
  rw [hrun]
  exact undivided_ok n

theorem undivided_segment (fhandle : FileHandle) (segmentNum : UInt64) {segmentSize : UInt64}
    (hsize : segmentSize ≠ 0) :
    Undivided (segmentInFileHandle fhandle segmentNum segmentSize) := by
  obtain ⟨bytes, numBytes, hrun, -⟩ := segmentInFileHandle_total fhandle segmentNum hsize
  rw [hrun]
  exact undivided_ok _

/-! ## The thread -/

section Thread

variable {w : Worker} (hsize : w.chan.maxSize ≠ 0) (msgID : UInt32)

include hsize

theorem Worker.undivided_sendSegment (segmentNum : UInt64) :
    Undivided (sendSegment w.chan msgID segmentNum) := by
  apply undivided_bind (undivided_deref _)
  intro fhandle _
  apply undivided_bind (undivided_segment fhandle segmentNum hsize)
  rintro ⟨bytes, numBytes⟩ _
  apply undivided_bind (undivided_checked _)
  intro tempmsg _
  exact undivided_bind (undivided_checked _) fun _ _ => undivided_ok tempmsg

theorem Worker.undivided_branch : Undivided (w.branch msgID) := by
  unfold Worker.branch
  split
  next =>
    unfold Worker.sendAgain
    split
    next => exact undivided_ok w
    next =>
      apply undivided_bind (Worker.undivided_sendSegment hsize msgID _)
      exact fun _ _ => undivided_ok _
  next =>
    apply undivided_bind (undivided_deref _)
    intro fhandle _
    apply undivided_bind (undivided_numSegments fhandle hsize)
    intro numSegments _
    dsimp only
    split
    next =>
      apply undivided_bind (Worker.undivided_sendSegment hsize msgID _)
      exact fun _ _ => undivided_ok _
    next => exact undivided_ok _

theorem Worker.undivided_step : Undivided (w.step msgID) := by
  rw [Worker.step]
  cases w.thread.place with
  | waiting | loop | relay | reset | ended => exact undivided_pure _
  | add =>
      refine undivided_bind ?_ fun _ _ => undivided_pure _
      exact undivided_bind (undivided_deref _) fun _ _ => undivided_pure _
  | free =>
      refine undivided_bind ?_ fun _ _ => undivided_pure _
      exact undivided_bind (undivided_deref _) fun _ _ => undivided_pure _
  | branch =>
      exact undivided_bind (Worker.undivided_branch hsize msgID) fun _ _ => undivided_pure _

end Thread

/-! ## Messages -/

section Messages

variable {s : Server} {i : Nat} {draw : Draw} {recvmsg : Msg}

/-- Answering is no division, once it is known what to answer. -/
theorem undivided_reply {sendID recvID segmentNum : UInt64} {dataType : DataType}
    {content : Bytes} {length : UInt32} :
    Undivided (do
      let sendmsg ← reply draw sendID recvID dataType segmentNum content length
      pure (s, [sendmsg])) := by
  refine undivided_bind ?_ fun _ _ => undivided_pure _
  apply undivided_bind (undivided_checked _)
  intro sendmsg _
  exact undivided_bind (undivided_checked _) fun _ _ => undivided_pure sendmsg

theorem undivided_nack : Undivided (nack draw recvmsg s) := undivided_reply

theorem undivided_connectionControl : Undivided (connectionControl draw i recvmsg s) := by
  unfold connectionControl
  split
  next => exact undivided_bind (undivided_checked _) fun _ _ => undivided_ok _
  next => exact undivided_nack

theorem undivided_finishChannel : Undivided (finishChannel draw i recvmsg s) := by
  apply undivided_bind (undivided_checked _)
  intro found _
  cases found with
  | none =>
      simp only [pure_bind]
      exact undivided_reply
  | some chanIndex => exact undivided_bind (undivided_checked _) fun _ _ => undivided_reply

theorem undivided_writeChannel (f : Worker → Worker) :
    Undivided (writeChannel draw i recvmsg f s) := by
  apply undivided_bind (undivided_checked _)
  intro found _
  cases found with
  | none => exact undivided_nack
  | some chanIndex => exact undivided_bind (undivided_checked _) fun _ _ => undivided_ok _

theorem undivided_channelMessage : Undivided (channelMessage draw i recvmsg s) := by
  unfold channelMessage
  split
  next => exact undivided_writeChannel _
  next =>
    split
    next => exact undivided_writeChannel _
    next =>
      split
      next => exact undivided_finishChannel
      next => exact undivided_nack

/-- The message makes a channel whose segments have no bytes: it asks for a file of the
server, there is room for a channel, and the client has none yet. -/
structure OpensEmpty (spare : Nat → Nat) (handles : List FileHandle) (i : Nat) (recvmsg : Msg)
    (s : Server) : Prop where
  file : ∃ fhandle, fileHandleForFile recvmsg.body.content recvmsg.head.contentLength.toNat
    handles = .ok (some fhandle)
  room : s.totalChannels < maxChannels
  missing : findExistingChannel i recvmsg.head.sendID 0 s = .ok none
  made : ∃ made, newChannel spare i s = .ok made
  empty : recvmsg.head.segmentNum = 0

variable {cs : List Connection} {ws : List Worker} {spare : Nat → Nat} {handles : List FileHandle}

theorem undivided_acknowledge_iff (draw : Draw) (recvmsg : Msg) (hhas : s.Has cs)
    (hindex : i < cs.length) (hchans : cs[i].Has ws) {j : Nat} {w : Worker} (hw : ws[j]? = some w)
    (hhandle : w.chan.handle.isSome = true) :
    Undivided (acknowledge draw i j recvmsg s) ↔ w.chan.maxSize ≠ 0 := by
  obtain ⟨fhandle, hfhandle⟩ := Option.isSome_iff_exists.mp hhandle
  have hderef : deref (some fhandle) = .ok fhandle := rfl
  rw [acknowledge_eq hhas hindex hchans hw, hfhandle, hderef, run_bind]
  constructor
  · intro hundivided hzero
    rw [hzero] at hundivided
    exact hundivided rfl
  · intro hsize
    apply undivided_bind (undivided_numSegments fhandle hsize)
    exact fun _ _ => undivided_reply

/-- The size of the new channel is the number in the message. -/
theorem undivided_create_iff (draw : Draw) (hhas : s.Has cs) (hindex : i < cs.length)
    (hchans : cs[i].Has ws) {made : Server} (hnew : newChannel spare i s = .ok made)
    (fhandle : FileHandle) :
    Undivided (do
      let (s, chanIndex) ← checked (createChannel spare draw i recvmsg fhandle s)
      acknowledge draw i chanIndex recvmsg s) ↔ recvmsg.head.segmentNum ≠ 0 := by
  obtain ⟨s', conn, hcreate, hhas', hconn, -⟩ : ∃ s' conn,
      createChannel spare draw i recvmsg fhandle s = .ok (s', ws.length) ∧
        s'.Has (cs.set i conn) ∧ conn.Has (ws ++ [cs[i].newWorker draw recvmsg fhandle]) ∧
        s'.totalChannels = s.totalChannels + 1 :=
    createChannel_eq hhas hindex hchans hnew fhandle
  have hindex' : i < (cs.set i conn).length := by rwa [List.length_set]
  rw [hcreate, checked_ok, run_bind]
  exact undivided_acknowledge_iff draw recvmsg hhas' hindex' (hconn.at_set hindex')
    List.getElem?_concat_length rfl

theorem undivided_channelInfo_iff (hsound : s.Sound cs) (hindex : i < cs.length) :
    Undivided (channelInfo spare handles draw i recvmsg s) ↔
      ¬ OpensEmpty spare handles i recvmsg s := by
  obtain ⟨ws, hws⟩ := hsound.sound _ (List.getElem_mem hindex)
  rw [channelInfo]
  cases hfile : fileHandleForFile recvmsg.body.content recvmsg.head.contentLength.toNat
    handles with
  | error fault =>
      refine iff_of_true (by rintro ⟨⟩) fun hopens => ?_
      obtain ⟨fhandle, hfound⟩ := hopens.file
      rw [hfile] at hfound
      cases hfound
  | ok found =>
      rw [checked_ok, run_bind]
      cases found with
      | none =>
          refine iff_of_true undivided_reply fun hopens => ?_
          obtain ⟨fhandle, hfound⟩ := hopens.file
          rw [hfile] at hfound
          cases hfound
      | some fhandle =>
          by_cases hfull : s.totalChannels ≥ maxChannels
          · simp only [if_pos hfull]
            exact iff_of_true undivided_reply fun hopens =>
              UInt64.not_le.mpr hopens.room hfull
          · obtain ⟨found, hfind, hsome, -⟩ :=
              findExistingChannel_eq hsound.toHas hindex hws.toHas recvmsg.head.sendID 0
            simp only [if_neg hfull, hfind, checked_ok, run_bind]
            cases found with
            | some j =>
                obtain ⟨w, hw, -⟩ := hsome j rfl
                have hlive := hws.live w (List.mem_of_getElem? hw)
                refine iff_of_true ?_ fun hopens => ?_
                · exact (undivided_acknowledge_iff draw recvmsg hsound.toHas hindex hws.toHas hw
                    hlive.handle).mpr hlive.maxSize
                · have hmissing := hopens.missing
                  rw [hfind] at hmissing
                  cases hmissing
            | none =>
                cases hmake : newChannel spare i s with
                | error fault =>
                    refine iff_of_true ?_ fun hopens => ?_
                    · simp only [createChannel, hmake]
                      rintro ⟨⟩
                    · obtain ⟨made, hmade⟩ := hopens.made
                      rw [hmake] at hmade
                      cases hmade
                | ok made =>
                    have hiff : Undivided _ ↔ recvmsg.head.segmentNum ≠ 0 :=
                      undivided_create_iff draw hsound.toHas hindex hws.toHas hmake fhandle
                    refine hiff.trans (not_congr ⟨fun hempty => ?_, OpensEmpty.empty⟩)
                    exact ⟨⟨fhandle, hfile⟩, UInt64.not_le.mp hfull, hfind, ⟨made, hmake⟩, hempty⟩

/-- A message that asks for a channel. -/
structure AsksForChannel (recvmsg : Msg) : Prop where
  verified : verifyMsg recvmsg = .ok true
  sendID : recvmsg.head.sendID > 0
  recvID : recvmsg.head.recvID = 0
  control : (recvmsg.isControl .syn || recvmsg.isControl .rts) = true

theorem undivided_handleMessage_iff (hsound : s.Sound cs) (hindex : i < cs.length) :
    Undivided (handleMessage spare handles draw i recvmsg s) ↔
      ¬ (AsksForChannel recvmsg ∧ OpensEmpty spare handles i recvmsg s) := by
  rw [handleMessage]
  cases hverify : verifyMsg recvmsg with
  | error fault =>
      refine iff_of_true (by rintro ⟨⟩) ?_
      rintro ⟨hasks, -⟩
      rw [hasks.verified] at hverify
      cases hverify
  | ok valid =>
      rw [checked_ok, run_bind]
      split
      next hinvalid =>
        refine iff_of_true undivided_reply ?_
        rintro ⟨hasks, -⟩
        rw [hasks.verified, Except.ok.injEq] at hverify
        simp [← hverify] at hinvalid
      next hvalid =>
        split
        next hids =>
          refine iff_of_true undivided_connectionControl ?_
          rintro ⟨hasks, -⟩
          exact absurd hids.1 (UInt64.ne_of_lt hasks.sendID).symm
        next =>
          split
          next hids =>
            rw [channelControl]
            split
            next hcontrol =>
              have hasks : AsksForChannel recvmsg :=
                ⟨by simpa using hverify.trans (by simpa using hvalid), hids.1, hids.2, hcontrol⟩
              rw [undivided_channelInfo_iff hsound hindex, and_iff_right hasks]
            next hcontrol =>
              refine iff_of_true ?_ fun hopens => hcontrol hopens.1.control
              split
              next => exact undivided_finishChannel
              next => exact undivided_nack
          next hids =>
            refine iff_of_true undivided_channelMessage ?_
            rintro ⟨hasks, -⟩
            exact hids ⟨hasks.sendID, hasks.recvID⟩

end Messages

/-! ## Events -/

/-- The event is such a message. -/
def EventOpensEmpty (spare : Nat → Nat) (handles : List FileHandle) : ServerEvent → Server → Prop
  | .receive i (some recvmsg) _, s => i < s.totalConnections.toNat ∧
      AsksForChannel recvmsg ∧ OpensEmpty spare handles i recvmsg s
  | _, _ => False

theorem undivided_event_iff {s : Server} {cs : List Connection} (hsound : s.Sound cs)
    (spare : Nat → Nat) (handles : List FileHandle) (event : ServerEvent) :
    Undivided (Server.event spare handles event s) ↔
      ¬ EventOpensEmpty spare handles event s := by
  cases event with
  | accept sock => exact iff_of_true (undivided_checked _) not_false
  | receive i recvmsg draw =>
      simp only [Server.event]
      split
      next hindex =>
        cases recvmsg with
        | none => exact iff_of_true (undivided_checked _) not_false
        | some recvmsg =>
            rw [EventOpensEmpty, and_iff_right hindex]
            rw [hsound.totalConnections] at hindex
            rw [← undivided_handleMessage_iff hsound hindex]
            exact undivided_bind_iff fun _ => undivided_pure _
      next hindex =>
        refine iff_of_true (undivided_pure s) fun hopens => ?_
        cases recvmsg with
        | none => exact hopens
        | some recvmsg => exact hindex hopens.1
  | step i j msgID =>
      refine iff_of_true ?_ not_false
      simp only [Server.event]
      split
      next hindex =>
        rw [hsound.totalConnections] at hindex
        obtain ⟨ws, hws⟩ := hsound.sound _ (List.getElem_mem hindex)
        rw [threadStep, hsound.toHas.slotAt hindex, checked_ok, run_bind]
        split
        next hchan =>
          rw [hws.numChans] at hchan
          rw [hws.chans.slotAt hchan, checked_ok, run_bind]
          have hlive := hws.live _ (List.getElem_mem hchan)
          exact undivided_bind (Worker.undivided_step hlive.maxSize msgID) fun _ _ =>
            undivided_checked _
        next => exact undivided_pure s
      next => exact undivided_pure s

/-- A run ends in a division by zero exactly when one of its messages makes a channel of
segments without bytes. -/
theorem run_undivided_iff (spare : Nat → Nat) (handles : List FileHandle)
    (events : List ServerEvent) :
    run (Server.event spare handles) events Server.start ≠ .error .divideByZero ↔
      Meets (Server.event spare handles) (fun event s => ¬ EventOpensEmpty spare handles event s)
        events Server.start := by
  have hkeep : ∀ e s s', (∃ cs, Server.Sound s cs) → Server.event spare handles e s = .ok s' →
      ∃ cs, Server.Sound s' cs := by
    intro e s s' ⟨cs, hsound⟩ hevent
    exact hsound.event hevent
  have hstep : ∀ e s, (∃ cs, Server.Sound s cs) →
      (Server.event spare handles e s ≠ .error .divideByZero ↔
        ¬ EventOpensEmpty spare handles e s) := by
    intro e s ⟨cs, hsound⟩
    exact undivided_event_iff hsound spare handles e
  exact run_ne_error_iff hkeep hstep ⟨[], server_start_sound⟩

/-- A client asks for `a` in segments of no bytes. -/
def askNothingMsg : Msg where
  head := formHeader 7 100 0 ChannelType.control.code DataType.syn.code 0 1
  body := (askMsg 100).body
  trail := formHeader 7 100 0 ChannelType.control.code DataType.syn.code 0 1

/-- The message is verified, and the answer to it divides by zero. -/
theorem run_divided :
    ¬ ∀ spare handles events, (∀ i recvmsg draw, .receive i (some recvmsg) draw ∈ events →
        verifyMsg recvmsg = .ok true) →
      run (Server.event spare handles) events Server.start ≠ .error .divideByZero := by
  intro hevery
  refine hevery 0 [threeBytes] [.accept 5, .receive 0 (some askNothingMsg) ⟨9, 1⟩] ?_ ?_
  · intro i recvmsg draw hmem
    rcases List.mem_cons.mp hmem with hfirst | hsecond
    · cases hfirst
    · cases List.mem_singleton.mp hsecond
      decide +kernel
  · decide +kernel

end Hipft
