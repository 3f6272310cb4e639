import Hipft.Server.Channels
import Hipft.Server.Directory
import Hipft.Server.Establishment

/-! # What the server survives

The messages of the clients are those that the parser lets through. With them the server goes
on unless a client asks for a new channel with segments of no bytes, or an array has to grow
that the allocator gave no slot to spare.
-/

namespace Hipft

open CMemory Transitions

/-! ## Conditions -/

/-- A parsed message. -/
def Parsed (m : Msg) : Prop :=
  ∃ b len, UInt64.toNat len ≤ b.length ∧ msgFromBytes b len = .ok (some m)

/-- The message opens a channel on a connection of the table. -/
structure Opens (handles : List FileHandle) (m : Msg) (entry : TableEntry) (t : Table) : Prop where
  verified : verifyMsg m = .ok true
  request : m.request = .ask
  room : t.channels < maxChannels.toNat
  missing : entry.find m.head.sendID 0 = none
  file : ∃ fhandle, fileHandleForFile m.body.content m.head.contentLength.toNat handles =
    .ok (some fhandle)

/-- A new channel needs segments that are not empty, and a slot. -/
def Survivable (spare : Nat → Nat) (handles : List FileHandle) : ServerEvent → Table → Prop
  | .accept _, t => t = [] ∨ 0 < spare t.length ∧ t.length < 2 ^ 60
  | .receive i (some m) _, t => ∀ entry, t[i]? = some entry → Opens handles m entry t →
      m.head.segmentNum ≠ 0 ∧ (entry.chans = [] ∨ 0 < spare entry.chans.length)
  | _, _ => True

theorem Parsed.stored {m : Msg} (hparsed : Parsed m) : m.Stored := by
  obtain ⟨b, len, hmem, hparse⟩ := hparsed
  exact stored_of_msgFromBytes hmem hparse

/-! ## Threads -/

/-- What happened to a channel so far did not lead it to a step that crashes. -/
theorem Worker.Since.running {handles : List FileHandle} {sock : Nat} {w : Worker}
    (hsince : w.Since handles sock) (hsize : w.chan.maxSize ≠ 0) :
    ∃ fhandle firsts agains, Running fhandle w firsts agains := by
  obtain ⟨selfID, otherID, maxSize, fhandle, history, -, -, hhistory⟩ := hsince
  have hsize' : maxSize ≠ 0 := by
    rwa [(run_alike hhistory).maxSize] at hsize
  obtain ⟨w', hrun, firsts, agains, hrunning⟩ :=
    run_running sock selfID otherID fhandle hsize' history
  obtain rfl : w = w' := Except.ok.inj (hhistory.symm.trans hrun)
  exact ⟨fhandle, firsts, agains, hrunning⟩

/-! ## Messages -/

section Messages

variable {s : Server} {cs : List Connection} {i : Nat} {m : Msg}

theorem nack_isOk (draw : Draw) (m : Msg) (s : Server) : ∃ r, nack draw m s = .ok r := by
  obtain ⟨sent, hreply, -⟩ :=
    reply_eq draw m.head.recvID m.head.sendID .nack 0 [] 0 (Nat.le_refl 0)
  refine ⟨(s, [sent]), ?_⟩
  rw [nack, hreply]
  rfl

theorem Server.Filled.setChan_isOk (hfilled : s.Filled) (hi : i < s.table.length) {j : Nat}
    (hj : j < s.table[i].chans.length) (f : Worker → Worker) : ∃ s', s.setChan i j f = .ok s' := by
  obtain ⟨cs, hi', hhas, -, hws, -⟩ := hfilled.entry hi
  obtain ⟨s', conn, hset, -⟩ := hhas.setChan hi' hws hj f
  exact ⟨s', hset⟩

section Filled

variable (hfilled : s.Filled) (hi : i < s.table.length) (draw : Draw) (m : Msg)
include hfilled hi

theorem writeChannel_isOk (f : Worker → Worker) : ∃ r, writeChannel draw i m f s = .ok r := by
  rw [writeChannel, hfilled.find_eq hi, checked_ok, run_bind]
  cases hfound : s.table[i].find m.head.sendID m.head.recvID with
  | none => exact nack_isOk draw m s
  | some j =>
      obtain ⟨s', hset⟩ := hfilled.setChan_isOk hi (TableEntry.lt_of_find hfound) f
      refine ⟨(s', []), ?_⟩
      simp only [hset, checked_ok, run_bind]
      rfl

theorem finishChannel_isOk : ∃ r, finishChannel draw i m s = .ok r := by
  obtain ⟨sent, hreply, -⟩ := reply_eq draw 0 m.head.sendID .fin 0 [] 0 (Nat.le_refl 0)
  rw [finishChannel, hfilled.find_eq hi, checked_ok, run_bind]
  cases hfound : s.table[i].find m.head.sendID m.head.recvID with
  | none =>
      refine ⟨(s, [sent]), ?_⟩
      simp only [pure_bind, hreply, run_bind]
      rfl
  | some j =>
      obtain ⟨s', hend, -⟩ := hfilled.endChannel hi (TableEntry.lt_of_find hfound)
      refine ⟨(s', [sent]), ?_⟩
      simp only [hend, checked_ok, run_bind, hreply]
      rfl

theorem connectionControl_isOk : ∃ r, connectionControl draw i m s = .ok r := by
  rw [connectionControl]
  split
  next =>
    obtain ⟨s', hend, -⟩ := hfilled.endConnection hi
    refine ⟨(s', []), ?_⟩
    rw [hend, checked_ok, run_bind]
    rfl
  next => exact nack_isOk draw m s

theorem channelMessage_isOk : ∃ r, channelMessage draw i m s = .ok r := by
  rw [channelMessage]
  split
  next => exact writeChannel_isOk hfilled hi draw m _
  next =>
    split
    next => exact writeChannel_isOk hfilled hi draw m _
    next =>
      split
      next => exact finishChannel_isOk hfilled hi draw m
      next => exact nack_isOk draw m s

end Filled

/-- An answer that is made says of which segments it counts the number. -/
theorem acknowledge_maxSize (hhas : s.Has cs) (hi : i < cs.length) {ws : List Worker}
    (hchans : cs[i].Has ws) {j : Nat} {w : Worker} (hw : ws[j]? = some w) {draw : Draw}
    {r : Server × List Msg} (hack : acknowledge draw i j m s = .ok r) : w.chan.maxSize ≠ 0 := by
  rw [acknowledge_eq hhas hi hchans hw] at hack
  obtain ⟨fhandle, -, hack⟩ := run_bind_eq_ok.mp hack
  obtain ⟨numSegments, hnum, -⟩ := run_bind_eq_ok.mp hack
  exact numSegmentsInFileHandle_ne_zero hnum

/-- A new channel is made and told about if its segments are not empty and there is a slot. -/
theorem create_isOk_iff (hsound : s.Sound cs) (hi : i < cs.length) {ws : List Worker}
    (hws : cs[i].Sound ws) (hsendID : m.head.sendID > 0) (spare : Nat → Nat) (draw : Draw)
    (fhandle : FileHandle) :
    (∃ r, (do
      let (s, chanIndex) ← checked (createChannel spare draw i m fhandle s)
      acknowledge draw i chanIndex m s) = .ok r) ↔
        m.head.segmentNum ≠ 0 ∧ (ws = [] ∨ 0 < spare ws.length) := by
  have hgrow : (ws = [] ∨ 0 < spare ws.length) ↔ ∃ made, newChannel spare i s = .ok made := by
    rw [hsound.toHas.newChannel_isOk hi hws.toHas]
    have hfew : ws.length < 2 ^ 60 :=
      Nat.lt_of_le_of_lt (hsound.length_le hi hws.toHas) (by decide)
    simp only [hfew, and_true]
  rw [hgrow]
  constructor
  · rintro ⟨r, hrun⟩
    obtain ⟨⟨next, j⟩, hcreate, hack⟩ := run_bind_eq_ok.mp hrun
    rw [checked_eq_ok] at hcreate
    obtain ⟨made, hmake, -⟩ := bind_eq_ok.mp hcreate
    obtain ⟨s', conn, hok, hhas, hconn, -⟩ :=
      createChannel_eq hsound.toHas hi hws.toHas hmake fhandle
    rw [hcreate, Except.ok.injEq, Prod.mk.injEq] at hok
    obtain ⟨rfl, rfl⟩ := hok
    have hi' : i < (cs.set i conn).length := by rwa [List.length_set]
    exact ⟨acknowledge_maxSize hhas hi' (hconn.at_set hi') List.getElem?_concat_length hack,
      made, hmake⟩
  · rintro ⟨hsize, made, hmake⟩
    obtain ⟨s', conn, hcreate, hhas, hconn, -⟩ :=
      createChannel_eq hsound.toHas hi hws.toHas hmake fhandle
    have hi' : i < (cs.set i conn).length := by rwa [List.length_set]
    have hlive : Live (cs[i].newWorker draw m fhandle).chan :=
      ⟨(UInt64.ne_of_lt hsendID).symm, generateRandomUint_ne_zero _, hsize, rfl⟩
    obtain ⟨sent, hack, -⟩ := acknowledge_live hhas hi' (hconn.at_set hi')
      List.getElem?_concat_length hlive draw m
    refine ⟨(s', [sent]), ?_⟩
    rw [hcreate, checked_ok, run_bind]
    exact hack

theorem channelInfo_isOk_iff (hsound : s.Sound cs) (hi : i < s.table.length)
    (hstored : m.Stored) (hverified : verifyMsg m = .ok true) (hrequest : m.request = .ask)
    (hsendID : m.head.sendID > 0) (spare : Nat → Nat) (handles : List FileHandle) (draw : Draw) :
    (∃ r, channelInfo spare handles draw i m s = .ok r) ↔
      (Opens handles m s.table[i] s.table →
        m.head.segmentNum ≠ 0 ∧ (s.table[i].chans = [] ∨ 0 < spare s.table[i].chans.length)) := by
  have hi' : i < cs.length := hsound.toHas.table_length ▸ hi
  obtain ⟨ws, hws⟩ := hsound.sound _ (List.getElem_mem hi')
  have hentry : s.table[i].chans = ws := by
    rw [hsound.toHas.getElem_table hi hi', hws.toHas.entry_eq]
  have hlookup : ∃ found, fileHandleForFile m.body.content m.head.contentLength.toNat handles =
      .ok found := by
    rw [← hstored.content]
    exact ⟨_, fileHandleForFile_eq m.body.content handles⟩
  obtain ⟨found, hfile⟩ := hlookup
  rw [channelInfo, hfile, checked_ok, run_bind]
  cases found with
  | none =>
      obtain ⟨sent, hreply, -⟩ := reply_eq draw 0 m.head.sendID .fin 0 [] 0 (Nat.le_refl 0)
      refine iff_of_true ⟨(s, [sent]), ?_⟩ fun hopens => ?_
      · simp only [hreply, run_bind]
        rfl
      · obtain ⟨fhandle, hfile'⟩ := hopens.file
        rw [hfile] at hfile'
        cases hfile'
  | some fhandle =>
      have hroom : s.table.channels < maxChannels.toNat ↔ s.totalChannels < maxChannels := by
        rw [← hsound.channels_eq, UInt64.lt_iff_toNat_lt]
      simp only
      split
      next hfull =>
        obtain ⟨sent, hreply, -⟩ := reply_eq draw 0 m.head.sendID .fin 0 m.body.content
          m.head.contentLength (Nat.le_of_eq hstored.content.symm)
        refine iff_of_true ⟨(s, [sent]), ?_⟩ fun hopens => ?_
        · rw [hreply, run_bind]
          rfl
        · exact absurd (hroom.mp hopens.room) (UInt64.not_lt.mpr hfull)
      next hfull =>
        rw [hsound.filled.find_eq hi, checked_ok, run_bind]
        cases hfound : s.table[i].find m.head.sendID 0 with
        | some j =>
            have hj := TableEntry.lt_of_find hfound
            rw [hentry] at hj
            have hlive := hws.live _ (List.getElem_mem hj)
            obtain ⟨sent, hack, -⟩ := acknowledge_live hsound.toHas hi' hws.toHas
              (List.getElem?_eq_getElem hj) hlive draw m
            refine iff_of_true ⟨(s, [sent]), hack⟩ fun hopens => ?_
            rw [hopens.missing] at hfound
            cases hfound
        | none =>
            simp only [create_isOk_iff hsound hi' hws hsendID, hentry]
            refine ⟨fun hgrows _ => hgrows, fun hgrows => hgrows ?_⟩
            exact ⟨hverified, hrequest, hroom.mpr (UInt64.not_le.mp hfull), hfound, fhandle, hfile⟩

/-- A message of another kind opens nothing. -/
theorem handleMessage_isOk_iff (hsound : s.Sound cs) (hi : i < s.table.length)
    (hstored : m.Stored) (spare : Nat → Nat) (handles : List FileHandle) (draw : Draw) :
    (∃ r, handleMessage spare handles draw i m s = .ok r) ↔
      (Opens handles m s.table[i] s.table →
        m.head.segmentNum ≠ 0 ∧ (s.table[i].chans = [] ∨ 0 < spare s.table[i].chans.length)) := by
  have hfilled := hsound.filled
  obtain ⟨accepts, hverify, -⟩ := verifyMsg_eq hstored
  rw [handleMessage, hverify, checked_ok, run_bind]
  cases accepts with
  | false =>
      obtain ⟨sent, hreply, -⟩ :=
        reply_eq draw m.head.recvID m.head.sendID .rts 0 [] 0 (Nat.le_refl 0)
      refine iff_of_true ⟨(s, [sent]), ?_⟩ fun hopens => ?_
      · simp only [Bool.not_false, if_true, hreply, run_bind]
        rfl
      · rw [hopens.verified] at hverify
        cases hverify
  | true =>
      simp only [Bool.not_true, Bool.false_eq_true, if_false]
      by_cases hzero : m.head.sendID = 0 ∧ m.head.recvID = 0
      · rw [if_pos hzero]
        refine iff_of_true (connectionControl_isOk hfilled hi draw m) fun hopens => ?_
        have hrequest := hopens.request
        rw [Msg.request, if_pos hzero] at hrequest
        split at hrequest
        next => cases hrequest
        next => cases hrequest
      rw [if_neg hzero]
      by_cases hids : m.head.sendID > 0 ∧ m.head.recvID = 0
      · rw [if_pos hids, channelControl]
        split
        next hask =>
          have hrequest : m.request = .ask := by
            rw [Msg.request, if_neg hzero, if_pos hids.2, if_pos hask]
          exact channelInfo_isOk_iff hsound hi hstored hverify hrequest hids.1 spare handles draw
        next hask =>
          have hother : ∃ r, (if m.isControl .fin then finishChannel draw i m s
              else nack draw m s) = .ok r := by
            split
            next => exact finishChannel_isOk hfilled hi draw m
            next => exact nack_isOk draw m s
          refine iff_of_true hother fun hopens => ?_
          have hrequest := hopens.request
          rw [Msg.request, if_neg hzero, if_pos hids.2, if_neg hask] at hrequest
          split at hrequest
          next => cases hrequest
          next => cases hrequest
      · rw [if_neg hids]
        refine iff_of_true (channelMessage_isOk hfilled hi draw m) fun hopens => ?_
        have hrecvID : m.head.recvID ≠ 0 := by
          intro hrecvID
          refine hids ⟨UInt64.pos_iff_ne_zero.mpr fun hsendID => ?_, hrecvID⟩
          exact hzero ⟨hsendID, hrecvID⟩
        have hrequest := hopens.request
        rw [Msg.request, if_neg hzero, if_neg hrecvID] at hrequest
        repeat' split at hrequest
        all_goals cases hrequest

end Messages

/-! ## Runs -/

section Runs

variable {s : Server} {cs : List Connection} {handles : List FileHandle}

/-- An event is survived exactly if its condition holds of the table. -/
theorem event_isOk_iff (hsound : s.Sound cs) (hsince : s.table.All (Worker.Since handles))
    (spare : Nat → Nat) {e : ServerEvent}
    (hstored : ∀ i m draw, e = .receive i (some m) draw → m.Stored) :
    (∃ s', Server.event spare handles e s = .ok s') ↔ Survivable spare handles e s.table := by
  have hlength := hsound.filled.totalConnections
  cases e with
  | accept sock =>
      have hnew := hsound.toHas.newConnection_isOk spare
      rw [Survivable, hsound.toHas.table_length, hsound.toHas.table_eq, List.map_eq_nil_iff, ← hnew]
      constructor
      · rintro ⟨s', haccept⟩
        obtain ⟨made, hmake, -⟩ := bind_eq_ok.mp (checked_eq_ok.mp haccept)
        exact ⟨made, hmake⟩
      · rintro ⟨made, hmake⟩
        obtain ⟨hhas, -⟩ := hsound.toHas.newConnection hmake
        have hlast : (made.totalConnections - 1).toNat = cs.length := toNat_sub_one (by
          rw [hhas.totalConnections, List.length_append, List.length_singleton])
        have hroom : cs.length < (cs ++ [Connection.fresh]).length := by simp
        obtain ⟨conns, hset, -⟩ := hhas.setConn hroom { sock, numChans := 0, chans := [] }
        refine ⟨{ made with conns }, ?_⟩
        rw [Server.event, acceptConnection, hmake, ok_bind, hlast, hset]
        rfl
  | receive i m draw =>
      simp only [Server.event]
      split
      next hi =>
        rw [hlength] at hi
        cases m with
        | none =>
            obtain ⟨s', hend, -⟩ := hsound.filled.endConnection hi
            exact iff_of_true ⟨s', by rw [hend]; rfl⟩ trivial
        | some m =>
            have hmessage :=
              handleMessage_isOk_iff hsound hi (hstored i m draw rfl) spare handles draw
            have hcond : Survivable spare handles (.receive i (some m) draw) s.table ↔
                (Opens handles m s.table[i] s.table →
                  m.head.segmentNum ≠ 0 ∧
                    (s.table[i].chans = [] ∨ 0 < spare s.table[i].chans.length)) := by
              simp only [Survivable, List.getElem?_eq_getElem hi, Option.some.injEq, forall_eq']
            rw [hcond, ← hmessage]
            constructor
            · rintro ⟨s', hevent⟩
              obtain ⟨r, hhandle, -⟩ := run_bind_eq_ok.mp hevent
              exact ⟨r, hhandle⟩
            · rintro ⟨⟨s', replies⟩, hhandle⟩
              refine ⟨s', ?_⟩
              simp only [hhandle, run_bind]
              rfl
      next hi =>
        rw [hlength, Nat.not_lt] at hi
        refine iff_of_true ⟨s, rfl⟩ ?_
        cases m with
        | none => exact trivial
        | some m =>
            intro entry hentry
            rw [List.getElem?_eq_none hi] at hentry
            cases hentry
  | step i j msgID =>
      refine iff_of_true ?_ trivial
      simp only [Server.event]
      split
      next hi =>
        rw [hlength] at hi
        have hi' : i < cs.length := hsound.toHas.table_length ▸ hi
        obtain ⟨ws, hws⟩ := hsound.sound _ (List.getElem_mem hi')
        have hentry : s.table[i].chans = ws := by
          rw [hsound.toHas.getElem_table hi hi', hws.toHas.entry_eq]
        rw [threadStep, hsound.toHas.slotAt hi', checked_ok, run_bind, hws.numChans]
        split
        next hj =>
          have hmem : ws[j] ∈ s.table[i].chans := hentry ▸ List.getElem_mem hj
          obtain ⟨fhandle, firsts, agains, hrunning⟩ :=
            (hsince _ (List.getElem_mem hi) _ hmem).running
              (hws.live _ (List.getElem_mem hj)).maxSize
          obtain ⟨w', -, -, hstep, -⟩ := hrunning.step msgID
          obtain ⟨s', hset⟩ := hsound.filled.setChan_isOk hi (hentry ▸ hj) fun _ => w'
          refine ⟨s', ?_⟩
          rw [hws.chans.slotAt hj, checked_ok, run_bind, hstep, run_bind, hset]
          rfl
        next => exact ⟨s, rfl⟩
      next => exact ⟨s, rfl⟩

end Runs

end Hipft
