import Hipft.Server.Unasked
import Hipft.Server.Wire

/-! # A client that has the server's attention

What the server does with the messages of a download, on a connection that has at most the one
channel.
-/

namespace Hipft

open CMemory Transitions

/-! ## Control messages -/

/-- A control message that verifies, with this in it. -/
structure Control (sendID recvID : UInt64) (dataType : DataType) (segmentNum : UInt64)
    (content : Bytes) (m : Msg) : Prop where
  verified : verifyMsg m = .ok true
  stored : m.Stored
  chanType : m.head.chanType = ChannelType.control.code
  dataType : m.head.dataType = dataType.code
  sendID : m.head.sendID = sendID
  recvID : m.head.recvID = recvID
  segmentNum : m.head.segmentNum = segmentNum
  contentLength : m.head.contentLength.toNat = content.length
  content : m.body.content = content

section Control

variable {sendID recvID segmentNum : UInt64} {dataType : DataType} {content : Bytes} {m : Msg}

theorem DataType.code_inj {dataType other : DataType} :
    dataType.code = other.code ↔ dataType = other := by
  cases dataType <;> cases other <;> decide

theorem Control.isControl (hcontrol : Control sendID recvID dataType segmentNum content m)
    (other : DataType) : m.isControl other = decide (dataType = other) := by
  simp [Msg.isControl, hcontrol.chanType, hcontrol.dataType, DataType.code_inj]

/-- What the message asks the server for. -/
theorem Control.request_ask (hcontrol : Control sendID 0 .syn segmentNum content m)
    (hsendID : sendID ≠ 0) : m.request = .ask := by
  rw [Msg.request, hcontrol.sendID, hcontrol.recvID, if_neg fun hzero => hsendID hzero.1,
    if_pos rfl, hcontrol.isControl]
  rfl

theorem Control.request_ready (hcontrol : Control sendID recvID .syn segmentNum content m)
    (hrecvID : recvID ≠ 0) : m.request = .ready := by
  rw [Msg.request, hcontrol.recvID, if_neg fun hzero => hrecvID hzero.2, if_neg hrecvID,
    hcontrol.isControl]
  rfl

theorem Control.request_finish (hcontrol : Control sendID recvID .fin segmentNum content m)
    (hrecvID : recvID ≠ 0) : m.request = .finish := by
  rw [Msg.request, hcontrol.recvID, if_neg fun hzero => hrecvID hzero.2, if_neg hrecvID,
    hcontrol.isControl, hcontrol.isControl, hcontrol.isControl]
  rfl

theorem Control.request_close (hcontrol : Control 0 0 .fin segmentNum content m) :
    m.request = .close := by
  rw [Msg.request, hcontrol.sendID, hcontrol.recvID, if_pos ⟨rfl, rfl⟩, hcontrol.isControl]
  rfl

/-- What is formed is such a message. -/
theorem formMsg_control (msgID : UInt32) (sendID recvID : UInt64) (dataType : DataType)
    (segmentNum : UInt64) (hshort : content.length < 65536) :
    ∃ m, formMsg msgID sendID recvID ChannelType.control.code dataType.code segmentNum content
        (UInt32.ofNat content.length) = .ok m ∧
      Control sendID recvID dataType segmentNum content m := by
  obtain ⟨m, hform, hformed, hstored, hconsistent⟩ := formMsg_consistent msgID sendID recvID
    ChannelType.control.code dataType.code segmentNum hshort
  refine ⟨m, hform, (verifyMsg_iff hstored).mpr hconsistent, hstored, ?_, ?_, ?_, ?_, ?_, ?_,
    hformed.content⟩
  · rw [hformed.head]
    rfl
  · rw [hformed.head]
    rfl
  · rw [hformed.head]
    rfl
  · rw [hformed.head]
    rfl
  · rw [hformed.head]
    rfl
  · rw [← hformed.content, hstored.content]

/-- An answer without content. -/
theorem reply_control {draw : Draw}
    (hreply : reply draw sendID recvID dataType segmentNum [] 0 = .ok m) :
    Control sendID recvID dataType segmentNum [] m := by
  obtain ⟨formed, hform, hreply⟩ := run_bind_eq_ok.mp hreply
  obtain ⟨bytes, -, hreply⟩ := run_bind_eq_ok.mp hreply
  cases hreply
  obtain ⟨sent, hform', hcontrol⟩ := formMsg_control draw.msgID sendID recvID dataType segmentNum
    (show ([] : Bytes).length < 65536 by decide)
  obtain rfl : sent = m := Except.ok.inj (hform'.symm.trans (checked_eq_ok.mp hform))
  exact hcontrol

end Control

/-! ## The one connection with a socket -/

section Only

variable {t : Table} {sock i : Nat} {entry only : TableEntry}

/-- What has the property stands between two parts that have it not. -/
theorem filter_eq_singleton {α : Type} {p : α → Bool} {l : List α} {a b : α}
    (honly : l.filter p = [b]) (ha : l[i]? = some a) (hp : p a = true) :
    a = b ∧ (l.take i).filter p = [] ∧ (l.drop (i + 1)).filter p = [] := by
  obtain ⟨hi, rfl⟩ := List.getElem?_eq_some_iff.mp ha
  rw [← List.take_append_drop i l, List.drop_eq_getElem_cons hi, List.filter_append,
    List.filter_cons_of_pos hp, List.append_eq_singleton_iff] at honly
  rcases honly with ⟨hfront, hback⟩ | ⟨-, hback⟩
  · rw [List.cons.injEq] at hback
    exact ⟨hback.1, hfront, hback.2⟩
  · cases hback

theorem of_eq_self (honly : t.of sock = [only]) (hentry : t[i]? = some entry)
    (hsock : entry.sock = sock) : entry = only :=
  (filter_eq_singleton honly hentry (decide_eq_true hsock)).1

theorem of_modify_self (honly : t.of sock = [only]) (hentry : t[i]? = some entry)
    (hsock : entry.sock = sock) {f : TableEntry → TableEntry}
    (hf : ∀ entry, (f entry).sock = entry.sock) : Table.of sock (t.modify i f) = [f only] := by
  obtain ⟨rfl, hfront, hback⟩ := filter_eq_singleton honly hentry (decide_eq_true hsock)
  obtain ⟨hi, hget⟩ := List.getElem?_eq_some_iff.mp hentry
  rw [Table.of, List.modify_eq_take_cons_drop hi, hget, List.filter_append, hfront,
    List.filter_cons, if_pos (decide_eq_true ((hf entry).trans hsock)), hback]
  rfl

theorem of_eraseIdx_self (honly : t.of sock = [only]) (hentry : t[i]? = some entry)
    (hsock : entry.sock = sock) : Table.of sock (t.eraseIdx i) = [] := by
  obtain ⟨-, hfront, hback⟩ := filter_eq_singleton honly hentry (decide_eq_true hsock)
  rw [Table.of, List.eraseIdx_eq_take_drop_succ, List.filter_append, hfront, hback]
  rfl

end Only

/-! ## Events of its own -/

section Events

variable {spare : Nat → Nat} {handles : List FileHandle} {drawn : Nat → UInt32} {sock i j : Nat}
  {c c' : Wired} {e : ServerEvent} {entry : TableEntry}

/-- A message of the client: the channels that it ends write what they still do, and behind
that stand the answers. -/
theorem wired_receive (hreached : c.server.Reached handles) {only : TableEntry}
    (honly : c.server.table.of sock = [only]) (hentry : c.server.table[i]? = some entry)
    (hsock : entry.sock = sock) {m : Msg} (hverified : verifyMsg m = .ok true) {draw : Draw}
    (hevent : Wired.event spare handles drawn (.receive i (some m) draw) c = .ok c') :
    c.server.table[i]? = some only ∧ only.sock = sock ∧
      c'.server.table = c.server.table.handle handles draw i m ∧
      ∃ joined answers, (only.ends (some m)).foldlM (Worker.join drawn) c.log = .ok joined ∧
        handleMessage spare handles draw i m c.server = .ok (c'.server, answers) ∧
        c'.log.on sock = joined.on sock ++ answers := by
  obtain rfl := of_eq_self honly hentry hsock
  obtain ⟨hserver, hwrites⟩ := wired_server hevent
  obtain ⟨cs, hsound⟩ := hreached.sound
  obtain ⟨hi, -⟩ := List.getElem?_eq_some_iff.mp hentry
  refine ⟨hentry, hsock, ?_, ?_⟩
  · rw [event_table hsound hserver, Table.act, if_pos hverified]
  rw [← hsound.filled.totalConnections] at hi
  simp only [Server.event, if_pos hi] at hserver
  obtain ⟨⟨server, answers⟩, hhandle, hserver⟩ := run_bind_eq_ok.mp hserver
  obtain rfl : server = c'.server := Except.ok.inj hserver
  simp only [ServerEvent.writes, hentry] at hwrites
  obtain ⟨joined, hjoins, hwrites⟩ := run_bind_eq_ok.mp hwrites
  obtain ⟨answers', hanswers, hwrites⟩ := run_bind_eq_ok.mp hwrites
  rw [Server.answers, hhandle] at hanswers
  obtain rfl : answers = answers' := Except.ok.inj hanswers
  refine ⟨joined, answers, hjoins, hhandle, ?_⟩
  subst hsock
  rw [← Except.ok.inj hwrites, Log.on_append, Log.on_map, List.map_id']

/-- The thread of a channel does a step. -/
theorem wired_step (hreached : c.server.Reached handles) {ws : List Worker}
    (honly : c.server.table.of sock = [⟨sock, ws⟩]) (hentry : c.server.table[i]? = some entry)
    (hsock : entry.sock = sock) {msgID : UInt32}
    (hevent : Wired.event spare handles drawn (.step i j msgID) c = .ok c') :
    (ws[j]? = none ∧
        c'.server.table.of sock = c.server.table.of sock ∧ c'.log.on sock = c.log.on sock) ∨
      ∃ w next, ws[j]? = some w ∧ w.step msgID = .ok next ∧
        c'.server.table.of sock = [⟨sock, ws.set j next⟩] ∧ c'.log.on sock =
          c.log.on sock ++ (next.thread.sent.drop w.thread.sent.length).map Sent.msg := by
  obtain rfl := of_eq_self honly hentry hsock
  obtain ⟨hserver, hwrites⟩ := wired_server hevent
  obtain ⟨cs, hsound⟩ := hreached.sound
  have htable : c'.server.table.of sock = [⟨sock, ws.modify j (Worker.stepped msgID)⟩] := by
    rw [event_table hsound hserver, Table.act]
    exact of_modify_self honly hentry rfl fun _ => rfl
  simp only [ServerEvent.writes, hentry, Option.bind_some] at hwrites
  cases hw : ws[j]? with
  | none =>
      rw [hw] at hwrites
      rw [htable, honly, List.modify_eq_self (List.getElem?_eq_none_iff.mp hw),
        ← Except.ok.inj hwrites]
      exact .inl ⟨rfl, rfl, rfl⟩
  | some w =>
      rw [hw] at hwrites
      obtain ⟨next, hstep, hwrites⟩ := run_bind_eq_ok.mp hwrites
      have hworker : w.chan.sock = sock :=
        (hreached.since _ (List.mem_of_getElem? hentry) w (List.mem_of_getElem? hw)).sock_eq
      obtain ⟨hj, rfl⟩ := List.getElem?_eq_some_iff.mp hw
      refine .inr ⟨_, next, rfl, hstep, ?_, ?_⟩
      · rw [htable, List.modify_eq_set_get _ hj, List.get_eq_getElem, Worker.stepped, hstep]
      · rw [← Except.ok.inj hwrites, Log.on_append, Worker.writes, hworker, Log.on_map]

/-- Any thread can do a step. -/
theorem Server.Reached.step_isOk (hreached : c.server.Reached handles) (spare : Nat → Nat)
    (drawn : Nat → UInt32) (i j : Nat) (msgID : UInt32) :
    ∃ c', Wired.event spare handles drawn (.step i j msgID) c = .ok c' := by
  obtain ⟨cs, hsound⟩ := hreached.sound
  have hserver : ∃ s', Server.event spare handles (.step i j msgID) c.server = .ok s' :=
    (event_isOk_iff hsound hreached.since spare (by rintro _ _ _ ⟨⟩)).mpr trivial
  exact (hreached.wired_isOk_iff drawn).mpr ⟨hserver, trivial⟩

/-- Any message can come in that does not ask for a channel without segments, asks only where
there is none, and ends no drained thread. -/
theorem Server.Reached.receive_isOk (hreached : c.server.Reached handles) {m : Msg}
    (hstored : m.Stored) (hentry : c.server.table[i]? = some entry)
    (hasks : m.request = .ask → m.head.segmentNum ≠ 0 ∧ entry.chans = [])
    (hends : ∀ w ∈ entry.chans, ¬ w.EndsDrained) (spare : Nat → Nat) (drawn : Nat → UInt32)
    (draw : Draw) :
    ∃ c', Wired.event spare handles drawn (.receive i (some m) draw) c = .ok c' := by
  obtain ⟨cs, hsound⟩ := hreached.sound
  have hparsed : ∀ i' m' draw', ServerEvent.receive i (some m) draw =
      .receive i' (some m') draw' → m'.Stored := by
    rintro _ _ _ ⟨⟩
    exact hstored
  have hsurvivable : Survivable spare handles (.receive i (some m) draw) c.server.table := by
    intro entry' hentry' hopens
    obtain rfl : entry = entry' := Option.some.inj (hentry.symm.trans hentry')
    obtain ⟨hsize, hnone⟩ := hasks hopens.request
    exact ⟨hsize, .inl hnone⟩
  have hserver := (event_isOk_iff hsound hreached.since spare hparsed).mpr hsurvivable
  refine (hreached.wired_isOk_iff drawn).mpr ⟨hserver, fun entry' hentry' w hw => ?_⟩
  obtain rfl : entry = entry' := Option.some.inj (hentry.symm.trans hentry')
  exact hends w (TableEntry.mem_of_ends hw)

/-- What can happen on the server while nothing comes in from the client. -/
def ServerEvent.Quiet (sock : Nat) (e : ServerEvent) (t : Table) : Prop :=
  e.Spares sock t ∨ ∃ i j msgID, e = .step i j msgID

/-- Meanwhile a thread of its own does a step, or nothing happens to its connection. -/
theorem wired_quiet (hreached : c.server.Reached handles)
    {ws : List Worker} (honly : c.server.table.of sock = [⟨sock, ws⟩])
    (hquiet : e.Quiet sock c.server.table)
    (hevent : Wired.event spare handles drawn e c = .ok c') :
    (c'.server.table.of sock = c.server.table.of sock ∧ c'.log.on sock = c.log.on sock) ∨
      ∃ j msgID w next, ws[j]? = some w ∧ w.step msgID = .ok next ∧
        c'.server.table.of sock = [⟨sock, ws.set j next⟩] ∧ c'.log.on sock =
          c.log.on sock ++ (next.thread.sent.drop w.thread.sent.length).map Sent.msg := by
  rcases hquiet with hspares | ⟨i, j, msgID, rfl⟩
  · exact .inl (wired_spares hreached hspares hevent)
  by_cases hspares : ServerEvent.Spares sock (.step i j msgID) c.server.table
  · exact .inl (wired_spares hreached hspares hevent)
  · simp only [ServerEvent.Spares, not_forall, not_not] at hspares
    obtain ⟨entry, hentry, hsock⟩ := hspares
    rcases wired_step hreached honly hentry hsock hevent with ⟨-, hsame⟩ | ⟨w, next, hstep⟩
    · exact .inl hsame
    · exact .inr ⟨j, msgID, w, next, hstep⟩

/-- When its connection has gone there is nothing of its own. -/
theorem wired_quiet_gone (hreached : c.server.Reached handles)
    (hnone : c.server.table.of sock = []) (hquiet : e.Quiet sock c.server.table)
    (hevent : Wired.event spare handles drawn e c = .ok c') :
    c'.server.table.of sock = c.server.table.of sock ∧ c'.log.on sock = c.log.on sock := by
  refine wired_spares hreached ?_ hevent
  rcases hquiet with hspares | ⟨i, j, msgID, rfl⟩
  · exact hspares
  · intro entry hentry hsock
    exact List.filter_eq_nil_iff.mp hnone entry (List.mem_of_getElem? hentry)
      (decide_eq_true hsock)

end Events

/-! ## The messages of a download -/

section Messages

variable {spare : Nat → Nat} {handles : List FileHandle} {drawn : Nat → UInt32} {sock i : Nat}
  {c c' : Wired} {entry : TableEntry} {m : Msg} {draw : Draw} {sendID segmentNum : UInt64}
  {content : Bytes} {s s' : Server} {answers : List Msg}

theorem Control.asks {fhandle : FileHandle}
    (hcontrol : Control sendID 0 .syn segmentNum content m) (hsendID : sendID ≠ 0)
    (hfile : fileHandleForFile content content.length handles = .ok (some fhandle)) :
    Asks handles fhandle m where
  verified := hcontrol.verified
  control := .inl (by rw [hcontrol.isControl]; rfl)
  recvID := hcontrol.recvID
  sendID := UInt64.pos_iff_ne_zero.mpr (hcontrol.sendID ▸ hsendID)
  file := by rw [hcontrol.content, hcontrol.contentLength, hfile]

/-- A client without channels that asks for a file, with room, is told about a new channel. -/
theorem Asks.answered {fhandle : FileHandle} {cs : List Connection}
    (hasks : Asks handles fhandle m) (hsound : s.Sound cs) (hi : i < s.table.length)
    (hnone : s.table[i].chans = []) (hroom : s.table.channels < maxChannels.toNat)
    (hhandle : handleMessage spare handles draw i m s = .ok (s', answers)) :
    ∃ ack, answers = [ack] ∧ verifyMsg ack = .ok true ∧
      ack.head.sendID = (s.table[i].opened draw fhandle m).chan.selfID := by
  have hfilled' : s'.Filled := by
    obtain ⟨cs', hsound'⟩ := hsound.handleMessage (hsound.toHas.table_length ▸ hi) hhandle
    exact hsound'.filled
  have hfull : ¬ s.totalChannels ≥ maxChannels := by
    rw [ge_iff_le, UInt64.le_iff_toNat_le, hsound.channels_eq]
    exact Nat.not_le.mpr hroom
  have hfind : s.table[i].find m.head.sendID 0 = none := by
    rw [TableEntry.find, hnone]
    rfl
  rw [hasks.handleMessage_eq, channelInfo, hasks.file, checked_ok, run_bind] at hhandle
  simp only [if_neg hfull, hsound.filled.find_eq hi, hfind, checked_ok, run_bind] at hhandle
  obtain ⟨⟨next, j⟩, hcreate, hack⟩ := run_bind_eq_ok.mp hhandle
  obtain ⟨hj, htable⟩ := hsound.filled.createChannel hi (checked_eq_ok.mp hcreate)
  obtain ⟨conn, hslot, hack⟩ := run_bind_eq_ok.mp hack
  obtain ⟨w, hw, hack⟩ := run_bind_eq_ok.mp hack
  obtain ⟨handle, -, hack⟩ := run_bind_eq_ok.mp hack
  obtain ⟨numSegments, -, hack⟩ := run_bind_eq_ok.mp hack
  obtain ⟨ack, hreply, hack⟩ := run_bind_eq_ok.mp hack
  cases hack
  have hcontrol := reply_control hreply
  refine ⟨ack, rfl, hcontrol.verified, hcontrol.sendID.trans ?_⟩
  -- The channel that is looked up is the one that was made.
  have hi' : i < next.table.length := by rwa [htable, List.length_modify]
  have hchans : next.table[i].chans = [s.table[i].opened draw fhandle m] := by
    simp only [htable, List.getElem_modify_eq, hnone, List.nil_append]
  obtain ⟨cs', hi'', hhas, -, hws, -⟩ := hfilled'.entry hi'
  rw [hhas.slotAt hi'', checked_ok, Except.ok.injEq] at hslot
  subst hslot
  rw [hchans] at hws
  rw [hj, hnone, List.length_nil, hws.chans.slotAt (Nat.zero_lt_one), checked_ok,
    Except.ok.injEq] at hw
  rw [← hw]
  rfl

theorem channelMessage_of_recvID (hverified : verifyMsg m = .ok true) (hrecvID : m.head.recvID ≠ 0)
    (hhandle : handleMessage spare handles draw i m s = .ok (s', answers)) :
    channelMessage draw i m s = .ok (s', answers) := by
  have hzero : ¬ (m.head.sendID = 0 ∧ m.head.recvID = 0) := fun hzero => hrecvID hzero.2
  have hnew : ¬ (m.head.sendID > 0 ∧ m.head.recvID = 0) := fun hnew => hrecvID hnew.2
  rw [handleMessage, hverified, checked_ok, run_bind] at hhandle
  simp only [Bool.not_true, Bool.false_eq_true, if_false, if_neg hzero, if_neg hnew] at hhandle
  exact hhandle

/-- The channel with the second ID is found at once. -/
theorem find_only (sock : Nat) (w : Worker) (sendID : UInt64) :
    TableEntry.find sendID w.chan.selfID ⟨sock, [w]⟩ = some 0 := by
  simp [TableEntry.find, List.findIdx?_cons]

/-- The client asks for a channel. -/
theorem wired_ask (hreached : c.server.Reached handles) {fhandle : FileHandle}
    (honly : c.server.table.of sock = [⟨sock, []⟩]) (hentry : c.server.table[i]? = some entry)
    (hsock : entry.sock = sock) (hask : Control sendID 0 .syn segmentNum content m)
    (hsendID : sendID ≠ 0)
    (hfile : fileHandleForFile content content.length handles = .ok (some fhandle))
    (hroom : c.server.table.channels < maxChannels.toNat)
    (hevent : Wired.event spare handles drawn (.receive i (some m) draw) c = .ok c') :
    ∃ ack chanID, chanID ≠ 0 ∧ verifyMsg ack = .ok true ∧ ack.head.sendID = chanID ∧
      c'.log.on sock = c.log.on sock ++ [ack] ∧ c'.server.table.of sock =
        [⟨sock, [Worker.start sock chanID sendID segmentNum fhandle]⟩] := by
  obtain ⟨hentry, -, htable, joined, answers, hjoins, hhandle, hlog⟩ :=
    wired_receive hreached honly hentry hsock hask.verified hevent
  obtain ⟨cs, hsound⟩ := hreached.sound
  obtain ⟨hi, hget⟩ := List.getElem?_eq_some_iff.mp hentry
  have hasks := hask.asks hsendID hfile
  obtain ⟨ack, rfl, hverified, hack⟩ := hasks.answered hsound hi (by rw [hget]) hroom hhandle
  have hrequest := hask.request_ask hsendID
  refine ⟨ack, _, generateRandomUint_ne_zero draw.random, hverified, hack, ?_, ?_⟩
  · rw [TableEntry.ends, if_pos hask.verified, hrequest] at hjoins
    rw [hlog, ← Except.ok.inj hjoins]
  · rw [htable, Table.handle, hrequest]
    simp only [hasks.file, if_pos hroom]
    rw [of_modify_self honly hentry rfl (TableEntry.ask_sock draw fhandle m), ← hask.sendID,
      ← hask.segmentNum]
    rfl

/-- The client readies its channel. -/
theorem wired_ready (hreached : c.server.Reached handles) {w : Worker}
    (honly : c.server.table.of sock = [⟨sock, [w]⟩]) (hentry : c.server.table[i]? = some entry)
    (hsock : entry.sock = sock)
    (hready : Control sendID w.chan.selfID .syn segmentNum content m)
    (hrecvID : w.chan.selfID ≠ 0)
    (hevent : Wired.event spare handles drawn (.receive i (some m) draw) c = .ok c') :
    c'.server.table.of sock = [⟨sock, [w.setReady]⟩] ∧ c'.log.on sock = c.log.on sock := by
  obtain ⟨hentry, -, htable, joined, answers, hjoins, hhandle, hlog⟩ :=
    wired_receive hreached honly hentry hsock hready.verified hevent
  obtain ⟨cs, hsound⟩ := hreached.sound
  obtain ⟨hi, hget⟩ := List.getElem?_eq_some_iff.mp hentry
  have hrequest := hready.request_ready hrecvID
  have hfind : TableEntry.find m.head.sendID m.head.recvID ⟨sock, [w]⟩ = some 0 := by
    rw [hready.recvID]
    exact find_only sock w _
  obtain rfl : answers = [] := by
    have hmessage :=
      channelMessage_of_recvID hready.verified (hready.recvID ▸ hrecvID) hhandle
    simp only [channelMessage, hready.isControl, decide_true, if_true, writeChannel,
      hsound.filled.find_eq hi, hget, hfind, checked_ok, run_bind] at hmessage
    obtain ⟨next, -, hmessage⟩ := run_bind_eq_ok.mp hmessage
    cases hmessage
    rfl
  constructor
  · rw [htable, Table.handle, hrequest]
    simp only
    rw [of_modify_self honly hentry rfl (TableEntry.write_sock m _), TableEntry.write, hfind]
    rfl
  · rw [TableEntry.ends, if_pos hready.verified, hrequest] at hjoins
    rw [hlog, ← Except.ok.inj hjoins, List.append_nil]

/-- The client ends its channel, which has sent the file. -/
theorem wired_finish (hreached : c.server.Reached handles) {fhandle : FileHandle} {size : UInt64}
    {w : Worker} (honly : c.server.table.of sock = [⟨sock, [w]⟩])
    (hentry : c.server.table[i]? = some entry) (hsock : entry.sock = sock)
    (hfinish : Control sendID w.chan.selfID .fin segmentNum content m)
    (hrecvID : w.chan.selfID ≠ 0) (hserves : Serves fhandle size w)
    (hfull : w.thread.sent.length = fhandle.segments size.toNat + 1)
    (hevent : Wired.event spare handles drawn (.receive i (some m) draw) c = .ok c') :
    ∃ fin, verifyMsg fin = .ok true ∧ c'.log.on sock = c.log.on sock ++ [fin] ∧
      c'.server.table.of sock = [⟨sock, []⟩] := by
  obtain ⟨hentry, -, htable, joined, answers, hjoins, hhandle, hlog⟩ :=
    wired_receive hreached honly hentry hsock hfinish.verified hevent
  obtain ⟨cs, hsound⟩ := hreached.sound
  obtain ⟨hi, hget⟩ := List.getElem?_eq_some_iff.mp hentry
  have hrequest := hfinish.request_finish hrecvID
  have hfind : TableEntry.find m.head.sendID m.head.recvID ⟨sock, [w]⟩ = some 0 := by
    rw [hfinish.recvID]
    exact find_only sock w _
  obtain ⟨fin, rfl, hverified⟩ : ∃ fin, answers = [fin] ∧ verifyMsg fin = .ok true := by
    have hmessage :=
      channelMessage_of_recvID hfinish.verified (hfinish.recvID ▸ hrecvID) hhandle
    simp only [channelMessage, hfinish.isControl, reduceCtorEq, decide_false, Bool.false_eq_true,
      if_false, decide_true, if_true, finishChannel, hsound.filled.find_eq hi, hget, hfind,
      checked_ok, run_bind] at hmessage
    obtain ⟨ended, -, hmessage⟩ := run_bind_eq_ok.mp hmessage
    obtain ⟨fin, hreply, hmessage⟩ := run_bind_eq_ok.mp hmessage
    cases hmessage
    exact ⟨fin, rfl, (reply_control hreply).verified⟩
  refine ⟨fin, hverified, ?_, ?_⟩
  · rw [TableEntry.ends, if_pos hfinish.verified, hrequest, hfind] at hjoins
    obtain ⟨log, hjoin, hjoins⟩ := run_bind_eq_ok.mp hjoins
    obtain ⟨last, hlast, hjoin⟩ := run_bind_eq_ok.mp hjoin
    obtain ⟨-, -, hjoin⟩ := run_bind_eq_ok.mp hjoin
    cases hjoin
    cases hjoins
    have hnothing : w.writes last = [] := by
      rw [Worker.writes, hserves.join_full hfull hlast, List.drop_length]
      rfl
    rw [hlog, hnothing, List.append_nil]
  · rw [htable, Table.handle, hrequest]
    simp only
    rw [of_modify_self honly hentry rfl (TableEntry.finish_sock m), TableEntry.finish, hfind]
    rfl

/-- The client closes a connection without channels. -/
theorem wired_close (hreached : c.server.Reached handles)
    (honly : c.server.table.of sock = [⟨sock, []⟩]) (hentry : c.server.table[i]? = some entry)
    (hsock : entry.sock = sock) (hclose : Control 0 0 .fin segmentNum content m)
    (hevent : Wired.event spare handles drawn (.receive i (some m) draw) c = .ok c') :
    c'.server.table.of sock = [] ∧ c'.log.on sock = c.log.on sock := by
  obtain ⟨hentry, -, htable, joined, answers, hjoins, hhandle, hlog⟩ :=
    wired_receive hreached honly hentry hsock hclose.verified hevent
  have hrequest := hclose.request_close
  obtain rfl : answers = [] := by
    rw [handleMessage, hclose.verified, checked_ok, run_bind] at hhandle
    simp only [Bool.not_true, Bool.false_eq_true, if_false, hclose.sendID, hclose.recvID, and_self,
      if_true, connectionControl, hclose.isControl, decide_true] at hhandle
    obtain ⟨next, -, hhandle⟩ := run_bind_eq_ok.mp hhandle
    cases hhandle
    rfl
  constructor
  · rw [htable, Table.handle, hrequest]
    exact of_eraseIdx_self honly hentry rfl
  · rw [TableEntry.ends, if_pos hclose.verified, hrequest] at hjoins
    rw [hlog, ← Except.ok.inj hjoins, List.append_nil]

end Messages

end Hipft
