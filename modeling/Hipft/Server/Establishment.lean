import Hipft.Server.ChannelTable

/-! # Asking for a channel again

A client whose answer was damaged asks again for the channel that it has. The
server looks for the channel only after it has looked for room, so a full table
turns the client away.
-/

namespace Hipft

open CMemory Transitions

/-- The answer tells the client about this channel. -/
structure Acknowledges (chan : Channel) (recvmsg m : Msg) : Prop where
  chanType : m.head.chanType = ChannelType.control.code
  dataType : m.head.dataType = DataType.ack.code
  sendID : m.head.sendID = chan.selfID
  recvID : m.head.recvID = recvmsg.head.sendID
  segmentNum : ∃ fhandle, chan.handle = some fhandle ∧
    m.head.segmentNum.toNat = fhandle.segments chan.maxSize.toNat

/-- A client asks for a channel for this file of the server. -/
structure Asks (handles : List FileHandle) (fhandle : FileHandle) (recvmsg : Msg) : Prop where
  verified : verifyMsg recvmsg = .ok true
  control : recvmsg.isControl .syn = true ∨ recvmsg.isControl .rts = true
  recvID : recvmsg.head.recvID = 0
  sendID : recvmsg.head.sendID > 0
  file : fileHandleForFile recvmsg.body.content recvmsg.head.contentLength.toNat handles =
    .ok (some fhandle)

/-- The channel belongs to connection `i` and to the client with this ID. -/
structure Owns (s : Server) (i : Nat) (otherID : UInt64) (chan : Channel) : Prop where
  existing : ∃ conn, s.connections[i]? = some conn ∧ chan ∈ conn.channels
  otherID : chan.otherID = otherID

section Reply

variable {draw : Draw} {sendID recvID segmentNum : UInt64} {dataType : DataType}
  {content : Bytes} {length : UInt32}

theorem reply_eq (draw : Draw) (sendID recvID : UInt64) (dataType : DataType)
    (segmentNum : UInt64) (content : Bytes) (length : UInt32)
    (hlength : length.toNat ≤ content.length) :
    ∃ m, reply draw sendID recvID dataType segmentNum content length = .ok m ∧
      m.head = formHeader draw.msgID sendID recvID ChannelType.control.code dataType.code
        segmentNum length := by
  obtain ⟨m, hform, hsend, hformed⟩ := formMsg_sendMsg draw.msgID sendID recvID
    ChannelType.control.code dataType.code segmentNum hlength
  refine ⟨m, ?_, hformed.head⟩
  rw [reply, hform, checked_ok, run_bind, hsend]
  rfl

theorem reply_dataType {m : Msg}
    (hreply : reply draw sendID recvID dataType segmentNum content length = .ok m) :
    m.head.dataType = dataType.code := by
  obtain ⟨sent, hform, hreply⟩ := run_bind_eq_ok.mp hreply
  obtain ⟨bytes, -, hreply⟩ := run_bind_eq_ok.mp hreply
  cases hreply
  obtain ⟨copy, -, hform⟩ := bind_eq_ok.mp (checked_eq_ok.mp hform)
  obtain ⟨vparityData, -, hform⟩ := bind_eq_ok.mp hform
  obtain ⟨hparityData, -, hform⟩ := bind_eq_ok.mp hform
  cases hform
  rfl

end Reply

section Asks

variable {s : Server} {cs : List Connection} {handles : List FileHandle} {fhandle : FileHandle}
  {i : Nat} {recvmsg : Msg}

theorem Asks.handleMessage_eq (hasks : Asks handles fhandle recvmsg) (spare : Nat → Nat)
    (draw : Draw) (i : Nat) (s : Server) :
    handleMessage spare handles draw i recvmsg s = channelInfo spare handles draw i recvmsg s := by
  have hsendID : ¬ (recvmsg.head.sendID = 0 ∧ recvmsg.head.recvID = 0) := fun hzero =>
    (UInt64.ne_of_lt hasks.sendID).symm hzero.1
  have hcontrol : (recvmsg.isControl .syn || recvmsg.isControl .rts) = true :=
    Bool.or_eq_true_iff.mpr hasks.control
  rw [handleMessage, hasks.verified, checked_ok, run_bind]
  simp only [Bool.not_true, Bool.false_eq_true, if_false, if_neg hsendID,
    if_pos (And.intro hasks.sendID hasks.recvID)]
  rw [channelControl, if_pos hcontrol]

/-- The lookup finds the client's channel. -/
theorem Owns.find_eq {sendID : UInt64} {chan : Channel} (howns : Owns s i sendID chan)
    (hsound : s.Sound cs) :
    ∃ (hindex : i < cs.length) (ws : List Worker), cs[i].Sound ws ∧ ∃ j w, ws[j]? = some w ∧
      w.chan = chan ∧ findExistingChannel i sendID 0 s = .ok (some j) := by
  obtain ⟨conn, hconn, hchan⟩ := howns.existing
  rw [hsound.connections_eq] at hconn
  obtain ⟨hindex, rfl⟩ := List.getElem?_eq_some_iff.mp hconn
  obtain ⟨ws, hws⟩ := hsound.sound _ (List.getElem_mem hindex)
  rw [hws.channels_eq] at hchan
  obtain ⟨old, hold, rfl⟩ := List.mem_map.mp hchan
  obtain ⟨found, hfind, hsome, hnone⟩ :=
    findExistingChannel_eq hsound.toHas hindex hws.toHas sendID 0
  cases found with
  | none => exact absurd howns.otherID (hnone rfl old hold).2
  | some j =>
      obtain ⟨w, hw, hid⟩ := hsome j rfl
      have hmem := List.mem_of_getElem? hw
      have hother := hid.resolve_left (hws.live w hmem).selfID
      -- The lookup may stop at another channel only if that has the same client.
      have hsame : w = old :=
        List.inj_on_of_nodup_map hws.distinct hmem hold (hother.trans howns.otherID.symm)
      exact ⟨hindex, ws, hws, j, w, hw, congrArg Worker.chan hsame, hfind⟩

/-- Without a channel of the client the lookup finds none. -/
theorem findExistingChannel_none (hsound : s.Sound cs) (hindex : i < cs.length)
    {ws : List Worker} (hws : cs[i].Sound ws) {sendID : UInt64}
    (hnew : ∀ w ∈ ws, w.chan.otherID ≠ sendID) :
    findExistingChannel i sendID 0 s = .ok none := by
  obtain ⟨found, hfind, hsome, -⟩ :=
    findExistingChannel_eq hsound.toHas hindex hws.toHas sendID 0
  cases found with
  | none => exact hfind
  | some j =>
      obtain ⟨w, hw, hid⟩ := hsome j rfl
      have hmem := List.mem_of_getElem? hw
      exact absurd (hid.resolve_left (hws.live w hmem).selfID) (hnew w hmem)

/-- A live channel is acknowledged. -/
theorem acknowledge_live (hhas : s.Has cs) (hindex : i < cs.length) {ws : List Worker}
    (hchans : cs[i].Has ws) {j : Nat} {w : Worker} (hw : ws[j]? = some w) (hlive : Live w.chan)
    (draw : Draw) (recvmsg : Msg) :
    ∃ m, acknowledge draw i j recvmsg s = .ok (s, [m]) ∧ Acknowledges w.chan recvmsg m := by
  obtain ⟨fhandle, hhandle⟩ := Option.isSome_iff_exists.mp hlive.handle
  obtain ⟨n, hcount, hn⟩ := numSegmentsInFileHandle_eq fhandle hlive.maxSize
  obtain ⟨m, hreply, hhead⟩ :=
    reply_eq draw w.chan.selfID recvmsg.head.sendID .ack n [] 0 (Nat.le_refl 0)
  refine ⟨m, ?_, ?_, ?_, ?_, ?_, fhandle, hhandle, ?_⟩
  · rw [acknowledge_eq hhas hindex hchans hw, hhandle, deref, run_bind, hcount, run_bind, hreply]
    rfl
  · rw [hhead]
    rfl
  · rw [hhead]
    rfl
  · rw [hhead]
    rfl
  · rw [hhead]
    rfl
  · rw [hhead]
    exact hn

/-- A client that has no channel yet gets one, where there is room. -/
theorem Asks.creates (hasks : Asks handles fhandle recvmsg) (hsound : s.Sound cs)
    (hindex : i < cs.length) {ws : List Worker} (hws : cs[i].Sound ws)
    (hmaxSize : recvmsg.head.segmentNum ≠ 0)
    (hnew : ∀ w ∈ ws, w.chan.otherID ≠ recvmsg.head.sendID)
    (hroom : s.totalChannels < maxChannels) {spare : Nat → Nat} (hspare : 0 < spare ws.length)
    (draw : Draw) :
    ∃ s' conn m, handleMessage spare handles draw i recvmsg s = .ok (s', [m]) ∧
      Acknowledges (cs[i].newWorker draw recvmsg fhandle).chan recvmsg m ∧
      s'.Sound (cs.set i conn) ∧ conn.Sound (ws ++ [cs[i].newWorker draw recvmsg fhandle]) ∧
      s'.totalChannels = s.totalChannels + 1 := by
  have hfew : ws.length < 2 ^ 60 :=
    Nat.lt_of_le_of_lt (hsound.length_le hindex hws.toHas) (by decide)
  obtain ⟨made, hmake⟩ :=
    (hsound.toHas.newChannel_isOk hindex hws.toHas spare).mpr (.inr ⟨hspare, hfew⟩)
  obtain ⟨s', conn, hcreate, hhas, hconn, htotal⟩ :=
    createChannel_eq hsound.toHas hindex hws.toHas hmake fhandle
  have hindex' : i < (cs.set i conn).length := by rwa [List.length_set]
  have hlive : Live (cs[i].newWorker draw recvmsg fhandle).chan :=
    ⟨(UInt64.ne_of_lt hasks.sendID).symm, generateRandomUint_ne_zero _, hmaxSize, rfl⟩
  obtain ⟨m, hack, hm⟩ :=
    acknowledge_live hhas hindex' (hconn.at_set hindex') List.getElem?_concat_length hlive draw
      recvmsg
  have hconn' := hws.append hconn hlive hnew
  have hsound' := hsound.append hindex hws hhas hconn' hroom htotal
  refine ⟨s', conn, m, ?_, hm, hsound', hconn', htotal⟩
  rw [hasks.handleMessage_eq, channelInfo, hasks.file, checked_ok, run_bind]
  simp only
  rw [if_neg (UInt64.not_le.mpr hroom), findExistingChannel_none hsound hindex hws hnew,
    checked_ok, run_bind]
  simp only
  rw [hcreate, checked_ok, run_bind]
  exact hack

/-- A client that has a channel is told about it, where there is room for one more. -/
theorem Asks.acknowledged (hasks : Asks handles fhandle recvmsg) (hsound : s.Sound cs)
    {chan : Channel} (howns : Owns s i recvmsg.head.sendID chan)
    (hroom : s.totalChannels < maxChannels) (spare : Nat → Nat) (draw : Draw) :
    ∃ m, handleMessage spare handles draw i recvmsg s = .ok (s, [m]) ∧
      Acknowledges chan recvmsg m := by
  obtain ⟨hindex, ws, hws, j, w, hw, rfl, hfind⟩ := howns.find_eq hsound
  rw [hasks.handleMessage_eq, channelInfo, hasks.file, checked_ok, run_bind]
  simp only
  rw [if_neg (UInt64.not_le.mpr hroom), hfind, checked_ok, run_bind]
  have hlive := hws.live w (List.mem_of_getElem? hw)
  exact acknowledge_live hsound.toHas hindex hws.toHas hw hlive draw recvmsg

/-- With a full table every client is turned away. -/
theorem Asks.turned_away (hasks : Asks handles fhandle recvmsg)
    (hfull : s.totalChannels ≥ maxChannels) (spare : Nat → Nat) (draw : Draw) (chan : Channel) :
    ¬ ∃ m, handleMessage spare handles draw i recvmsg s = .ok (s, [m]) ∧
      Acknowledges chan recvmsg m := by
  rw [hasks.handleMessage_eq, channelInfo, hasks.file, checked_ok, run_bind]
  simp only
  rw [if_pos hfull]
  rintro ⟨m, hinfo, hack⟩
  obtain ⟨sendmsg, hreply, hinfo⟩ := run_bind_eq_ok.mp hinfo
  cases hinfo
  exact absurd (hack.dataType.symm.trans (reply_dataType hreply)) (by decide)

end Asks

/-- In every state that is reached, a client that asks again is told about its channel,
and the table is left alone, exactly when there is room for one more channel. -/
theorem askAgain_iff (spare : Nat → Nat) (handles : List FileHandle) (events : List ServerEvent)
    {s : Server} (hrun : run (Server.event spare handles) events Server.start = .ok s)
    (fhandle : FileHandle) (recvmsg : Msg) (hasks : Asks handles fhandle recvmsg) (i : Nat)
    (chan : Channel) (howns : Owns s i recvmsg.head.sendID chan) (draw : Draw) :
    (∃ m, handleMessage spare handles draw i recvmsg s = .ok (s, [m]) ∧
        Acknowledges chan recvmsg m) ↔
      s.totalChannels < maxChannels := by
  obtain ⟨cs, hsound⟩ := run_sound events hrun
  constructor
  · intro hanswer
    exact UInt64.not_le.mp fun hfull => hasks.turned_away hfull spare draw chan hanswer
  · intro hroom
    exact hasks.acknowledged hsound howns hroom spare draw

/-! ## Clients that ask one after the other -/

theorem asks_askMsg {sendID : UInt64} (hsendID : sendID > 0)
    (hverified : verifyMsg (askMsg sendID) = .ok true) :
    Asks [threeBytes] threeBytes (askMsg sendID) :=
  ⟨hverified, .inl rfl, rfl, hsendID, rfl⟩

theorem askEvents_concat (sendIDs : List UInt64) (sendID : UInt64) :
    askEvents (sendIDs ++ [sendID]) =
      askEvents sendIDs ++ [.receive 0 (some (askMsg sendID)) ⟨9, 1⟩] := by
  rw [askEvents, List.map_append, List.map_singleton, ← List.cons_append]
  rfl

theorem run_askEvents {sendIDs : List UInt64} (hids : sendIDs.Nodup) (hfew : sendIDs.length ≤ 3)
    (hasks : ∀ sendID ∈ sendIDs, Asks [threeBytes] threeBytes (askMsg sendID)) :
    ∃ s conn ws, run (Server.event oneMore [threeBytes]) (askEvents sendIDs) Server.start = .ok s ∧
      s.Sound [conn] ∧ conn.Sound ws ∧ ws.map (fun w => w.chan.otherID) = sendIDs ∧
      s.totalChannels.toNat = sendIDs.length := by
  induction sendIDs using List.reverseRecOn with
  | nil =>
      have hconn := connection_empty_sound 5
      refine ⟨⟨[some ⟨5, 0, []⟩], 1, 0⟩, ⟨5, 0, []⟩, [], rfl, ?_, hconn, rfl, rfl⟩
      exact ⟨⟨holds_map [_], rfl, Nat.one_le_two_pow⟩, List.forall_mem_singleton.mpr ⟨[], hconn⟩,
        rfl, by decide⟩
  | append_singleton sendIDs sendID ih =>
      rw [List.length_append, List.length_singleton] at hfew
      obtain ⟨hids', -, hdisjoint⟩ := List.nodup_append.mp hids
      obtain ⟨hasks', hask⟩ := List.forall_mem_append.mp hasks
      rw [List.forall_mem_singleton] at hask
      obtain ⟨s, conn, ws, hrun, hsound, hconn, hws, htotal⟩ :=
        ih hids' (Nat.le_of_succ_le hfew) hasks'
      have hnew : ∀ w ∈ ws, w.chan.otherID ≠ sendID := by
        intro w hw
        exact hdisjoint _ (hws ▸ List.mem_map_of_mem hw) sendID (List.mem_singleton_self _)
      have hroom : s.totalChannels < maxChannels := by
        rw [UInt64.lt_iff_toNat_lt, htotal]
        exact Nat.lt_of_succ_le hfew
      have hspare : 0 < oneMore ws.length := Nat.zero_lt_one
      obtain ⟨s', conn', m, hhandle, -, hsound', hconn', htotal'⟩ :=
        hask.creates hsound Nat.zero_lt_one hconn (show (8 : UInt64) ≠ 0 by decide) hnew hroom
          hspare ⟨9, 1⟩
      refine ⟨s', conn', _, ?_, hsound', hconn', ?_, ?_⟩
      · have hevent : Server.event oneMore [threeBytes]
            (.receive 0 (some (askMsg sendID)) ⟨9, 1⟩) s = .ok s' := by
          simp only [Server.event, hsound.totalConnections, hhandle]
          rfl
        rw [askEvents_concat, run_append hrun, run_cons_of_ok hevent]
        rfl
      · rw [List.map_append, hws]
        rfl
      · rw [htotal', toNat_add_one (by rw [htotal]; omega), htotal, List.length_append,
          List.length_singleton]

/-- Each of these clients has its channel. -/
theorem owns_of_otherID {s : Server} {conn : Connection} {ws : List Worker}
    (hsound : s.Sound [conn]) (hconn : conn.Sound ws) {sendID : UInt64}
    (hmem : sendID ∈ ws.map fun w => w.chan.otherID) : ∃ chan, Owns s 0 sendID chan := by
  obtain ⟨w, hw, rfl⟩ := List.mem_map.mp hmem
  refine ⟨w.chan, ⟨conn, ?_, ?_⟩, rfl⟩
  · rw [hsound.connections_eq]
    rfl
  · rw [hconn.channels_eq]
    exact List.mem_map_of_mem hw

/-- The one channel of the server is asked for again. -/
theorem askAgain_iff_one :
    ∃ s chan m, run (Server.event oneMore [threeBytes]) (askEvents [100]) Server.start = .ok s ∧
      handleMessage oneMore [threeBytes] ⟨9, 1⟩ 0 (askMsg 100) s = .ok (s, [m]) ∧
        Acknowledges chan (askMsg 100) m := by
  have hasks := asks_askMsg (show (100 : UInt64) > 0 by decide) (by decide +kernel)
  obtain ⟨s, conn, ws, hrun, hsound, hconn, hws, htotal⟩ :=
    run_askEvents (List.nodup_singleton 100) (by decide) (List.forall_mem_singleton.mpr hasks)
  obtain ⟨chan, howns⟩ := owns_of_otherID hsound hconn (hws ▸ List.mem_singleton_self 100)
  have hroom : s.totalChannels < maxChannels := by
    rw [UInt64.lt_iff_toNat_lt, htotal]
    decide
  obtain ⟨m, hanswer⟩ :=
    (askAgain_iff oneMore _ _ hrun threeBytes _ hasks 0 chan howns ⟨9, 1⟩).mpr hroom
  exact ⟨s, chan, m, hrun, hanswer⟩

/-- With three channels the client of the first is turned away. -/
theorem askAgain_iff_full :
    ∃ s chan,
      run (Server.event oneMore [threeBytes]) (askEvents [100, 101, 102]) Server.start = .ok s ∧
      Asks [threeBytes] threeBytes (askMsg 100) ∧ Owns s 0 100 chan ∧
      ¬ ∃ m, handleMessage oneMore [threeBytes] ⟨9, 1⟩ 0 (askMsg 100) s = .ok (s, [m]) ∧
        Acknowledges chan (askMsg 100) m := by
  have hasks : ∀ sendID ∈ [100, 101, 102], Asks [threeBytes] threeBytes (askMsg sendID) := by
    simp only [List.forall_mem_cons, List.not_mem_nil, false_implies, implies_true, and_true]
    exact ⟨asks_askMsg (by decide) (by decide +kernel), asks_askMsg (by decide) (by decide +kernel),
      asks_askMsg (by decide) (by decide +kernel)⟩
  obtain ⟨s, conn, ws, hrun, hsound, hconn, hws, htotal⟩ :=
    run_askEvents (by decide) (by decide) hasks
  obtain ⟨chan, howns⟩ := owns_of_otherID hsound hconn (hws ▸ List.mem_cons_self)
  have hask := hasks 100 List.mem_cons_self
  have hfull : s.totalChannels ≥ maxChannels := by
    rw [ge_iff_le, UInt64.le_iff_toNat_le, htotal]
    decide
  exact ⟨s, chan, hrun, hask, howns, hask.turned_away hfull oneMore ⟨9, 1⟩ chan⟩

end Hipft
