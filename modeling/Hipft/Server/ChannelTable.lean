import Hipft.Foundation.Transitions
import Hipft.Server.MainLoop

/-! # The table of connections and channels

Whatever comes in, the server counts its channels right, has no more than it
wants, and on one connection no two of them are for the same client.
-/

namespace Hipft

open CMemory Transitions

/-! ## What the table says -/

/-- The connections that the server has. -/
def Server.connections (s : Server) : List Connection :=
  (s.conns.take s.totalConnections.toNat).filterMap id

/-- The channels that the connection has. -/
def Connection.channels (conn : Connection) : List Channel :=
  ((conn.chans.take conn.numChans.toNat).filterMap id).map Worker.chan

/-- The counters are right, and channels have clients of their own. -/
structure Server.Consistent (s : Server) : Prop where
  total : s.totalChannels.toNat = (s.connections.map fun conn => conn.numChans.toNat).sum
  atMost : s.totalChannels ≤ maxChannels
  counted : ∀ conn ∈ s.connections, conn.channels.length = conn.numChans.toNat
  nonzero : ∀ conn ∈ s.connections, ∀ chan ∈ conn.channels, chan.otherID ≠ 0
  distinct : ∀ conn ∈ s.connections, (conn.channels.map Channel.otherID).Nodup

/-- A channel that its thread can run. -/
structure Live (chan : Channel) : Prop where
  otherID : chan.otherID ≠ 0
  selfID : chan.selfID ≠ 0
  maxSize : chan.maxSize ≠ 0
  handle : chan.handle.isSome = true

/-- A connection between two events. -/
structure Connection.Sound (conn : Connection) (ws : List Worker) : Prop extends
    conn.Has ws where
  live : ∀ w ∈ ws, Live w.chan
  distinct : (ws.map fun w => w.chan.otherID).Nodup

/-- The server between two events. -/
structure Server.Sound (s : Server) (cs : List Connection) : Prop extends s.Has cs where
  sound : ∀ conn ∈ cs, ∃ ws, conn.Sound ws
  total : s.totalChannels.toNat = (cs.map fun conn => conn.numChans.toNat).sum
  atMost : s.totalChannels ≤ maxChannels

/-- A connection without channels. -/
theorem connection_empty_sound (sock : Nat) : Connection.Sound ⟨sock, 0, []⟩ [] where
  chans := holds_map []
  numChans := rfl
  live := List.forall_mem_nil _
  distinct := List.nodup_nil

theorem Server.Has.connections_eq {s : Server} {cs : List Connection} (hhas : s.Has cs) :
    s.connections = cs := by
  rw [Server.connections, hhas.totalConnections, hhas.conns.filterMap_take]

theorem Connection.Has.channels_eq {conn : Connection} {ws : List Worker} (hhas : conn.Has ws) :
    conn.channels = ws.map Worker.chan := by
  rw [Connection.channels, hhas.numChans, hhas.chans.filterMap_take]

theorem Server.Sound.consistent {s : Server} {cs : List Connection} (hsound : s.Sound cs) :
    s.Consistent := by
  have hconns := hsound.connections_eq
  refine ⟨hconns ▸ hsound.total, hsound.atMost, ?_, ?_, ?_⟩
  · intro conn hconn
    obtain ⟨ws, hws⟩ := hsound.sound conn (hconns ▸ hconn)
    rw [hws.channels_eq, List.length_map, hws.numChans]
  · intro conn hconn chan hchan
    obtain ⟨ws, hws⟩ := hsound.sound conn (hconns ▸ hconn)
    rw [hws.channels_eq] at hchan
    obtain ⟨w, hw, rfl⟩ := List.mem_map.mp hchan
    exact (hws.live w hw).otherID
  · intro conn hconn
    obtain ⟨ws, hws⟩ := hsound.sound conn (hconns ▸ hconn)
    rw [hws.channels_eq, List.map_map]
    exact hws.distinct

/-! ## Changes to the table -/

section Changes

variable {s s' : Server} {cs : List Connection} {index : Nat} {conn : Connection}
  {ws : List Worker}

theorem sum_map_set {α : Type} {xs : List α} (f : α → Nat) (hindex : index < xs.length) (a : α) :
    ((xs.set index a).map f).sum + f xs[index] = (xs.map f).sum + f a := by
  rw [((List.set_perm_cons_eraseIdx hindex a).map f).sum_eq,
    ← ((List.getElem_cons_eraseIdx_perm hindex).map f).sum_eq, List.map_cons, List.map_cons,
    List.sum_cons, List.sum_cons]
  omega

theorem sum_map_eraseIdx {α : Type} {xs : List α} (f : α → Nat) (hindex : index < xs.length) :
    ((xs.eraseIdx index).map f).sum + f xs[index] = (xs.map f).sum := by
  rw [← ((List.getElem_cons_eraseIdx_perm hindex).map f).sum_eq, List.map_cons, List.sum_cons,
    Nat.add_comm]

/-- One connection is replaced. -/
theorem Server.Sound.set (hsound : s.Sound cs) (hindex : index < cs.length)
    (hhas : s'.Has (cs.set index conn)) (hconn : conn.Sound ws)
    (htotal : s'.totalChannels.toNat + cs[index].numChans.toNat =
      s.totalChannels.toNat + conn.numChans.toNat)
    (hatMost : s'.totalChannels ≤ maxChannels) : s'.Sound (cs.set index conn) := by
  refine { hhas with sound := fun other hother => ?_, total := ?_, atMost := hatMost }
  · rcases List.mem_or_eq_of_mem_set hother with hold | rfl
    · exact hsound.sound other hold
    · exact ⟨ws, hconn⟩
  · have hset := sum_map_set (fun conn => conn.numChans.toNat) hindex conn
    have hold := hsound.total
    omega

theorem Server.Sound.numChans_le (hsound : s.Sound cs) (hindex : index < cs.length) :
    cs[index].numChans ≤ s.totalChannels := by
  have hsum := sum_map_eraseIdx (fun conn => conn.numChans.toNat) hindex
  rw [UInt64.le_iff_toNat_le, hsound.total, ← hsum]
  exact Nat.le_add_left _ _

/-- There are few channels. -/
theorem Server.Sound.length_le (hsound : s.Sound cs) (hindex : index < cs.length)
    (hchans : cs[index].Has ws) : ws.length ≤ 3 := by
  have hle := UInt64.le_iff_toNat_le.mp (UInt64.le_trans (hsound.numChans_le hindex) hsound.atMost)
  rw [hchans.numChans] at hle
  exact hle

theorem toNat_sub_add {a b : UInt64} (hle : b ≤ a) : (a - b).toNat + b.toNat = a.toNat := by
  rw [UInt64.toNat_sub_of_le _ _ hle]
  exact Nat.sub_add_cancel (UInt64.le_iff_toNat_le.mp hle)

theorem Server.Sound.endConnection (hsound : s.Sound cs) (hindex : index < cs.length)
    (hend : endConnection index s = .ok s') : s'.Sound (cs.eraseIdx index) := by
  obtain ⟨ws, hws⟩ := hsound.sound _ (List.getElem_mem hindex)
  have hsmall := (hsound.length_le hindex hws.toHas).trans (show 3 ≤ 2 ^ 60 by decide)
  obtain ⟨ended, hok, hhas, htotal⟩ := hsound.toHas.endConnection hindex hws.toHas hsmall
  rw [hend, Except.ok.injEq] at hok
  subst hok
  have hsum := sum_map_eraseIdx (fun conn => conn.numChans.toNat) hindex
  have hle := hsound.numChans_le hindex
  have hsub := toNat_sub_add hle
  rw [← htotal] at hsub
  have hold := hsound.total
  refine { hhas with sound := fun conn hconn => ?_, total := ?_, atMost := ?_ }
  · exact hsound.sound conn (List.mem_of_mem_eraseIdx hconn)
  · omega
  · rw [htotal]
    exact UInt64.le_trans (UInt64.sub_le hle) hsound.atMost

theorem Server.Sound.endChannel (hsound : s.Sound cs) (hindex : index < cs.length)
    (hchans : cs[index].Sound ws) {chanIndex : Nat} (hchan : chanIndex < ws.length)
    (hend : endChannel index chanIndex s = .ok s') : ∃ conn, s'.Sound (cs.set index conn) := by
  have hsmall := (hsound.length_le hindex hchans.toHas).trans (show 3 ≤ 2 ^ 60 by decide)
  obtain ⟨ended, conn, hok, hhas, hconn, -, hless, htotal⟩ :=
    hsound.toHas.endChannel hindex hchans.toHas hsmall hchan
  rw [hend, Except.ok.injEq] at hok
  subst hok
  have hone : (1 : UInt64) ≤ cs[index].numChans := by
    rw [UInt64.le_iff_toNat_le, hchans.numChans]
    exact Nat.succ_le_of_lt (Nat.zero_lt_of_lt hchan)
  have hsubChans := toNat_sub_add hone
  have hle := UInt64.le_trans hone (hsound.numChans_le hindex)
  have hsub := toNat_sub_add hle
  rw [← hless] at hsubChans
  rw [← htotal] at hsub
  refine ⟨conn, hsound.set hindex hhas { hconn with live := ?_, distinct := ?_ } ?_ ?_⟩
  · exact fun w hw => hchans.live w (List.mem_of_mem_eraseIdx hw)
  · rw [← List.eraseIdx_map]
    exact hchans.distinct.sublist (List.eraseIdx_sublist _ _)
  · omega
  · rw [htotal]
    exact UInt64.le_trans (UInt64.sub_le hle) hsound.atMost

end Changes

/-! ## Channels that are found and written to -/

theorem Alike.live {w w' : Worker} (halike : Alike w w') (hlive : Live w.chan) : Live w'.chan :=
  ⟨halike.otherID ▸ hlive.otherID, halike.selfID ▸ hlive.selfID, halike.maxSize ▸ hlive.maxSize,
    halike.handle ▸ hlive.handle⟩

section Find

variable {s s' : Server} {cs : List Connection} {index : Nat} {ws : List Worker}

/-- What the lookup finds has one of the two IDs; without a find no channel has. -/
theorem findExistingChannel_eq (hhas : s.Has cs) (hindex : index < cs.length)
    (hchans : cs[index].Has ws) (sendID recvID : UInt64) :
    ∃ found, findExistingChannel index sendID recvID s = .ok found ∧
      (∀ j, found = some j →
        ∃ w, ws[j]? = some w ∧ (w.chan.selfID = recvID ∨ w.chan.otherID = sendID)) ∧
      (found = none → ∀ w ∈ ws, w.chan.selfID ≠ recvID ∧ w.chan.otherID ≠ sendID) := by
  obtain ⟨bySelf, hself, hselfSome, hselfNone⟩ :=
    hchans.chans.findSlot fun w => w.chan.selfID = recvID
  obtain ⟨byOther, hother, hotherSome, hotherNone⟩ :=
    hchans.chans.findSlot fun w => w.chan.otherID = sendID
  rw [findExistingChannel, hhas.slotAt hindex, ok_bind, hchans.numChans]
  simp only [hself, hother, ok_bind]
  cases bySelf with
  | some j =>
      refine ⟨some j, rfl, fun i hi => ?_, nofun⟩
      obtain ⟨w, hw, htest⟩ := hselfSome j rfl
      cases hi
      exact ⟨w, hw, .inl (of_decide_eq_true htest)⟩
  | none =>
      refine ⟨byOther, rfl, fun i hi => ?_, fun hnone w hw => ⟨?_, ?_⟩⟩
      · obtain ⟨w, hw, htest⟩ := hotherSome i hi
        exact ⟨w, hw, .inr (of_decide_eq_true htest)⟩
      · exact of_decide_eq_false (hselfNone rfl w hw)
      · exact of_decide_eq_false (hotherNone hnone w hw)

theorem Server.Has.setChan (hhas : s.Has cs) (hindex : index < cs.length)
    (hchans : cs[index].Has ws) {chanIndex : Nat} (hchan : chanIndex < ws.length)
    (f : Worker → Worker) :
    ∃ s' conn, s.setChan index chanIndex f = .ok s' ∧ s'.Has (cs.set index conn) ∧
      conn.Has (ws.modify chanIndex f) ∧ conn.numChans = cs[index].numChans ∧
      s'.totalChannels = s.totalChannels := by
  obtain ⟨chans, hmodify, hholds⟩ := hchans.chans.modifyAt hchan f
  obtain ⟨conns, hset, hhas'⟩ := hhas.setConn hindex { cs[index] with chans }
  refine ⟨{ s with conns }, _, ?_, hhas', ⟨hholds, ?_⟩, rfl, rfl⟩
  · rw [Server.setChan, hhas.slotAt hindex, ok_bind, hchans.chans.slotAt hchan, ok_bind, hmodify,
      ok_bind, hset]
  · rw [List.length_modify]
    exact hchans.numChans

theorem map_modify_eq {β : Type} (g : Worker → β) {f : Worker → Worker} {j : Nat} {w : Worker}
    (hw : ws[j]? = some w) (hsame : g (f w) = g w) : (ws.modify j f).map g = ws.map g := by
  apply List.ext_getElem?
  intro i
  rw [List.getElem?_map, List.getElem?_map, List.getElem?_modify]
  by_cases hij : j = i
  · subst hij
    simp [hw, hsame]
  · simp [hij]

theorem mem_modify {f : Worker → Worker} {j : Nat} {w w' : Worker} (hw : ws[j]? = some w)
    (hmem : w' ∈ ws.modify j f) : w' ∈ ws ∨ w' = f w := by
  obtain ⟨i, hi⟩ := List.mem_iff_getElem?.mp hmem
  rw [List.getElem?_modify] at hi
  by_cases hij : j = i
  · subst hij
    simp only [hw, if_true, Option.map_eq_map, Option.map_some, Option.some.injEq] at hi
    exact .inr hi.symm
  · simp only [hij, if_false, Option.map_eq_map, Option.map_id_fun'] at hi
    exact .inl (List.mem_of_getElem? hi)

theorem Server.Sound.setChan (hsound : s.Sound cs) (hindex : index < cs.length)
    (hchans : cs[index].Sound ws) {chanIndex : Nat} {w : Worker} (hw : ws[chanIndex]? = some w)
    {f : Worker → Worker} (halike : Alike w (f w))
    (hset : s.setChan index chanIndex f = .ok s') : ∃ conn, s'.Sound (cs.set index conn) := by
  obtain ⟨hchan, -⟩ := List.getElem?_eq_some_iff.mp hw
  obtain ⟨written, conn, hok, hhas, hconn, hnum, htotal⟩ :=
    hsound.toHas.setChan hindex hchans.toHas hchan f
  rw [hset, Except.ok.injEq] at hok
  subst hok
  refine ⟨conn, hsound.set hindex hhas { hconn with live := ?_, distinct := ?_ } ?_ ?_⟩
  · intro w' hw'
    rcases mem_modify hw hw' with hold | rfl
    · exact hchans.live w' hold
    · exact halike.live (hchans.live w (List.mem_of_getElem? hw))
  · rw [map_modify_eq (fun w => w.chan.otherID) hw halike.otherID]
    exact hchans.distinct
  · rw [htotal, hnum]
  · exact htotal ▸ hsound.atMost

end Find

/-! ## Messages -/

/-- The `selfID` of a channel is not below 300. -/
theorem generateRandomUint_ne_zero (r : UInt64) :
    generateRandomUint r 300 46744073709551615 ≠ 0 := by
  have hmod : (r % (46744073709551615 - 300)).toNat < 46744073709551315 := by
    rw [UInt64.toNat_mod]
    exact Nat.mod_lt _ (by decide)
  have hsum : (generateRandomUint r 300 46744073709551615).toNat =
      (r % (46744073709551615 - 300)).toNat + 300 := by
    rw [generateRandomUint, UInt64.toNat_add]
    exact Nat.mod_eq_of_lt (by change _ + 300 < _; omega)
  intro hzero
  rw [hzero] at hsum
  exact absurd hsum (Nat.ne_of_lt (Nat.lt_of_lt_of_le (by decide) (Nat.le_add_left 300 _)))

theorem numSegmentsInFileHandle_ne_zero {fhandle : FileHandle} {size n : UInt64}
    (hnum : numSegmentsInFileHandle fhandle size = .ok n) : size ≠ 0 := by
  rintro rfl
  cases hnum

section Messages

variable {s s' : Server} {cs : List Connection} {i : Nat} {ws : List Worker} {draw : Draw}
  {recvmsg : Msg} {replies : List Msg}

theorem nack_state (hnack : nack draw recvmsg s = .ok (s', replies)) : s' = s := by
  obtain ⟨sendmsg, -, hnack⟩ := run_bind_eq_ok.mp hnack
  cases hnack
  rfl

/-- The answer about a channel is about what the table says. -/
theorem acknowledge_eq (hhas : s.Has cs) (hindex : i < cs.length) (hchans : cs[i].Has ws)
    {j : Nat} {w : Worker} (hw : ws[j]? = some w) :
    acknowledge draw i j recvmsg s = (do
      let fhandle ← deref w.chan.handle
      let numSegments ← numSegmentsInFileHandle fhandle w.chan.maxSize
      let sendmsg ← reply draw w.chan.selfID recvmsg.head.sendID .ack numSegments [] 0
      pure (s, [sendmsg])) := by
  obtain ⟨hchan, rfl⟩ := List.getElem?_eq_some_iff.mp hw
  rw [acknowledge, hhas.slotAt hindex, checked_ok, run_bind, hchans.chans.slotAt hchan,
    checked_ok, run_bind]

/-- The channel that is made for the message. -/
def Connection.newWorker (conn : Connection) (draw : Draw) (recvmsg : Msg)
    (fhandle : FileHandle) : Worker := Worker.create conn draw recvmsg fhandle .fresh

theorem createChannel_eq (hhas : s.Has cs) (hindex : i < cs.length) (hchans : cs[i].Has ws)
    {spare : Nat → Nat} {made : Server} (hnew : newChannel spare i s = .ok made)
    (fhandle : FileHandle) :
    ∃ s' conn, createChannel spare draw i recvmsg fhandle s = .ok (s', ws.length) ∧
      s'.Has (cs.set i conn) ∧ conn.Has (ws ++ [cs[i].newWorker draw recvmsg fhandle]) ∧
      s'.totalChannels = s.totalChannels + 1 := by
  obtain ⟨conn, hmade, hconn, hsock, htotal⟩ := hhas.newChannel hindex hchans hnew
  have hindex' : i < (cs.set i conn).length := by rwa [List.length_set]
  have hself : (cs.set i conn)[i] = conn := List.getElem_set_self hindex'
  have hlast : (conn.numChans - 1).toNat = ws.length := toNat_sub_one (by
    rw [hconn.numChans, List.length_append, List.length_singleton])
  have hroom : ws.length < (ws ++ [Worker.fresh]).length := by simp
  obtain ⟨s', conn', hset, hhas', hwritten, -, htotal'⟩ :=
    hmade.setChan hindex' (hconn.at_set hindex') hroom (Worker.create conn draw recvmsg fhandle)
  rw [List.set_set] at hhas'
  have hsame : Worker.create conn draw recvmsg fhandle .fresh =
      cs[i].newWorker draw recvmsg fhandle := by
    rw [Worker.create, hsock]
    rfl
  have happend : (ws ++ [Worker.fresh]).modify ws.length
      (Worker.create conn draw recvmsg fhandle) =
        ws ++ [cs[i].newWorker draw recvmsg fhandle] := by
    rw [← hsame]
    exact Except.ok.inj ((modifyAt_of_lt _ hroom).symm.trans
      (modifyAt_append_length ws [] .fresh _))
  refine ⟨s', conn', ?_, hhas', happend ▸ hwritten, htotal'.trans htotal⟩
  rw [createChannel, hnew, ok_bind, hmade.slotAt hindex', hself, ok_bind]
  simp only [hlast, hset, ok_bind]
  rfl

theorem Connection.Sound.append {old conn : Connection} (hold : old.Sound ws) {w : Worker}
    (hconn : conn.Has (ws ++ [w])) (hlive : Live w.chan)
    (hnew : ∀ other ∈ ws, other.chan.otherID ≠ w.chan.otherID) : conn.Sound (ws ++ [w]) := by
  refine { hconn with live := ?_, distinct := ?_ }
  · exact List.forall_mem_append.mpr ⟨hold.live, List.forall_mem_singleton.mpr hlive⟩
  · rw [List.map_append, List.map_singleton, List.nodup_append_comm, List.singleton_append,
      List.nodup_cons]
    refine ⟨fun hmem => ?_, hold.distinct⟩
    obtain ⟨other, hother, heq⟩ := List.mem_map.mp hmem
    exact hnew other hother heq

/-- One channel more, where there is room for it. -/
theorem Server.Sound.append (hsound : s.Sound cs) (hindex : i < cs.length)
    (hchans : cs[i].Sound ws) {conn : Connection} {w : Worker} (hhas : s'.Has (cs.set i conn))
    (hconn : conn.Sound (ws ++ [w])) (hroom : s.totalChannels < maxChannels)
    (htotal : s'.totalChannels = s.totalChannels + 1) : s'.Sound (cs.set i conn) := by
  have hroom' : s.totalChannels.toNat < 3 := UInt64.lt_iff_toNat_lt.mp hroom
  have htotal' : s'.totalChannels.toNat = s.totalChannels.toNat + 1 := by
    rw [htotal]
    exact toNat_add_one (Nat.lt_of_lt_of_le (Nat.succ_lt_succ hroom') (by decide))
  have hcount := hconn.numChans
  rw [List.length_append, List.length_singleton, ← hchans.numChans] at hcount
  refine hsound.set hindex hhas hconn ?_ ?_
  · omega
  · rw [UInt64.le_iff_toNat_le, htotal']
    exact hroom'

theorem Server.Sound.channelInfo (hsound : s.Sound cs) (hindex : i < cs.length) {spare : Nat → Nat}
    {handles : List FileHandle} (hsendID : recvmsg.head.sendID > 0)
    (hinfo : channelInfo spare handles draw i recvmsg s = .ok (s', replies)) :
    ∃ cs', s'.Sound cs' := by
  obtain ⟨ws, hws⟩ := hsound.sound _ (List.getElem_mem hindex)
  obtain ⟨fhandle, -, hinfo⟩ := run_bind_eq_ok.mp hinfo
  cases fhandle with
  | none =>
      obtain ⟨sendmsg, -, hinfo⟩ := run_bind_eq_ok.mp hinfo
      cases hinfo
      exact ⟨cs, hsound⟩
  | some fhandle =>
      simp only at hinfo
      split at hinfo
      next =>
        obtain ⟨sendmsg, -, hinfo⟩ := run_bind_eq_ok.mp hinfo
        cases hinfo
        exact ⟨cs, hsound⟩
      next hfull =>
        have hroom : s.totalChannels < maxChannels := UInt64.not_le.mp hfull
        obtain ⟨found, hfind, hsome, hnone⟩ :=
          findExistingChannel_eq hsound.toHas hindex hws.toHas recvmsg.head.sendID 0
        rw [hfind, checked_ok, run_bind] at hinfo
        cases found with
        | some j =>
            obtain ⟨w, hw, -⟩ := hsome j rfl
            simp only at hinfo
            rw [acknowledge_eq hsound.toHas hindex hws.toHas hw] at hinfo
            obtain ⟨handle, -, hinfo⟩ := run_bind_eq_ok.mp hinfo
            obtain ⟨numSegments, -, hinfo⟩ := run_bind_eq_ok.mp hinfo
            obtain ⟨sendmsg, -, hinfo⟩ := run_bind_eq_ok.mp hinfo
            cases hinfo
            exact ⟨cs, hsound⟩
        | none =>
            obtain ⟨⟨next, j⟩, hcreate, hinfo⟩ := run_bind_eq_ok.mp hinfo
            rw [checked_eq_ok] at hcreate
            obtain ⟨made, hmake, -⟩ := bind_eq_ok.mp hcreate
            obtain ⟨s'', conn, hok, hhas, hconn, htotal⟩ :=
              createChannel_eq hsound.toHas hindex hws.toHas hmake fhandle
            rw [hcreate, Except.ok.injEq, Prod.mk.injEq] at hok
            obtain ⟨rfl, rfl⟩ := hok
            have hindex' : i < (cs.set i conn).length := by rwa [List.length_set]
            simp only at hinfo
            rw [acknowledge_eq hhas hindex' (hconn.at_set hindex')
              List.getElem?_concat_length] at hinfo
            -- The answer counts the segments of the new channel, so its size is not zero.
            obtain ⟨handle, -, hinfo⟩ := run_bind_eq_ok.mp hinfo
            obtain ⟨numSegments, hnum, hinfo⟩ := run_bind_eq_ok.mp hinfo
            obtain ⟨sendmsg, -, hinfo⟩ := run_bind_eq_ok.mp hinfo
            cases hinfo
            have hlive : Live (cs[i].newWorker draw recvmsg fhandle).chan :=
              ⟨(UInt64.ne_of_lt hsendID).symm, generateRandomUint_ne_zero _,
                numSegmentsInFileHandle_ne_zero hnum, rfl⟩
            have hconn' := hws.append hconn hlive fun old hold => (hnone rfl old hold).2
            exact ⟨_, hsound.append hindex hws hhas hconn' hroom htotal⟩

theorem Server.Sound.finishChannel (hsound : s.Sound cs) (hindex : i < cs.length)
    (hfinish : finishChannel draw i recvmsg s = .ok (s', replies)) : ∃ cs', s'.Sound cs' := by
  obtain ⟨ws, hws⟩ := hsound.sound _ (List.getElem_mem hindex)
  obtain ⟨found, hfind, hsome, -⟩ := findExistingChannel_eq hsound.toHas hindex hws.toHas
    recvmsg.head.sendID recvmsg.head.recvID
  rw [Hipft.finishChannel, hfind, checked_ok, run_bind] at hfinish
  cases found with
  | none =>
      simp only [pure_bind] at hfinish
      obtain ⟨sendmsg, -, hfinish⟩ := run_bind_eq_ok.mp hfinish
      cases hfinish
      exact ⟨cs, hsound⟩
  | some j =>
      obtain ⟨w, hw, -⟩ := hsome j rfl
      obtain ⟨hchan, -⟩ := List.getElem?_eq_some_iff.mp hw
      obtain ⟨ended, hend, hfinish⟩ := run_bind_eq_ok.mp hfinish
      obtain ⟨sendmsg, -, hfinish⟩ := run_bind_eq_ok.mp hfinish
      cases hfinish
      obtain ⟨conn, hsound'⟩ := hsound.endChannel hindex hws hchan (checked_eq_ok.mp hend)
      exact ⟨_, hsound'⟩

theorem Server.Sound.writeChannel (hsound : s.Sound cs) (hindex : i < cs.length)
    {f : Worker → Worker} (halike : ∀ w, Alike w (f w))
    (hwrite : writeChannel draw i recvmsg f s = .ok (s', replies)) : ∃ cs', s'.Sound cs' := by
  obtain ⟨ws, hws⟩ := hsound.sound _ (List.getElem_mem hindex)
  obtain ⟨found, hfind, hsome, -⟩ := findExistingChannel_eq hsound.toHas hindex hws.toHas
    recvmsg.head.sendID recvmsg.head.recvID
  rw [Hipft.writeChannel, hfind, checked_ok, run_bind] at hwrite
  cases found with
  | none => exact ⟨cs, nack_state hwrite ▸ hsound⟩
  | some j =>
      obtain ⟨w, hw, -⟩ := hsome j rfl
      obtain ⟨written, hset, hwrite⟩ := run_bind_eq_ok.mp hwrite
      cases hwrite
      obtain ⟨conn, hsound'⟩ :=
        hsound.setChan hindex hws hw (halike w) (checked_eq_ok.mp hset)
      exact ⟨_, hsound'⟩

theorem Server.Sound.channelControl (hsound : s.Sound cs) (hindex : i < cs.length)
    {spare : Nat → Nat} {handles : List FileHandle} (hsendID : recvmsg.head.sendID > 0)
    (hcontrol : channelControl spare handles draw i recvmsg s = .ok (s', replies)) :
    ∃ cs', s'.Sound cs' := by
  rw [Hipft.channelControl] at hcontrol
  split at hcontrol
  next => exact hsound.channelInfo hindex hsendID hcontrol
  next =>
    split at hcontrol
    next => exact hsound.finishChannel hindex hcontrol
    next => exact ⟨cs, nack_state hcontrol ▸ hsound⟩

theorem Server.Sound.channelMessage (hsound : s.Sound cs) (hindex : i < cs.length)
    (hmessage : channelMessage draw i recvmsg s = .ok (s', replies)) : ∃ cs', s'.Sound cs' := by
  rw [Hipft.channelMessage] at hmessage
  split at hmessage
  next => exact hsound.writeChannel hindex alike_setReady hmessage
  next =>
    split at hmessage
    next => exact hsound.writeChannel hindex (alike_receive recvmsg) hmessage
    next =>
      split at hmessage
      next => exact hsound.finishChannel hindex hmessage
      next => exact ⟨cs, nack_state hmessage ▸ hsound⟩

theorem Server.Sound.connectionControl (hsound : s.Sound cs) (hindex : i < cs.length)
    (hcontrol : connectionControl draw i recvmsg s = .ok (s', replies)) : ∃ cs', s'.Sound cs' := by
  rw [Hipft.connectionControl] at hcontrol
  split at hcontrol
  next =>
    obtain ⟨ended, hend, hcontrol⟩ := run_bind_eq_ok.mp hcontrol
    cases hcontrol
    exact ⟨_, hsound.endConnection hindex (checked_eq_ok.mp hend)⟩
  next => exact ⟨cs, nack_state hcontrol ▸ hsound⟩

theorem Server.Sound.handleMessage (hsound : s.Sound cs) (hindex : i < cs.length)
    {spare : Nat → Nat} {handles : List FileHandle}
    (hhandle : handleMessage spare handles draw i recvmsg s = .ok (s', replies)) :
    ∃ cs', s'.Sound cs' := by
  obtain ⟨valid, -, hhandle⟩ := run_bind_eq_ok.mp hhandle
  split at hhandle
  next =>
    obtain ⟨sendmsg, -, hhandle⟩ := run_bind_eq_ok.mp hhandle
    cases hhandle
    exact ⟨cs, hsound⟩
  next =>
    split at hhandle
    next => exact hsound.connectionControl hindex hhandle
    next =>
      split at hhandle
      next hids => exact hsound.channelControl hindex hids.1 hhandle
      next => exact hsound.channelMessage hindex hhandle

end Messages

/-! ## Runs -/

section Runs

variable {s s' : Server} {cs : List Connection} {spare : Nat → Nat} {handles : List FileHandle}

theorem server_start_sound : Server.start.Sound [] :=
  { server_start_has with sound := nofun, total := rfl, atMost := by decide }

theorem Server.Sound.acceptConnection (hsound : s.Sound cs) {sock : Nat}
    (haccept : acceptConnection spare sock s = .ok s') : ∃ cs', s'.Sound cs' := by
  obtain ⟨made, hnew, haccept⟩ := bind_eq_ok.mp haccept
  obtain ⟨hhas, htotal⟩ := hsound.toHas.newConnection hnew
  have hlast : (made.totalConnections - 1).toNat = cs.length := toNat_sub_one (by
    rw [hhas.totalConnections, List.length_append, List.length_singleton])
  have hroom : cs.length < (cs ++ [Connection.fresh]).length := by simp
  obtain ⟨conns, hset, hhas'⟩ := hhas.setConn hroom { sock, numChans := 0, chans := [] }
  rw [hlast, hset, Except.ok.injEq] at haccept
  subst haccept
  -- The fresh connection at the end is the one that is filled in.
  rw [List.set_append_right _ _ (Nat.le_refl _), Nat.sub_self] at hhas'
  refine ⟨_, { hhas' with sound := ?_, total := ?_, atMost := ?_ }⟩
  · exact List.forall_mem_append.mpr ⟨hsound.sound, List.forall_mem_singleton.mpr
      ⟨[], connection_empty_sound sock⟩⟩
  · have hold := hsound.total
    rw [← htotal] at hold
    rw [List.map_append, List.sum_append]
    exact hold
  · have hold := hsound.atMost
    rwa [← htotal] at hold

theorem Server.Sound.threadStep (hsound : s.Sound cs) {i : Nat} (hindex : i < cs.length) {j : Nat}
    {msgID : UInt32} (hthread : threadStep i j msgID s = .ok s') : ∃ cs', s'.Sound cs' := by
  obtain ⟨ws, hws⟩ := hsound.sound _ (List.getElem_mem hindex)
  rw [Hipft.threadStep, hsound.toHas.slotAt hindex, checked_ok, run_bind] at hthread
  split at hthread
  next hchan =>
    rw [hws.numChans] at hchan
    rw [hws.chans.slotAt hchan, checked_ok, run_bind] at hthread
    obtain ⟨w, hstep, hset⟩ := run_bind_eq_ok.mp hthread
    obtain ⟨conn, hsound'⟩ := hsound.setChan hindex hws (List.getElem?_eq_getElem hchan)
      (Worker.step_alike hstep) (checked_eq_ok.mp hset)
    exact ⟨_, hsound'⟩
  next =>
    cases hthread
    exact ⟨cs, hsound⟩

theorem Server.Sound.event (hsound : s.Sound cs) {event : ServerEvent}
    (hevent : Server.event spare handles event s = .ok s') : ∃ cs', s'.Sound cs' := by
  cases event with
  | accept sock => exact hsound.acceptConnection (checked_eq_ok.mp hevent)
  | receive i recvmsg draw =>
      simp only [Server.event] at hevent
      split at hevent
      next hindex =>
        rw [hsound.totalConnections] at hindex
        cases recvmsg with
        | none => exact ⟨_, hsound.endConnection hindex (checked_eq_ok.mp hevent)⟩
        | some recvmsg =>
            obtain ⟨⟨next, replies⟩, hhandle, hevent⟩ := run_bind_eq_ok.mp hevent
            cases hevent
            exact hsound.handleMessage hindex hhandle
      next =>
        cases hevent
        exact ⟨cs, hsound⟩
  | step i j msgID =>
      simp only [Server.event] at hevent
      split at hevent
      next hindex => exact hsound.threadStep (hsound.totalConnections ▸ hindex) hevent
      next =>
        cases hevent
        exact ⟨cs, hsound⟩

/-- What holds between two events of a run. -/
theorem run_sound (events : List ServerEvent)
    (hrun : run (Server.event spare handles) events Server.start = .ok s) : ∃ cs, s.Sound cs := by
  have hstep : ∀ e s s', (∃ cs, Server.Sound s cs) → Server.event spare handles e s = .ok s' →
      ∃ cs, Server.Sound s' cs := by
    intro e s s' ⟨cs, hsound⟩ hevent
    exact hsound.event hevent
  exact run_invariant hstep ⟨[], server_start_sound⟩ hrun

end Runs

/-- In every run, however the allocator rounds and whatever comes in, the table is
consistent between any two events. -/
theorem run_consistent (spare : Nat → Nat) (handles : List FileHandle) (events : List ServerEvent)
    {s : Server} (hrun : run (Server.event spare handles) events Server.start = .ok s) :
    s.Consistent := by
  obtain ⟨cs, hsound⟩ := run_sound events hrun
  exact hsound.consistent

theorem run_consistent_one :
    ∃ s, run (Server.event oneMore [threeBytes]) (askEvents [100]) Server.start = .ok s ∧
      s.Consistent := by
  have hends : ∃ s, run (Server.event oneMore [threeBytes]) (askEvents [100]) Server.start =
      .ok s ∧ s.totalChannels = 1 := by decide +kernel
  obtain ⟨s, hrun, -⟩ := hends
  exact ⟨s, hrun, run_consistent 1 _ _ hrun⟩

end Hipft
