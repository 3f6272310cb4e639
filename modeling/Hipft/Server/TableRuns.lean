import Hipft.Server.FirstPass
import Hipft.Server.TableRefinement

/-! # What messages do to the table

A message that is verified is one of a few requests. What the server does to its arrays and
counters in a run, the requests do to a list of connections with their channels.
-/

namespace Hipft

open CMemory Transitions

/-! ## Requests -/

/-- What a verified message wants of the server. -/
inductive Request
  | close
  | ask
  | ready
  | again
  | finish
  | unknown
  deriving DecidableEq, Repr

/-- The request that the IDs and the types of a message make. -/
def Msg.request (m : Msg) : Request :=
  if m.head.sendID = 0 ∧ m.head.recvID = 0 then
    if m.isControl .fin then .close else .unknown
  else if m.head.recvID = 0 then
    if m.isControl .syn || m.isControl .rts then .ask
    else if m.isControl .fin then .finish
    else .unknown
  else if m.isControl .syn then .ready
  else if m.isControl .rts then .again
  else if m.isControl .fin then .finish
  else .unknown

/-- The thread's step, where it goes on. -/
def Worker.stepped (msgID : UInt32) (w : Worker) : Worker :=
  match w.step msgID with
  | .ok w => w
  | .error _ => w

namespace TableEntry

/-- The place of the channel with the second ID, else of that for the first. -/
def find (sendID recvID : UInt64) (entry : TableEntry) : Option Nat :=
  (entry.chans.findIdx? fun w => w.chan.selfID = recvID).or
    (entry.chans.findIdx? fun w => w.chan.otherID = sendID)

/-- Write to the channel that the message is for. -/
def write (m : Msg) (f : Worker → Worker) (entry : TableEntry) : TableEntry :=
  match entry.find m.head.sendID m.head.recvID with
  | some j => { entry with chans := entry.chans.modify j f }
  | none => entry

/-- End the channel that the message is for. -/
def finish (m : Msg) (entry : TableEntry) : TableEntry :=
  match entry.find m.head.sendID m.head.recvID with
  | some j => { entry with chans := entry.chans.eraseIdx j }
  | none => entry

/-- The channel that is made for the message. -/
def opened (draw : Draw) (fhandle : FileHandle) (m : Msg) (entry : TableEntry) : Worker :=
  Worker.start entry.sock (generateRandomUint draw.random 300 46744073709551615) m.head.sendID
    m.head.segmentNum fhandle

/-- A channel for the client, unless it has one. -/
def ask (draw : Draw) (fhandle : FileHandle) (m : Msg) (entry : TableEntry) : TableEntry :=
  match entry.find m.head.sendID 0 with
  | some _ => entry
  | none => { entry with chans := entry.chans ++ [entry.opened draw fhandle m] }

/-- A step of the thread of a channel. -/
def step (j : Nat) (msgID : UInt32) (entry : TableEntry) : TableEntry :=
  { entry with chans := entry.chans.modify j (Worker.stepped msgID) }

/-- The requests leave a connection its socket. -/
theorem write_sock (m : Msg) (f : Worker → Worker) (entry : TableEntry) :
    (entry.write m f).sock = entry.sock := by
  rw [write]
  split
  next => rfl
  next => rfl

theorem finish_sock (m : Msg) (entry : TableEntry) : (entry.finish m).sock = entry.sock := by
  rw [finish]
  split
  next => rfl
  next => rfl

theorem ask_sock (draw : Draw) (fhandle : FileHandle) (m : Msg) (entry : TableEntry) :
    (entry.ask draw fhandle m).sock = entry.sock := by
  rw [ask]
  split
  next => rfl
  next => rfl

end TableEntry

namespace Table

/-- What a verified message from connection `i` does. -/
def handle (handles : List FileHandle) (draw : Draw) (i : Nat) (m : Msg) (t : Table) : Table :=
  match m.request with
  | .close => t.eraseIdx i
  | .ask =>
      match fileHandleForFile m.body.content m.head.contentLength.toNat handles with
      | .ok (some fhandle) =>
          if t.channels < maxChannels.toNat then t.modify i (TableEntry.ask draw fhandle m) else t
      | _ => t
  | .ready => t.modify i (TableEntry.write m Worker.setReady)
  | .again => t.modify i (TableEntry.write m (Worker.receive m))
  | .finish => t.modify i (TableEntry.finish m)
  | .unknown => t

/-- What an event does. -/
def act (handles : List FileHandle) : ServerEvent → Table → Table
  | .accept sock, t => t ++ [⟨sock, []⟩]
  | .receive i none _, t => t.eraseIdx i
  | .receive i (some m) draw, t => if verifyMsg m = .ok true then t.handle handles draw i m else t
  | .step i j msgID, t => t.modify i (TableEntry.step j msgID)

/-- From a connection that is not there nothing comes. -/
theorem act_receive_outside (handles : List FileHandle) (m : Option Msg) (draw : Draw) {i : Nat}
    {t : Table} (hi : t.length ≤ i) : act handles (.receive i m draw) t = t := by
  cases m with
  | none => exact List.eraseIdx_of_length_le hi
  | some m =>
      rw [act]
      split
      next =>
        rw [handle]
        cases m.request with
        | close => exact List.eraseIdx_of_length_le hi
        | ask =>
            simp only
            split
            next =>
              split
              next => exact List.modify_eq_self hi
              next => rfl
            next => rfl
        | ready | again | finish => exact List.modify_eq_self hi
        | unknown => rfl
      next => rfl

end Table

/-- A channel is found where the list has it. -/
theorem TableEntry.lt_of_find {entry : TableEntry} {sendID recvID : UInt64} {j : Nat}
    (hfind : entry.find sendID recvID = some j) : j < entry.chans.length := by
  rw [TableEntry.find, Option.or_eq_some_iff] at hfind
  rcases hfind with hself | ⟨-, hother⟩
  · obtain ⟨hj, -⟩ := List.findIdx?_eq_some_iff_getElem.mp hself
    exact hj
  · obtain ⟨hj, -⟩ := List.findIdx?_eq_some_iff_getElem.mp hother
    exact hj

/-! ## Arrays and lists -/

theorem modify_eq_of_eq {α : Type} {l : List α} {i : Nat} {f : α → α}
    (hsame : ∀ a, l[i]? = some a → f a = a) : l.modify i f = l := by
  apply List.ext_getElem?
  intro j
  rw [List.getElem?_modify]
  split
  next heq =>
    subst heq
    cases ha : l[i]? with
    | none => rfl
    | some a =>
        change some (f a) = some a
        rw [hsame a ha]
  next => simp

theorem modify_congr {α : Type} {l : List α} {i : Nat} {f g : α → α} {a : α}
    (ha : l[i]? = some a) (hsame : f a = g a) : l.modify i f = l.modify i g := by
  apply List.ext_getElem?
  intro j
  rw [List.getElem?_modify, List.getElem?_modify]
  split
  next heq =>
    subst heq
    rw [ha]
    change some (f a) = some (g a)
    rw [hsame]
  next => rfl

/-- Looking through the indices is looking through the list. -/
theorem find?_range_eq {α : Type} (l : List α) (test : α → Bool) :
    ((List.range l.length).find? fun i => (l[i]?.map test).getD false) = l.findIdx? test := by
  cases hfound : l.findIdx? test with
  | none =>
      rw [List.findIdx?_eq_none_iff] at hfound
      rw [List.find?_range_eq_none]
      intro i hi
      rw [List.getElem?_eq_getElem hi]
      simp [hfound _ (List.getElem_mem hi)]
  | some i =>
      obtain ⟨hi, htest, hbefore⟩ := List.findIdx?_eq_some_iff_getElem.mp hfound
      rw [List.find?_range_eq_some]
      refine ⟨?_, List.mem_range.mpr hi, ?_⟩
      · rw [List.getElem?_eq_getElem hi]
        exact htest
      · intro j hj
        rw [List.getElem?_eq_getElem (hj.trans hi)]
        simpa using hbefore j hj

section Filled

variable {s s' : Server} {i : Nat}

/-- The lookup in the arrays is that in the list. -/
theorem Server.Filled.find_eq (hfilled : s.Filled) (hi : i < s.table.length)
    (sendID recvID : UInt64) :
    findExistingChannel i sendID recvID s = .ok (s.table[i].find sendID recvID) := by
  obtain ⟨cs, hi', hhas, -, hws, -⟩ := hfilled.entry hi
  have hslots : ∀ j ∈ List.range s.table[i].chans.length,
      ∃ w, slotAt cs[i].chans j = .ok w ∧ s.table[i].chans[j]? = some w := by
    intro j hj
    have hj' := List.mem_range.mp hj
    exact ⟨_, hws.chans.slotAt hj', List.getElem?_eq_getElem hj'⟩
  rw [findExistingChannel, hhas.slotAt hi', ok_bind, hws.numChans]
  simp only [findSlot_eq hslots, find?_range_eq, ok_bind, TableEntry.find]
  cases s.table[i].chans.findIdx? fun w => decide (w.chan.selfID = recvID) with
  | some j => rfl
  | none => rfl

theorem Server.Filled.setChan (hfilled : s.Filled) (hi : i < s.table.length) {j : Nat}
    (hj : j < s.table[i].chans.length) {f : Worker → Worker}
    (hset : s.setChan i j f = .ok s') :
    s'.table = s.table.modify i fun entry => { entry with chans := entry.chans.modify j f } := by
  obtain ⟨cs, hi', hhas, hchans, hws, hsmall⟩ := hfilled.entry hi
  obtain ⟨chans, hmodify, hholds⟩ := hws.chans.modifyAt hj f
  obtain ⟨conns, hconns, hhas'⟩ := hhas.setConn hi' { cs[i] with chans }
  rw [Server.setChan, hhas.slotAt hi', ok_bind, hws.chans.slotAt hj, ok_bind, hmodify, ok_bind,
    hconns, Except.ok.injEq] at hset
  subst hset
  have hconn : Connection.Has { cs[i] with chans } (s.table[i].chans.modify j f) :=
    ⟨hholds, by rw [List.length_modify]; exact hws.numChans⟩
  have hentry : cs[i].entry.chans.modify j f = s.table[i].chans.modify j f := by rw [hws.entry_eq]
  exact (Server.Filled.set hhas hchans hi' hhas' hconn (by rwa [List.length_modify]) rfl
    (f := fun chans => chans.modify j f) hentry).2

end Filled

/-! ## Events -/

section Sound

variable {s s' : Server} {cs : List Connection} {i : Nat} {draw : Draw} {m : Msg}
  {replies : List Msg}

theorem Server.Sound.filled (hsound : s.Sound cs) : s.Filled := by
  refine ⟨cs, hsound.toHas, fun conn hconn => ?_⟩
  obtain ⟨ws, hws⟩ := hsound.sound conn hconn
  obtain ⟨j, hj, rfl⟩ := List.getElem_of_mem hconn
  exact ⟨ws, hws.toHas, (hsound.length_le hj hws.toHas).trans (by decide)⟩

/-- The counter of channels counts those in the table. -/
theorem Server.Sound.channels_eq (hsound : s.Sound cs) :
    s.totalChannels.toNat = s.table.channels := by
  rw [hsound.total, hsound.toHas.table_eq, Table.channels, List.map_map]
  congr 1
  apply List.map_congr_left
  intro conn hconn
  obtain ⟨ws, hws⟩ := hsound.sound conn hconn
  rw [Function.comp_apply, hws.entry_eq, hws.numChans]

theorem Server.Sound.endConnection_table (hsound : s.Sound cs) (hi : i < s.table.length)
    (hend : Hipft.endConnection i s = .ok s') : s'.table = s.table.eraseIdx i := by
  obtain ⟨ended, hok, hrefines⟩ := hsound.filled.endConnection hi
  rw [hend, Except.ok.injEq] at hok
  exact hok ▸ hrefines.table

theorem acknowledge_state {j : Nat} (hack : acknowledge draw i j m s = .ok (s', replies)) :
    s' = s := by
  obtain ⟨conn, -, hack⟩ := run_bind_eq_ok.mp hack
  obtain ⟨w, -, hack⟩ := run_bind_eq_ok.mp hack
  obtain ⟨fhandle, -, hack⟩ := run_bind_eq_ok.mp hack
  obtain ⟨numSegments, -, hack⟩ := run_bind_eq_ok.mp hack
  obtain ⟨sendmsg, -, hack⟩ := run_bind_eq_ok.mp hack
  cases hack
  rfl

theorem Server.Filled.createChannel (hfilled : s.Filled) (hi : i < s.table.length)
    {spare : Nat → Nat} {j : Nat} {fhandle : FileHandle}
    (hcreate : createChannel spare draw i m fhandle s = .ok (s', j)) :
    j = s.table[i].chans.length ∧ s'.table = s.table.modify i fun entry =>
      { entry with chans := entry.chans ++ [entry.opened draw fhandle m] } := by
  obtain ⟨made, hnew, hcreate⟩ := bind_eq_ok.mp hcreate
  obtain ⟨conn, hslot, hcreate⟩ := bind_eq_ok.mp hcreate
  obtain ⟨filled, hset, hcreate⟩ := bind_eq_ok.mp hcreate
  cases hcreate
  have hrefines := hfilled.newChannel hi hnew
  have htable : made.table = s.table.modify i fun entry =>
      { entry with chans := entry.chans ++ [.fresh] } := hrefines.table
  have hi' : i < made.table.length := by rwa [htable, List.length_modify]
  have hentry : made.table[i] = { s.table[i] with chans := s.table[i].chans ++ [.fresh] } := by
    simp only [htable, List.getElem_modify_eq]
  obtain ⟨cs, hi'', hhas, -, hws, -⟩ := hrefines.filled.entry hi'
  have hslot' := hhas.slotAt hi''
  rw [hslot, Except.ok.injEq] at hslot'
  subst hslot'
  have hsock : cs[i].sock = s.table[i].sock := by
    have hsame := congrArg TableEntry.sock hentry
    rwa [hhas.getElem_table hi' hi'', hws.entry_eq] at hsame
  have hlast : (cs[i].numChans - 1).toNat = s.table[i].chans.length := by
    apply toNat_sub_one
    rw [hws.numChans, hentry, List.length_append, List.length_singleton]
  have hj : (cs[i].numChans - 1).toNat < made.table[i].chans.length := by
    rw [hlast, hentry, List.length_append, List.length_singleton]
    exact Nat.lt_succ_self _
  refine ⟨hlast, ?_⟩
  have hwritten := hrefines.filled.setChan hi' hj hset
  rw [hwritten, htable, List.modify_modify_eq]
  apply modify_congr (List.getElem?_eq_getElem hi)
  simp only [Function.comp_apply, hlast]
  congr 1
  -- The fresh channel is the one that is filled in.
  have happend := (modifyAt_of_lt (Worker.create cs[i] draw m fhandle) (hlast ▸ hentry ▸ hj :
    s.table[i].chans.length < (s.table[i].chans ++ [Worker.fresh]).length)).symm.trans
      (modifyAt_append_length s.table[i].chans [] Worker.fresh _)
  rw [Except.ok.injEq] at happend
  rw [happend]
  have hsame : Worker.create cs[i] draw m fhandle .fresh = s.table[i].opened draw fhandle m := by
    rw [Worker.create, hsock]
    rfl
  rw [hsame]

theorem nack_table (hnack : nack draw m s = .ok (s', replies)) : s'.table = s.table := by
  rw [nack_state hnack]

theorem Server.Sound.channelInfo_table (hsound : s.Sound cs) (hi : i < s.table.length)
    {spare : Nat → Nat} {handles : List FileHandle}
    (hinfo : Hipft.channelInfo spare handles draw i m s = .ok (s', replies)) :
    s'.table = match fileHandleForFile m.body.content m.head.contentLength.toNat handles with
      | .ok (some fhandle) =>
          if s.table.channels < maxChannels.toNat then
            s.table.modify i (TableEntry.ask draw fhandle m)
          else s.table
      | _ => s.table := by
  obtain ⟨fhandle, hfile, hinfo⟩ := run_bind_eq_ok.mp hinfo
  rw [checked_eq_ok.mp hfile]
  cases fhandle with
  | none =>
      obtain ⟨sendmsg, -, hinfo⟩ := run_bind_eq_ok.mp hinfo
      cases hinfo
      rfl
  | some fhandle =>
      have hroom : s.table.channels < maxChannels.toNat ↔ s.totalChannels < maxChannels := by
        rw [← hsound.channels_eq, UInt64.lt_iff_toNat_lt]
      simp only [hroom] at hinfo ⊢
      split at hinfo
      next hfull =>
        obtain ⟨sendmsg, -, hinfo⟩ := run_bind_eq_ok.mp hinfo
        cases hinfo
        rw [if_neg (UInt64.not_lt.mpr hfull)]
      next hfull =>
        rw [if_pos (UInt64.not_le.mp hfull)]
        rw [hsound.filled.find_eq hi, checked_ok, run_bind] at hinfo
        cases hfound : s.table[i].find m.head.sendID 0 with
        | some j =>
            simp only [hfound] at hinfo
            rw [acknowledge_state hinfo, modify_eq_of_eq]
            intro entry hentry
            rw [List.getElem?_eq_getElem hi, Option.some.injEq] at hentry
            rw [← hentry, TableEntry.ask, hfound]
        | none =>
            simp only [hfound] at hinfo
            obtain ⟨⟨next, j⟩, hcreate, hinfo⟩ := run_bind_eq_ok.mp hinfo
            rw [acknowledge_state hinfo,
              (hsound.filled.createChannel hi (checked_eq_ok.mp hcreate)).2]
            apply modify_congr (List.getElem?_eq_getElem hi)
            rw [TableEntry.ask, hfound]

theorem Server.Sound.finishChannel_table (hsound : s.Sound cs) (hi : i < s.table.length)
    (hfinish : Hipft.finishChannel draw i m s = .ok (s', replies)) :
    s'.table = s.table.modify i (TableEntry.finish m) := by
  rw [Hipft.finishChannel, hsound.filled.find_eq hi, checked_ok, run_bind] at hfinish
  cases hfound : s.table[i].find m.head.sendID m.head.recvID with
  | none =>
      simp only [hfound, pure_bind] at hfinish
      obtain ⟨sendmsg, -, hfinish⟩ := run_bind_eq_ok.mp hfinish
      cases hfinish
      rw [modify_eq_of_eq]
      intro entry hentry
      rw [List.getElem?_eq_getElem hi, Option.some.injEq] at hentry
      rw [← hentry, TableEntry.finish, hfound]
  | some j =>
      simp only [hfound] at hfinish
      obtain ⟨next, hend, hfinish⟩ := run_bind_eq_ok.mp hfinish
      obtain ⟨sendmsg, -, hfinish⟩ := run_bind_eq_ok.mp hfinish
      cases hfinish
      obtain ⟨ended, hok, hrefines⟩ :=
        hsound.filled.endChannel hi (TableEntry.lt_of_find hfound)
      rw [checked_eq_ok.mp hend, Except.ok.injEq] at hok
      rw [hok, hrefines.table]
      apply modify_congr (List.getElem?_eq_getElem hi)
      rw [TableEntry.finish, hfound]

theorem Server.Sound.writeChannel_table (hsound : s.Sound cs) (hi : i < s.table.length)
    {f : Worker → Worker} (hwrite : Hipft.writeChannel draw i m f s = .ok (s', replies)) :
    s'.table = s.table.modify i (TableEntry.write m f) := by
  rw [Hipft.writeChannel, hsound.filled.find_eq hi, checked_ok, run_bind] at hwrite
  cases hfound : s.table[i].find m.head.sendID m.head.recvID with
  | none =>
      simp only [hfound] at hwrite
      rw [nack_table hwrite, modify_eq_of_eq]
      intro entry hentry
      rw [List.getElem?_eq_getElem hi, Option.some.injEq] at hentry
      rw [← hentry, TableEntry.write, hfound]
  | some j =>
      simp only [hfound] at hwrite
      obtain ⟨next, hset, hwrite⟩ := run_bind_eq_ok.mp hwrite
      cases hwrite
      rw [hsound.filled.setChan hi (TableEntry.lt_of_find hfound) (checked_eq_ok.mp hset)]
      apply modify_congr (List.getElem?_eq_getElem hi)
      rw [TableEntry.write, hfound]

section Dispatch

variable (hsound : s.Sound cs) (hi : i < s.table.length) {handles : List FileHandle}
include hsound hi

theorem connectionControl_table (hzero : m.head.sendID = 0 ∧ m.head.recvID = 0)
    (hcontrol : connectionControl draw i m s = .ok (s', replies)) :
    s'.table = s.table.handle handles draw i m := by
  rw [Table.handle, Msg.request, if_pos hzero]
  rw [connectionControl] at hcontrol
  split at hcontrol
  next hfin =>
    obtain ⟨ended, hend, hcontrol⟩ := run_bind_eq_ok.mp hcontrol
    cases hcontrol
    rw [if_pos hfin]
    exact hsound.endConnection_table hi (checked_eq_ok.mp hend)
  next hfin =>
    rw [if_neg hfin]
    exact nack_table hcontrol

theorem channelControl_table {spare : Nat → Nat} (hids : m.head.sendID > 0 ∧ m.head.recvID = 0)
    (hcontrol : channelControl spare handles draw i m s = .ok (s', replies)) :
    s'.table = s.table.handle handles draw i m := by
  have hzero : ¬ (m.head.sendID = 0 ∧ m.head.recvID = 0) := fun hzero =>
    UInt64.pos_iff_ne_zero.mp hids.1 hzero.1
  rw [Table.handle, Msg.request, if_neg hzero, if_pos hids.2]
  rw [channelControl] at hcontrol
  split at hcontrol
  next hask =>
    rw [if_pos hask]
    exact hsound.channelInfo_table hi hcontrol
  next hask =>
    rw [if_neg hask]
    split at hcontrol
    next hfin =>
      rw [if_pos hfin]
      exact hsound.finishChannel_table hi hcontrol
    next hfin =>
      rw [if_neg hfin]
      exact nack_table hcontrol

theorem channelMessage_table (hrecvID : m.head.recvID ≠ 0)
    (hmessage : channelMessage draw i m s = .ok (s', replies)) :
    s'.table = s.table.handle handles draw i m := by
  have hzero : ¬ (m.head.sendID = 0 ∧ m.head.recvID = 0) := fun hzero => hrecvID hzero.2
  rw [Table.handle, Msg.request, if_neg hzero, if_neg hrecvID]
  rw [channelMessage] at hmessage
  split at hmessage
  next hsyn =>
    rw [if_pos hsyn]
    exact hsound.writeChannel_table hi hmessage
  next hsyn =>
    rw [if_neg hsyn]
    split at hmessage
    next hrts =>
      rw [if_pos hrts]
      exact hsound.writeChannel_table hi hmessage
    next hrts =>
      rw [if_neg hrts]
      split at hmessage
      next hfin =>
        rw [if_pos hfin]
        exact hsound.finishChannel_table hi hmessage
      next hfin =>
        rw [if_neg hfin]
        exact nack_table hmessage

/-- A message does to the table what its request does to the list. -/
theorem handleMessage_table {spare : Nat → Nat}
    (hhandle : handleMessage spare handles draw i m s = .ok (s', replies)) :
    s'.table = if verifyMsg m = .ok true then s.table.handle handles draw i m else s.table := by
  obtain ⟨valid, hvalid, hhandle⟩ := run_bind_eq_ok.mp hhandle
  rw [checked_eq_ok.mp hvalid]
  cases valid with
  | false =>
      obtain ⟨sendmsg, -, hhandle⟩ := run_bind_eq_ok.mp hhandle
      cases hhandle
      rfl
  | true =>
      rw [if_pos rfl]
      simp only [Bool.not_true, Bool.false_eq_true, if_false] at hhandle
      split at hhandle
      next hzero => exact connectionControl_table hsound hi hzero hhandle
      next hzero =>
        split at hhandle
        next hids => exact channelControl_table hsound hi hids hhandle
        next hids =>
          refine channelMessage_table hsound hi (fun hrecvID => ?_) hhandle
          refine hids ⟨UInt64.pos_iff_ne_zero.mpr fun hsendID => ?_, hrecvID⟩
          exact hzero ⟨hsendID, hrecvID⟩

end Dispatch

theorem acceptConnection_table (hsound : s.Sound cs) {spare : Nat → Nat}
    {sock : Nat} (haccept : acceptConnection spare sock s = .ok s') :
    s'.table = s.table ++ [⟨sock, []⟩] := by
  obtain ⟨made, hnew, haccept⟩ := bind_eq_ok.mp haccept
  obtain ⟨hhas, -⟩ := hsound.toHas.newConnection hnew
  have hlast : (made.totalConnections - 1).toNat = cs.length := toNat_sub_one (by
    rw [hhas.totalConnections, List.length_append, List.length_singleton])
  have hroom : cs.length < (cs ++ [Connection.fresh]).length := by simp
  obtain ⟨conns, hset, hhas'⟩ := hhas.setConn hroom { sock, numChans := 0, chans := [] }
  rw [hlast, hset, Except.ok.injEq] at haccept
  subst haccept
  rw [List.set_append_right _ _ (Nat.le_refl _), Nat.sub_self] at hhas'
  rw [hhas'.table_eq, hsound.toHas.table_eq, List.map_append]
  rfl

theorem threadStep_table (hsound : s.Sound cs) (hi : i < s.table.length) {j : Nat}
    {msgID : UInt32} (hthread : threadStep i j msgID s = .ok s') :
    s'.table = s.table.modify i (TableEntry.step j msgID) := by
  obtain ⟨cs, hi', hhas, -, hws, -⟩ := hsound.filled.entry hi
  rw [threadStep, hhas.slotAt hi', checked_ok, run_bind, hws.numChans] at hthread
  split at hthread
  next hj =>
    rw [hws.chans.slotAt hj, checked_ok, run_bind] at hthread
    obtain ⟨w, hstep, hset⟩ := run_bind_eq_ok.mp hthread
    rw [hsound.filled.setChan hi hj (checked_eq_ok.mp hset)]
    apply modify_congr (List.getElem?_eq_getElem hi)
    rw [TableEntry.step]
    congr 1
    apply modify_congr (List.getElem?_eq_getElem hj)
    rw [Worker.stepped, hstep]
  next hj =>
    cases hthread
    rw [modify_eq_of_eq]
    intro entry hentry
    rw [List.getElem?_eq_getElem hi, Option.some.injEq] at hentry
    rw [← hentry, TableEntry.step, List.modify_eq_self (Nat.le_of_not_lt hj)]

/-- An event that the server gets through does to the table what it does to the list. -/
theorem event_table (hsound : s.Sound cs) {spare : Nat → Nat} {handles : List FileHandle}
    {event : ServerEvent} (hevent : Server.event spare handles event s = .ok s') :
    s'.table = Table.act handles event s.table := by
  have hlength := hsound.filled.totalConnections
  cases event with
  | accept sock => exact acceptConnection_table hsound (checked_eq_ok.mp hevent)
  | receive i m draw =>
      simp only [Server.event] at hevent
      split at hevent
      next hi =>
        rw [hlength] at hi
        cases m with
        | none => exact hsound.endConnection_table hi (checked_eq_ok.mp hevent)
        | some m =>
            obtain ⟨⟨next, replies⟩, hhandle, hevent⟩ := run_bind_eq_ok.mp hevent
            cases hevent
            exact handleMessage_table hsound hi hhandle
      next hi =>
        cases hevent
        rw [hlength, Nat.not_lt] at hi
        exact (Table.act_receive_outside handles m draw hi).symm
  | step i j msgID =>
      simp only [Server.event] at hevent
      split at hevent
      next hi => exact threadStep_table hsound (hlength ▸ hi) hevent
      next hi =>
        cases hevent
        rw [hlength, Nat.not_lt] at hi
        exact (List.modify_eq_self hi).symm

end Sound

section Runs

variable {spare : Nat → Nat} {handles : List FileHandle} {events : List ServerEvent} {s : Server}

theorem table_of_run (hrun : run (Server.event spare handles) events Server.start = .ok s) :
    s.table = events.foldl (fun t e => Table.act handles e t) [] := by
  have hstep : ∀ e now next, (∃ cs, Server.Sound now cs) → True →
      Server.event spare handles e now = .ok next →
      (∃ cs, Server.Sound next cs) ∧ next.table = Table.act handles e now.table := by
    rintro e now next ⟨cs, hsound⟩ - hevent
    exact ⟨hsound.event hevent, event_table hsound hevent⟩
  have hmeets : Meets (Server.event spare handles) (fun _ _ => True) events Server.start :=
    meets_of_forall (fun _ _ => trivial) events _
  exact (run_refines hstep ⟨[], server_start_sound⟩ hmeets hrun).2

/-- In every run of the server, whatever comes in, the table is what the requests make of the
empty list, and its counters count the list. -/
theorem run_table (hrun : run (Server.event spare handles) events Server.start = .ok s) :
    s.table = events.foldl (fun t e => Table.act handles e t) [] ∧
      s.totalConnections.toNat = s.table.length ∧ s.totalChannels.toNat = s.table.channels := by
  obtain ⟨cs, hsound⟩ := run_sound events hrun
  exact ⟨table_of_run hrun, hsound.filled.totalConnections, hsound.channels_eq⟩

end Runs

theorem run_table_ask :
    ∃ s, run (Server.event oneMore [threeBytes]) (askEvents [100]) Server.start = .ok s ∧
      s.table = (askEvents [100]).foldl (fun t e => Table.act [threeBytes] e t) [] ∧
      s.totalConnections.toNat = s.table.length ∧ s.totalChannels.toNat = s.table.channels := by
  have hends : ∃ s, run (Server.event oneMore [threeBytes]) (askEvents [100]) Server.start =
      .ok s ∧ s.totalChannels = 1 := by decide +kernel
  obtain ⟨s, hrun, -⟩ := hends
  exact ⟨s, hrun, run_table hrun⟩

end Hipft
