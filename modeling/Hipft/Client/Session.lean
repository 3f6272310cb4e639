import Hipft.Client.Main
import Hipft.Server.Dialogue

/-! # A client and the server

The client's loop at one end of a connection, and at the other the server with all its other
clients. What one of the two has written the other takes in later, in the same order.
-/

namespace Hipft

open CMemory Transitions

/-- The client and the server, and how much of what the other has written each has taken in. -/
structure Session where
  wired : Wired
  client : Client
  delivered : Nat
  read : Nat

/-- Something happens on the server, the server takes the client's next message from connection
`i`, or the client takes what is next on its socket. -/
inductive SessionEvent
  | server (e : ServerEvent)
  | deliver (i : Nat) (draw : Draw)
  | read

namespace Session

/-- What the client has sent and the server has not received. -/
def pending (s : Session) : List Msg := s.client.sent.drop s.delivered

/-- What stands on the client's socket. -/
def unread (sock : Nat) (s : Session) : List Msg := (s.wired.log.on sock).drop s.read

/-- The client's connections in the server's table. -/
def entries (sock : Nat) (s : Session) : Table := s.wired.server.table.of sock

def event (spare : Nat → Nat) (handles : List FileHandle) (drawn : Nat → UInt32) (caller : Caller)
    (sock : Nat) : SessionEvent → Session → Run Session
  | .server e, s => do
      let wired ← Wired.event spare handles drawn e s.wired
      pure { s with wired }
  | .deliver i draw, s =>
      match s.pending with
      | [] => pure s
      | m :: _ => do
          let wired ← Wired.event spare handles drawn (.receive i (some m) draw) s.wired
          pure { s with wired, delivered := s.delivered + 1 }
  | .read, s =>
      match s.unread sock with
      | [] => pure s
      | m :: _ => do
          let client ← checked (s.client.receive caller m)
          pure { s with client, read := s.read + 1 }

/-- The client's messages come in from its connection and nothing else does, and when it asks
for a channel there is room. -/
def Proper (sock : Nat) (s : Session) : SessionEvent → Prop
  | .server e => e.Quiet sock s.wired.server.table
  | .deliver i _ => (∃ entry, s.wired.server.table[i]? = some entry ∧ entry.sock = sock) ∧
      (s.client.stage = .establishing → s.wired.server.table.channels < maxChannels.toNat)
  | .read => True

end Session

/-- The server has what the client asks for, and the requests that the client frees have the
number of its segments in them. -/
structure Caller.Fits (caller : Caller) (handles : List FileHandle) (fhandle : FileHandle) :
    Prop where
  file : fileHandleForFile caller.file caller.file.length handles = .ok (some fhandle)
  short : caller.file.length < 65536
  content : fhandle.content ≠ []
  selfID : ∀ cycle, caller.selfID cycle ≠ 0
  stale : ∀ cycle, (caller.stale cycle).toNat = fhandle.segments Client.maxSize.toNat

theorem Caller.Fits.stale_ne_zero {caller : Caller} {handles : List FileHandle}
    {fhandle : FileHandle} (hfits : caller.Fits handles fhandle) (cycle : Nat) :
    caller.stale cycle ≠ 0 := by
  have hstale := hfits.stale cycle
  intro hzero
  rw [hzero] at hstale
  exact Nat.ne_of_gt (fhandle.segments_pos (by decide) hfits.content) hstale.symm

/-! ## The client's steps -/

/-- The first packets of a file, gathered. -/
def FileHandle.gathered (fhandle : FileHandle) (count : Nat) : Gather :=
  let bytes := (List.range count).flatMap fun j => fhandle.returned Client.maxSize.toNat (j + 1)
  ⟨createSection, ⟨bytes, bytes.length⟩, []⟩

section Client

variable {caller : Caller} {c : Client} {otherID numfilepcks segmentNum : UInt64}
  {dataType : DataType} {content : Bytes} {fhandle : FileHandle} {recv : Msg}

theorem Client.send_eq (caller : Caller) (c : Client) (otherID : UInt64) (dataType : DataType)
    (segmentNum : UInt64) (hshort : content.length < 65536) :
    ∃ m, c.send caller otherID dataType segmentNum content =
        .ok { c with sent := c.sent ++ [m] } ∧
      Control c.selfID otherID dataType segmentNum content m := by
  obtain ⟨m, hform, hcontrol⟩ :=
    formMsg_control (caller.msgID c.sent.length) c.selfID otherID dataType segmentNum hshort
  have hlength : (UInt32.ofNat content.length).toNat ≤ content.length := by
    rw [UInt32.toNat_ofNat']
    exact Nat.mod_le _ _
  obtain ⟨m', hform', hsend, -⟩ := formMsg_sendMsg (caller.msgID c.sent.length) c.selfID otherID
    ChannelType.control.code dataType.code segmentNum hlength
  obtain rfl : m = m' := Except.ok.inj (hform.symm.trans hform')
  refine ⟨m, ?_, hcontrol⟩
  rw [Client.send, request, hform, ok_bind, hsend]
  rfl

theorem Client.begin_eq (hshort : caller.file.length < 65536) (c : Client) :
    ∃ m, (c.begin caller = .ok { c with
          selfID := caller.selfID c.cycle, stage := .establishing, sent := c.sent ++ [m] } ∧
        Control (caller.selfID c.cycle) 0 .syn Client.maxSize caller.file m) ∨
      (c.begin caller = .ok { c with
          selfID := 0, stage := .closed, sent := c.sent ++ [m] } ∧
        Control 0 0 .fin 0 [] m) := by
  rw [Client.begin]
  split
  next =>
    obtain ⟨m, hsend, hcontrol⟩ := Client.send_eq caller
      { c with selfID := caller.selfID c.cycle, stage := .establishing } 0 .syn Client.maxSize
      hshort
    exact ⟨m, .inl ⟨hsend, hcontrol⟩⟩
  next =>
    obtain ⟨m, hsend, hcontrol⟩ := Client.send_eq caller
      { c with selfID := 0, stage := .closed } 0 .fin 0 (show ([] : Bytes).length < 65536 by decide)
    exact ⟨m, .inr ⟨hsend, hcontrol⟩⟩

/-- The answer that tells about a channel. -/
theorem Client.receive_ack (hstage : c.stage = .establishing)
    (hshort : caller.file.length < 65536) (hverified : verifyMsg recv = .ok true)
    (hsendID : recv.head.sendID ≠ 0) (hstale : caller.stale c.cycle ≠ 0) :
    ∃ m, c.receive caller recv = .ok { c with
        stage := .gathering recv.head.sendID (caller.stale c.cycle) 0 .start
        sent := c.sent ++ [m] } ∧
      Control c.selfID recv.head.sendID .syn Client.maxSize caller.file m := by
  obtain ⟨m, hsend, hcontrol⟩ :=
    Client.send_eq caller c recv.head.sendID .syn Client.maxSize hshort
  refine ⟨m, ?_, hcontrol⟩
  rw [Client.receive, hstage, hverified]
  simp only [ok_bind, if_true, Client.sendFile, hsend, if_neg hsendID, Client.gather,
    if_neg hstale]
  rfl

theorem FileHandle.gatherPacket_gathered {count : Nat} (hpasses : Passes recv)
    (harrives : Arrives recv (fhandle.returned Client.maxSize.toNat (count + 1)))
    (numpcks : UInt64) :
    gatherPacket numpcks recv (fhandle.gathered count) = .ok (fhandle.gathered (count + 1)) := by
  rw [gatherPacket_eq harrives rfl, if_pos hpasses]
  simp only [FileHandle.gathered, List.range_succ, List.flatMap_append, List.flatMap_singleton]

/-- A packet that is not the last. -/
theorem Client.receive_packet (caller : Caller) {count : Nat}
    (hstage : c.stage = .gathering otherID numfilepcks (UInt64.ofNat count)
      (fhandle.gathered count))
    (hpasses : Passes recv)
    (harrives : Arrives recv (fhandle.returned Client.maxSize.toNat (count + 1)))
    (hcount : count < numfilepcks.toNat) :
    c.receive caller recv = .ok { c with
      stage := .gathering otherID numfilepcks (UInt64.ofNat (count + 1))
        (fhandle.gathered (count + 1)) } := by
  have hnext : UInt64.ofNat count + 1 = UInt64.ofNat (count + 1) := by simp
  have hwithin : UInt64.ofNat (count + 1) ≤ numfilepcks := by
    have hlt := numfilepcks.toNat_lt
    rw [UInt64.le_iff_toNat_le, UInt64.toNat_ofNat', Nat.mod_eq_of_lt (by omega)]
    exact hcount
  rw [Client.receive, hstage]
  simp only [FileHandle.gatherPacket_gathered hpasses harrives, ok_bind, hnext, if_pos hwithin]
  rfl

/-- The last packet, with none missing. -/
theorem Client.receive_last (caller : Caller) {count : Nat}
    (hstage : c.stage = .gathering otherID numfilepcks (UInt64.ofNat count)
      (fhandle.gathered count))
    (hpasses : Passes recv)
    (harrives : Arrives recv (fhandle.returned Client.maxSize.toNat (count + 1)))
    (hcount : count = numfilepcks.toNat) (hlast : count + 1 < 2 ^ 64) :
    ∃ m, c.receive caller recv = .ok { c with
        stage := .ceasing
        files := c.files ++ [(fhandle.gathered (count + 1)).file]
        sent := c.sent ++ [m] } ∧
      Control c.selfID otherID .fin 0 [] m := by
  obtain ⟨m, hsend, hcontrol⟩ := Client.send_eq caller
    { c with
      stage := .ceasing
      files := c.files ++ [(fhandle.gathered (count + 1)).file] } otherID .fin 0
    (show ([] : Bytes).length < 65536 by decide)
  have hover : ¬ UInt64.ofNat count + 1 ≤ numfilepcks := by
    subst hcount
    rw [UInt64.ofNat_toNat, UInt64.le_iff_toNat_le, toNat_add_one hlast]
    exact Nat.not_succ_le_self _
  refine ⟨m, ?_, hcontrol⟩
  rw [Client.receive, hstage]
  simp only [FileHandle.gatherPacket_gathered hpasses harrives, ok_bind, if_neg hover]
  exact hsend

/-- The answer behind a download. -/
theorem Client.receive_fin (caller : Caller) (hstage : c.stage = .ceasing)
    (hverified : verifyMsg recv = .ok true) :
    c.receive caller recv = { c with cycle := c.cycle + 1 }.begin caller := by
  rw [Client.receive, hstage, hverified]
  rfl

/-- How the client goes on when nothing is damaged. -/
inductive Client.Advances (caller : Caller) (c c' : Client) : Prop
  | established (hstage : c.stage = .establishing) {otherID : UInt64} {g : Gather}
      (hstage' : c'.stage = .gathering otherID (caller.stale c.cycle) 0 g)
      (hcycle : c'.cycle = c.cycle)
  | packet {otherID numfilepcks : UInt64} {g g' : Gather} {count : Nat}
      (hstage : c.stage = .gathering otherID numfilepcks (UInt64.ofNat count) g)
      (hstage' : c'.stage = .gathering otherID numfilepcks (UInt64.ofNat (count + 1)) g')
      (hcount : count < numfilepcks.toNat) (hsent : c'.sent = c.sent) (hcycle : c'.cycle = c.cycle)
  | gathered {otherID numfilepcks numpcks : UInt64} {g : Gather}
      (hstage : c.stage = .gathering otherID numfilepcks numpcks g) (hstage' : c'.stage = .ceasing)
      (hcycle : c'.cycle = c.cycle)
  | ceased (hstage : c.stage = .ceasing) (hstage' : c'.stage ≠ .ceasing)
      (hcycle : c'.cycle = c.cycle + 1)

end Client

/-! ## In step -/

/-- A channel whose thread waits to be readied. -/
structure Worker.Waits (w : Worker) : Prop where
  place : w.thread.place = .waiting
  ready : w.chan.ready = false
  kill : w.chan.kill = false
  sent : w.thread.sent = []

/-- How far the client and the server are in a download, with what is on its way to each and
what the server has of the client. -/
inductive InStep (caller : Caller) (sock : Nat) (fhandle : FileHandle) (c : Client)
    (pending unread : List Msg) (entries : Table) : Prop
  | asked (ask : Msg) (hstage : c.stage = .establishing)
      (hselfID : c.selfID = caller.selfID c.cycle)
      (hask : Control c.selfID 0 .syn Client.maxSize caller.file ask)
      (hpending : pending = [ask]) (hunread : unread = []) (hentries : entries = [⟨sock, []⟩])
  | opened (w : Worker) (ack : Msg) (hstage : c.stage = .establishing)
      (hserves : Serves fhandle Client.maxSize w) (hwaits : w.Waits)
      (hverified : verifyMsg ack = .ok true) (hsendID : ack.head.sendID = w.chan.selfID)
      (hchanID : w.chan.selfID ≠ 0)
      (hpending : pending = []) (hunread : unread = [ack]) (hentries : entries = [⟨sock, [w]⟩])
  | gathering (w : Worker) (count : Nat)
      (hstage : c.stage = .gathering w.chan.selfID (caller.stale c.cycle) (UInt64.ofNat count)
        (fhandle.gathered count))
      (hcount : count ≤ fhandle.segments Client.maxSize.toNat)
      (hread : count ≤ w.thread.sent.length)
      (hserves : Serves fhandle Client.maxSize w) (hchanID : w.chan.selfID ≠ 0)
      (hready : (∃ ready, pending = [ready] ∧ w.Waits ∧
          Control c.selfID w.chan.selfID .syn Client.maxSize caller.file ready) ∨
        pending = [] ∧ w.chan.ready = true ∧ w.chan.kill = false)
      (hunread : unread = (w.thread.sent.map Sent.msg).drop count)
      (hentries : entries = [⟨sock, [w]⟩])
  | ceasing (w : Worker) (fin : Msg) (hstage : c.stage = .ceasing)
      (hserves : Serves fhandle Client.maxSize w) (hchanID : w.chan.selfID ≠ 0)
      (hfull : w.thread.sent.length = fhandle.segments Client.maxSize.toNat + 1)
      (hfin : Control c.selfID w.chan.selfID .fin 0 [] fin)
      (hpending : pending = [fin]) (hunread : unread = []) (hentries : entries = [⟨sock, [w]⟩])
  | ceased (fin : Msg) (hstage : c.stage = .ceasing) (hverified : verifyMsg fin = .ok true)
      (hpending : pending = []) (hunread : unread = [fin]) (hentries : entries = [⟨sock, []⟩])
  | closing (close : Msg) (hstage : c.stage = .closed) (hclose : Control 0 0 .fin 0 [] close)
      (hpending : pending = [close]) (hunread : unread = []) (hentries : entries = [⟨sock, []⟩])
  | closed (hstage : c.stage = .closed)
      (hpending : pending = []) (hunread : unread = []) (hentries : entries = [])

/-- What holds between any two events. -/
structure Session.Sound (handles : List FileHandle) (caller : Caller) (sock : Nat)
    (fhandle : FileHandle) (s : Session) : Prop where
  reached : s.wired.server.Reached handles
  delivered : s.delivered ≤ s.client.sent.length
  read : s.read ≤ (s.wired.log.on sock).length
  files : ∀ file ∈ s.client.files,
    file = (fhandle.gathered (fhandle.segments Client.maxSize.toNat + 1)).file
  downloads : s.client.files.length =
    s.client.cycle + if s.client.stage = .ceasing then 1 else 0
  asksOnce : ∀ m ∈ s.client.sent, m.isControl .rts = false
  inStep : InStep caller sock fhandle s.client s.pending (s.unread sock) (s.entries sock)

theorem drop_succ_of_cons {α : Type} {l rest : List α} {a : α} {n : Nat}
    (hdrop : l.drop n = a :: rest) : l[n]? = some a ∧ l.drop (n + 1) = rest ∧ n + 1 ≤ l.length := by
  have hlt : n < l.length := by
    rw [← not_le, ← List.drop_eq_nil_iff, hdrop]
    exact List.cons_ne_nil a rest
  rw [List.drop_eq_getElem_cons hlt, List.cons.injEq] at hdrop
  exact ⟨List.getElem?_eq_some_iff.mpr ⟨hlt, hdrop.1⟩, hdrop.2, hlt⟩

section Sound

variable {spare : Nat → Nat} {handles : List FileHandle} {drawn : Nat → UInt32} {caller : Caller}
  {sock : Nat} {fhandle : FileHandle} {s : Session} {m : Msg} {rest : List Msg}

theorem Control.asksOnce {sendID recvID segmentNum : UInt64} {dataType : DataType}
    {content : Bytes} (hcontrol : Control sendID recvID dataType segmentNum content m)
    (hrts : dataType ≠ .rts) {sent : List Msg}
    (hsent : ∀ before ∈ sent, before.isControl .rts = false) :
    ∀ other ∈ sent ++ [m], other.isControl .rts = false := by
  refine List.forall_mem_append.mpr ⟨hsent, List.forall_mem_singleton.mpr ?_⟩
  rw [hcontrol.isControl, decide_eq_false hrts]

/-- The client takes in what is next on its socket. -/
theorem Session.Sound.receive (hfits : caller.Fits handles fhandle)
    (hsound : s.Sound handles caller sock fhandle) (hunread : s.unread sock = m :: rest) :
    ∃ client, s.client.receive caller m = .ok client ∧ s.client.Advances caller client ∧
      Session.Sound handles caller sock fhandle { s with client, read := s.read + 1 } := by
  obtain ⟨hreached, hdelivered, hread, hfiles, hdownloads, hasks, hstep⟩ := hsound
  obtain ⟨-, hrest, hread'⟩ := drop_succ_of_cons hunread
  have hstale := hfits.stale s.client.cycle
  have hpos := hfits.stale_ne_zero s.client.cycle
  -- What the client sends now stands behind what is on its way.
  have hsends : ∀ new : List Msg,
      (s.client.sent ++ new).drop s.delivered = s.pending ++ new :=
    fun new => List.drop_append_of_le_length hdelivered
  have hsent : ∀ new : Msg, s.delivered ≤ (s.client.sent ++ [new]).length := by
    intro new
    rw [List.length_append]
    exact Nat.le_add_right_of_le hdelivered
  cases hstep with
  | asked ask hstage hselfID hask hpending hnothing hentries =>
      rw [hunread] at hnothing
      cases hnothing
  | opened w ack hstage hserves hwaits hverified hsendID hchanID hpending hack hentries =>
      rw [hunread, List.cons.injEq] at hack
      obtain ⟨rfl, rfl⟩ := hack
      obtain ⟨ready, hreceive, hcontrol⟩ := Client.receive_ack hstage hfits.short hverified
        (hsendID ▸ hchanID) hpos
      rw [hsendID] at hreceive hcontrol
      refine ⟨_, hreceive, .established hstage rfl rfl, hreached, hsent ready, hread', hfiles, ?_,
        hcontrol.asksOnce (by decide) hasks, ?_⟩
      · rw [hstage] at hdownloads
        exact hdownloads
      · refine .gathering w 0 rfl (Nat.zero_le _) (Nat.zero_le _) hserves hchanID
          (.inl ⟨ready, ?_, hwaits, hcontrol⟩) ?_ hentries
        · exact (hsends [ready]).trans (by rw [hpending]; rfl)
        · rw [hwaits.sent]
          exact hrest
  | gathering w count hstage hcount hread hserves hchanID hready hpackets hentries =>
      rw [hunread] at hpackets
      obtain ⟨hpck, hlater, hlong⟩ := drop_succ_of_cons hpackets.symm
      rw [List.getElem?_map, Option.map_eq_some_iff] at hpck
      obtain ⟨packet, hpacket, rfl⟩ := hpck
      obtain ⟨hpasses, harrives⟩ := hserves.carries (by decide) hpacket
      rw [List.length_map] at hlong
      -- A thread that waits has sent nothing yet.
      obtain ⟨hpending, hactive⟩ := hready.resolve_left (by
        rintro ⟨ready, -, hwaits, -⟩
        rw [hwaits.sent] at hlong
        exact Nat.not_succ_le_zero _ hlong)
      rcases hcount.lt_or_eq with hmore | rfl
      · have hreceive := Client.receive_packet caller hstage hpasses harrives
          (hstale ▸ hmore)
        refine ⟨_, hreceive, .packet hstage rfl (hstale ▸ hmore) rfl rfl, hreached, hdelivered,
          hread', hfiles, ?_, hasks, ?_⟩
        · rw [hstage] at hdownloads
          exact hdownloads
        · exact .gathering w (count + 1) rfl hmore hlong hserves hchanID
            (.inr ⟨hpending, hactive⟩) (hrest.trans hlater.symm) hentries
      · have hlt := fhandle.segments_lt (show 0 < Client.maxSize.toNat by decide)
        obtain ⟨fin, hreceive, hcontrol⟩ := Client.receive_last caller hstage hpasses
          harrives hstale.symm (by omega)
        refine ⟨_, hreceive, .gathered hstage rfl rfl, hreached, hsent fin, hread', ?_, ?_,
          hcontrol.asksOnce (by decide) hasks, ?_⟩
        · exact List.forall_mem_append.mpr ⟨hfiles, List.forall_mem_singleton.mpr rfl⟩
        · rw [hstage] at hdownloads
          rw [List.length_append, hdownloads]
          rfl
        · have hfull := Nat.le_antisymm hserves.length_le hlong
          refine .ceasing w fin rfl hserves hchanID hfull hcontrol ?_ ?_ hentries
          · exact (hsends [fin]).trans (by rw [hpending]; rfl)
          · refine hrest.trans (hlater.symm.trans ?_)
            rw [List.drop_eq_nil_iff, List.length_map, hfull]
  | ceasing w fin hstage hserves hchanID hfull hfin hpending hnothing hentries =>
      rw [hunread] at hnothing
      cases hnothing
  | ceased fin hstage hverified hpending hfin hentries =>
      rw [hunread, List.cons.injEq] at hfin
      obtain ⟨rfl, rfl⟩ := hfin
      rw [hstage] at hdownloads
      have hreceive := Client.receive_fin caller hstage hverified
      obtain ⟨next, ⟨hbegin, hcontrol⟩ | ⟨hbegin, hcontrol⟩⟩ :=
        Client.begin_eq hfits.short { s.client with cycle := s.client.cycle + 1 }
      · refine ⟨_, hreceive.trans hbegin, .ceased hstage Stage.noConfusion rfl, hreached,
          hsent next, hread', hfiles, hdownloads, hcontrol.asksOnce (by decide) hasks, ?_⟩
        refine .asked next rfl rfl hcontrol ?_ hrest hentries
        exact (hsends [next]).trans (by rw [hpending]; rfl)
      · refine ⟨_, hreceive.trans hbegin, .ceased hstage Stage.noConfusion rfl, hreached,
          hsent next, hread', hfiles, hdownloads, hcontrol.asksOnce (by decide) hasks, ?_⟩
        refine .closing next rfl hcontrol ?_ hrest hentries
        exact (hsends [next]).trans (by rw [hpending]; rfl)
  | closing close hstage hclose hpending hnothing hentries =>
      rw [hunread] at hnothing
      cases hnothing
  | closed hstage hpending hnothing hentries =>
      rw [hunread] at hnothing
      cases hnothing

theorem Worker.Waits.step {w next : Worker} (hwaits : w.Waits) {msgID : UInt32}
    (hstep : w.step msgID = .ok next) : next = w := by
  simp only [Worker.step, hwaits.place, hwaits.ready, hwaits.kill, Bool.not_false, Bool.and_self,
    if_true] at hstep
  exact (Except.ok.inj hstep).symm

/-- What the server has of the client. -/
theorem InStep.entries_eq {c : Client} {pending unread : List Msg} {entries : Table}
    (hstep : InStep caller sock fhandle c pending unread entries) :
    entries = [] ∨ ∃ ws : List Worker, entries = [⟨sock, ws⟩] ∧ ws.length ≤ 1 := by
  cases hstep with
  | asked | ceased | closing => exact .inr ⟨[], ‹_›, Nat.zero_le 1⟩
  | opened w | gathering w | ceasing w => exact .inr ⟨[w], ‹_›, Nat.le_refl 1⟩
  | closed => exact .inl ‹_›

/-- The thread of the client's channel does a step. -/
theorem InStep.step {c : Client} {pending unread : List Msg} {w next : Worker} {msgID : UInt32}
    (hinStep : InStep caller sock fhandle c pending unread [⟨sock, [w]⟩])
    (hstep : w.step msgID = .ok next) :
    InStep caller sock fhandle c pending
      (unread ++ (next.thread.sent.drop w.thread.sent.length).map Sent.msg) [⟨sock, [next]⟩] := by
  have hnothing : next.thread.sent = w.thread.sent →
      unread ++ (next.thread.sent.drop w.thread.sent.length).map Sent.msg = unread := by
    intro hsame
    rw [hsame, List.drop_length, List.map_nil, List.append_nil]
  cases hinStep with
  | asked ask hstage hselfID hask hpending hunread hentries => cases hentries
  | opened v ack hstage hserves hwaits hverified hsendID hchanID hpending hunread hentries =>
      cases hentries
      obtain rfl := hwaits.step hstep
      exact .opened next ack hstage hserves hwaits hverified hsendID hchanID hpending
        ((hnothing rfl).trans hunread) rfl
  | gathering v count hstage hcount hread hserves hchanID hready hunread hentries =>
      cases hentries
      obtain ⟨hserves', hchan⟩ := hserves.step hstep
      obtain ⟨new, hsent⟩ : ∃ new, next.thread.sent = w.thread.sent ++ new := by
        rcases Worker.step_sent hstep with hsame | ⟨packet, num, hmore, -⟩
        · exact ⟨[], by rw [hsame, List.append_nil]⟩
        · exact ⟨[packet], hmore⟩
      refine .gathering next count (by rw [hchan]; exact hstage) hcount ?_ hserves'
        (by rwa [hchan]) ?_ ?_ rfl
      · rw [hsent, List.length_append]
        exact Nat.le_add_right_of_le hread
      · rcases hready with ⟨ready, hpending, hwaits, hcontrol⟩ | hactive
        · obtain rfl := hwaits.step hstep
          exact .inl ⟨ready, hpending, hwaits, hcontrol⟩
        · rw [hchan]
          exact .inr hactive
      · rw [hunread, hsent, List.drop_left, List.map_append,
          List.drop_append_of_le_length (by rwa [List.length_map])]
  | ceasing v fin hstage hserves hchanID hfull hfin hpending hunread hentries =>
      cases hentries
      obtain ⟨hserves', hchan⟩ := hserves.step hstep
      have hsent := hserves.step_full hfull hstep
      refine .ceasing next fin hstage hserves' (by rwa [hchan]) (by rwa [hsent])
        (by rwa [hchan]) hpending ((hnothing hsent).trans hunread) rfl
  | ceased fin hstage hverified hpending hunread hentries => cases hentries
  | closing close hstage hclose hpending hunread hentries => cases hentries
  | closed hstage hpending hunread hentries => cases hentries

/-- Something happens on the server while nothing comes in from the client. -/
theorem Session.Sound.server (hsound : s.Sound handles caller sock fhandle) {e : ServerEvent}
    (hquiet : e.Quiet sock s.wired.server.table) {wired : Wired}
    (hevent : Wired.event spare handles drawn e s.wired = .ok wired) :
    Session.Sound handles caller sock fhandle { s with wired } := by
  obtain ⟨hreached, hdelivered, hread, hfiles, hdownloads, hasks, hstep⟩ := hsound
  have hreached' := hreached.event (wired_server hevent).1
  have hsame : wired.server.table.of sock = s.wired.server.table.of sock ∧
      wired.log.on sock = s.wired.log.on sock →
      Session.Sound handles caller sock fhandle { s with wired } := by
    rintro ⟨htable, hlog⟩
    refine ⟨hreached', hdelivered, hlog ▸ hread, hfiles, hdownloads, hasks, ?_⟩
    rw [Session.entries, Session.unread] at hstep ⊢
    rwa [htable, hlog]
  rcases hstep.entries_eq with hnone | ⟨ws, honly, hfew⟩
  · exact hsame (wired_quiet_gone hreached hnone hquiet hevent)
  rcases wired_quiet hreached honly hquiet hevent with hnothing | ⟨j, msgID, w, next, hw, hnext⟩
  · exact hsame hnothing
  · obtain ⟨hstepped, htable, hlog⟩ := hnext
    -- There is only the one channel.
    obtain ⟨rfl, rfl⟩ : j = 0 ∧ ws = [w] := by
      cases ws with
      | nil => cases hw
      | cons first ws =>
          obtain rfl : ws = [] :=
            List.length_eq_zero_iff.mp (Nat.le_zero.mp (Nat.le_of_succ_le_succ hfew))
          cases j with
          | zero => exact ⟨rfl, congrArg (· :: []) (Option.some.inj hw)⟩
          | succ j => cases hw
    rw [honly] at hstep
    refine ⟨hreached', hdelivered, ?_, hfiles, hdownloads, hasks, ?_⟩
    · rw [hlog, List.length_append]
      exact Nat.le_add_right_of_le hread
    · rw [Session.entries, Session.unread, htable, hlog,
        List.drop_append_of_le_length hread]
      exact hstep.step hstepped

/-- The server receives what the client sent first. -/
theorem Session.Sound.deliver (hfits : caller.Fits handles fhandle)
    (hsound : s.Sound handles caller sock fhandle) (hpending : s.pending = m :: rest)
    {i : Nat} {entry : TableEntry} (hentry : s.wired.server.table[i]? = some entry)
    (hsock : entry.sock = sock) (hroom : s.client.stage = .establishing →
      s.wired.server.table.channels < maxChannels.toNat) {draw : Draw} {wired : Wired}
    (hevent : Wired.event spare handles drawn (.receive i (some m) draw) s.wired = .ok wired) :
    Session.Sound handles caller sock fhandle
      { s with wired, delivered := s.delivered + 1 } := by
  obtain ⟨hreached, -, hread, hfiles, hdownloads, hasks, hstep⟩ := hsound
  obtain ⟨-, hrest, hdelivered⟩ := drop_succ_of_cons hpending
  have hreached' := hreached.event (wired_server hevent).1
  -- What the server writes now stands behind what is on its way.
  have hwrites : ∀ new, wired.log.on sock = s.wired.log.on sock ++ new →
      InStep caller sock fhandle s.client rest (s.unread sock ++ new)
        (wired.server.table.of sock) →
      Session.Sound handles caller sock fhandle
        { s with wired, delivered := s.delivered + 1 } := by
    intro new hlog hinStep
    refine ⟨hreached', hdelivered, ?_, hfiles, hdownloads, hasks, ?_⟩
    · rw [hlog, List.length_append]
      exact Nat.le_add_right_of_le hread
    · rw [Session.pending, Session.unread, Session.entries, hrest, hlog,
        List.drop_append_of_le_length hread]
      exact hinStep
  cases hstep with
  | asked ask hstage hselfID hask hask' hunread hentries =>
      rw [hpending, List.cons.injEq] at hask'
      obtain ⟨rfl, rfl⟩ := hask'
      obtain ⟨ack, chanID, hchanID, hverified, hsendID, hlog, htable⟩ := wired_ask hreached
        hentries hentry hsock hask (hselfID ▸ hfits.selfID _) hfits.file (hroom hstage) hevent
      exact hwrites [ack] hlog (.opened _ ack hstage
        (serves_start sock chanID s.client.selfID fhandle (by decide)) ⟨rfl, rfl, rfl, rfl⟩
        hverified hsendID hchanID rfl (by rw [hunread]; rfl) htable)
  | opened w ack hstage hserves hwaits hverified hsendID hchanID hnothing =>
      rw [hpending] at hnothing
      cases hnothing
  | gathering w count hstage hcount hcounted hserves hchanID hready hunread hentries =>
      obtain ⟨ready, hready, hwaits, hcontrol⟩ := hready.resolve_right (by
        rintro ⟨hnothing, -⟩
        rw [hpending] at hnothing
        cases hnothing)
      rw [hpending, List.cons.injEq] at hready
      obtain ⟨rfl, rfl⟩ := hready
      obtain ⟨htable, hlog⟩ := wired_ready hreached hentries hentry hsock hcontrol hchanID hevent
      refine hwrites [] (by rw [hlog, List.append_nil]) (.gathering w.setReady count hstage hcount
        hcounted hserves.setReady hchanID (.inr ⟨rfl, rfl, hwaits.kill⟩) ?_ htable)
      rw [List.append_nil]
      exact hunread
  | ceasing w fin hstage hserves hchanID hfull hfin hfin' hunread hentries =>
      rw [hpending, List.cons.injEq] at hfin'
      obtain ⟨rfl, rfl⟩ := hfin'
      obtain ⟨fin, hverified, hlog, htable⟩ := wired_finish hreached hentries hentry hsock hfin
        hchanID hserves hfull hevent
      exact hwrites [fin] hlog (.ceased fin hstage hverified rfl (by rw [hunread]; rfl) htable)
  | ceased fin hstage hverified hnothing =>
      rw [hpending] at hnothing
      cases hnothing
  | closing close hstage hclose hclose' hunread hentries =>
      rw [hpending, List.cons.injEq] at hclose'
      obtain ⟨rfl, rfl⟩ := hclose'
      obtain ⟨htable, hlog⟩ := wired_close hreached hentries hentry hsock hclose hevent
      exact hwrites [] (by rw [hlog, List.append_nil])
        (.closed hstage rfl (by rw [hunread]; rfl) htable)
  | closed hstage hnothing =>
      rw [hpending] at hnothing
      cases hnothing

theorem Session.Sound.event (hfits : caller.Fits handles fhandle)
    (hsound : s.Sound handles caller sock fhandle) {e : SessionEvent} (hproper : s.Proper sock e)
    {s' : Session} (hevent : Session.event spare handles drawn caller sock e s = .ok s') :
    s'.Sound handles caller sock fhandle := by
  cases e with
  | server e =>
      obtain ⟨wired, hwired, hevent⟩ := run_bind_eq_ok.mp hevent
      cases hevent
      exact hsound.server hproper hwired
  | deliver i draw =>
      obtain ⟨⟨entry, hentry, hsock⟩, hroom⟩ := hproper
      simp only [Session.event] at hevent
      cases hpending : s.pending with
      | nil =>
          rw [hpending] at hevent
          cases hevent
          exact hsound
      | cons m rest =>
          rw [hpending] at hevent
          obtain ⟨wired, hwired, hevent⟩ := run_bind_eq_ok.mp hevent
          cases hevent
          exact hsound.deliver hfits hpending hentry hsock hroom hwired
  | read =>
      simp only [Session.event] at hevent
      cases hunread : s.unread sock with
      | nil =>
          rw [hunread] at hevent
          cases hevent
          exact hsound
      | cons m rest =>
          rw [hunread] at hevent
          obtain ⟨client, hreceive, -, hsound'⟩ := hsound.receive hfits hunread
          simp only [hreceive, checked_ok, run_bind] at hevent
          cases hevent
          exact hsound'

end Sound

/-! ## Going on -/

/-- What the threads of the client's channels have before them. -/
def Session.threads (sock count : Nat) (s : Session) : Nat :=
  (((s.entries sock).flatMap TableEntry.chans).map (Worker.left count)).sum

/-- How much there is to do until the cycle is over. -/
def Session.left (sock count : Nat) (s : Session) : Nat :=
  match s.client.stage with
  | .establishing => 10 * count + 20 + s.pending.length
  | .gathering _ numfilepcks numpcks _ => 3 + (numfilepcks.toNat + 1 - numpcks.toNat) +
      s.pending.length * (4 * count + 4) + s.threads sock count
  | .ceasing => s.pending.length
  | .repairing _ _ _ => 0
  | .closed => 0

theorem Worker.left_le (count : Nat) (w : Worker) : w.left count ≤ 4 * count + 3 := by
  have hturn : w.thread.place.turn ≤ 3 := by cases w.thread.place <;> decide
  rw [Worker.left]
  omega

/-- There is room for the client where it has still to be let in. -/
def Session.Room (s : Session) : Prop :=
  s.client.stage = .establishing → s.pending ≠ [] →
    s.wired.server.table.channels < maxChannels.toNat

/-- The client has begun this cycle and is not through with it. -/
structure Session.During (handles : List FileHandle) (caller : Caller) (sock : Nat)
    (fhandle : FileHandle) (cycle : Nat) (s : Session) : Prop where
  sound : s.Sound handles caller sock fhandle
  cycle : s.client.cycle = cycle
  running : s.client.stage ≠ .closed
  room : s.Room

/-- The client has just ended this cycle. -/
structure Session.Through (handles : List FileHandle) (caller : Caller) (sock : Nat)
    (fhandle : FileHandle) (cycle : Nat) (s : Session) : Prop where
  sound : s.Sound handles caller sock fhandle
  files : s.client.files.length = cycle + 1
  cycle : s.client.cycle = cycle + 1

section Progress

variable {handles : List FileHandle} {caller : Caller} {sock : Nat} {fhandle : FileHandle}
  {s : Session} {cycle : Nat}

theorem InStep.pending_le {c : Client} {pending unread : List Msg} {entries : Table}
    (hstep : InStep caller sock fhandle c pending unread entries) : pending.length ≤ 1 := by
  cases hstep with
  | asked | ceasing | closing =>
      subst pending
      exact Nat.le_refl 1
  | opened | ceased | closed =>
      subst pending
      exact Nat.zero_le 1
  | gathering w count hstage hcount hread hserves hchanID hready =>
      rcases hready with ⟨ready, rfl, -⟩ | ⟨rfl, -⟩
      · exact Nat.le_refl 1
      · exact Nat.zero_le 1

theorem InStep.ne_repairing {c : Client} {pending unread : List Msg} {entries : Table}
    (hstep : InStep caller sock fhandle c pending unread entries) (otherID numfilepcks : UInt64)
    (g : Gather) : c.stage ≠ .repairing otherID numfilepcks g := by
  cases hstep with
  | _ => simp [*]

theorem Session.Sound.threads_le (hsound : s.Sound handles caller sock fhandle) (count : Nat) :
    s.threads sock count ≤ 4 * count + 3 := by
  rw [Session.threads]
  rcases hsound.inStep.entries_eq with hnone | ⟨ws, honly, hfew⟩
  · simp [hnone]
  · rw [honly, List.flatMap_singleton]
    cases ws with
    | nil => simp
    | cons w ws =>
        obtain rfl : ws = [] :=
          List.length_eq_zero_iff.mp (Nat.le_zero.mp (Nat.le_of_succ_le_succ hfew))
        simpa using w.left_le count

theorem exists_entry {t : Table} {only : TableEntry} (honly : t.of sock = [only]) :
    ∃ i : Nat, t[i]? = some only ∧ only.sock = sock := by
  have hmem : only ∈ t.of sock := honly ▸ List.mem_singleton_self only
  obtain ⟨hmem, hsock⟩ := List.mem_filter.mp hmem
  obtain ⟨i, hi, rfl⟩ := List.getElem_of_mem hmem
  exact ⟨i, List.getElem?_eq_getElem hi, of_decide_eq_true hsock⟩

/-- The server can receive what the client sent first. -/
theorem Session.Sound.deliver_isOk (hsound : s.Sound handles caller sock fhandle) {m : Msg}
    {rest : List Msg} (hpending : s.pending = m :: rest) (spare : Nat → Nat) (drawn : Nat → UInt32)
    (draw : Draw) : ∃ i entry wired, s.wired.server.table[i]? = some entry ∧ entry.sock = sock ∧
      Wired.event spare handles drawn (.receive i (some m) draw) s.wired = .ok wired := by
  have hreached := hsound.reached
  have hmessage : ∃ only, s.entries sock = [only] ∧ m.Stored ∧
      (m.request = .ask → m.head.segmentNum ≠ 0 ∧ only.chans = []) ∧
      ∀ w ∈ only.chans, ¬ w.EndsDrained := by
    cases hsound.inStep with
    | asked ask hstage hselfID hask hask' hunread hentries =>
        obtain ⟨rfl, -⟩ := List.cons.inj (hpending.symm.trans hask')
        refine ⟨_, hentries, hask.stored, fun _ => ⟨?_, rfl⟩, List.forall_mem_nil _⟩
        rw [hask.segmentNum]
        decide
    | opened w ack hstage hserves hwaits hverified hsendID hchanID hnothing =>
        exact absurd (hpending.symm.trans hnothing) (List.cons_ne_nil m rest)
    | gathering w count hstage hcount hread hserves hchanID hready hunread hentries =>
        rcases hready with ⟨ready, hready, -, hcontrol⟩ | ⟨hnothing, -⟩
        · obtain ⟨rfl, -⟩ := List.cons.inj (hpending.symm.trans hready)
          refine ⟨_, hentries, hcontrol.stored, fun hask => ?_,
            List.forall_mem_singleton.mpr hserves.not_endsDrained⟩
          rw [hcontrol.request_ready hchanID] at hask
          cases hask
        · exact absurd (hpending.symm.trans hnothing) (List.cons_ne_nil m rest)
    | ceasing w fin hstage hserves hchanID hfull hfin hfin' hunread hentries =>
        obtain ⟨rfl, -⟩ := List.cons.inj (hpending.symm.trans hfin')
        refine ⟨_, hentries, hfin.stored, fun hask => ?_,
          List.forall_mem_singleton.mpr hserves.not_endsDrained⟩
        rw [hfin.request_finish hchanID] at hask
        cases hask
    | ceased fin hstage hverified hnothing =>
        exact absurd (hpending.symm.trans hnothing) (List.cons_ne_nil m rest)
    | closing close hstage hclose hclose' hunread hentries =>
        obtain ⟨rfl, -⟩ := List.cons.inj (hpending.symm.trans hclose')
        refine ⟨_, hentries, hclose.stored, fun hask => ?_, List.forall_mem_nil _⟩
        rw [hclose.request_close] at hask
        cases hask
    | closed hstage hnothing =>
        exact absurd (hpending.symm.trans hnothing) (List.cons_ne_nil m rest)
  obtain ⟨only, hentries, hstored, hasks, hends⟩ := hmessage
  obtain ⟨i, hentry, hsock⟩ := exists_entry hentries
  obtain ⟨wired, hevent⟩ := hreached.receive_isOk hstored hentry hasks hends spare drawn draw
  exact ⟨i, only, wired, hentry, hsock, hevent⟩

/-- What the client has sent comes in. -/
theorem Session.During.deliver (hfits : caller.Fits handles fhandle)
    (hduring : s.During handles caller sock fhandle cycle) (hpending : s.pending ≠ [])
    (spare : Nat → Nat) (drawn : Nat → UInt32) (count : Nat) :
    ∃ e s', s.Proper sock e ∧ Session.event spare handles drawn caller sock e s = .ok s' ∧
      s'.During handles caller sock fhandle cycle ∧ s'.left sock count < s.left sock count := by
  obtain ⟨hsound, hcycle, hrunning, hroom⟩ := hduring
  obtain ⟨m, rest, hpending'⟩ := List.exists_cons_of_ne_nil hpending
  obtain ⟨i, entry, wired, hentry, hsock, hevent⟩ :=
    hsound.deliver_isOk hpending' spare drawn ⟨0, 0⟩
  have hlet := fun hstage => hroom hstage hpending
  have hsound' := hsound.deliver hfits hpending' hentry hsock hlet hevent
  have hrest : Session.pending { s with wired, delivered := s.delivered + 1 } = [] := by
    have hfew := hsound.inStep.pending_le
    rw [hpending', List.length_cons] at hfew
    exact (drop_succ_of_cons hpending').2.1.trans (List.length_eq_zero_iff.mp (by omega))
  refine ⟨.deliver i ⟨0, 0⟩, { s with wired, delivered := s.delivered + 1 },
    ⟨⟨entry, hentry, hsock⟩, hlet⟩, ?_, ⟨hsound', hcycle, hrunning, ?_⟩, ?_⟩
  · rw [Session.event, hpending']
    simp only [hevent, run_bind]
    rfl
  · exact fun _ hnone => absurd hrest hnone
  · have hthreads := hsound'.threads_le count
    have hone := List.length_pos_iff.mpr hpending
    simp only [Session.left, hrest]
    cases hstage : s.client.stage with
    | establishing | ceasing =>
        simp only [List.length_nil]
        omega
    | gathering otherID numfilepcks numpcks g =>
        have hweight := Nat.mul_le_mul_right (4 * count + 4) hone
        simp only [List.length_nil]
        omega
    | repairing otherID numfilepcks g =>
        exact absurd hstage (hsound.inStep.ne_repairing otherID numfilepcks g)
    | closed => exact absurd hstage hrunning

/-- The client takes in what stands on its socket. -/
theorem Session.During.receive (hfits : caller.Fits handles fhandle)
    (hduring : s.During handles caller sock fhandle cycle) (hunread : s.unread sock ≠ [])
    (spare : Nat → Nat) (drawn : Nat → UInt32) :
    ∃ e s', s.Proper sock e ∧ Session.event spare handles drawn caller sock e s = .ok s' ∧
      (s'.Through handles caller sock fhandle cycle ∨
        s'.During handles caller sock fhandle cycle ∧
          s'.left sock (fhandle.segments Client.maxSize.toNat + 1) <
            s.left sock (fhandle.segments Client.maxSize.toNat + 1)) := by
  obtain ⟨hsound, hcycle, hrunning, hroom⟩ := hduring
  obtain ⟨m, rest, hunread'⟩ := List.exists_cons_of_ne_nil hunread
  obtain ⟨client, hreceive, hadvances, hsound'⟩ := hsound.receive hfits hunread'
  refine ⟨.read, { s with client, read := s.read + 1 }, trivial, ?_, ?_⟩
  · rw [Session.event, hunread']
    simp only [hreceive, checked_ok, run_bind]
    rfl
  have hduring' : client.cycle = s.client.cycle → client.stage ≠ .establishing →
      client.stage ≠ .closed → Session.During handles caller sock fhandle cycle
        { s with client, read := s.read + 1 } := fun hsame hlet hrunning' =>
    ⟨hsound', hsame.trans hcycle, hrunning', fun h => absurd h hlet⟩
  have hthreads := hsound'.threads_le (fhandle.segments Client.maxSize.toNat + 1)
  have hfew := hsound'.inStep.pending_le
  cases hadvances with
  | established hstage hstage' hsame =>
      refine .inr ⟨hduring' hsame (by simp [hstage']) (by simp [hstage']), ?_⟩
      have hweight :=
        Nat.mul_le_mul_right (4 * (fhandle.segments Client.maxSize.toNat + 1) + 4) hfew
      simp only [Session.left, hstage, hstage', hfits.stale]
      omega
  | packet hstage hstage' hcount hsent hsame =>
      refine .inr ⟨hduring' hsame (by simp [hstage']) (by simp [hstage']), ?_⟩
      rename_i otherID numfilepcks g g' count
      have hlt := numfilepcks.toNat_lt
      have hnow : (UInt64.ofNat count).toNat = count := by
        rw [UInt64.toNat_ofNat', Nat.mod_eq_of_lt (by omega)]
      have hthen : (UInt64.ofNat (count + 1)).toNat = count + 1 := by
        rw [UInt64.toNat_ofNat', Nat.mod_eq_of_lt (by omega)]
      simp only [Session.left, Session.pending, Session.threads, Session.entries, hstage, hstage',
        hsent, hnow, hthen]
      omega
  | gathered hstage hstage' hsame =>
      refine .inr ⟨hduring' hsame (by simp [hstage']) (by simp [hstage']), ?_⟩
      simp only [Session.left, hstage, hstage']
      omega
  | ceased hstage hstage' hnext =>
      have hcycle' := hnext.trans (congrArg (· + 1) hcycle)
      refine .inl ⟨hsound', ?_, hcycle'⟩
      rw [hsound'.downloads, if_neg hstage', hcycle', Nat.add_zero]

/-- The thread of the client's channel goes on. -/
theorem Session.During.step (hduring : s.During handles caller sock fhandle cycle)
    (hpending : s.pending = []) (hunread : s.unread sock = []) (spare : Nat → Nat)
    (drawn : Nat → UInt32) :
    ∃ e s', s.Proper sock e ∧ Session.event spare handles drawn caller sock e s = .ok s' ∧
      s'.During handles caller sock fhandle cycle ∧
        s'.left sock (fhandle.segments Client.maxSize.toNat + 1) <
          s.left sock (fhandle.segments Client.maxSize.toNat + 1) := by
  obtain ⟨hsound, hcycle, hrunning, hroom⟩ := hduring
  have hreached := hsound.reached
  cases hsound.inStep with
  | asked ask hstage hselfID hask hask' =>
      rw [hpending] at hask'
      cases hask'
  | opened w ack hstage hserves hwaits hverified hsendID hchanID hnothing hack =>
      rw [hunread] at hack
      cases hack
  | gathering w count hstage hcount hread hserves hchanID hready hpackets hentries =>
      obtain ⟨-, hready, hkill⟩ := hready.resolve_left (by
        rintro ⟨ready, hready, -⟩
        rw [hpending] at hready
        cases hready)
      -- All that was sent has been taken in.
      have hall : w.thread.sent.length ≤ count := by
        rw [hunread, eq_comm, List.drop_eq_nil_iff, List.length_map] at hpackets
        exact hpackets
      obtain ⟨next, hstep, hleft⟩ := hserves.advance hready hkill (by omega) 0
      obtain ⟨i, hentry, hsock⟩ := exists_entry hentries
      obtain ⟨wired, hevent⟩ := hreached.step_isOk spare drawn i 0 0
      have hquiet : ServerEvent.Quiet sock (.step i 0 0) s.wired.server.table :=
        .inr ⟨i, 0, 0, rfl⟩
      rcases wired_step hreached hentries hentry hsock hevent with
        ⟨hnone, -⟩ | ⟨v, next', hv, hstep', htable, -⟩
      · cases hnone
      obtain rfl : w = v := Option.some.inj hv
      obtain rfl : next = next' := Except.ok.inj (hstep.symm.trans hstep')
      refine ⟨.server (.step i 0 0), { s with wired }, hquiet, ?_,
        ⟨hsound.server hquiet hevent, hcycle, hrunning, fun _ h => absurd hpending h⟩, ?_⟩
      · rw [Session.event, hevent]
        rfl
      · have hthreads : s.threads sock (fhandle.segments Client.maxSize.toNat + 1) =
            w.left (fhandle.segments Client.maxSize.toNat + 1) := by
          simp [Session.threads, hentries]
        have hthreads' :
            Session.threads sock (fhandle.segments Client.maxSize.toNat + 1) { s with wired } =
              next.left (fhandle.segments Client.maxSize.toNat + 1) := by
          simp [Session.threads, Session.entries, htable]
        simp only [Session.left, hstage, hthreads, hthreads', Session.pending]
        omega
  | ceasing w fin hstage hserves hchanID hfull hfin hfin' =>
      rw [hpending] at hfin'
      cases hfin'
  | ceased fin hstage hverified hnothing hfin =>
      rw [hunread] at hfin
      cases hfin
  | closing close hstage => exact absurd hstage hrunning
  | closed hstage => exact absurd hstage hrunning

/-- Something can happen that brings the cycle nearer to its end. -/
theorem Session.During.advance (hfits : caller.Fits handles fhandle)
    (hduring : s.During handles caller sock fhandle cycle) (spare : Nat → Nat)
    (drawn : Nat → UInt32) :
    ∃ e s', s.Proper sock e ∧ Session.event spare handles drawn caller sock e s = .ok s' ∧
      (s'.Through handles caller sock fhandle cycle ∨
        s'.During handles caller sock fhandle cycle ∧
          s'.left sock (fhandle.segments Client.maxSize.toNat + 1) <
            s.left sock (fhandle.segments Client.maxSize.toNat + 1)) := by
  by_cases hpending : s.pending = []
  · by_cases hunread : s.unread sock = []
    · obtain ⟨e, s', hproper, hevent, hnearer⟩ := hduring.step hpending hunread spare drawn
      exact ⟨e, s', hproper, hevent, .inr hnearer⟩
    · exact hduring.receive hfits hunread spare drawn
  · obtain ⟨e, s', hproper, hevent, hnearer⟩ := hduring.deliver hfits hpending spare drawn _
    exact ⟨e, s', hproper, hevent, .inr hnearer⟩

end Progress

/-! ## From the first cycle on -/

section Runs

variable {spare : Nat → Nat} {handles : List FileHandle} {drawn : Nat → UInt32} {caller : Caller}
  {sock : Nat} {fhandle : FileHandle} {before : List ServerEvent} {c : Wired} {client : Client}

end Runs

/-! ## One download -/

end Hipft
