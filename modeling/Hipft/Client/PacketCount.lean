import Hipft.Client.Rebuild
import Hipft.Server.Establishment
import Hipft.Server.FirstPass

/-! # The number of packets

The server tells the client how many segments a file has, and sends one packet
more than that. The client counts on the number that it reads from its own
request, which it has already freed.
-/

namespace Hipft

open CMemory

/-- The first loop of `gather_file` goes on until this many packets have come. -/
def Awaits (packets : UInt64) (count : Nat) : Prop :=
  ∀ pcks : List Msg, (∀ pck ∈ pcks, ∃ bytes, Arrives pck bytes) →
    (gatherPass packets (pcks.map some) = .error .hang ↔ pcks.length < count)

/-- The client waits for as many packets as the thread sends in its first pass. -/
def Agree (packets : UInt64) (w : Worker) : Prop :=
  ∃ count, Awaits packets count ∧ SendsFirst w count

/-! ## What the client waits for -/

theorem gatherPacket_total {numpcks : UInt64} {pck : Msg} {bytes : Bytes} {g : Gather}
    (harrives : Arrives pck bytes) (hend : g.file.pos = g.file.content.length) :
    ∃ g', gatherPacket numpcks pck g = .ok g' ∧ g'.file.pos = g'.file.content.length := by
  refine ⟨_, gatherPacket_eq harrives hend, ?_⟩
  split
  next => rfl
  next => exact hend

/-- The count of the packets never passes the largest number. -/
theorem gatherFirst_hang_iff {numfilepcks : UInt64} {pcks : List Msg} {numpcks : UInt64}
    {g : Gather} (harrive : ∀ pck ∈ pcks, ∃ bytes, Arrives pck bytes)
    (hend : g.file.pos = g.file.content.length) :
    gatherFirst numfilepcks numpcks g (pcks.map some) = .error .hang ↔
      numfilepcks = uint64Max ∨ numpcks.toNat + pcks.length ≤ numfilepcks.toNat := by
  induction pcks generalizing numpcks g with
  | nil =>
      rw [List.map_nil, gatherFirst, List.length_nil, Nat.add_zero, ← UInt64.le_iff_toNat_le]
      split
      next hwithin => exact iff_of_true rfl (.inr hwithin)
      next hover =>
        refine iff_of_false ?_ ?_
        · rintro ⟨⟩
        · rintro (rfl | hwithin)
          · exact hover (le_uint64Max numpcks)
          · exact hover hwithin
  | cons pck pcks ih =>
      obtain ⟨⟨bytes, harrives⟩, harrive⟩ := List.forall_mem_cons.mp harrive
      obtain ⟨g', hpacket, hend'⟩ := gatherPacket_total harrives hend
      rw [List.map_cons, gatherFirst, List.length_cons]
      split
      next hwithin =>
        rw [hpacket, ok_bind, ih harrive hend']
        -- Below the largest number the counter does not wrap; from there the loop never ends.
        refine or_congr_right' fun hmax => ?_
        have hnext : (numpcks + 1).toNat = numpcks.toNat + 1 := by
          have hlt := lt_of_le_of_ne (le_uint64Max numfilepcks) hmax
          exact covBy_iff_toNat.mp (covBy_add_one (hwithin.trans_lt hlt))
        rw [hnext]
        omega
      next hover =>
        refine iff_of_false ?_ ?_
        · rintro ⟨⟩
        · rintro (rfl | hwithin)
          · exact hover (le_uint64Max numpcks)
          · refine hover (UInt64.le_iff_toNat_le.mpr ?_)
            omega

theorem gatherPass_hang_iff {packets : UInt64} {pcks : List Msg}
    (harrive : ∀ pck ∈ pcks, ∃ bytes, Arrives pck bytes) :
    gatherPass packets (pcks.map some) = .error .hang ↔
      packets ≠ 0 ∧ (packets = uint64Max ∨ pcks.length ≤ packets.toNat) := by
  rw [gatherPass]
  split
  next hzero =>
    refine iff_of_false ?_ fun hpos => hpos.1 hzero
    rintro ⟨⟩
  next hpos =>
    have hstart : (0 : UInt64).toNat + pcks.length = pcks.length := Nat.zero_add _
    rw [gatherFirst_hang_iff harrive rfl, and_iff_right hpos, hstart]

theorem awaits_iff {packets : UInt64} {count : Nat} :
    Awaits packets count ↔
      ∀ k, k < count ↔ packets ≠ 0 ∧ (packets = uint64Max ∨ k ≤ packets.toNat) := by
  constructor
  · intro hawaits k
    have harrive : ∀ pck ∈ List.replicate k endMsg, ∃ bytes, Arrives pck bytes := by
      intro pck hpck
      exact ⟨[], (List.eq_of_mem_replicate hpck) ▸ endMsg_arrives⟩
    have hlength := (hawaits _ harrive).symm.trans (gatherPass_hang_iff harrive)
    rwa [List.length_replicate] at hlength
  · intro hcount pcks harrive
    rw [gatherPass_hang_iff harrive, hcount]

/-! ## Both sides -/

theorem SendsFirst.unique {w : Worker} {count count' : Nat} (hsends : SendsFirst w count)
    (hsends' : SendsFirst w count') : count = count' := by
  obtain ⟨events, w', hrun, hends⟩ := hsends.ends
  exact (hsends.counted events w' hrun hends).symm.trans (hsends'.counted events w' hrun hends)

theorem agree_iff (sock : Nat) (selfID otherID maxSize : UInt64) (fhandle : FileHandle)
    (hsize : maxSize ≠ 0) (packets : UInt64) :
    Agree packets (Worker.start sock selfID otherID maxSize fhandle) ↔
      packets.toNat = fhandle.segments maxSize.toNat ∧ 0 < fhandle.segments maxSize.toNat := by
  have hsends := sendsFirst_start sock selfID otherID maxSize fhandle hsize
  have hlt := fhandle.segments_lt (toNat_pos hsize)
  have hmax : uint64Max.toNat = 2 ^ 64 - 1 := rfl
  have hzero : (0 : UInt64).toNat = 0 := rfl
  constructor
  · rintro ⟨count, hawaits, hsends'⟩
    obtain rfl := hsends'.unique hsends
    rw [awaits_iff] at hawaits
    -- The client waits for the packet behind the last segment, and for none after it.
    have hlast := (hawaits (fhandle.segments maxSize.toNat)).mp (Nat.lt_succ_self _)
    have hnext := mt (hawaits (fhandle.segments maxSize.toNat + 1)).mpr (Nat.lt_irrefl _)
    obtain ⟨hnonzero, hlast⟩ := hlast
    rw [not_and, not_or] at hnext
    obtain ⟨hbelow, hover⟩ := hnext hnonzero
    have hpos := toNat_pos hnonzero
    have hreached := hlast.resolve_left hbelow
    omega
  · rintro ⟨hpackets, hpos⟩
    refine ⟨_, awaits_iff.mpr fun k => ?_, hsends⟩
    rw [ne_eq, ← UInt64.toNat_inj, ← UInt64.toNat_inj, hpackets, hmax, hzero]
    omega

/-! ## Establishing the channel -/

section Establish

variable {draw : Nat → UInt32} {stale selfID otherID : UInt64} {maxSize : UInt32} {file : Bytes}
  {fileLength : UInt32} {ack : Msg}

theorem request_isOk (draw : Nat → UInt32) (sent : List Msg) (selfID otherID : UInt64)
    (dataType : DataType) (segmentNum : UInt64) (hfile : fileLength.toNat ≤ file.length) :
    ∃ sent', request draw sent selfID otherID dataType segmentNum file fileLength = .ok sent' := by
  obtain ⟨send, hform, hsend, -⟩ := formMsg_sendMsg (draw sent.length) selfID otherID
    ChannelType.control.code dataType.code segmentNum hfile
  refine ⟨sent ++ [send], ?_⟩
  rw [request, hform, ok_bind, hsend]
  rfl

theorem awaitAnswer_eq (hfile : fileLength.toNat ≤ file.length) {lost : List Msg}
    (hlost : ∀ m ∈ lost, verifyMsg m = .ok false) (hverified : verifyMsg ack = .ok true)
    (hsendID : ack.head.sendID ≠ 0) (inbox sent : List Msg) :
    ∃ sent', awaitAnswer draw stale selfID otherID maxSize file fileLength sent
        (lost ++ ack :: inbox) = .ok ⟨stale, ack.head.sendID, sent', inbox⟩ := by
  induction lost generalizing sent with
  | nil =>
      refine ⟨sent, ?_⟩
      rw [List.nil_append, awaitAnswer, hverified, ok_bind, if_pos rfl, if_neg hsendID]
      rfl
  | cons m lost ih =>
      obtain ⟨hm, hlost⟩ := List.forall_mem_cons.mp hlost
      obtain ⟨asked, hask⟩ := request_isOk draw sent selfID otherID .rts maxSize.toUInt64 hfile
      obtain ⟨sent', hawait⟩ := ih hlost asked
      refine ⟨sent', ?_⟩
      rw [List.cons_append, awaitAnswer, hm, ok_bind, if_neg Bool.false_ne_true, hask, ok_bind,
        hawait]

theorem establishChannel_eq (hfile : fileLength.toNat ≤ file.length) {lost : List Msg}
    (hlost : ∀ m ∈ lost, verifyMsg m = .ok false) (hverified : verifyMsg ack = .ok true)
    (hsendID : ack.head.sendID ≠ 0) (inbox : List Msg) :
    ∃ sent, establishChannel draw stale selfID otherID maxSize file fileLength
        (lost ++ ack :: inbox) = .ok ⟨stale, ack.head.sendID, sent, inbox⟩ := by
  obtain ⟨asked, hask⟩ := request_isOk draw [] selfID otherID .syn maxSize.toUInt64 hfile
  obtain ⟨sent, hawait⟩ := awaitAnswer_eq hfile hlost hverified hsendID inbox asked
  refine ⟨sent, ?_⟩
  rw [establishChannel, hask, ok_bind, hawait]

end Establish

/-- The channel that is made for a request is one at its start. -/
theorem Connection.newWorker_eq_start (conn : Connection) (draw : Draw) (recvmsg : Msg)
    (fhandle : FileHandle) :
    ∃ chanID : UInt64, chanID ≠ 0 ∧ conn.newWorker draw recvmsg fhandle =
      Worker.start conn.sock chanID recvmsg.head.sendID recvmsg.head.segmentNum fhandle :=
  ⟨_, generateRandomUint_ne_zero _, rfl⟩

/-- Both sides agree exactly when the freed request holds the number of segments of a file
that is not empty. -/
theorem establish_agree_iff (draw : Nat → UInt32) (stale selfID otherID : UInt64)
    (maxSize : UInt32) (hsize : maxSize ≠ 0) (file : Bytes) (fileLength : UInt32)
    (hfile : fileLength.toNat ≤ file.length) (conn : Connection) (drawn : Draw)
    (fhandle : FileHandle) (recvmsg ack : Msg)
    (hasked : recvmsg.head.segmentNum = maxSize.toUInt64)
    (hack : Acknowledges (conn.newWorker drawn recvmsg fhandle).chan recvmsg ack)
    (hverified : verifyMsg ack = .ok true) (lost : List Msg)
    (hlost : ∀ m ∈ lost, verifyMsg m = .ok false) (inbox : List Msg) :
    ∃ established, establishChannel draw stale selfID otherID maxSize file fileLength
        (lost ++ ack :: inbox) = .ok established ∧
      (Agree established.packets (conn.newWorker drawn recvmsg fhandle) ↔
        stale.toNat = fhandle.segments maxSize.toNat ∧ 0 < fhandle.segments maxSize.toNat) := by
  have hsize' : recvmsg.head.segmentNum ≠ 0 := by
    intro hzero
    have hnat := congrArg UInt64.toNat (hasked.symm.trans hzero)
    rw [UInt32.toNat_toUInt64] at hnat
    exact hsize (UInt32.toNat_inj.mp hnat)
  obtain ⟨chanID, hchanID, hstart⟩ := conn.newWorker_eq_start drawn recvmsg fhandle
  rw [hstart] at hack ⊢
  have hsendID : ack.head.sendID ≠ 0 := hack.sendID.trans_ne hchanID
  obtain ⟨sent, hrun⟩ := establishChannel_eq hfile hlost hverified hsendID inbox
  refine ⟨_, hrun, ?_⟩
  rw [agree_iff conn.sock chanID _ _ fhandle hsize' stale, hasked, UInt32.toNat_toUInt64]

/-- The answer to a request for a file of one segment, as `form_msg` makes it. -/
def ackMsg : Msg where
  head := formHeader 7 301 300 ChannelType.control.code DataType.ack.code 1 0
  body := { content := [], vparityData := List.replicate 4 uint64Max, hparityData := [] }
  trail := formHeader 7 301 300 ChannelType.control.code DataType.ack.code 1 0

theorem ackMsg_acknowledges :
    Acknowledges (Connection.newWorker ⟨5, 0, []⟩ ⟨9, 1⟩ (askMsg 300) threeBytes).chan (askMsg 300)
      ackMsg :=
  ⟨rfl, rfl, rfl, rfl, threeBytes, rfl, rfl⟩

theorem establish_agree_iff_one :
    ∃ established, establishChannel (fun _ => 9) 1 300 0 8 [97] 1 [ackMsg] = .ok established ∧
      (Agree established.packets
          (Connection.newWorker ⟨5, 0, []⟩ ⟨9, 1⟩ (askMsg 300) threeBytes) ↔
        (1 : UInt64).toNat = threeBytes.segments 8 ∧ 0 < threeBytes.segments 8) :=
  establish_agree_iff (fun _ => 9) 1 300 0 8 (by decide) [97] 1 (by decide) ⟨5, 0, []⟩ ⟨9, 1⟩
    threeBytes (askMsg 300) ackMsg rfl ackMsg_acknowledges (by decide +kernel) []
    (List.forall_mem_nil _) []

/-- The freed request still holds the size of the segments. -/
theorem establish_agree_stale :
    Acknowledges (Connection.newWorker ⟨5, 0, []⟩ ⟨9, 1⟩ (askMsg 300) threeBytes).chan (askMsg 300)
        ackMsg ∧
      verifyMsg ackMsg = .ok true ∧
      ∃ established, establishChannel (fun _ => 9) 8 300 0 8 [97] 1 [ackMsg] = .ok established ∧
        ¬ Agree established.packets
          (Connection.newWorker ⟨5, 0, []⟩ ⟨9, 1⟩ (askMsg 300) threeBytes) := by
  have hverified : verifyMsg ackMsg = .ok true := by decide +kernel
  obtain ⟨sent, hrun⟩ := establishChannel_eq (show (1 : UInt32).toNat ≤ [97].length from le_rfl)
    (List.forall_mem_nil _) hverified (show (301 : UInt64) ≠ 0 by decide) []
  refine ⟨ackMsg_acknowledges, hverified, _, hrun, fun hagree => ?_⟩
  have hcount := (agree_iff 5 301 300 8 threeBytes (by decide) 8).mp hagree
  exact absurd hcount.1 (by decide)

end Hipft
