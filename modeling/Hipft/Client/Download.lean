import Hipft.Client.Rebuild
import Hipft.Server.FirstPass
import Hipft.Server.Segments

/-! # From the server's file to the client's

What the thread of a channel has sent when its first pass is over, taken in by
`gather_file`. The thread may have been scheduled in any way.
-/

namespace Hipft

open CMemory Intervals Transitions

/-! ## What the thread sends -/

/-- The message that was sent. -/
def Sent.msg : Sent → Msg
  | .first m => m
  | .again m => m

/-- What the thread has sent are segments of its file. -/
def SendsSegments (w : Worker) : Prop :=
  ∀ s ∈ w.thread.sent, ∃ msgID num, sendSegment w.chan msgID num = .ok s.msg

section Thread

variable {w w' : Worker} {msgID : UInt32}

/-- Nothing was sent, or one segment more. -/
def SentMore (w w' : Worker) (msgID : UInt32) : Prop :=
  w'.thread.sent = w.thread.sent ∨ ∃ s num, w'.thread.sent = w.thread.sent ++ [s] ∧
    sendSegment w.chan msgID num = .ok s.msg

theorem Worker.branch_sent (hbranch : w.branch msgID = .ok w') : SentMore w w' msgID := by
  rw [Worker.branch] at hbranch
  split at hbranch
  next =>
    rw [Worker.sendAgain] at hbranch
    split at hbranch
    next =>
      cases hbranch
      exact .inl rfl
    next =>
      obtain ⟨m, hsend, hbranch⟩ := run_bind_eq_ok.mp hbranch
      cases hbranch
      exact .inr ⟨.again m, _, rfl, hsend⟩
  next =>
    obtain ⟨handle, -, hbranch⟩ := run_bind_eq_ok.mp hbranch
    obtain ⟨numSegments, -, hbranch⟩ := run_bind_eq_ok.mp hbranch
    simp only at hbranch
    split at hbranch
    next =>
      obtain ⟨m, hsend, hbranch⟩ := run_bind_eq_ok.mp hbranch
      cases hbranch
      exact .inr ⟨.first m, _, rfl, hsend⟩
    next =>
      cases hbranch
      exact .inl rfl

theorem Worker.step_sent (hstep : w.step msgID = .ok w') : SentMore w w' msgID := by
  rw [Worker.step] at hstep
  cases hplace : w.thread.place with
  | waiting =>
      rw [hplace] at hstep
      cases hstep
      split
      next => exact .inl rfl
      next => exact .inl rfl
  | loop | relay | reset | ended =>
      rw [hplace] at hstep
      cases hstep
      exact .inl rfl
  | add | free =>
      rw [hplace] at hstep
      obtain ⟨w, hrun, hstep⟩ := run_bind_eq_ok.mp hstep
      obtain ⟨value, -, hrun⟩ := run_bind_eq_ok.mp hrun
      cases hrun
      cases hstep
      exact .inl rfl
  | branch =>
      rw [hplace] at hstep
      obtain ⟨next, hbranch, hstep⟩ := run_bind_eq_ok.mp hstep
      cases hstep
      have hsent : SentMore w next msgID := Worker.branch_sent hbranch
      exact hsent

theorem Alike.sendSegment_eq (halike : Alike w w') (msgID : UInt32) (num : UInt64) :
    sendSegment w'.chan msgID num = sendSegment w.chan msgID num := by
  rw [sendSegment, halike.handle, halike.maxSize, halike.selfID, halike.otherID]
  rfl

theorem SendsSegments.event {e : ThreadEvent} (hsends : SendsSegments w)
    (hevent : Worker.event e w = .ok w') : SendsSegments w' := by
  have halike := Worker.event_alike hevent
  have hkept : ∀ s ∈ w.thread.sent, ∃ msgID num, sendSegment w'.chan msgID num = .ok s.msg := by
    intro s hs
    obtain ⟨msgID, num, hsend⟩ := hsends s hs
    exact ⟨msgID, num, (halike.sendSegment_eq msgID num).trans hsend⟩
  cases e with
  | ready =>
      cases hevent
      exact hkept
  | kill =>
      cases hevent
      exact hkept
  | receive recvmsg =>
      cases hevent
      exact hkept
  | step msgID =>
      rcases Worker.step_sent hevent with hsame | ⟨s, num, hmore, hsend⟩
      · rw [SendsSegments, hsame]
        exact hkept
      · rw [SendsSegments, hmore]
        refine List.forall_mem_append.mpr ⟨hkept, List.forall_mem_singleton.mpr ?_⟩
        exact ⟨msgID, num, (halike.sendSegment_eq msgID num).trans hsend⟩

end Thread

/-! ## One packet -/

/-- A segment that is not too long goes out as a packet that verifies and carries what
`segment_in_file_handle` returns. -/
theorem sendSegment_passes {chan : Channel} {fhandle : FileHandle} (hopened : chan.Opened fhandle)
    (hsmall : chan.maxSize.toNat < 65536) {msgID : UInt32} {num : UInt64} {m : Msg}
    (hsend : sendSegment chan msgID num = .ok m) :
    Passes m ∧ m.head.segmentNum = num ∧
      Arrives m (fhandle.returned chan.maxSize.toNat num.toNat) := by
  generalize hbytes : fhandle.returned chan.maxSize.toNat num.toNat = bytes
  have hlength : bytes.length < 65536 := by
    rw [← hbytes, FileHandle.returned]
    split
    next => decide
    next =>
      rw [List.length_take, FileHandle.segmentLength]
      omega
  have hclen : (UInt64.ofNat bytes.length).toUInt32 = UInt32.ofNat bytes.length := by
    rw [← UInt32.toNat_inj, UInt64.toNat_toUInt32, UInt64.toNat_ofNat', UInt32.toNat_ofNat']
    omega
  obtain ⟨m', hform, hformed, hstored, hconsistent⟩ := formMsg_consistent msgID chan.selfID
    chan.otherID ChannelType.data.code DataType.syn.code num hlength
  rw [sendSegment, hopened.handle, deref, run_bind,
    segmentInFileHandle_returned fhandle hopened.maxSize, run_bind, hbytes] at hsend
  simp only [hclen, hform, checked_ok, run_bind] at hsend
  obtain ⟨written, -, hsend⟩ := run_bind_eq_ok.mp hsend
  obtain rfl : m' = m := Except.ok.inj hsend
  have hpasses : Passes m' := (verifyMsg_iff hstored).mpr hconsistent
  refine ⟨hpasses, ?_, .inl hpasses, fun _ => hformed.content, fun _ => ?_⟩
  · rw [hformed.head]
    rfl
  · rw [← hformed.content, hstored.content]

/-! ## The whole file -/

/-- The packets of the first pass, one for every segment and the empty one behind them. -/
theorem firsts_carry {fhandle : FileHandle} {w : Worker} {firsts agains : List Msg}
    (hrunning : Running fhandle w firsts agains) (hsends : SendsSegments w)
    (hsmall : w.chan.maxSize.toNat < 65536) {j : Nat} {pck : Msg} (hpck : firsts[j]? = some pck) :
    Passes pck ∧ Arrives pck (fhandle.returned w.chan.maxSize.toNat (j + 1)) := by
  have hmem : Sent.first pck ∈ w.thread.sent := by
    rw [hrunning.sent]
    exact List.mem_append_left _ (List.mem_map_of_mem (List.mem_of_getElem? hpck))
  obtain ⟨msgID, num, hsend⟩ := hsends _ hmem
  obtain ⟨hpasses, hnum, harrives⟩ := sendSegment_passes hrunning.opened hsmall hsend
  have hplace : num.toNat = j + 1 := by
    have horder := congrArg (fun nums => nums[j]?) hrunning.order
    obtain ⟨hj, -⟩ := List.getElem?_eq_some_iff.mp hpck
    have hfirst : (Sent.first pck).msg.head.segmentNum = pck.head.segmentNum := rfl
    simp only [List.getElem?_map, hpck, Option.map_some, List.getElem?_range' hj] at horder
    rw [← hnum, hfirst, Option.some.inj horder]
    omega
  rw [hplace] at harrives
  exact ⟨hpasses, harrives⟩

/-- A file that is not empty has a segment. -/
theorem FileHandle.segments_pos (fhandle : FileHandle) {size : Nat} (hsize : 0 < size)
    (hsome : fhandle.content ≠ []) : 0 < fhandle.segments size := by
  apply (fhandle.start_lt_iff hsize Nat.one_pos).mp
  rw [Nat.sub_self, Nat.zero_mul]
  exact List.length_pos_iff.mpr hsome

/-- What is written of packets that all pass. -/
theorem written_returned {part : Nat → Bytes} {pcks : List Msg}
    (hpcks : ∀ j pck, pcks[j]? = some pck → Passes pck ∧ Arrives pck (part (j + 1))) :
    written pcks = (List.range pcks.length).flatMap fun j => part (j + 1) := by
  induction pcks generalizing part with
  | nil => rfl
  | cons pck pcks ih =>
      obtain ⟨hpasses, harrives⟩ := hpcks 0 pck rfl
      have hrest := @ih (fun k => part (k + 1)) fun j pck hpck => hpcks (j + 1) pck hpck
      rw [written_cons_of_pos hpasses, harrives.content hpasses, hrest, List.length_cons,
        List.range_succ_eq_map, List.flatMap_cons, List.flatMap_map]

/-- The segments that are returned are the file exactly if those of far places are. -/
theorem flatMap_returned_iff (fhandle : FileHandle) {size : Nat} (hsize : 0 < size) :
    (List.range (fhandle.segments size)).flatMap (fun j => fhandle.returned size (j + 1)) =
      fhandle.content ↔ RepeatsFarSegments fhandle size := by
  rw [← returned_eq_segment_iff]
  constructor
  · intro hwhole k hpos hk
    have hsegments : (List.range (fhandle.segments size)).flatMap
        (fun j => fhandle.segment size (j + 1)) = fhandle.content := by
      rw [fhandle.flatMap_segment, List.take_of_length_le (fhandle.length_le_segments_mul hsize)]
    have hlength : ∀ j < fhandle.segments size, (fhandle.returned size (j + 1)).length =
        (fhandle.segment size (j + 1)).length := by
      intro j hj
      rw [fhandle.returned_length hsize (Nat.succ_pos j) hj, fhandle.segment_length_eq]
    have hsame := (flatMap_range_eq_iff hlength).mp (hwhole.trans hsegments.symm) (k - 1) (by omega)
    rwa [Nat.sub_add_cancel hpos] at hsame
  · intro hsame
    exact ((partitioned_returned_iff fhandle hsize).mpr hsame).whole

/-- The first loop asks for nothing. -/
theorem gatherFirst_sent {numfilepcks numpcks : UInt64} {g g' : Gather}
    {inbox rest : List (Option Msg)}
    (hrun : gatherFirst numfilepcks numpcks g inbox = .ok (some (g', rest))) :
    g'.sent = g.sent := by
  induction inbox generalizing numpcks g with
  | nil =>
      unfold gatherFirst at hrun
      split at hrun
      next => cases hrun
      next =>
        cases hrun
        rfl
  | cons pck inbox ih =>
      unfold gatherFirst at hrun
      split at hrun
      next =>
        cases pck with
        | none => cases hrun
        | some pck =>
            obtain ⟨next, hpacket, hrun⟩ := bind_eq_ok.mp hrun
            obtain ⟨valid, -, hpacket⟩ := bind_eq_ok.mp hpacket
            have hkept : next.sent = g.sent := by
              split at hpacket
              next =>
                obtain ⟨file, -, hpacket⟩ := bind_eq_ok.mp hpacket
                cases hpacket
                rfl
              next =>
                cases hpacket
                rfl
            rw [ih hrun, hkept]
      next =>
        cases hrun
        rfl

/-- With nothing missing the second loop does not begin. -/
theorem gatherAgain_nothing {draw : Nat → UInt32} {answer : Nat → UInt64 → Option Msg}
    {selfID otherID maxSize numfilepcks : UInt64} {g : Gather} (hcanonical : Canonical g.retransSec)
    (hnone : ∀ v, ¬ Covers g.retransSec v) (fuel : Nat) :
    gatherAgain draw answer selfID otherID maxSize numfilepcks (fuel + 1) g = .ok (some g) := by
  rcases hsec : g.retransSec with _ | ⟨piece, rest⟩
  · rw [gatherAgain, hsec]
    rfl
  · have hmem : piece ∈ g.retransSec := hsec ▸ List.mem_cons_self
    exact absurd ⟨piece, hmem, le_rfl, hcanonical.proper piece hmem⟩ (hnone piece.lowBound)

/-- Whatever else happened to the channel, when its thread has finished the first pass, a
client that takes in what was sent asks for nothing. It has the file exactly if no
segment is read from a place that was cut to 32 bits and has other bytes. -/
theorem gatherFile_finished {sock : Nat} {selfID otherID maxSize : UInt64}
    {fhandle : FileHandle} {events : List ThreadEvent} {w : Worker} (hsize : maxSize ≠ 0)
    (hsmall : maxSize.toNat < 65536) (hsome : fhandle.content ≠ [])
    (hrun : run Worker.event events (Worker.start sock selfID otherID maxSize fhandle) = .ok w)
    (hfinished : w.thread.finishedFt = true) (draw : Nat → UInt32)
    (answer : Nat → UInt64 → Option Msg) (rest : List (Option Msg)) (fuel : Nat) :
    ∃ g, gatherFile draw (w.thread.sent.map (some ∘ Sent.msg) ++ rest) answer otherID selfID maxSize
        (UInt64.ofNat (fhandle.segments maxSize.toNat)) (fuel + 1) = .ok (some g) ∧
      g.sent = [] ∧
      (g.file.content = fhandle.content ↔ RepeatsFarSegments fhandle maxSize.toNat) := by
  have hpos := toNat_pos hsize
  obtain ⟨w', hrun', firsts, agains, hrunning⟩ :=
    run_running sock selfID otherID fhandle hsize events
  obtain rfl : w' = w := Except.ok.inj (hrun'.symm.trans hrun)
  have hstart : SendsSegments (Worker.start sock selfID otherID maxSize fhandle) := by
    intro s hs
    cases hs
  have hsends : SendsSegments w' := run_invariant (fun _ _ _ hsends => hsends.event) hstart hrun
  have hmax : w'.chan.maxSize = maxSize := run_maxSize hrun
  have hfirsts := hrunning.finished hfinished
  rw [hmax] at hfirsts
  have hpcks : ∀ j pck, firsts[j]? = some pck →
      Passes pck ∧ Arrives pck (fhandle.returned maxSize.toNat (j + 1)) := by
    intro j pck hpck
    have hcarry := firsts_carry hrunning hsends (by rwa [hmax]) hpck
    rwa [hmax] at hcarry
  have hinbox : w'.thread.sent.map (some ∘ Sent.msg) ++ rest =
      firsts.map some ++ (agains.map some ++ rest) := by
    rw [hrunning.sent]
    simp [Function.comp_def, Sent.msg]
  have hn : (UInt64.ofNat (fhandle.segments maxSize.toNat)).toNat =
      fhandle.segments maxSize.toNat := by
    have hlt := fhandle.segments_lt hpos
    rw [UInt64.toNat_ofNat', Nat.mod_eq_of_lt (by omega)]
  have hnonzero : UInt64.ofNat (fhandle.segments maxSize.toNat) ≠ 0 := by
    intro hzero
    rw [← UInt64.toNat_inj, hn] at hzero
    exact absurd hzero (Nat.ne_of_gt (fhandle.segments_pos hpos hsome))
  have hlast : (UInt64.ofNat (fhandle.segments maxSize.toNat)).toNat + 1 < 2 ^ 64 := by
    have hlt := fhandle.segments_lt hpos
    omega
  have hcount : (0 : UInt64).toNat + firsts.length =
      (UInt64.ofNat (fhandle.segments maxSize.toNat)).toNat + 1 := by
    rw [hn, hfirsts]
    exact Nat.zero_add _
  have harrive : ∀ pck ∈ firsts, ∃ bytes, Arrives pck bytes := by
    intro pck hpck
    obtain ⟨j, hj⟩ := List.mem_iff_getElem?.mp hpck
    exact ⟨_, (hpcks j pck hj).2⟩
  obtain ⟨g, hfirst, hcontent, hcanonical, hcovers⟩ := gatherFirst_eq hlast
    (agains.map some ++ rest) hcount harrive (g := .start) rfl canonical_nil
  refine ⟨g, ?_, gatherFirst_sent hfirst, ?_⟩
  · rw [gatherFile, gatherPass, if_neg hnonzero, hinbox, hfirst, ok_bind]
    apply gatherAgain_nothing hcanonical
    intro v hv
    rcases (hcovers v).mp hv with hnil | ⟨j, pck, hpck, hfails, -⟩
    · simp [Gather.start, createSection] at hnil
    · exact hfails (hpcks j pck hpck).1
  · have hlastEmpty : fhandle.returned maxSize.toNat (fhandle.segments maxSize.toNat + 1) = [] :=
      if_pos (.inr (Nat.lt_succ_self _))
    have hwritten : g.file.content = written firsts := hcontent
    rw [hwritten, written_returned hpcks, hfirsts, List.range_succ, List.flatMap_append,
      List.flatMap_singleton, hlastEmpty, List.append_nil, flatMap_returned_iff fhandle hpos]

end Hipft
