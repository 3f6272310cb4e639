import Hipft.Section.Canonical
import Hipft.Server.ChannelThread

/-! # The first pass of a channel

However the main loop and the thread take turns, the thread sends the segments
in order, behind them an empty one, and only then what is asked for again.
-/

namespace Hipft

open CMemory Intervals Transitions

/-! ## One segment -/

/-- The channel as the main loop sets it up for a file. -/
structure Channel.Opened (chan : Channel) (fhandle : FileHandle) : Prop where
  handle : chan.handle = some fhandle
  maxSize : chan.maxSize ≠ 0

/-- A segment as the channel sends it; without content where the file has none. -/
structure SegmentMsg (chan : Channel) (fhandle : FileHandle) (num : UInt64) (m : Msg) :
    Prop where
  chanType : m.head.chanType = ChannelType.data.code
  dataType : m.head.dataType = DataType.syn.code
  sendID : m.head.sendID = chan.selfID
  recvID : m.head.recvID = chan.otherID
  segmentNum : m.head.segmentNum = num
  empty : fhandle.segments chan.maxSize.toNat < num.toNat →
    m.head.contentLength = 0 ∧ m.body.content = []

theorem sendSegment_eq {chan : Channel} {fhandle : FileHandle} (hopened : chan.Opened fhandle)
    (msgID : UInt32) (segmentNum : UInt64) :
    ∃ m, sendSegment chan msgID segmentNum = .ok m ∧ SegmentMsg chan fhandle segmentNum m := by
  obtain ⟨bytes, numBytes, hsegment, hlength⟩ :=
    segmentInFileHandle_total fhandle segmentNum hopened.maxSize
  have hclen : numBytes.toUInt32.toNat ≤ bytes.length := by
    rw [UInt64.toNat_toUInt32, hlength]
    exact Nat.mod_le _ _
  obtain ⟨m, hform, hsend, hformed⟩ := formMsg_sendMsg msgID chan.selfID chan.otherID
    ChannelType.data.code DataType.syn.code segmentNum hclen
  refine ⟨m, ?_, ?_⟩
  · rw [sendSegment, hopened.handle, deref, run_bind, hsegment, run_bind]
    simp only
    rw [hform, checked_ok, run_bind, hsend]
    rfl
  · refine ⟨?_, ?_, ?_, ?_, ?_, fun houtside => ?_⟩
    · rw [hformed.head]
      rfl
    · rw [hformed.head]
      rfl
    · rw [hformed.head]
      rfl
    · rw [hformed.head]
      rfl
    · rw [hformed.head]
      rfl
    · rw [segmentInFileHandle_outside fhandle hopened.maxSize (.inr houtside), Except.ok.injEq,
        Prod.mk.injEq] at hsegment
      obtain ⟨rfl, rfl⟩ := hsegment
      rw [hformed.head, hformed.content]
      exact ⟨rfl, rfl⟩

/-! ## What the thread has done -/

/-- The messages sent so far: those of the first pass, then those that were asked for
again, which need the first pass to be over. -/
structure Protocol (fhandle : FileHandle) (w : Worker) (firsts agains : List Msg) : Prop where
  sent : w.thread.sent = firsts.map .first ++ agains.map .again
  ready : w.thread.sent ≠ [] → w.chan.ready = true
  dataType : ∀ m ∈ firsts ++ agains, m.head.chanType = ChannelType.data.code
  order : firsts.map (fun m => m.head.segmentNum.toNat) = List.range' 1 firsts.length
  within : firsts.length ≤ fhandle.segments w.chan.maxSize.toNat + 1
  last : ∀ m ∈ firsts, m.head.segmentNum.toNat = fhandle.segments w.chan.maxSize.toNat + 1 →
    m.head.contentLength = 0 ∧ m.body.content = []
  finished : w.thread.finishedFt = true →
    firsts.length = fhandle.segments w.chan.maxSize.toNat + 1
  afterwards : agains ≠ [] → firsts.length = fhandle.segments w.chan.maxSize.toNat + 1

/-- The thread is between the test of `kill` and the next. -/
def Place.inLoop : Place → Bool
  | .relay | .add | .free | .reset | .branch => true
  | _ => false

/-- What holds between any two steps. -/
structure Running (fhandle : FileHandle) (w : Worker) (firsts agains : List Msg) : Prop extends
    Protocol fhandle w firsts agains where
  opened : w.chan.Opened fhandle
  sendSec : ∃ high : UInt64, w.thread.sendSec = [⟨0, high⟩] ∧ high.toNat = firsts.length
  entered : w.thread.place = .loop → w.chan.ready = true ∨ w.chan.kill = true
  active : w.thread.place.inLoop = true → w.chan.ready = true
  pending : w.chan.data = true → w.thread.place ≠ .reset → w.chan.value.isSome = true
  held : w.thread.place = .add ∨ w.thread.place = .free → w.chan.value.isSome = true

/-- What can happen to a channel: the main loop writes to the record, or the thread does
a step. -/
inductive ThreadEvent
  | ready
  | kill
  | receive (recvmsg : Msg)
  | step (msgID : UInt32)

def Worker.event : ThreadEvent → Worker → Run Worker
  | .ready, w => pure w.setReady
  | .kill, w => pure w.setKill
  | .receive recvmsg, w => pure (w.receive recvmsg)
  | .step msgID, w => w.step msgID

/-- The channel that the main loop creates, with its thread at the start. -/
def Worker.start (sock : Nat) (selfID otherID maxSize : UInt64) (fhandle : FileHandle) :
    Worker where
  chan := { sock, selfID, otherID, maxSize, handle := some fhandle, data := false, kill := false
            ready := false, value := none }
  thread := .start

theorem running_start (sock : Nat) (selfID otherID : UInt64) {maxSize : UInt64}
    (fhandle : FileHandle) (hsize : maxSize ≠ 0) :
    Running fhandle (Worker.start sock selfID otherID maxSize fhandle) [] [] where
  sent := rfl
  ready := fun h => absurd rfl h
  dataType := List.forall_mem_nil _
  order := rfl
  within := Nat.zero_le _
  last := List.forall_mem_nil _
  afterwards := fun h => absurd rfl h
  opened := ⟨rfl, hsize⟩
  sendSec := ⟨0, rfl, rfl⟩
  finished := fun h => Bool.noConfusion h
  entered := fun h => Place.noConfusion h
  active := fun h => Bool.noConfusion h
  pending := fun h => Bool.noConfusion h
  held := fun h => h.elim Place.noConfusion Place.noConfusion

section Step

variable {fhandle : FileHandle} {w : Worker} {firsts agains : List Msg}

theorem Running.setReady (hrun : Running fhandle w firsts agains) :
    Running fhandle w.setReady firsts agains :=
  { hrun with
    ready := fun _ => rfl
    opened := ⟨hrun.opened.handle, hrun.opened.maxSize⟩
    entered := fun _ => .inl rfl
    active := fun _ => rfl }

theorem Running.setKill (hrun : Running fhandle w firsts agains) :
    Running fhandle w.setKill firsts agains :=
  { hrun with
    opened := ⟨hrun.opened.handle, hrun.opened.maxSize⟩
    entered := fun _ => .inr rfl }

theorem Running.receive (hrun : Running fhandle w firsts agains) (recvmsg : Msg) :
    Running fhandle (w.receive recvmsg) firsts agains :=
  { hrun with
    opened := ⟨hrun.opened.handle, hrun.opened.maxSize⟩
    pending := fun _ _ => rfl
    held := fun _ => rfl }

theorem Running.goto (hrun : Running fhandle w firsts agains) {place : Place}
    (hentered : place = .loop → w.chan.ready = true ∨ w.chan.kill = true)
    (hactive : place.inLoop = true → w.chan.ready = true)
    (hpending : w.chan.data = true → place ≠ .reset → w.chan.value.isSome = true)
    (hheld : place = .add ∨ place = .free → w.chan.value.isSome = true) :
    Running fhandle (w.goto place) firsts agains :=
  { hrun with entered := hentered, active := hactive, pending := hpending, held := hheld }

/-- The finished branch sends nothing or one message more. -/
theorem Running.sendAgain (hrun : Running fhandle w firsts agains) (msgID : UInt32)
    (hready : w.chan.ready = true) (hfinished : w.thread.finishedFt = true) :
    ∃ w' agains', w.sendAgain msgID = .ok w' ∧ Running fhandle w' firsts agains' := by
  rw [Worker.sendAgain]
  cases getPieceInSection w.thread.retransSec 0 with
  | none => exact ⟨w, agains, rfl, hrun⟩
  | some piece =>
      obtain ⟨m, hsend, hm⟩ :=
        sendSegment_eq hrun.opened msgID (firstLowInSection w.thread.retransSec)
      simp only [hsend, run_bind]
      refine ⟨_, agains ++ [m], rfl, { hrun with
        sent := ?_
        ready := fun _ => hready
        dataType := ?_
        afterwards := fun _ => hrun.finished hfinished }⟩
      · simp [hrun.sent]
      · rw [← List.append_assoc, List.forall_mem_append]
        exact ⟨hrun.dataType, List.forall_mem_singleton.mpr hm.chanType⟩

/-- Progress is kept as one piece that grows. -/
theorem addToSection_progress {high : UInt64} (hcov : high ⋖ high + 1) :
    addToSection [⟨0, high⟩] (high + 1) = [⟨0, high + 1⟩] := by
  have hcanonical : Canonical ([] ++ ⟨0, high⟩ :: [] : Section) :=
    canonical_cons.mpr ⟨UInt64.zero_le, List.forall_mem_nil _, canonical_nil⟩
  exact addToSection_below hcanonical hcov

/-- What the other branch does: it sends the next segment, or finds that there is none. -/
inductive Advanced (fhandle : FileHandle) (high : UInt64) (w : Worker) : Worker → Prop
  | segment (m : Msg) (hm : SegmentMsg w.chan fhandle (high + 1) m)
      (hmore : high.toNat < fhandle.segments w.chan.maxSize.toNat + 1) :
      Advanced fhandle high w { w with thread :=
        { w.thread with sendSec := [⟨0, high + 1⟩], sent := w.thread.sent ++ [.first m] } }
  | finished (hover : fhandle.segments w.chan.maxSize.toNat + 1 ≤ high.toNat) :
      Advanced fhandle high w { w with thread := { w.thread with finishedFt := true } }

theorem Worker.sendNext_spec (hopened : w.chan.Opened fhandle) {high : UInt64}
    (hsec : w.thread.sendSec = [⟨0, high⟩]) (msgID : UInt32) :
    ∃ w', w.sendNext msgID = .ok w' ∧ Advanced fhandle high w w' := by
  obtain ⟨n, hcount, hn⟩ := numSegmentsInFileHandle_eq fhandle hopened.maxSize
  have hlt := fhandle.segments_lt (toNat_pos hopened.maxSize)
  have hbound : (n + 1).toNat = fhandle.segments w.chan.maxSize.toNat + 1 := by
    rw [toNat_add_one (by omega), hn]
  have hhigh : lastContinualHighInSection w.thread.sendSec = high := by rw [hsec]; rfl
  simp only [Worker.sendNext, hopened.handle, deref, run_bind, hcount, hhigh]
  by_cases hmore : high < n + 1
  · obtain ⟨m, hsend, hm⟩ := sendSegment_eq hopened msgID (high + 1)
    simp only [if_pos hmore, hsend, run_bind, hsec, addToSection_progress (covBy_add_one hmore)]
    rw [UInt64.lt_iff_toNat_lt, hbound] at hmore
    exact ⟨_, rfl, .segment m hm hmore⟩
  · rw [if_neg hmore]
    rw [UInt64.lt_iff_toNat_lt, hbound, Nat.not_lt] at hmore
    exact ⟨_, rfl, .finished hmore⟩

/-- In the first pass the thread sends the next segment, or finds that there is none. -/
theorem Running.sendNext (hrun : Running fhandle w firsts agains) (msgID : UInt32)
    (hready : w.chan.ready = true) (hfinished : w.thread.finishedFt = false) :
    ∃ w' firsts', w.sendNext msgID = .ok w' ∧ Running fhandle w' firsts' agains := by
  have hwithin := hrun.within
  obtain ⟨high, hsec, hhigh⟩ := hrun.sendSec
  obtain ⟨w', hsend, hadvanced⟩ := w.sendNext_spec hrun.opened hsec msgID
  refine ⟨w', ?_⟩
  rw [hsend]
  cases hadvanced with
  | segment m hm hmore =>
      have hlt := fhandle.segments_lt (toNat_pos hrun.opened.maxSize)
      have hnext : (high + 1).toNat = firsts.length + 1 := by
        rw [toNat_add_one (by omega), hhigh]
      rw [hhigh] at hmore
      -- Nothing was asked for again, since a segment is still to be sent.
      obtain rfl : agains = [] := by
        by_contra hagains
        exact absurd (hrun.afterwards hagains) hmore.ne
      refine ⟨firsts ++ [m], rfl, { hrun with
        sent := ?_
        ready := fun _ => hready
        dataType := ?_
        order := ?_
        within := ?_
        last := ?_
        afterwards := fun h => absurd rfl h
        sendSec := ⟨high + 1, rfl, ?_⟩
        finished := ?_ }⟩
      · simp [hrun.sent]
      · have hdata := hrun.dataType
        rw [List.append_nil] at hdata ⊢
        exact List.forall_mem_append.mpr ⟨hdata, List.forall_mem_singleton.mpr hm.chanType⟩
      · rw [List.map_append, hrun.order, List.length_append, List.length_singleton,
          List.range'_1_concat, List.map_singleton, hm.segmentNum, hnext, Nat.add_comm 1]
      · rw [List.length_append, List.length_singleton]
        exact hmore
      · refine List.forall_mem_append.mpr ⟨hrun.last, List.forall_mem_singleton.mpr fun heq => ?_⟩
        rw [hm.segmentNum] at heq
        apply hm.empty
        rw [heq]
        exact Nat.lt_succ_self _
      · exact fun h => absurd (hfinished.symm.trans h) Bool.false_ne_true
      · rw [hnext, List.length_append, List.length_singleton]
  | finished hover =>
      rw [hhigh] at hover
      exact ⟨firsts, rfl, { hrun with finished := fun _ => Nat.le_antisymm hwithin hover }⟩

theorem Running.branch (hrun : Running fhandle w firsts agains) (msgID : UInt32)
    (hready : w.chan.ready = true) :
    ∃ w' firsts' agains', w.branch msgID = .ok w' ∧ Running fhandle w' firsts' agains' := by
  cases hfinished : w.thread.finishedFt with
  | true =>
      obtain ⟨w', agains', hsend, hrun'⟩ := hrun.sendAgain msgID hready hfinished
      refine ⟨w', firsts, agains', ?_, hrun'⟩
      rw [Worker.branch, if_pos hfinished, hsend]
  | false =>
      obtain ⟨w', firsts', hsend, hrun'⟩ := hrun.sendNext msgID hready hfinished
      refine ⟨w', firsts', agains, ?_, hrun'⟩
      rw [Worker.branch, if_neg (Bool.eq_false_iff.mp hfinished), hsend]

/-- The thread goes on to a place where it needs nothing from the record. -/
theorem Running.goOn (hrun : Running fhandle w firsts agains) {place : Place}
    (hready : w.chan.ready = true) (hpending : w.chan.data = true → w.chan.value.isSome = true)
    (hplace : ¬ (place = .add ∨ place = .free)) : Running fhandle (w.goto place) firsts agains :=
  hrun.goto (fun _ => .inl hready) (fun _ => hready) (fun hdata _ => hpending hdata)
    fun hheld => absurd hheld hplace

/-- The thread goes on with the message in the record. -/
theorem Running.goOnWith (hrun : Running fhandle w firsts agains) (place : Place)
    (hready : w.chan.ready = true) (hvalue : w.chan.value.isSome = true) :
    Running fhandle (w.goto place) firsts agains :=
  hrun.goto (fun _ => .inl hready) (fun _ => hready) (fun _ _ => hvalue) fun _ => hvalue

theorem Running.step (hrun : Running fhandle w firsts agains) (msgID : UInt32) :
    ∃ w' firsts' agains', w.step msgID = .ok w' ∧ Running fhandle w' firsts' agains' := by
  have hactive := hrun.active
  have hpending := hrun.pending
  have hheld := hrun.held
  rw [Worker.step]
  cases hplace : w.thread.place with
  | waiting =>
      rw [hplace] at hpending
      refine ⟨_, firsts, agains, rfl, ?_⟩
      split
      next => exact hrun
      next hset =>
        refine hrun.goto (fun _ => ?_) Bool.noConfusion
          (fun hdata _ => hpending hdata Place.noConfusion)
          fun h => h.elim Place.noConfusion Place.noConfusion
        cases hready : w.chan.ready with
        | true => exact .inl rfl
        | false => exact .inr (by simpa [hready] using hset)
  | loop =>
      have hentered := hrun.entered hplace
      rw [hplace] at hpending
      have hvalue := fun hdata => hpending hdata Place.noConfusion
      refine ⟨_, firsts, agains, rfl, ?_⟩
      split
      next =>
        exact hrun.goto Place.noConfusion Bool.noConfusion (fun hdata _ => hvalue hdata)
          fun h => h.elim Place.noConfusion Place.noConfusion
      next hkill => exact hrun.goOn (hentered.resolve_right hkill) hvalue (by decide)
  | relay =>
      rw [hplace] at hactive hpending
      refine ⟨_, firsts, agains, rfl, ?_⟩
      split
      next hdata => exact hrun.goOnWith .add (hactive rfl) (hpending hdata Place.noConfusion)
      next hdata => exact hrun.goOn (hactive rfl) (fun h => absurd h hdata) (by decide)
  | add =>
      rw [hplace] at hactive
      obtain ⟨value, hsome⟩ := Option.isSome_iff_exists.mp (hheld (.inl hplace))
      have hadded : Running fhandle { w with thread :=
          { w.thread with
            retransSec := addToSection w.thread.retransSec value.head.segmentNum } }
          firsts agains := { hrun with }
      simp only [Worker.addValue_eq hsome, run_bind]
      exact ⟨_, firsts, agains, rfl, hadded.goOnWith .free (hactive rfl) (hsome ▸ rfl)⟩
  | free =>
      rw [hplace] at hactive
      obtain ⟨value, hsome⟩ := Option.isSome_iff_exists.mp (hheld (.inr hplace))
      simp only [Worker.freeValue_eq hsome, run_bind]
      exact ⟨_, firsts, agains, rfl, { hrun with
        opened := ⟨hrun.opened.handle, hrun.opened.maxSize⟩
        entered := fun h => Place.noConfusion h
        active := fun _ => hactive rfl
        pending := fun _ h => absurd rfl h
        held := fun h => h.elim Place.noConfusion Place.noConfusion }⟩
  | reset =>
      rw [hplace] at hactive
      exact ⟨_, firsts, agains, rfl, { hrun with
        opened := ⟨hrun.opened.handle, hrun.opened.maxSize⟩
        entered := fun h => Place.noConfusion h
        active := fun _ => hactive rfl
        pending := fun h => Bool.noConfusion h
        held := fun h => h.elim Place.noConfusion Place.noConfusion }⟩
  | branch =>
      rw [hplace] at hactive hpending
      obtain ⟨w', firsts', agains', hbranch, hrun'⟩ := hrun.branch msgID (hactive rfl)
      have hchan := Worker.branch_chan hbranch
      simp only [hbranch, run_bind]
      refine ⟨_, firsts', agains', rfl, hrun'.goOn ?_ ?_ (by decide)⟩
      · rw [hchan]
        exact hactive rfl
      · rw [hchan]
        exact fun hdata => hpending hdata Place.noConfusion
  | ended => exact ⟨w, firsts, agains, rfl, hrun⟩

end Step

theorem run_running (sock : Nat) (selfID otherID : UInt64) {maxSize : UInt64}
    (fhandle : FileHandle) (hsize : maxSize ≠ 0) (events : List ThreadEvent) :
    ∃ w, run Worker.event events (Worker.start sock selfID otherID maxSize fhandle) = .ok w ∧
      ∃ firsts agains, Running fhandle w firsts agains := by
  have hstep : ∀ e w, (∃ firsts agains, Running fhandle w firsts agains) →
      ∃ w', Worker.event e w = .ok w' ∧ ∃ firsts agains, Running fhandle w' firsts agains := by
    intro e w ⟨firsts, agains, hrun⟩
    cases e with
    | ready => exact ⟨_, rfl, firsts, agains, hrun.setReady⟩
    | kill => exact ⟨_, rfl, firsts, agains, hrun.setKill⟩
    | receive recvmsg => exact ⟨_, rfl, firsts, agains, hrun.receive recvmsg⟩
    | step msgID =>
        obtain ⟨w', firsts', agains', hok, hrun'⟩ := hrun.step msgID
        exact ⟨w', hok, firsts', agains', hrun'⟩
  exact run_total hstep events ⟨[], [], running_start sock selfID otherID fhandle hsize⟩

/-! ## The way to the end -/

/-- The message was sent in the first pass. -/
def Sent.isFirst : Sent → Bool
  | .first _ => true
  | .again _ => false

/-- The event is a step of the thread. -/
def ThreadEvent.isStep : ThreadEvent → Bool
  | .step _ => true
  | _ => false

/-- The messages of the first pass so far. -/
def Worker.firstCount (w : Worker) : Nat := w.thread.sent.countP Sent.isFirst

/-- The steps from here to the end of the next branch. -/
def Place.toBranch : Place → Nat
  | .waiting => 7
  | .loop => 6
  | .relay => 5
  | .add => 4
  | .free => 3
  | .reset => 2
  | .branch => 1
  | .ended => 0

/-- The steps that are enough for the messages of the first pass. -/
def Worker.due (total : Nat) (w : Worker) : Nat :=
  7 * (total - w.firstCount) + w.thread.place.toBranch

section Way

variable {fhandle : FileHandle} {w w' : Worker} {firsts agains : List Msg} {total : Nat}
  {msgID : UInt32}

theorem Protocol.firstCount_eq (hprotocol : Protocol fhandle w firsts agains) :
    w.firstCount = firsts.length := by
  rw [Worker.firstCount, hprotocol.sent, List.countP_append, List.countP_map, List.countP_map]
  simp [Function.comp_def, Sent.isFirst]

/-- A branch adds the next message of the first pass, as long as there is one. -/
theorem Running.branch_counts (hrun : Running fhandle w firsts agains)
    (hbranch : w.branch msgID = .ok w') :
    w.firstCount ≤ w'.firstCount ∧
      (w.firstCount < fhandle.segments w.chan.maxSize.toNat + 1 →
        w'.firstCount = w.firstCount + 1) := by
  have hcount := hrun.toProtocol.firstCount_eq
  rw [Worker.branch] at hbranch
  split at hbranch
  next hfinished =>
    have hover : ¬ w.firstCount < fhandle.segments w.chan.maxSize.toNat + 1 := by
      rw [hcount, hrun.finished hfinished]
      exact Nat.lt_irrefl _
    refine ⟨?_, fun hmore => absurd hmore hover⟩
    rw [Worker.sendAgain] at hbranch
    split at hbranch
    next =>
      cases hbranch
      exact Nat.le_refl _
    next =>
      obtain ⟨m, -, hbranch⟩ := run_bind_eq_ok.mp hbranch
      cases hbranch
      simp [Worker.firstCount]
  next =>
    obtain ⟨high, hsec, hhigh⟩ := hrun.sendSec
    obtain ⟨sent, hsend, hadvanced⟩ := w.sendNext_spec hrun.opened hsec msgID
    rw [hsend, Except.ok.injEq] at hbranch
    subst hbranch
    cases hadvanced with
    | segment m hm hmore =>
        have hnext : Worker.firstCount { w with thread :=
            { w.thread with sendSec := [⟨0, high + 1⟩], sent := w.thread.sent ++ [.first m] } } =
              w.firstCount + 1 := by
          simp [Worker.firstCount, Sent.isFirst]
        exact ⟨by omega, fun _ => hnext⟩
    | finished hover =>
        refine ⟨Nat.le_refl _, fun hmore => ?_⟩
        rw [hhigh, ← hcount] at hover
        exact absurd hmore (Nat.not_lt.mpr hover)

/-- The flags of the main loop are not the thread's to change. -/
theorem Worker.step_flags (hstep : w.step msgID = .ok w') :
    w'.chan.ready = w.chan.ready ∧ w'.chan.kill = w.chan.kill := by
  rw [Worker.step] at hstep
  cases hplace : w.thread.place with
  | waiting =>
      rw [hplace] at hstep
      cases hstep
      split
      next => exact ⟨rfl, rfl⟩
      next => exact ⟨rfl, rfl⟩
  | loop | relay | reset | ended =>
      rw [hplace] at hstep
      cases hstep
      exact ⟨rfl, rfl⟩
  | add | free =>
      rw [hplace] at hstep
      obtain ⟨w, hrun, hstep⟩ := run_bind_eq_ok.mp hstep
      obtain ⟨value, -, hrun⟩ := run_bind_eq_ok.mp hrun
      cases hrun
      cases hstep
      exact ⟨rfl, rfl⟩
  | branch =>
      rw [hplace] at hstep
      obtain ⟨next, hbranch, hstep⟩ := run_bind_eq_ok.mp hstep
      cases hstep
      have hchan : next.chan = w.chan := Worker.branch_chan hbranch
      exact ⟨congrArg Channel.ready hchan, congrArg Channel.kill hchan⟩

/-- Readied and not told to end, the thread gets nearer to the end of the first pass. -/
theorem Running.step_nearer (hrun : Running fhandle w firsts agains) (hready : w.chan.ready = true)
    (hkill : w.chan.kill = false) (hplace : w.thread.place ≠ .ended)
    (htotal : fhandle.segments w.chan.maxSize.toNat + 1 = total)
    (hstep : w.step msgID = .ok w') :
    w'.thread.place ≠ .ended ∧ w.firstCount ≤ w'.firstCount ∧
      (w.firstCount < total → w'.due total < w.due total) := by
  have hgoto : ∀ (v : Worker) (place : Place), place ≠ .ended →
      v.thread.sent = w.thread.sent → place.toBranch < w.thread.place.toBranch →
      (v.goto place).thread.place ≠ .ended ∧ w.firstCount ≤ (v.goto place).firstCount ∧
        (w.firstCount < total → (v.goto place).due total < w.due total) := by
    intro v place hgoes hsent hnearer
    have hcount : (v.goto place).firstCount = w.firstCount := congrArg (List.countP _) hsent
    have hthere : (v.goto place).thread.place = place := rfl
    exact ⟨hgoes, Nat.le_of_eq hcount.symm, fun _ => by
      rw [Worker.due, Worker.due, hcount, hthere]
      omega⟩
  rw [Worker.step] at hstep
  cases hat : w.thread.place with
  | waiting =>
      simp only [hat, hready, Bool.not_true, Bool.false_and, Bool.false_eq_true, if_false] at hstep
      cases hstep
      exact hgoto w .loop Place.noConfusion rfl (by rw [hat]; decide)
  | loop =>
      simp only [hat, hkill, Bool.false_eq_true, if_false] at hstep
      cases hstep
      exact hgoto w .relay Place.noConfusion rfl (by rw [hat]; decide)
  | relay =>
      rw [hat] at hstep
      cases hstep
      split
      next => exact hgoto w .add Place.noConfusion rfl (by rw [hat]; decide)
      next => exact hgoto w .branch Place.noConfusion rfl (by rw [hat]; decide)
  | add =>
      rw [hat] at hstep
      obtain ⟨next, hadd, hstep⟩ := run_bind_eq_ok.mp hstep
      obtain ⟨value, -, hadd⟩ := run_bind_eq_ok.mp hadd
      cases hadd
      cases hstep
      exact hgoto _ .free Place.noConfusion rfl (by rw [hat]; decide)
  | free =>
      rw [hat] at hstep
      obtain ⟨next, hfree, hstep⟩ := run_bind_eq_ok.mp hstep
      obtain ⟨value, -, hfree⟩ := run_bind_eq_ok.mp hfree
      cases hfree
      cases hstep
      exact hgoto _ .reset Place.noConfusion rfl (by rw [hat]; decide)
  | reset =>
      rw [hat] at hstep
      cases hstep
      exact hgoto w.resetData .branch Place.noConfusion rfl (by rw [hat]; decide)
  | branch =>
      rw [hat] at hstep
      obtain ⟨next, hbranch, hstep⟩ := run_bind_eq_ok.mp hstep
      cases hstep
      obtain ⟨hcount, hmore⟩ := hrun.branch_counts hbranch
      refine ⟨Place.noConfusion, hcount, fun hleft => ?_⟩
      have hnext : (next.goto .loop).firstCount = w.firstCount + 1 := hmore (htotal ▸ hleft)
      have hthere : (next.goto .loop).thread.place.toBranch = 6 := rfl
      rw [Worker.due, Worker.due, hnext, hthere, hat, Place.toBranch]
      omega
  | ended => exact absurd hat hplace

/-- The thread is on its way, and so many steps are enough for the first pass. -/
structure Going (fhandle : FileHandle) (total steps : Nat) (w : Worker) : Prop where
  running : ∃ firsts agains, Running fhandle w firsts agains
  counted : fhandle.segments w.chan.maxSize.toNat + 1 = total
  ready : w.chan.ready = true
  kill : w.chan.kill = false
  place : w.thread.place ≠ .ended
  enough : total ≤ w.firstCount ∨ w.due total ≤ steps

theorem Going.event {steps : Nat} (hgoing : Going fhandle total steps w) {e : ThreadEvent}
    (hkill : e ≠ .kill) :
    ∃ w', Worker.event e w = .ok w' ∧
      Going fhandle total (steps - if e.isStep then 1 else 0) w' := by
  obtain ⟨⟨firsts, agains, hrun⟩, htotal, hready, hkept, hplace, henough⟩ := hgoing
  cases e with
  | ready => exact ⟨_, rfl, ⟨_, _, hrun.setReady⟩, htotal, rfl, hkept, hplace, henough⟩
  | kill => exact absurd rfl hkill
  | receive recvmsg =>
      exact ⟨_, rfl, ⟨_, _, hrun.receive recvmsg⟩, htotal, hready, hkept, hplace, henough⟩
  | step msgID =>
      obtain ⟨w', firsts', agains', hstep, hrun'⟩ := hrun.step msgID
      obtain ⟨hready', hkill'⟩ := Worker.step_flags hstep
      obtain ⟨hplace', hcount, hnearer⟩ := hrun.step_nearer hready hkept hplace htotal hstep
      refine ⟨w', hstep, ⟨firsts', agains', hrun'⟩, ?_, hready'.trans hready, hkill'.trans hkept,
        hplace', ?_⟩
      · rw [(Worker.step_alike hstep).maxSize, htotal]
      · rcases Nat.lt_or_ge w.firstCount total with hleft | hfull
        · have hsteps := henough.resolve_left (Nat.not_le.mpr hleft)
          have hless := hnearer hleft
          simp only [ThreadEvent.isStep, if_true]
          exact .inr (by omega)
        · exact .inl (Nat.le_trans hfull hcount)

/-- Whatever else is asked for, with enough steps the first pass is complete. -/
theorem Going.run {steps : Nat} (hgoing : Going fhandle total steps w) {events : List ThreadEvent}
    (hkill : .kill ∉ events) (hmany : steps ≤ events.countP ThreadEvent.isStep) :
    ∃ w' firsts agains, Transitions.run Worker.event events w = .ok w' ∧
      Protocol fhandle w' firsts agains ∧ total ≤ firsts.length := by
  induction events generalizing w steps with
  | nil =>
      obtain ⟨⟨firsts, agains, hrun⟩, htotal, -, -, hplace, henough⟩ := hgoing
      refine ⟨w, firsts, agains, rfl, hrun.toProtocol, ?_⟩
      rw [← hrun.toProtocol.firstCount_eq]
      rcases henough with hfull | hdue
      · exact hfull
      · have hnone : w.due total = 0 := Nat.le_zero.mp (Nat.le_trans hdue hmany)
        rw [Worker.due] at hnone
        omega
  | cons e events ih =>
      obtain ⟨hhead, htail⟩ := not_or.mp (mt List.mem_cons.mpr hkill)
      obtain ⟨next, hnext, hgoing'⟩ := hgoing.event (Ne.symm hhead)
      rw [List.countP_cons] at hmany
      obtain ⟨w', firsts, agains, hrun, hends⟩ := ih hgoing' htail (by split at hmany <;> simp_all)
      exact ⟨w', firsts, agains, (run_cons_of_ok hnext).trans hrun, hends⟩

end Way

theorem Worker.event_alike {e : ThreadEvent} {w w' : Worker}
    (hevent : Worker.event e w = .ok w') : Alike w w' := by
  cases e with
  | ready =>
      cases hevent
      exact alike_setReady w
  | kill =>
      cases hevent
      exact alike_setKill w
  | receive recvmsg =>
      cases hevent
      exact alike_receive recvmsg w
  | step msgID => exact Worker.step_alike hevent

/-- Nothing that happens to a channel changes the size of its segments. -/
theorem run_maxSize {events : List ThreadEvent} {w w' : Worker}
    (hrun : run Worker.event events w = .ok w') : w'.chan.maxSize = w.chan.maxSize := by
  have hkept : (fun v : Worker => v.chan.maxSize = w.chan.maxSize) w' :=
    run_invariant (fun _ _ _ hv hevent => (Worker.event_alike hevent).maxSize.trans hv) rfl hrun
  exact hkept

/-- The flags say what the main loop did. -/
theorem run_flags {events : List ThreadEvent} {w w' : Worker}
    (hrun : run Worker.event events w = .ok w') :
    (w'.chan.ready = true ↔ w.chan.ready = true ∨ .ready ∈ events) ∧
      (w'.chan.kill = true ↔ w.chan.kill = true ∨ .kill ∈ events) := by
  induction events generalizing w with
  | nil =>
      cases hrun
      simp
  | cons e events ih =>
      obtain ⟨next, hnext, hrest⟩ := run_cons_eq_ok.mp hrun
      obtain ⟨hready, hkill⟩ := ih hrest
      rw [hready, hkill]
      cases e with
      | ready =>
          cases hnext
          simp [Worker.setReady]
      | kill =>
          cases hnext
          simp [Worker.setKill]
      | receive recvmsg =>
          cases hnext
          simp [Worker.receive]
      | step msgID =>
          obtain ⟨hready', hkill'⟩ := Worker.step_flags hnext
          simp [hready', hkill']

/-- The thread leaves its loop only when it is told to end. -/
theorem run_ended (sock : Nat) (selfID otherID : UInt64) {maxSize : UInt64} (fhandle : FileHandle)
    (hsize : maxSize ≠ 0) {events : List ThreadEvent} {w : Worker}
    (hrun : run Worker.event events (Worker.start sock selfID otherID maxSize fhandle) = .ok w) :
    w.thread.place = .ended → w.chan.kill = true := by
  have hstep : ∀ (e : ThreadEvent) (v v' : Worker),
      ((∃ firsts agains, Running fhandle v firsts agains) ∧
        (v.thread.place = .ended → v.chan.kill = true)) → Worker.event e v = .ok v' →
      (∃ firsts agains, Running fhandle v' firsts agains) ∧
        (v'.thread.place = .ended → v'.chan.kill = true) := by
    rintro e v v' ⟨⟨firsts, agains, hv⟩, hended⟩ hevent
    cases e with
    | ready =>
        cases hevent
        exact ⟨⟨_, _, hv.setReady⟩, hended⟩
    | kill =>
        cases hevent
        exact ⟨⟨_, _, hv.setKill⟩, fun _ => rfl⟩
    | receive recvmsg =>
        cases hevent
        exact ⟨⟨_, _, hv.receive recvmsg⟩, hended⟩
    | step msgID =>
        obtain ⟨next, firsts', agains', hnext, hv'⟩ := hv.step msgID
        obtain rfl : next = v' := Except.ok.inj (hnext.symm.trans hevent)
        refine ⟨⟨firsts', agains', hv'⟩, fun hthere => ?_⟩
        by_contra hkill
        rw [(Worker.step_flags hnext).2] at hkill
        have hplace : v.thread.place ≠ .ended := mt hended hkill
        have hkill := Bool.eq_false_iff.mpr hkill
        cases hready : v.chan.ready with
        | true => exact (hv.step_nearer hready hkill hplace rfl hnext).1 hthere
        | false =>
            -- Only a thread that still waits is not ready.
            have hwaits : v.thread.place = .waiting := by
              have hactive := hv.active
              have hentered := hv.entered
              cases hat : v.thread.place with
              | waiting => rfl
              | loop => simp [hat, hready, hkill] at hentered
              | ended => exact absurd hat hplace
              | relay | add | free | reset | branch =>
                  rw [hat, hready] at hactive
                  exact absurd (hactive rfl) Bool.false_ne_true
            simp only [Worker.step, hwaits, hready, hkill, Bool.not_false, Bool.and_self,
              if_true] at hnext
            cases hnext
            exact hplace hthere
  exact (run_invariant hstep
    ⟨⟨[], [], running_start sock selfID otherID fhandle hsize⟩, Place.noConfusion⟩ hrun).2

/-- In every order of events the run goes on, and what was sent keeps to the protocol. The
thread ends only when it was told to, and a channel that was readied and not told to end has
sent its whole first pass after so many steps, whatever comes in meanwhile. -/
theorem run_protocol (sock : Nat) (selfID otherID maxSize : UInt64) (fhandle : FileHandle)
    (hsize : maxSize ≠ 0) (events : List ThreadEvent) :
    ∃ w firsts agains,
      run Worker.event events (Worker.start sock selfID otherID maxSize fhandle) = .ok w ∧
        Protocol fhandle w firsts agains ∧ (w.thread.place = .ended → .kill ∈ events) ∧
        ∀ more, .ready ∈ events → .kill ∉ events ++ more →
          7 * (fhandle.segments maxSize.toNat + 2) ≤ more.countP ThreadEvent.isStep →
          ∃ w' firsts' agains', run Worker.event (events ++ more)
              (Worker.start sock selfID otherID maxSize fhandle) = .ok w' ∧
            Protocol fhandle w' firsts' agains' ∧
            firsts'.length = fhandle.segments maxSize.toNat + 1 := by
  obtain ⟨w, hrun, firsts, agains, hw⟩ :=
    run_running sock selfID otherID fhandle hsize events
  obtain ⟨hready, hkill⟩ := run_flags hrun
  have hended := run_ended sock selfID otherID fhandle hsize hrun
  refine ⟨w, firsts, agains, hrun, hw.toProtocol,
    fun hthere => (hkill.mp (hended hthere)).resolve_left Bool.false_ne_true, ?_⟩
  intro more hreadied hspared hmany
  have hsize' : w.chan.maxSize = maxSize := run_maxSize hrun
  have hkept : ¬ w.chan.kill = true := fun hkilled =>
    hspared (List.mem_append_left _ ((hkill.mp hkilled).resolve_left Bool.false_ne_true))
  have hturn : w.thread.place.toBranch ≤ 7 := by cases w.thread.place <;> decide
  have hgoing : Going fhandle (fhandle.segments maxSize.toNat + 1)
      (7 * (fhandle.segments maxSize.toNat + 2)) w := {
    running := ⟨firsts, agains, hw⟩
    counted := by rw [hsize']
    ready := hready.mpr (.inr hreadied)
    kill := Bool.eq_false_iff.mpr hkept
    place := mt hended hkept
    enough := .inr (by rw [Worker.due]; omega) }
  obtain ⟨w', firsts', agains', hrest, hprotocol, hall⟩ :=
    hgoing.run (fun hmem => hspared (List.mem_append_right _ hmem)) hmany
  have hwhole := (run_append hrun).trans hrest
  refine ⟨w', firsts', agains', hwhole, hprotocol, Nat.le_antisymm ?_ hall⟩
  have hwithin := hprotocol.within
  have hlast : w'.chan.maxSize = maxSize := run_maxSize hwhole
  rwa [hlast] at hwithin

/-- A file of one segment, from the middle of its first pass. -/
theorem run_protocol_small :
    ∃ w firsts agains w' firsts' agains',
      run Worker.event [.ready, .step 1, .step 2, .step 3, .step 4]
          (Worker.start 5 300 100 8 threeBytes) = .ok w ∧
        Protocol threeBytes w firsts agains ∧
        run Worker.event ([.ready, .step 1, .step 2, .step 3, .step 4] ++
          List.replicate 21 (.step 7)) (Worker.start 5 300 100 8 threeBytes) = .ok w' ∧
        Protocol threeBytes w' firsts' agains' ∧ firsts'.length = 2 := by
  obtain ⟨w, firsts, agains, hrun, hprotocol, -, hgoes⟩ := run_protocol 5 300 100 8 threeBytes
    (by decide) [.ready, .step 1, .step 2, .step 3, .step 4]
  obtain ⟨w', firsts', agains', hrun', hprotocol', hall⟩ :=
    hgoes (List.replicate 21 (.step 7)) (by simp) (by simp) (by decide)
  exact ⟨w, firsts, agains, w', firsts', agains', hrun, hprotocol, hrun', hprotocol', hall⟩

/-! ## The end of the first pass -/

/-- The first pass of the thread has this many packets: it can come to its end, and whenever
it has, they were sent. -/
structure SendsFirst (w : Worker) (count : Nat) : Prop where
  ends : ∃ events w', run Worker.event events w = .ok w' ∧ w'.thread.finishedFt = true
  counted : ∀ events w', run Worker.event events w = .ok w' → w'.thread.finishedFt = true →
    w'.thread.sent.countP Sent.isFirst = count

/-- Nothing keeps the thread from its next turn. -/
structure Undisturbed (fhandle : FileHandle) (w : Worker) : Prop where
  opened : w.chan.Opened fhandle
  sendSec : ∃ high : UInt64, w.thread.sendSec = [⟨0, high⟩]
  place : w.thread.place = .loop
  kill : w.chan.kill = false
  data : w.chan.data = false

/-- How many segments are left. -/
def Worker.remaining (fhandle : FileHandle) (w : Worker) : Nat :=
  fhandle.segments w.chan.maxSize.toNat + 1 -
    (lastContinualHighInSection w.thread.sendSec).toNat

theorem Undisturbed.turn {fhandle : FileHandle} {w : Worker} (hundisturbed : Undisturbed fhandle w)
    (hfinished : ¬ w.thread.finishedFt = true) :
    ∃ events w', run Worker.event events w = .ok w' ∧ Undisturbed fhandle w' ∧
      (w'.thread.finishedFt = true ∨ w'.remaining fhandle < w.remaining fhandle) := by
  obtain ⟨hopened, ⟨high, hsec⟩, hplace, hkill, hdata⟩ := hundisturbed
  obtain ⟨count, hturn⟩ := Worker.run_step_eq_pass hplace hkill 0
  obtain ⟨w', hsend, hadvanced⟩ := w.sendNext_spec hopened hsec 0
  -- A turn is one pass, and in the first pass that is `sendNext`.
  have hpass : w.pass 0 = w.sendNext 0 := by
    rw [Worker.pass, if_neg (Bool.eq_false_iff.mp hdata), Worker.branch, if_neg hfinished]
  refine ⟨(List.replicate count 0).map .step, w', ?_, ?_⟩
  · rw [run_map]
    exact hturn.trans (hpass.trans hsend)
  cases hadvanced with
  | segment m hm hmore =>
      have hlt := fhandle.segments_lt (toNat_pos hopened.maxSize)
      have hnext : (high + 1).toNat = high.toNat + 1 := toNat_add_one (by omega)
      refine ⟨⟨hopened, ⟨high + 1, rfl⟩, hplace, hkill, hdata⟩, .inr ?_⟩
      simp only [Worker.remaining, hsec, lastContinualHighInSection, hnext]
      omega
  | finished hover => exact ⟨⟨hopened, ⟨high, hsec⟩, hplace, hkill, hdata⟩, .inl rfl⟩

/-- The thread sends every segment and one packet more. -/
theorem sendsFirst_start (sock : Nat) (selfID otherID maxSize : UInt64) (fhandle : FileHandle)
    (hsize : maxSize ≠ 0) :
    SendsFirst (Worker.start sock selfID otherID maxSize fhandle)
      (fhandle.segments maxSize.toNat + 1) := by
  constructor
  · let begun := ((Worker.start sock selfID otherID maxSize fhandle).setReady).goto .loop
    have hbegun : run Worker.event [.ready, .step 0]
        (Worker.start sock selfID otherID maxSize fhandle) = .ok begun := rfl
    have hundisturbed : Undisturbed fhandle begun := ⟨⟨rfl, hsize⟩, ⟨0, rfl⟩, rfl, rfl, rfl⟩
    obtain ⟨events, w, hrun, -, hends⟩ :=
      exists_run_of_measure (Worker.remaining fhandle) (fun _ => Undisturbed.turn) hundisturbed
    exact ⟨_, w, (run_append hbegun).trans hrun, hends⟩
  · intro events w hrun hends
    obtain ⟨w', hrun', firsts, agains, hw⟩ :=
      run_running sock selfID otherID fhandle hsize events
    obtain rfl : w' = w := Except.ok.inj (hrun'.symm.trans hrun)
    have hcount : w'.thread.sent.countP Sent.isFirst = firsts.length :=
      hw.toProtocol.firstCount_eq
    rw [hcount, hw.finished hends, run_maxSize hrun]
    rfl

end Hipft
