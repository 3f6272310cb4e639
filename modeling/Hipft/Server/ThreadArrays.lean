import Hipft.Section.Arrays
import Hipft.Server.Converge

/-! # The arrays of a thread

The thread of a channel with its sections as they are in memory, down to the end of
`fork_server_channel`. Its runs are those of the thread with the lists of pieces, and it
frees an array twice exactly where that one is drained.
-/

namespace Hipft

open CMemory Transitions

/-- The locals of `fork_server_channel`, the sections with their arrays. -/
structure ArrayThread where
  place : Place
  finishedFt : Bool
  sendSec : SectionArray
  retransSec : SectionArray
  sent : List Sent
  deriving DecidableEq

/-- A channel and its thread. -/
structure ArrayWorker where
  chan : Channel
  thread : ArrayThread
  deriving DecidableEq

namespace ArrayWorker

/-- The channel that the main loop creates, with its thread in front of the first loop. -/
def start (sock : Nat) (selfID otherID maxSize : UInt64) (fhandle : FileHandle) :
    Run ArrayWorker := do
  let sendSec ← checked (SectionArray.create.addToSection 0)
  pure { chan := (Worker.start sock selfID otherID maxSize fhandle).chan
         thread := { place := .waiting, finishedFt := false, sendSec
                     retransSec := .create, sent := [] } }

def goto (place : Place) (a : ArrayWorker) : ArrayWorker :=
  { a with thread := { a.thread with place := place } }

/-- `add_to_section(retrans_sec, chan->value->head->segmentNum)`. -/
def addValue (a : ArrayWorker) : Run ArrayWorker := do
  let value ← deref a.chan.value
  let retransSec ← checked (a.thread.retransSec.addToSection value.head.segmentNum)
  pure { a with thread := { a.thread with retransSec } }

/-- `free_msg(chan->value)`. -/
def freeValue (a : ArrayWorker) : Run ArrayWorker := do
  let _ ← deref a.chan.value
  pure { a with chan := { a.chan with value := none } }

/-- `chan->data = false`. -/
def resetData (a : ArrayWorker) : ArrayWorker := { a with chan := { a.chan with data := false } }

/-- The branch with the file finished. -/
def sendAgain (msgID : UInt32) (a : ArrayWorker) : Run ArrayWorker := do
  let piece ← checked (a.thread.retransSec.getPieceInSection 0)
  match piece with
  | none => pure a
  | some _ => do
      let num ← checked a.thread.retransSec.firstLowInSection
      let tempmsg ← sendSegment a.chan msgID num
      let retransSec ← checked (a.thread.retransSec.deleteFromSection num)
      pure { a with thread :=
        { a.thread with retransSec, sent := a.thread.sent ++ [.again tempmsg] } }

/-- The branch before that. -/
def sendNext (msgID : UInt32) (a : ArrayWorker) : Run ArrayWorker := do
  let handle ← deref a.chan.handle
  let numSegments ← numSegmentsInFileHandle handle a.chan.maxSize
  let high ← checked a.thread.sendSec.lastContinualHighInSection
  if high < numSegments + 1 then do
    let tempmsg ← sendSegment a.chan msgID (high + 1)
    let sendSec ← checked (a.thread.sendSec.addToSection (high + 1))
    pure { a with thread := { a.thread with sendSec, sent := a.thread.sent ++ [.first tempmsg] } }
  else pure { a with thread := { a.thread with finishedFt := true } }

def branch (msgID : UInt32) (a : ArrayWorker) : Run ArrayWorker :=
  if a.thread.finishedFt then a.sendAgain msgID else a.sendNext msgID

/-- One step of the thread. -/
def step (msgID : UInt32) (a : ArrayWorker) : Run ArrayWorker :=
  match a.thread.place with
  | .waiting => pure (if !a.chan.ready && !a.chan.kill then a else a.goto .loop)
  | .loop => pure (a.goto (if a.chan.kill then .ended else .relay))
  | .relay => pure (a.goto (if a.chan.data then .add else .branch))
  | .add => do
      let a ← a.addValue
      pure (a.goto .free)
  | .free => do
      let a ← a.freeValue
      pure (a.goto .reset)
  | .reset => pure (a.resetData.goto .branch)
  | .branch => do
      let a ← a.branch msgID
      pure (a.goto .loop)
  | .ended => pure a

/-- What comes behind the loop. -/
def converge (a : ArrayWorker) : Run Unit := do
  let _ ← if a.chan.data then a.freeValue else pure a
  checked a.thread.sendSec.freeSection
  checked a.thread.retransSec.freeSection

def event : ThreadEvent → ArrayWorker → Run ArrayWorker
  | .ready, a => pure { a with chan := { a.chan with ready := true } }
  | .kill, a => pure { a with chan := { a.chan with kill := true } }
  | .receive recvmsg, a =>
      pure { a with chan := { a.chan with value := some recvmsg, data := true } }
  | .step msgID, a => a.step msgID

end ArrayWorker

/-! ## Arrays for the lists -/

/-- The thread with these arrays. -/
def Worker.withArrays (sendSec retransSec : SectionArray) (w : Worker) : ArrayWorker where
  chan := w.chan
  thread :=
    { place := w.thread.place, finishedFt := w.thread.finishedFt, sendSec, retransSec
      sent := w.thread.sent }

/-- The arrays are those of the thread, which has done so many steps. -/
structure Worker.Stored (sendSec retransSec : SectionArray) (count : Nat) (w : Worker) : Prop where
  send : sendSec.Has w.thread.sendSec
  begun : w.thread.sendSec ≠ []
  retrans : retransSec.Has w.thread.retransSec
  again : retransSec.freed = true → ∃ s ∈ w.thread.sent, s.isFirst = false
  drained : w.Drained → retransSec.freed = true
  sendFew : w.thread.sendSec.length ≤ count + 1
  retransFew : w.thread.retransSec.length ≤ count

section Stored

variable {sendSec retransSec : SectionArray} {count : Nat} {w w' : Worker} {msgID : UInt32}

/-- The one array is freed where the thread is drained, the other never. -/
theorem Worker.Stored.freed_iff (hstored : w.Stored sendSec retransSec count) :
    retransSec.freed = true ↔ w.Drained :=
  ⟨fun hfreed => ⟨hstored.retrans.freed hfreed, hstored.again hfreed⟩, hstored.drained⟩

theorem Worker.Stored.longer (hstored : w.Stored sendSec retransSec count) :
    w.Stored sendSec retransSec (count + 1) :=
  { hstored with
    sendFew := Nat.le_succ_of_le hstored.sendFew
    retransFew := Nat.le_succ_of_le hstored.retransFew }

/-- A step that leaves the sections and what was sent leaves the arrays. -/
theorem Worker.Stored.of_thread (hstored : w.Stored sendSec retransSec count)
    (hsend : w'.thread.sendSec = w.thread.sendSec)
    (hretrans : w'.thread.retransSec = w.thread.retransSec)
    (hsent : w'.thread.sent = w.thread.sent) : w'.Stored sendSec retransSec (count + 1) := by
  have hdrained : w'.Drained ↔ w.Drained := by
    rw [Worker.Drained, Worker.Drained, hretrans, hsent]
  have hlonger := hstored.longer
  exact ⟨hsend ▸ hlonger.send, hsend ▸ hlonger.begun, hretrans ▸ hlonger.retrans,
    hsent ▸ hlonger.again, hlonger.drained ∘ hdrained.mp, hsend ▸ hlonger.sendFew,
    hretrans ▸ hlonger.retransFew⟩

theorem Worker.Stored.addValue (hstored : w.Stored sendSec retransSec count)
    (hfew : count + 2 < 2 ^ 64) (hadd : w.addValue = .ok w') :
    ∃ retransSec', (w.withArrays sendSec retransSec).addValue =
        .ok (w'.withArrays sendSec retransSec') ∧
      w'.Stored sendSec retransSec' (count + 1) := by
  obtain ⟨value, hvalue, hadd⟩ := run_bind_eq_ok.mp hadd
  cases hadd
  have hroom : w.thread.retransSec.length + 1 < 2 ^ 64 :=
    Nat.lt_of_le_of_lt (Nat.succ_le_succ hstored.retransFew) (by omega)
  obtain ⟨retransSec', hadd, hhas⟩ := hstored.retrans.addToSection hroom value.head.segmentNum
  have hsome := addToSection_ne_nil w.thread.retransSec value.head.segmentNum
  refine ⟨retransSec', ?_, { hstored with
    retrans := hhas
    again := fun hfreed => absurd (hhas.freed hfreed) hsome
    drained := fun hdrained => absurd hdrained.1 hsome
    sendFew := Nat.le_succ_of_le hstored.sendFew
    retransFew := ?_ }⟩
  · simp only [ArrayWorker.addValue, Worker.withArrays, hvalue, hadd, checked_ok, run_bind]
    rfl
  · exact (addToSection_length _ _).trans (Nat.succ_le_succ hstored.retransFew)

theorem Worker.Stored.sendAgain (hstored : w.Stored sendSec retransSec count)
    (hfew : count + 2 < 2 ^ 64) (hsend : w.sendAgain msgID = .ok w') :
    ∃ retransSec', (w.withArrays sendSec retransSec).sendAgain msgID =
        .ok (w'.withArrays sendSec retransSec') ∧
      w'.Stored sendSec retransSec' (count + 1) := by
  rw [Worker.sendAgain] at hsend
  cases hsec : w.thread.retransSec with
  | nil =>
      rw [hsec] at hsend
      cases hsend
      have hhas := hstored.retrans
      rw [hsec] at hhas
      refine ⟨retransSec, ?_, hstored.longer⟩
      simp only [ArrayWorker.sendAgain, Worker.withArrays, hhas.nothing, checked_ok, run_bind]
      rfl
  | cons piece rest =>
      rw [hsec] at hsend
      obtain ⟨m, hsegment, hsend⟩ := run_bind_eq_ok.mp hsend
      cases hsend
      have hhas := hstored.retrans
      have hroom : w.thread.retransSec.length + 1 < 2 ^ 64 :=
        Nat.lt_of_le_of_lt (Nat.succ_le_succ hstored.retransFew) (by omega)
      rw [hsec] at hhas hroom
      obtain ⟨hlow, -, hfirst⟩ := hhas.first
      obtain ⟨retransSec', hdelete, hhas', hfreed⟩ := hhas.deleteFromSection hroom piece.lowBound
      refine ⟨retransSec', ?_, { hstored with
        retrans := hhas'
        again := fun _ => ⟨.again m, by simp, rfl⟩
        drained := fun hdrained => hfreed (by simp) hdrained.1
        sendFew := Nat.le_succ_of_le hstored.sendFew
        retransFew := ?_ }⟩
      · simp only [ArrayWorker.sendAgain, Worker.withArrays, hfirst, hlow, checked_ok, run_bind]
        rw [show sendSegment w.chan msgID piece.lowBound = .ok m from hsegment, run_bind, hdelete]
        rfl
      · refine (deleteFromSection_length _ _).trans (Nat.succ_le_succ ?_)
        rw [← hsec]
        exact hstored.retransFew

theorem Worker.Stored.sendNext (hstored : w.Stored sendSec retransSec count)
    (hfew : count + 2 < 2 ^ 64) (hsend : w.sendNext msgID = .ok w') :
    ∃ sendSec', (w.withArrays sendSec retransSec).sendNext msgID =
        .ok (w'.withArrays sendSec' retransSec) ∧
      w'.Stored sendSec' retransSec (count + 1) := by
  obtain ⟨handle, hhandle, hsend⟩ := run_bind_eq_ok.mp hsend
  obtain ⟨numSegments, hnum, hsend⟩ := run_bind_eq_ok.mp hsend
  have hhigh : sendSec.lastContinualHighInSection =
      .ok (lastContinualHighInSection w.thread.sendSec) := by
    have hhas := hstored.send
    cases hsec : w.thread.sendSec with
    | nil => exact absurd hsec hstored.begun
    | cons piece rest =>
        rw [hsec] at hhas
        exact hhas.first.2.1
  simp only [ArrayWorker.sendNext, Worker.withArrays, hhandle, hnum, hhigh, checked_ok, run_bind]
  simp only at hsend
  split at hsend
  next hmore =>
    obtain ⟨m, hsegment, hsend⟩ := run_bind_eq_ok.mp hsend
    cases hsend
    have hroom : w.thread.sendSec.length + 1 < 2 ^ 64 :=
      Nat.lt_of_le_of_lt (Nat.succ_le_succ hstored.sendFew) hfew
    obtain ⟨sendSec', hadd, hhas⟩ := hstored.send.addToSection hroom
      (lastContinualHighInSection w.thread.sendSec + 1)
    have hsome (sent : List Sent) : (∃ s ∈ sent ++ [.first m], s.isFirst = false) ↔
        ∃ s ∈ sent, s.isFirst = false := by
      simp [Sent.isFirst, or_and_right, exists_or]
    refine ⟨sendSec', ?_, hhas, addToSection_ne_nil _ _, hstored.retrans,
      fun hfreed => (hsome _).mpr (hstored.again hfreed),
      fun hdrained => hstored.drained ⟨hdrained.1, (hsome _).mp hdrained.2⟩,
      (addToSection_length _ _).trans (Nat.succ_le_succ hstored.sendFew),
      Nat.le_succ_of_le hstored.retransFew⟩
    rw [if_pos hmore, hsegment, run_bind, hadd]
    rfl
  next hmore =>
    cases hsend
    refine ⟨sendSec, ?_, hstored.of_thread rfl rfl rfl⟩
    rw [if_neg hmore]
    rfl

/-- A step of the thread is one with its arrays. -/
theorem Worker.Stored.step (hstored : w.Stored sendSec retransSec count)
    (hfew : count + 2 < 2 ^ 64) (hstep : w.step msgID = .ok w') :
    ∃ sendSec' retransSec', (w.withArrays sendSec retransSec).step msgID =
        .ok (w'.withArrays sendSec' retransSec') ∧
      w'.Stored sendSec' retransSec' (count + 1) := by
  have hthere : (w.withArrays sendSec retransSec).thread.place = w.thread.place := rfl
  rw [Worker.step] at hstep
  rw [ArrayWorker.step, hthere]
  cases hplace : w.thread.place with
  | waiting =>
      rw [hplace] at hstep
      have hchan : (w.withArrays sendSec retransSec).chan = w.chan := rfl
      simp only [hchan]
      by_cases hwait : (!w.chan.ready && !w.chan.kill) = true
      · rw [if_pos hwait] at hstep ⊢
        cases hstep
        exact ⟨sendSec, retransSec, rfl, hstored.longer⟩
      · rw [if_neg hwait] at hstep ⊢
        cases hstep
        exact ⟨sendSec, retransSec, rfl, hstored.of_thread rfl rfl rfl⟩
  | loop | relay | reset =>
      rw [hplace] at hstep
      cases hstep
      exact ⟨sendSec, retransSec, rfl, hstored.of_thread rfl rfl rfl⟩
  | ended =>
      rw [hplace] at hstep
      cases hstep
      exact ⟨sendSec, retransSec, rfl, hstored.longer⟩
  | add =>
      rw [hplace] at hstep
      obtain ⟨next, hadd, hstep⟩ := run_bind_eq_ok.mp hstep
      cases hstep
      obtain ⟨retransSec', harrays, hstored'⟩ := hstored.addValue hfew hadd
      refine ⟨sendSec, retransSec', ?_, { hstored' with }⟩
      simp only [harrays, run_bind]
      rfl
  | free =>
      rw [hplace] at hstep
      obtain ⟨next, hfree, hstep⟩ := run_bind_eq_ok.mp hstep
      obtain ⟨value, hvalue, hfree⟩ := run_bind_eq_ok.mp hfree
      cases hfree
      cases hstep
      refine ⟨sendSec, retransSec, ?_, hstored.of_thread rfl rfl rfl⟩
      simp only [ArrayWorker.freeValue, Worker.withArrays, hvalue, run_bind]
      rfl
  | branch =>
      rw [hplace] at hstep
      obtain ⟨next, hbranch, hstep⟩ := run_bind_eq_ok.mp hstep
      cases hstep
      rw [Worker.branch] at hbranch
      simp only [ArrayWorker.branch]
      have hsame : (w.withArrays sendSec retransSec).thread.finishedFt = w.thread.finishedFt := rfl
      rw [hsame]
      split at hbranch
      next hfinished =>
        obtain ⟨retransSec', harrays, hstored'⟩ := hstored.sendAgain hfew hbranch
        refine ⟨sendSec, retransSec', ?_, { hstored' with }⟩
        rw [if_pos hfinished, harrays]
        rfl
      next hfinished =>
        obtain ⟨sendSec', harrays, hstored'⟩ := hstored.sendNext hfew hbranch
        refine ⟨sendSec', retransSec, ?_, { hstored' with }⟩
        rw [if_neg hfinished, harrays]
        rfl

theorem Worker.Stored.event (hstored : w.Stored sendSec retransSec count)
    (hfew : count + 2 < 2 ^ 64) {e : ThreadEvent} (hevent : Worker.event e w = .ok w') :
    ∃ sendSec' retransSec', ArrayWorker.event e (w.withArrays sendSec retransSec) =
        .ok (w'.withArrays sendSec' retransSec') ∧
      w'.Stored sendSec' retransSec' (count + 1) := by
  cases e with
  | ready | kill | receive =>
      cases hevent
      exact ⟨sendSec, retransSec, rfl, hstored.of_thread rfl rfl rfl⟩
  | step msgID => exact hstored.step hfew hevent

/-- A run of the thread is one with its arrays. -/
theorem Worker.Stored.run (hstored : w.Stored sendSec retransSec count)
    {events : List ThreadEvent} (hfew : count + events.length + 1 < 2 ^ 64)
    (hrun : Transitions.run Worker.event events w = .ok w') :
    ∃ sendSec' retransSec',
      Transitions.run ArrayWorker.event events (w.withArrays sendSec retransSec) =
        .ok (w'.withArrays sendSec' retransSec') ∧
      w'.Stored sendSec' retransSec' (count + events.length) := by
  induction events generalizing w sendSec retransSec count with
  | nil =>
      cases hrun
      exact ⟨sendSec, retransSec, rfl, hstored⟩
  | cons e events ih =>
      rw [List.length_cons] at hfew ⊢
      obtain ⟨next, hevent, hrest⟩ := run_cons_eq_ok.mp hrun
      obtain ⟨sendSec', retransSec', harrays, hstored'⟩ := hstored.event (by omega) hevent
      rw [run_cons_of_ok harrays, Nat.add_comm events.length 1, ← Nat.add_assoc]
      exact ih hstored' (by omega) hrest

/-- Behind the loop the arrays are freed, the one of a drained thread twice. -/
theorem Worker.Stored.converge (hstored : w.Stored sendSec retransSec count) :
    (w.withArrays sendSec retransSec).converge = w.converge := by
  have hsend := hstored.send.freeSection
  rw [hstored.send.freed_eq_false hstored.begun, if_neg Bool.false_ne_true] at hsend
  have hretrans := hstored.retrans.freeSection
  simp only [hstored.freed_iff] at hretrans
  have hfrees : (do checked sendSec.freeSection; checked retransSec.freeSection : Run Unit) =
      if w.Drained then .error (.memory .doubleFree) else pure () := by
    rw [hsend, hretrans]
    by_cases hdrained : w.Drained
    · rw [if_pos hdrained, if_pos hdrained]
      rfl
    · rw [if_neg hdrained, if_neg hdrained]
      rfl
  change (do
    let _ ← if w.chan.data then (w.withArrays sendSec retransSec).freeValue
      else pure (w.withArrays sendSec retransSec)
    checked sendSec.freeSection
    checked retransSec.freeSection) = w.converge
  rw [hfrees, Worker.converge]
  cases w.chan.data with
  | false => rfl
  | true =>
      cases hvalue : w.chan.value with
      | none =>
          simp only [if_true, ArrayWorker.freeValue, Worker.freeValue, Worker.withArrays, hvalue]
          rfl
      | some value =>
          simp only [if_true, ArrayWorker.freeValue, Worker.freeValue, Worker.withArrays, hvalue]
          rfl

end Stored

theorem start_stored (sock : Nat) (selfID otherID maxSize : UInt64) (fhandle : FileHandle) :
    ∃ sendSec, ArrayWorker.start sock selfID otherID maxSize fhandle =
        .ok ((Worker.start sock selfID otherID maxSize fhandle).withArrays sendSec .create) ∧
      (Worker.start sock selfID otherID maxSize fhandle).Stored sendSec .create 0 := by
  obtain ⟨sendSec, hadd, hhas⟩ :=
    SectionArray.create_has.addToSection (show (createSection.length + 1) < 2 ^ 64 by decide) 0
  refine ⟨sendSec, ?_, hhas, addToSection_ne_nil _ _, SectionArray.create_has, nofun, ?_,
    addToSection_length _ _, Nat.le_refl 0⟩
  · rw [ArrayWorker.start, hadd]
    rfl
  · rintro ⟨-, s, hs, -⟩
    exact absurd hs List.not_mem_nil

/-- The section is empty, and something was sent again. -/
def ArrayWorker.Drained (a : ArrayWorker) : Prop :=
  a.thread.retransSec.numPieces = 0 ∧ ∃ s ∈ a.thread.sent, s.isFirst = false

instance (a : ArrayWorker) : Decidable a.Drained :=
  inferInstanceAs (Decidable (a.thread.retransSec.numPieces = 0 ∧
    ∃ s ∈ a.thread.sent, s.isFirst = false))

theorem Worker.Stored.drained_iff {sendSec retransSec : SectionArray} {count : Nat} {w : Worker}
    (hstored : w.Stored sendSec retransSec count) :
    (w.withArrays sendSec retransSec).Drained ↔ w.Drained := by
  have hempty : retransSec.numPieces = 0 ↔ w.thread.retransSec = [] := by
    rw [← UInt64.toNat_inj, hstored.retrans.numPieces]
    exact List.length_eq_zero_iff
  exact and_congr_left fun _ => hempty

/-! ## What is sent -/

section Sent

variable {a a' : ArrayWorker} {msgID : UInt32}

/-- Nothing was given to `send_msg`, or one message. -/
def ArrayWorker.SentMore (a a' : ArrayWorker) : Prop :=
  ∃ more : List Sent, a'.thread.sent = a.thread.sent ++ more ∧ more.length ≤ 1

theorem ArrayWorker.sentMore_of_eq (hsent : a'.thread.sent = a.thread.sent) : a.SentMore a' :=
  ⟨[], by rw [hsent, List.append_nil], Nat.zero_le 1⟩

theorem ArrayWorker.branch_sent (hbranch : a.branch msgID = .ok a') : a.SentMore a' := by
  rw [ArrayWorker.branch] at hbranch
  split at hbranch
  next =>
    obtain ⟨piece, -, hbranch⟩ := run_bind_eq_ok.mp hbranch
    cases piece with
    | none =>
        cases hbranch
        exact sentMore_of_eq rfl
    | some piece =>
        obtain ⟨num, -, hbranch⟩ := run_bind_eq_ok.mp hbranch
        obtain ⟨m, -, hbranch⟩ := run_bind_eq_ok.mp hbranch
        obtain ⟨retransSec, -, hbranch⟩ := run_bind_eq_ok.mp hbranch
        cases hbranch
        exact ⟨[.again m], rfl, Nat.le_refl 1⟩
  next =>
    obtain ⟨handle, -, hbranch⟩ := run_bind_eq_ok.mp hbranch
    obtain ⟨numSegments, -, hbranch⟩ := run_bind_eq_ok.mp hbranch
    obtain ⟨high, -, hbranch⟩ := run_bind_eq_ok.mp hbranch
    split at hbranch
    next =>
      obtain ⟨m, -, hbranch⟩ := run_bind_eq_ok.mp hbranch
      obtain ⟨sendSec, -, hbranch⟩ := run_bind_eq_ok.mp hbranch
      cases hbranch
      exact ⟨[.first m], rfl, Nat.le_refl 1⟩
    next =>
      cases hbranch
      exact sentMore_of_eq rfl

theorem ArrayWorker.event_sent {e : ThreadEvent} (hevent : ArrayWorker.event e a = .ok a') :
    a.SentMore a' := by
  cases e with
  | ready | kill | receive =>
      cases hevent
      exact sentMore_of_eq rfl
  | step msgID =>
      rw [ArrayWorker.event, ArrayWorker.step] at hevent
      cases hplace : a.thread.place with
      | waiting =>
          rw [hplace] at hevent
          cases hevent
          split
          next => exact sentMore_of_eq rfl
          next => exact sentMore_of_eq rfl
      | loop | relay | reset | ended =>
          rw [hplace] at hevent
          cases hevent
          exact sentMore_of_eq rfl
      | add =>
          rw [hplace] at hevent
          obtain ⟨next, hadd, hevent⟩ := run_bind_eq_ok.mp hevent
          obtain ⟨value, -, hadd⟩ := run_bind_eq_ok.mp hadd
          obtain ⟨retransSec, -, hadd⟩ := run_bind_eq_ok.mp hadd
          cases hadd
          cases hevent
          exact sentMore_of_eq rfl
      | free =>
          rw [hplace] at hevent
          obtain ⟨next, hfree, hevent⟩ := run_bind_eq_ok.mp hevent
          obtain ⟨value, -, hfree⟩ := run_bind_eq_ok.mp hfree
          cases hfree
          cases hevent
          exact sentMore_of_eq rfl
      | branch =>
          rw [hplace] at hevent
          obtain ⟨next, hbranch, hevent⟩ := run_bind_eq_ok.mp hevent
          cases hevent
          have hsent : a.SentMore next := branch_sent hbranch
          exact hsent

end Sent

end Hipft
