import Hipft.Client.Download

/-! # How a thread ends

A thread looks at `kill` once in each turn of its loop, so when it is told to end it can still
send one message. Behind the loop it frees what it has, and the array of `retrans_sec` a second
time if deleting its last piece has freed it.
-/

namespace Hipft

open CMemory Transitions

/-! ## Threads that are told to end -/

/-- The steps that the thread has before it, once it is told to end. -/
def Place.stepsLeft : Place → Nat
  | .relay => 6
  | .add => 5
  | .free => 4
  | .reset => 3
  | .branch => 2
  | .waiting => 2
  | .loop => 1
  | .ended => 0

/-- The messages that it can still send. -/
def Place.sendsLeft (place : Place) : Nat := if place.inLoop then 1 else 0

section Killed

variable {w w' : Worker}

/-- What the thread has sent, with no more behind it than it can still send. -/
def SendsOnly (w w' : Worker) : Prop :=
  ∃ extra, w'.thread.sent = w.thread.sent ++ extra ∧
    extra.length + w'.thread.place.sendsLeft ≤ w.thread.place.sendsLeft

theorem sendsOnly_refl (w : Worker) : SendsOnly w w := ⟨[], by simp, by simp⟩

theorem SendsOnly.trans {w'' : Worker} (hfront : SendsOnly w w') (hback : SendsOnly w' w'') :
    SendsOnly w w'' := by
  obtain ⟨front, hsent, hfew⟩ := hfront
  obtain ⟨back, hsent', hfew'⟩ := hback
  refine ⟨front ++ back, by rw [hsent', hsent, List.append_assoc], ?_⟩
  rw [List.length_append]
  omega

theorem sendsOnly_of_sent_eq (hsent : w'.thread.sent = w.thread.sent)
    (hplace : w'.thread.place.sendsLeft ≤ w.thread.place.sendsLeft) : SendsOnly w w' :=
  ⟨[], by rw [hsent, List.append_nil], by simpa using hplace⟩

/-- A step of a thread that is told to end. -/
theorem Worker.step_killed {msgID : UInt32} (hkill : w.chan.kill = true)
    (hstep : w.step msgID = .ok w') :
    w'.chan.kill = true ∧ w'.thread.place.stepsLeft ≤ w.thread.place.stepsLeft - 1 ∧
      SendsOnly w w' := by
  rw [Worker.step] at hstep
  cases hplace : w.thread.place with
  | waiting =>
      rw [hplace] at hstep
      cases hstep
      simp only [hkill, Bool.not_true, Bool.and_false, Bool.false_eq_true, if_false]
      refine ⟨hkill, Nat.le_refl 1, sendsOnly_of_sent_eq rfl ?_⟩
      rw [hplace]
      exact Nat.le_refl 0
  | loop =>
      rw [hplace] at hstep
      cases hstep
      simp only [hkill, if_true]
      exact ⟨hkill, Nat.le_refl 0, sendsOnly_of_sent_eq rfl (Nat.zero_le _)⟩
  | relay =>
      rw [hplace] at hstep
      cases hstep
      refine ⟨hkill, ?_, sendsOnly_of_sent_eq rfl ?_⟩
      · split
        next => exact Nat.le_refl 5
        next => exact Nat.le_add_left 2 3
      · rw [hplace]
        split
        next => exact Nat.le_refl 1
        next => exact Nat.le_refl 1
  | add | free =>
      rw [hplace] at hstep
      obtain ⟨next, hnext, hstep⟩ := run_bind_eq_ok.mp hstep
      obtain ⟨value, -, hnext⟩ := run_bind_eq_ok.mp hnext
      cases hnext
      cases hstep
      refine ⟨hkill, Nat.le_refl _, sendsOnly_of_sent_eq rfl ?_⟩
      rw [hplace]
      exact Nat.le_refl 1
  | reset =>
      rw [hplace] at hstep
      cases hstep
      refine ⟨hkill, Nat.le_refl 2, sendsOnly_of_sent_eq rfl ?_⟩
      rw [hplace]
      exact Nat.le_refl 1
  | branch =>
      rw [hplace] at hstep
      obtain ⟨next, hbranch, hstep⟩ := run_bind_eq_ok.mp hstep
      cases hstep
      refine ⟨?_, Nat.le_refl 1, ?_⟩
      · change next.chan.kill = true
        rw [Worker.branch_chan hbranch, hkill]
      · rcases Worker.branch_sent hbranch with hsame | ⟨s, num, hsent, -⟩
        · exact sendsOnly_of_sent_eq hsame (Nat.zero_le _)
        · refine ⟨[s], hsent, ?_⟩
          rw [hplace]
          exact Nat.le_refl 1
  | ended =>
      rw [hplace] at hstep
      cases hstep
      refine ⟨hkill, ?_, sendsOnly_refl w⟩
      rw [hplace]
      exact Nat.le_refl 0

theorem Worker.event_killed {e : ThreadEvent} (hkill : w.chan.kill = true)
    (hevent : Worker.event e w = .ok w') :
    w'.chan.kill = true ∧
      w'.thread.place.stepsLeft ≤ w.thread.place.stepsLeft - (if e.isStep then 1 else 0) ∧
      SendsOnly w w' := by
  cases e with
  | ready | kill | receive =>
      cases hevent
      exact ⟨by first | exact hkill | rfl, Nat.le_refl _, sendsOnly_of_sent_eq rfl (Nat.le_refl _)⟩
  | step msgID => exact Worker.step_killed hkill hevent

/-- Whatever else happens, each step brings the thread nearer to its end. -/
theorem run_killed {after : List ThreadEvent} (hkill : w.chan.kill = true)
    (hrun : run Worker.event after w = .ok w') :
    w'.thread.place.stepsLeft ≤ w.thread.place.stepsLeft - after.countP ThreadEvent.isStep ∧
      SendsOnly w w' := by
  induction after generalizing w with
  | nil =>
      cases hrun
      exact ⟨Nat.le_refl _, sendsOnly_refl _⟩
  | cons e after ih =>
      obtain ⟨next, hevent, hrest⟩ := run_cons_eq_ok.mp hrun
      obtain ⟨hkill', hnearer, hsends⟩ := Worker.event_killed hkill hevent
      obtain ⟨hnearer', hsends'⟩ := ih hkill' hrest
      refine ⟨?_, hsends.trans hsends'⟩
      rw [List.countP_cons]
      omega

end Killed

theorem Place.stepsLeft_le (place : Place) : place.stepsLeft ≤ 6 := by
  cases place <;> decide

theorem Place.sendsLeft_le (place : Place) : place.sendsLeft ≤ 1 := by
  cases place <;> decide

theorem Place.eq_ended {place : Place} (hnone : place.stepsLeft = 0) : place = .ended := by
  cases place with
  | ended => rfl
  | _ => cases hnone

/-! ## Behind the loop -/

/-- Something was sent again, and nothing is left to be: deleting the last piece of
`retrans_sec` has freed its array. -/
def Worker.Drained (w : Worker) : Prop :=
  w.thread.retransSec = [] ∧ ∃ s ∈ w.thread.sent, s.isFirst = false

instance (w : Worker) : Decidable w.Drained :=
  inferInstanceAs (Decidable (w.thread.retransSec = [] ∧ ∃ s ∈ w.thread.sent, s.isFirst = false))

/-- What the thread does behind its loop: it frees the message in the record, if there is one
that waits, and its sections. -/
def Worker.converge (w : Worker) : Run Unit := do
  let _ ← if w.chan.data then w.freeValue else pure w
  if w.Drained then .error (.memory .doubleFree) else pure ()

/-- The thread, told to end, is drained when it is at its end. -/
def Worker.EndsDrained (w : Worker) : Prop :=
  ∃ last, run Worker.step (List.replicate 6 0) w.setKill = .ok last ∧ last.Drained

/-- The threads are the same but for the IDs that were drawn for what they sent. -/
structure SameButIDs (w v : Worker) : Prop where
  chan : v.chan = w.chan
  place : v.thread.place = w.thread.place
  finishedFt : v.thread.finishedFt = w.thread.finishedFt
  sendSec : v.thread.sendSec = w.thread.sendSec
  retransSec : v.thread.retransSec = w.thread.retransSec
  sent : v.thread.sent.map Sent.isFirst = w.thread.sent.map Sent.isFirst

section Ends

variable {fhandle : FileHandle} {w w' v v' : Worker} {firsts agains : List Msg}
  {msgID msgID' : UInt32}

theorem sameButIDs_refl (w : Worker) : SameButIDs w w := ⟨rfl, rfl, rfl, rfl, rfl, rfl⟩

theorem SameButIDs.drained_iff (hsame : SameButIDs w v) : v.Drained ↔ w.Drained := by
  have hsome (w : Worker) : (∃ s ∈ w.thread.sent, s.isFirst = false) ↔
      false ∈ w.thread.sent.map Sent.isFirst := List.mem_map.symm
  rw [Worker.Drained, Worker.Drained, hsame.retransSec, hsome, hsome, hsame.sent]

theorem SameButIDs.goto (hsame : SameButIDs w v) (place : Place) :
    SameButIDs (w.goto place) (v.goto place) :=
  ⟨hsame.chan, rfl, hsame.finishedFt, hsame.sendSec, hsame.retransSec, hsame.sent⟩

theorem SameButIDs.sendAgain (hsame : SameButIDs w v) (hw : w.sendAgain msgID = .ok w')
    (hv : v.sendAgain msgID' = .ok v') : SameButIDs w' v' := by
  rw [Worker.sendAgain, hsame.retransSec] at hv
  rw [Worker.sendAgain] at hw
  cases hpiece : getPieceInSection w.thread.retransSec 0 with
  | none =>
      rw [hpiece] at hw hv
      cases hw
      cases hv
      exact hsame
  | some piece =>
      rw [hpiece] at hw hv
      obtain ⟨m, -, hw⟩ := run_bind_eq_ok.mp hw
      obtain ⟨m', -, hv⟩ := run_bind_eq_ok.mp hv
      cases hw
      cases hv
      refine ⟨hsame.chan, hsame.place, hsame.finishedFt, hsame.sendSec, rfl, ?_⟩
      rw [List.map_append, List.map_append, hsame.sent]
      rfl

theorem SameButIDs.sendNext (hsame : SameButIDs w v) (hw : w.sendNext msgID = .ok w')
    (hv : v.sendNext msgID' = .ok v') : SameButIDs w' v' := by
  rw [Worker.sendNext, hsame.chan, hsame.sendSec] at hv
  obtain ⟨handle, hhandle, hw⟩ := run_bind_eq_ok.mp hw
  obtain ⟨numSegments, hcount, hw⟩ := run_bind_eq_ok.mp hw
  rw [hhandle, run_bind, hcount, run_bind] at hv
  simp only at hw hv
  split at hw
  next hmore =>
    rw [if_pos hmore] at hv
    obtain ⟨m, -, hw⟩ := run_bind_eq_ok.mp hw
    obtain ⟨m', -, hv⟩ := run_bind_eq_ok.mp hv
    cases hw
    cases hv
    refine ⟨rfl, hsame.place, hsame.finishedFt, rfl, hsame.retransSec, ?_⟩
    rw [List.map_append, List.map_append, hsame.sent]
    rfl
  next hmore =>
    rw [if_neg hmore] at hv
    cases hw
    cases hv
    exact ⟨rfl, hsame.place, rfl, hsame.sendSec, hsame.retransSec, hsame.sent⟩

/-- What a thread does depends on no drawn ID. -/
theorem SameButIDs.step (hsame : SameButIDs w v) (hw : w.step msgID = .ok w')
    (hv : v.step msgID' = .ok v') : SameButIDs w' v' := by
  rw [Worker.step, hsame.place, hsame.chan] at hv
  rw [Worker.step] at hw
  cases hplace : w.thread.place with
  | waiting =>
      rw [hplace] at hw hv
      cases hw
      cases hv
      split
      next => exact hsame
      next => exact hsame.goto .loop
  | loop | relay =>
      rw [hplace] at hw hv
      cases hw
      cases hv
      exact hsame.goto _
  | reset =>
      rw [hplace] at hw hv
      cases hw
      cases hv
      refine ⟨?_, rfl, hsame.finishedFt, hsame.sendSec, hsame.retransSec, hsame.sent⟩
      change { v.chan with data := false } = { w.chan with data := false }
      rw [hsame.chan]
  | ended =>
      rw [hplace] at hw hv
      cases hw
      cases hv
      exact hsame
  | add =>
      rw [hplace] at hw hv
      obtain ⟨next, hadd, hw⟩ := run_bind_eq_ok.mp hw
      obtain ⟨next', hadd', hv⟩ := run_bind_eq_ok.mp hv
      obtain ⟨value, hvalue, hadd⟩ := run_bind_eq_ok.mp hadd
      rw [Worker.addValue, hsame.chan, hvalue, hsame.retransSec] at hadd'
      cases hadd
      cases hadd'
      cases hw
      cases hv
      exact ⟨rfl, rfl, hsame.finishedFt, hsame.sendSec, rfl, hsame.sent⟩
  | free =>
      rw [hplace] at hw hv
      obtain ⟨next, hfree, hw⟩ := run_bind_eq_ok.mp hw
      obtain ⟨next', hfree', hv⟩ := run_bind_eq_ok.mp hv
      obtain ⟨value, hvalue, hfree⟩ := run_bind_eq_ok.mp hfree
      rw [Worker.freeValue, hsame.chan, hvalue] at hfree'
      cases hfree
      cases hfree'
      cases hw
      cases hv
      exact ⟨rfl, rfl, hsame.finishedFt, hsame.sendSec, hsame.retransSec, hsame.sent⟩
  | branch =>
      rw [hplace] at hw hv
      obtain ⟨next, hbranch, hw⟩ := run_bind_eq_ok.mp hw
      obtain ⟨next', hbranch', hv⟩ := run_bind_eq_ok.mp hv
      cases hw
      cases hv
      rw [Worker.branch] at hbranch hbranch'
      rw [hsame.finishedFt] at hbranch'
      split at hbranch
      next hfinished =>
        rw [if_pos hfinished] at hbranch'
        exact (hsame.sendAgain hbranch hbranch').goto .loop
      next hfinished =>
        rw [if_neg hfinished] at hbranch'
        exact (hsame.sendNext hbranch hbranch').goto .loop

theorem SameButIDs.run (hsame : SameButIDs w v) {count : Nat}
    (hw : Transitions.run Worker.step (List.replicate count msgID) w = .ok w')
    (hv : Transitions.run Worker.step (List.replicate count msgID') v = .ok v') :
    SameButIDs w' v' := by
  induction count generalizing w v with
  | zero =>
      cases hw
      cases hv
      exact hsame
  | succ count ih =>
      obtain ⟨next, hstep, hw⟩ := run_cons_eq_ok.mp hw
      obtain ⟨next', hstep', hv⟩ := run_cons_eq_ok.mp hv
      exact ih (hsame.step hstep hstep') hw hv

/-- At the end of the loop a message that waits is there to be freed. -/
theorem Running.converge (hrun : Running fhandle w firsts agains)
    (hplace : w.thread.place = .ended) :
    w.converge = if w.Drained then .error (.memory .doubleFree) else .ok () := by
  rw [Worker.converge]
  split
  next hdata =>
    obtain ⟨value, hvalue⟩ := Option.isSome_iff_exists.mp
      (hrun.pending hdata (hplace ▸ Place.noConfusion))
    rw [Worker.freeValue_eq hvalue]
    rfl
  next => rfl

/-- A thread that is told to end is behind its loop after six steps. -/
theorem Running.join (hrun : Running fhandle w firsts agains) (msgID : UInt32) :
    ∃ last, Transitions.run Worker.step (List.replicate 6 msgID) w.setKill = .ok last ∧
      last.thread.place = .ended ∧
      last.converge = if last.Drained then .error (.memory .doubleFree) else .ok () := by
  have hstep : ∀ msgID w, (∃ firsts agains, Running fhandle w firsts agains) →
      ∃ w', w.step msgID = .ok w' ∧ ∃ firsts agains, Running fhandle w' firsts agains := by
    rintro msgID w ⟨firsts, agains, hrun⟩
    obtain ⟨w', firsts', agains', hstep, hrun'⟩ := hrun.step msgID
    exact ⟨w', hstep, firsts', agains', hrun'⟩
  obtain ⟨last, hlast, firsts', agains', hrun'⟩ :=
    run_total hstep (List.replicate 6 msgID) ⟨firsts, agains, hrun.setKill⟩
  have hevents : Transitions.run Worker.event ((List.replicate 6 msgID).map .step) w.setKill =
      .ok last := by
    rw [run_map]
    exact hlast
  have hnearer := (run_killed rfl hevents).1
  have hsteps := Place.stepsLeft_le w.setKill.thread.place
  have hcount : ((List.replicate 6 msgID).map ThreadEvent.step).countP ThreadEvent.isStep = 6 := rfl
  have hended : last.thread.place = .ended := Place.eq_ended (by omega)
  exact ⟨last, hlast, hended, hrun'.converge hended⟩

/-- It comes through what is behind the loop unless it ends drained. -/
theorem Running.join_isOk_iff (hrun : Running fhandle w firsts agains) {last : Worker}
    (hlast : Transitions.run Worker.step (List.replicate 6 msgID) w.setKill = .ok last) :
    last.converge = .ok () ↔ ¬ w.EndsDrained := by
  obtain ⟨other, hother, -, hconverge⟩ := hrun.join msgID
  obtain rfl : other = last := Except.ok.inj (hother.symm.trans hlast)
  obtain ⟨plain, hplain, -⟩ := hrun.join 0
  have hdrained := ((sameButIDs_refl w.setKill).run hplain hlast).drained_iff
  have hends : w.EndsDrained ↔ plain.Drained := by
    constructor
    · rintro ⟨plain', hplain', hdrained⟩
      rwa [Except.ok.inj (hplain.symm.trans hplain')]
    · exact fun hdrained => ⟨plain, hplain, hdrained⟩
  rw [hconverge, hends, ← hdrained]
  by_cases hfreed : other.Drained <;> simp [hfreed]

end Ends

end Hipft
