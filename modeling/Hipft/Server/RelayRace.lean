import Hipft.Server.Converge
import Hipft.Server.Retransmission

/-! # Two writes for a request

The main loop gives a request to a channel with two writes, first of the message and then of
the flag. The thread can come between them.
-/

namespace Hipft

open CMemory Transitions

/-- A channel, whether the main loop has written a message whose flag is not raised, and whether
the thread has exited. -/
structure Racing where
  worker : Worker
  between : Bool
  exited : Bool
  deriving DecidableEq

/-- The main loop writes, or the thread does a step. -/
inductive RaceEvent
  | ready
  | kill
  | write (recvmsg : Msg)
  | step (msgID : UInt32)

/-- `chan->value = recvmsg`. -/
def Worker.putValue (recvmsg : Msg) (w : Worker) : Worker :=
  { w with chan := { w.chan with value := some recvmsg } }

/-- `chan->data = true`. -/
def Worker.raiseData (w : Worker) : Worker := { w with chan := { w.chan with data := true } }

/-- What the main loop does when it is at a channel: the second write, if there is one left. -/
def Racing.main (f : Worker → Worker) (between : Bool) (r : Racing) : Racing :=
  if r.between then ⟨r.worker.raiseData, false, r.exited⟩ else ⟨f r.worker, between, r.exited⟩

/-- A step of the thread. Behind its loop it frees what it has, and exits. -/
def Racing.step (msgID : UInt32) (r : Racing) : Run Racing :=
  if r.exited then pure r
  else if r.worker.thread.place = .ended then do
    r.worker.converge
    pure { r with exited := true }
  else do
    let worker ← r.worker.step msgID
    pure { r with worker }

def Racing.event : RaceEvent → Racing → Run Racing
  | .ready, r => pure (r.main Worker.setReady false)
  | .kill, r => pure (r.main Worker.setKill false)
  | .write recvmsg, r => pure (r.main (Worker.putValue recvmsg) true)
  | .step msgID, r => r.step msgID

/-- The channel as the main loop creates it. -/
def Racing.start (sock : Nat) (selfID otherID maxSize : UInt64) (fhandle : FileHandle) : Racing :=
  ⟨Worker.start sock selfID otherID maxSize fhandle, false, false⟩

/-- The thread is about to free a message that is not its own. -/
def Racing.Frees (r : Racing) : Prop := r.between = true ∧ r.worker.thread.place = .free

instance (r : Racing) : Decidable r.Frees :=
  inferInstanceAs (Decidable (r.between = true ∧ r.worker.thread.place = .free))

/-- The thread is about to free an array that is freed. -/
def Racing.FreesTwice (r : Racing) : Prop :=
  r.exited = false ∧ r.worker.thread.place = .ended ∧ r.worker.Drained

instance (r : Racing) : Decidable r.FreesTwice :=
  inferInstanceAs (Decidable (r.exited = false ∧ r.worker.thread.place = .ended ∧
    r.worker.Drained))

/-- The thread does neither. -/
def Racing.Careful : RaceEvent → Racing → Prop
  | .step _, r => ¬ r.Frees ∧ ¬ r.FreesTwice
  | _, _ => True

instance (e : RaceEvent) (r : Racing) : Decidable (Racing.Careful e r) := by
  cases e with
  | step msgID => exact inferInstanceAs (Decidable (¬ r.Frees ∧ ¬ r.FreesTwice))
  | ready | kill | write => exact .isTrue trivial

/-- Without the thread between them the two writes are one. -/
theorem Worker.raiseData_putValue (recvmsg : Msg) (w : Worker) :
    (w.putValue recvmsg).raiseData = w.receive recvmsg := rfl

/-! ## Runs without the race -/

/-- What holds between any two steps. -/
structure Racing.Sound (fhandle : FileHandle) (r : Racing) : Prop where
  running : ∃ firsts agains, Running fhandle r.worker firsts agains
  written : r.between = true → r.worker.chan.value.isSome = true
  exited : r.exited = true → r.worker.thread.place = .ended

section Step

variable {fhandle : FileHandle} {w w' : Worker} {firsts agains : List Msg}

theorem Running.putValue (hrun : Running fhandle w firsts agains) (recvmsg : Msg) :
    Running fhandle (w.putValue recvmsg) firsts agains :=
  { hrun with
    opened := ⟨hrun.opened.handle, hrun.opened.maxSize⟩
    pending := fun _ _ => rfl
    held := fun _ => rfl }

theorem Running.raiseData (hrun : Running fhandle w firsts agains)
    (hvalue : w.chan.value.isSome = true) : Running fhandle w.raiseData firsts agains :=
  { hrun with
    opened := ⟨hrun.opened.handle, hrun.opened.maxSize⟩
    pending := fun _ _ => hvalue }

/-- Only where it frees does the thread write to the message. -/
theorem Worker.step_value {msgID : UInt32} (hplace : w.thread.place ≠ .free)
    (hstep : w.step msgID = .ok w') : w'.chan.value = w.chan.value := by
  rw [Worker.step] at hstep
  cases hat : w.thread.place with
  | waiting =>
      rw [hat] at hstep
      cases hstep
      split
      next => rfl
      next => rfl
  | loop | relay | reset | ended =>
      rw [hat] at hstep
      cases hstep
      rfl
  | add =>
      rw [hat] at hstep
      obtain ⟨next, hadd, hstep⟩ := run_bind_eq_ok.mp hstep
      obtain ⟨value, -, hadd⟩ := run_bind_eq_ok.mp hadd
      cases hadd
      cases hstep
      rfl
  | free => exact absurd hat hplace
  | branch =>
      rw [hat] at hstep
      obtain ⟨next, hbranch, hstep⟩ := run_bind_eq_ok.mp hstep
      cases hstep
      have hchan : next.chan = w.chan := Worker.branch_chan hbranch
      exact congrArg Channel.value hchan

theorem Racing.Sound.main {r : Racing} (hsound : r.Sound fhandle) {f : Worker → Worker}
    {between : Bool}
    (hf : ∀ firsts agains, Running fhandle r.worker firsts agains →
      Running fhandle (f r.worker) firsts agains)
    (hvalue : between = true → (f r.worker).chan.value.isSome = true)
    (hplace : (f r.worker).thread.place = r.worker.thread.place) :
    (r.main f between).Sound fhandle := by
  obtain ⟨⟨firsts, agains, hrun⟩, hwritten, hexited⟩ := hsound
  rw [Racing.main]
  split
  next hbetween => exact ⟨⟨firsts, agains, hrun.raiseData (hwritten hbetween)⟩, nofun, hexited⟩
  next => exact ⟨⟨firsts, agains, hf firsts agains hrun⟩, hvalue, hplace ▸ hexited⟩

/-- Before the end of its loop the thread does a step of its own. -/
theorem Racing.step_eq {r : Racing} (hexited : r.exited = false)
    (hplace : r.worker.thread.place ≠ .ended) (msgID : UInt32) :
    r.step msgID = (do
      let worker ← r.worker.step msgID
      pure { r with worker }) := by
  rw [Racing.step, if_neg (Bool.eq_false_iff.mp hexited), if_neg hplace]

theorem Racing.event_step {w w' : Worker} {between : Bool} {msgID : UInt32}
    (hplace : w.thread.place ≠ .ended) (hstep : w.step msgID = .ok w') :
    Racing.event (.step msgID) ⟨w, between, false⟩ = .ok ⟨w', between, false⟩ := by
  rw [Racing.event, Racing.step_eq rfl hplace, hstep]
  rfl

/-- Behind it the thread exits, or frees its array twice. -/
theorem Racing.Sound.step_ended {r : Racing} (hsound : r.Sound fhandle)
    (hexited : r.exited = false) (hplace : r.worker.thread.place = .ended) (msgID : UInt32) :
    r.step msgID = if r.worker.Drained then .error (.memory .doubleFree)
      else .ok { r with exited := true } := by
  obtain ⟨⟨firsts, agains, hrun⟩, -, -⟩ := hsound
  rw [Racing.step, if_neg (Bool.eq_false_iff.mp hexited), if_pos hplace, hrun.converge hplace]
  split
  next => rfl
  next => rfl

theorem Racing.Sound.step {r : Racing} (hsound : r.Sound fhandle) (msgID : UInt32)
    (hfrees : ¬ r.Frees) (htwice : ¬ r.FreesTwice) :
    ∃ r', r.step msgID = .ok r' ∧ r'.Sound fhandle := by
  by_cases hexited : r.exited = true
  · exact ⟨r, if_pos hexited, hsound⟩
  rw [Bool.not_eq_true] at hexited
  by_cases hplace : r.worker.thread.place = .ended
  · refine ⟨{ r with exited := true }, ?_, hsound.running, hsound.written, fun _ => hplace⟩
    rw [hsound.step_ended hexited hplace, if_neg fun hdrained => htwice ⟨hexited, hplace, hdrained⟩]
  · obtain ⟨⟨firsts, agains, hrun⟩, hwritten, -⟩ := hsound
    obtain ⟨w', firsts', agains', hstep, hrun'⟩ := hrun.step msgID
    refine ⟨{ r with worker := w' }, ?_, ⟨firsts', agains', hrun'⟩, fun hbetween => ?_,
      fun hend => absurd (hexited.symm.trans hend) Bool.false_ne_true⟩
    · rw [Racing.step_eq hexited hplace, hstep]
      rfl
    · have hfree : r.worker.thread.place ≠ .free := fun hat => hfrees ⟨hbetween, hat⟩
      change w'.chan.value.isSome = true
      rw [Worker.step_value hfree hstep]
      exact hwritten hbetween

theorem Racing.Sound.event {r : Racing} (hsound : r.Sound fhandle) {e : RaceEvent}
    (hcareful : Racing.Careful e r) : ∃ r', Racing.event e r = .ok r' ∧ r'.Sound fhandle := by
  cases e with
  | ready => exact ⟨_, rfl, hsound.main (fun _ _ hrun => hrun.setReady) nofun rfl⟩
  | kill => exact ⟨_, rfl, hsound.main (fun _ _ hrun => hrun.setKill) nofun rfl⟩
  | write recvmsg =>
      exact ⟨_, rfl, hsound.main (fun _ _ hrun => hrun.putValue recvmsg) (fun _ => rfl) rfl⟩
  | step msgID => exact hsound.step msgID hcareful.1 hcareful.2

/-! ## The race -/

/-- The thread frees the new message, and the flag that is raised behind it sends it there
again. -/
theorem Racing.Sound.crashes {r : Racing} (hsound : r.Sound fhandle) (hfrees : r.Frees)
    (hkill : r.worker.chan.kill = false) :
    ∃ after, run Racing.event after r = .error (.memory .outOfBounds) := by
  obtain ⟨⟨firsts, agains, hrun⟩, -, hexited⟩ := hsound
  obtain ⟨w, between, exited⟩ := r
  obtain ⟨rfl, hplace⟩ : between = true ∧ w.thread.place = .free := hfrees
  obtain rfl : exited = false := Bool.eq_false_iff.mpr fun hend =>
    Place.noConfusion (hplace.symm.trans (hexited hend))
  have hkill : w.chan.kill = false := hkill
  have hactive : w.chan.ready = true := hrun.active (hplace ▸ rfl)
  obtain ⟨value, hvalue⟩ := Option.isSome_iff_exists.mp (hrun.held (.inr hplace))
  refine ⟨List.replicate 4 (.step 0) ++ [.write value, .step 0, .step 0], ?_⟩
  let freed : Worker := { w with chan := { w.chan with value := none } }
  have hfree : w.step 0 = .ok (freed.goto .reset) := by
    rw [Worker.step, hplace]
    simp only [Worker.freeValue_eq hvalue, run_bind]
    rfl
  have hreset : (freed.goto .reset).step 0 = .ok (freed.resetData.goto .branch) := rfl
  obtain ⟨w₁, firsts₁, agains₁, hstep₁, hrun₁⟩ := hrun.step 0
  obtain rfl : freed.goto .reset = w₁ := Except.ok.inj (hfree.symm.trans hstep₁)
  obtain ⟨w₂, firsts₂, agains₂, hstep₂, hrun₂⟩ := hrun₁.step 0
  obtain rfl : freed.resetData.goto .branch = w₂ := Except.ok.inj (hreset.symm.trans hstep₂)
  obtain ⟨next, firsts₃, agains₃, hbranch, -⟩ := hrun₂.branch 0 hactive
  have hchan : next.chan = { w.chan with value := none, data := false } :=
    Worker.branch_chan hbranch
  have hsend : (freed.resetData.goto .branch).step 0 = .ok (next.goto .loop) := by
    rw [Worker.step]
    simp only [Worker.goto] at hbranch ⊢
    simp only [hbranch, run_bind]
    rfl
  have hturn : (next.goto .loop).step 0 = .ok (next.goto .relay) := by
    have hnext : next.chan.kill = false := by rw [hchan]; exact hkill
    simp only [Worker.step, Worker.goto, hnext]
    rfl
  have hrelay : (next.goto .relay).raiseData.step 0 =
      .ok ((next.goto .relay).raiseData.goto .add) := rfl
  have hadd : ((next.goto .relay).raiseData.goto .add).step 0 =
      .error (.memory .outOfBounds) := by
    have hnone : next.chan.value = none := by rw [hchan]
    simp only [Worker.step, Worker.goto, Worker.raiseData, Worker.addValue, hnone]
    rfl
  have hend : Racing.event (.step 0) ⟨(next.goto .relay).raiseData.goto .add, false, false⟩ =
      .error (.memory .outOfBounds) := by
    rw [Racing.event, Racing.step_eq rfl Place.noConfusion, hadd]
    rfl
  rw [List.replicate_succ, List.cons_append,
    run_cons_of_ok (Racing.event_step (hplace ▸ Place.noConfusion) hfree), List.replicate_succ,
    List.cons_append, run_cons_of_ok (Racing.event_step Place.noConfusion hreset),
    List.replicate_succ, List.cons_append,
    run_cons_of_ok (Racing.event_step Place.noConfusion hsend), List.replicate_succ,
    List.cons_append, run_cons_of_ok (Racing.event_step Place.noConfusion hturn)]
  -- The second of the two writes, whose first the thread has freed.
  have hraise : Racing.event (.write value) ⟨next.goto .relay, true, false⟩ =
      .ok ⟨(next.goto .relay).raiseData, false, false⟩ := rfl
  rw [List.replicate_zero, List.nil_append, run_cons_of_ok hraise,
    run_cons_of_ok (Racing.event_step Place.noConfusion hrelay), run_cons, hend]
  rfl

end Step

/-- As long as the thread does not free a message between the two writes for it, nor an array
that is freed when it exits, no order of the writes and the steps ends in a crash. When it is
about to do the one, and is not told to end, there is an order in which it reads a message that
is gone; when it is about to do the other, its next step is the crash. -/
theorem relay_race (sock : Nat) (selfID otherID maxSize : UInt64) (fhandle : FileHandle)
    (hsize : maxSize ≠ 0) (events : List RaceEvent)
    (hcareful : Meets Racing.event Racing.Careful events
      (.start sock selfID otherID maxSize fhandle)) :
    ∃ r, run Racing.event events (.start sock selfID otherID maxSize fhandle) = .ok r ∧
      (r.Frees → r.worker.chan.kill = false →
        ∃ after, run Racing.event after r = .error (.memory .outOfBounds)) ∧
      (r.FreesTwice → ∀ msgID, Racing.event (.step msgID) r = .error (.memory .doubleFree)) := by
  have hstart : (Racing.start sock selfID otherID maxSize fhandle).Sound fhandle :=
    ⟨⟨[], [], running_start sock selfID otherID fhandle hsize⟩, nofun, nofun⟩
  obtain ⟨r, hrun, hsound⟩ :=
    run_total_of_meets (fun _ _ hsound hcareful => Racing.Sound.event hsound hcareful) hstart
      hcareful
  refine ⟨r, hrun, fun hfrees hkill => hsound.crashes hfrees hkill, ?_⟩
  rintro ⟨hexited, hplace, hdrained⟩ msgID
  rw [Racing.event, hsound.step_ended hexited hplace, if_pos hdrained]

/-- One request is being relayed while the next is written. -/
def overtaken : List RaceEvent :=
  [.ready, .step 7, .write (requestMsg 1), .write (requestMsg 1), .step 7, .step 7, .step 7,
    .write (requestMsg 2)]

theorem relay_race_overtaken :
    ∃ r, run Racing.event overtaken (.start 5 300 100 8 threeBytes) = .ok r ∧
      (r.Frees → r.worker.chan.kill = false →
        ∃ after, run Racing.event after r = .error (.memory .outOfBounds)) ∧
      (r.FreesTwice → ∀ msgID, Racing.event (.step msgID) r = .error (.memory .doubleFree)) :=
  relay_race 5 300 100 8 threeBytes (by decide) overtaken (by decide +kernel)

end Hipft
