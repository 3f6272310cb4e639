import Hipft.Server.Retransmission
import Hipft.Server.SocketHelp
import Hipft.Server.ThreadArrays

/-! # The thread of a channel on its socket

What the thread gives to `send_msg` goes through `writen`, which need not return, and need not
release the mutex when it does.
-/

namespace Hipft

open CMemory Transitions

/-- The thread of a channel, `send_mutex` as it finds it, and what it has written. -/
structure Sender where
  thread : ArrayWorker
  sendMutex : Mutex
  written : Bytes

/-- An event of the channel, in which `write` returns these results. The thread does not learn
from `send_msg` whether all was written. -/
def Sender.event (e : ThreadEvent × List (SysResult Nat)) (t : Sender) : Run Sender := do
  let next ← ArrayWorker.event e.1 t.thread
  match next.thread.sent.drop t.thread.thread.sent.length with
  | [] => pure { t with thread := next }
  | s :: _ => do
      let out ← checked (sendMsgOver t.sendMutex s.msg e.2)
      pure { thread := next, sendMutex := out.mutex, written := t.written ++ out.moved }

section Events

variable {t t' : Sender} {a : ArrayWorker}

theorem Sender.event_thread {e : ThreadEvent × List (SysResult Nat)}
    (hevent : Sender.event e t = .ok t') : ArrayWorker.event e.1 t.thread = .ok t'.thread := by
  obtain ⟨next, hnext, hevent⟩ := run_bind_eq_ok.mp hevent
  cases hmore : next.thread.sent.drop t.thread.thread.sent.length with
  | nil =>
      rw [hmore] at hevent
      cases hevent
      exact hnext
  | cons s more =>
      rw [hmore] at hevent
      obtain ⟨out, -, hevent⟩ := run_bind_eq_ok.mp hevent
      cases hevent
      exact hnext

/-- The thread does what it does without the socket. -/
theorem Sender.run_thread {events : List (ThreadEvent × List (SysResult Nat))}
    (hrun : run Sender.event events t = .ok t') :
    run ArrayWorker.event (events.map Prod.fst) t.thread = .ok t'.thread := by
  induction events generalizing t with
  | nil =>
      cases hrun
      rfl
  | cons e events ih =>
      obtain ⟨next, hevent, hrest⟩ := run_cons_eq_ok.mp hrun
      rw [List.map_cons, run_cons_of_ok (Sender.event_thread hevent)]
      exact ih hrest

/-- A part of a run in which the thread sends nothing. -/
theorem Sender.event_silent {e : ThreadEvent} (hevent : ArrayWorker.event e t.thread = .ok a)
    (hsent : a.thread.sent = t.thread.thread.sent) (results : List (SysResult Nat)) :
    Sender.event (e, results) t = .ok { t with thread := a } := by
  rw [Sender.event, hevent, run_bind, hsent, List.drop_length]
  rfl

theorem ArrayWorker.run_sent {events : List ThreadEvent} {b : ArrayWorker}
    (hrun : run ArrayWorker.event events a = .ok b) :
    ∃ more, b.thread.sent = a.thread.sent ++ more := by
  induction events generalizing a with
  | nil =>
      cases hrun
      exact ⟨[], (List.append_nil _).symm⟩
  | cons e events ih =>
      obtain ⟨next, hevent, hrest⟩ := run_cons_eq_ok.mp hrun
      obtain ⟨more, hmore, -⟩ := ArrayWorker.event_sent hevent
      obtain ⟨after, hafter⟩ := ih hrest
      exact ⟨more ++ after, by rw [hafter, hmore, List.append_assoc]⟩

theorem Sender.run_silent {events : List ThreadEvent}
    (hrun : run ArrayWorker.event events t.thread = .ok a)
    (hsent : a.thread.sent = t.thread.thread.sent) (results : List (SysResult Nat)) :
    run Sender.event (events.map (·, results)) t = .ok { t with thread := a } := by
  induction events generalizing t with
  | nil =>
      cases hrun
      rfl
  | cons e events ih =>
      obtain ⟨next, hevent, hrest⟩ := run_cons_eq_ok.mp hrun
      obtain ⟨more, hmore, -⟩ := ArrayWorker.event_sent hevent
      obtain ⟨after, hafter⟩ := ArrayWorker.run_sent hrest
      have hnone : more = [] := by
        rw [hafter, hmore, List.append_assoc, List.append_right_eq_self] at hsent
        exact (List.append_eq_nil_iff.mp hsent).1
      subst hnone
      rw [List.append_nil] at hmore
      rw [List.map_cons, run_cons_of_ok (Sender.event_silent hevent hmore results)]
      exact ih hrest (hsent.trans hmore.symm)

/-- A run in which the thread sends one message at most comes through exactly if `send_msg`
returns for it. -/
theorem Sender.run_isOk {events : List ThreadEvent} {extra : List Sent}
    (hrun : run ArrayWorker.event events t.thread = .ok a)
    (hsent : a.thread.sent = t.thread.thread.sent ++ extra) (hone : extra.length ≤ 1)
    (results : List (SysResult Nat)) :
    (∃ t', run Sender.event (events.map (·, results)) t = .ok t') ↔
      ∀ s ∈ extra, ∃ out, sendMsgOver t.sendMutex s.msg results = .ok out := by
  induction events generalizing t with
  | nil =>
      cases hrun
      obtain rfl : extra = [] := List.self_eq_append_right.mp hsent
      exact iff_of_true ⟨t, rfl⟩ (List.forall_mem_nil _)
  | cons e events ih =>
      obtain ⟨next, hevent, hrest⟩ := run_cons_eq_ok.mp hrun
      obtain ⟨more, hmore, -⟩ := ArrayWorker.event_sent hevent
      obtain ⟨after, hafter⟩ := ArrayWorker.run_sent hrest
      obtain rfl : extra = more ++ after := by
        rw [hafter, hmore, List.append_assoc] at hsent
        exact (List.append_cancel_left hsent).symm
      cases more with
      | nil =>
          rw [List.append_nil] at hmore
          rw [List.map_cons, run_cons_of_ok (Sender.event_silent hevent hmore results)]
          exact ih hrest (by rw [hsent, hmore])
      | cons s more =>
          -- The one message is sent in this event, and nothing behind it.
          rw [List.cons_append, List.length_cons, List.length_append] at hone
          obtain rfl : more = [] := List.eq_nil_of_length_eq_zero (by omega)
          obtain rfl : after = [] := List.eq_nil_of_length_eq_zero (by omega)
          rw [List.append_nil] at hafter
          have hsends : Sender.event (e, results) t = (do
              let out ← checked (sendMsgOver t.sendMutex s.msg results)
              pure ⟨next, out.mutex, t.written ++ out.moved⟩) := by
            rw [Sender.event, hevent, run_bind, hmore, List.drop_left]
          rw [List.append_nil, List.forall_mem_singleton, List.map_cons, run_cons, hsends]
          cases sendMsgOver t.sendMutex s.msg results with
          | error fault => exact iff_of_false (by rintro ⟨_, ⟨⟩⟩) (by rintro ⟨_, ⟨⟩⟩)
          | ok out =>
              refine iff_of_true ?_ ⟨out, rfl⟩
              have hthere : run ArrayWorker.event events
                  (Sender.mk next out.mutex (t.written ++ out.moved)).thread = .ok a := hrest
              exact ⟨_, Sender.run_silent hthere hafter results⟩

end Events

/-! ## Joining a thread -/

/-- A thread that is told to end, whatever happened before: in whatever order it takes its steps
from then on, with whatever comes in between, it is behind its loop after six of them and sends
one message more at most. It gets there exactly if `send_msg` returns for that message. Then it
frees what it has, and the array of `retrans_sec` twice exactly if it has sent something again
and nothing is left to be. -/
theorem join_returns {sock : Nat} {selfID otherID maxSize : UInt64} {fhandle : FileHandle}
    (hsize : maxSize ≠ 0) {start : ArrayWorker}
    (hstart : ArrayWorker.start sock selfID otherID maxSize fhandle = .ok start)
    {before : List (ThreadEvent × List (SysResult Nat))} {sendMutex : Mutex} {t : Sender}
    (hbefore : run Sender.event before ⟨start, sendMutex, []⟩ = .ok t)
    {after : List ThreadEvent} (hfew : before.length + after.length < 2 ^ 60)
    (hmany : 6 ≤ after.countP ThreadEvent.isStep) (results : List (SysResult Nat)) :
    ∃ a extra, run ArrayWorker.event (.kill :: after) t.thread = .ok a ∧
      a.thread.place = .ended ∧ a.thread.sent = t.thread.thread.sent ++ extra ∧
      extra.length ≤ 1 ∧
      ((∃ t', run Sender.event ((.kill :: after).map (·, results)) t = .ok t' ∧
          t'.thread = a) ↔
        ∀ s ∈ extra, ∃ out, sendMsgOver t.sendMutex s.msg results = .ok out) ∧
      a.converge = if a.Drained then .error (.memory .doubleFree) else .ok () := by
  obtain ⟨sendSec, hstart', hstored⟩ := start_stored sock selfID otherID maxSize fhandle
  obtain rfl := Except.ok.inj (hstart.symm.trans hstart')
  have hthread := Sender.run_thread hbefore
  obtain ⟨w, hw, -⟩ := run_running sock selfID otherID fhandle hsize (before.map Prod.fst)
  obtain ⟨w', hrun, firsts, agains, hrunning⟩ :=
    run_running sock selfID otherID fhandle hsize (before.map Prod.fst ++ .kill :: after)
  rw [run_append hw] at hrun
  have hafter : run Worker.event after w.setKill = .ok w' := hrun
  obtain ⟨hnearer, extra, hsent, hone⟩ := run_killed rfl hafter
  have hsteps := Place.stepsLeft_le w.setKill.thread.place
  have hsends := Place.sendsLeft_le w.setKill.thread.place
  have hended : w'.thread.place = .ended := Place.eq_ended (by omega)
  obtain ⟨sendSec', retransSec', harrays, hstored'⟩ :=
    hstored.run (by rw [List.length_map]; omega) hw
  have hthere : t.thread = w.withArrays sendSec' retransSec' :=
    Except.ok.inj (hthread.symm.trans harrays)
  obtain ⟨sendSec'', retransSec'', harrays', hstored''⟩ :=
    hstored'.run (by rw [List.length_map, List.length_cons]; omega) hrun
  rw [← hthere] at harrays'
  have hextra : (w'.withArrays sendSec'' retransSec'').thread.sent =
      t.thread.thread.sent ++ extra := by
    rw [hthere]
    exact hsent
  have hreturns := Sender.run_isOk harrays' hextra (by omega) results
  refine ⟨_, extra, harrays', hended, hextra, by omega, ?_, ?_⟩
  · rw [← hreturns]
    constructor
    · rintro ⟨t', hrun', -⟩
      exact ⟨t', hrun'⟩
    · rintro ⟨t', hrun'⟩
      have hthread' := Sender.run_thread hrun'
      rw [List.map_map, show Prod.fst ∘ (fun e : ThreadEvent => (e, results)) = id from rfl,
        List.map_id, harrays'] at hthread'
      exact ⟨t', hrun', (Except.ok.inj hthread').symm⟩
  · rw [hstored''.converge, hrunning.converge hended]
    simp only [hstored''.drained_iff]

/-- The one packet of an empty file is asked for again, and the thread is told to end when it is
about to send it. -/
def leaveAgain : List ThreadEvent :=
  .ready :: List.replicate 7 (.step 7) ++ .receive (requestMsg 1) :: List.replicate 5 (.step 7)

/-- A `write` that does not return keeps the thread from its end. After one that does, it frees
the array twice. -/
theorem join_returns_again :
    ∃ start t a, ArrayWorker.start 5 300 100 8 ⟨[97], [], by decide⟩ = .ok start ∧
      run Sender.event (leaveAgain.map (·, [.moved 145])) ⟨start, .unlocked, []⟩ = .ok t ∧
      run ArrayWorker.event (.kill :: List.replicate 6 (.step 9)) t.thread = .ok a ∧
      (¬ ∃ t', run Sender.event ((.kill :: List.replicate 6 (.step 9)).map (·, [])) t = .ok t' ∧
        t'.thread = a) ∧
      (∃ t', run Sender.event
        ((.kill :: List.replicate 6 (.step 9)).map (·, [.moved 145])) t = .ok t' ∧
        t'.thread = a) ∧
      a.converge = .error (.memory .doubleFree) := by
  have hruns : ∃ start, ArrayWorker.start 5 300 100 8 ⟨[97], [], by decide⟩ = .ok start ∧
      ∃ t, run Sender.event (leaveAgain.map (·, [.moved 145])) ⟨start, .unlocked, []⟩ = .ok t ∧
      ∃ a, run ArrayWorker.event (.kill :: List.replicate 6 (.step 9)) t.thread = .ok a ∧
        a.Drained ∧
        (¬ ∀ s ∈ a.thread.sent.drop t.thread.thread.sent.length,
          ∃ out, sendMsgOver t.sendMutex s.msg [] = .ok out) ∧
        ∀ s ∈ a.thread.sent.drop t.thread.thread.sent.length,
          ∃ out, sendMsgOver t.sendMutex s.msg [.moved 145] = .ok out := by decide +kernel
  obtain ⟨start, hstart, t, hbefore, a, hafter, hdrained, hblocked, hfree⟩ := hruns
  have hfew : (leaveAgain.map (·, [SysResult.moved 145])).length +
      (List.replicate 6 (ThreadEvent.step 9)).length < 2 ^ 60 := by decide
  have hjoin := join_returns (by decide) hstart hbefore hfew (by decide)
  refine ⟨start, t, a, hstart, hbefore, hafter, ?_, ?_, ?_⟩
  · obtain ⟨a', extra, hrun, -, hsent, -, hreturns, -⟩ := hjoin []
    obtain rfl := Except.ok.inj (hafter.symm.trans hrun)
    rw [hsent, List.drop_left] at hblocked
    exact hreturns.not.mpr hblocked
  · obtain ⟨a', extra, hrun, -, hsent, -, hreturns, -⟩ := hjoin [.moved 145]
    obtain rfl := Except.ok.inj (hafter.symm.trans hrun)
    rw [hsent, List.drop_left] at hfree
    exact hreturns.mpr hfree
  · obtain ⟨a', extra, hrun, -, -, -, -, hconverge⟩ := hjoin []
    obtain rfl := Except.ok.inj (hafter.symm.trans hrun)
    rw [hconverge, if_pos hdrained]

end Hipft
