import Hipft.Foundation.CriticalSection
import Hipft.Foundation.Delimited
import Hipft.Message.RoundTrip
import Hipft.Server.PartialTransfers

/-! # Sending from several threads

The main thread and the threads of the channels send over the same sockets. All of them
go through the one `send_mutex` of `writen`, which is not released where a write fails.
-/

namespace Hipft

open CMemory CriticalSection Transitions Delimited

/-- A `send_msg(sock, src)` that has its COBS string. -/
structure SendCall where
  sock : Int
  src : Msg
  bytes : Bytes
  encoded : msgToCobs src = .ok (bytes, bytes.length)

/-- What has been written to every socket. -/
abbrev Wires := Int → Bytes

/-- `totWritten` and the way that `buf` went. -/
structure WriteVars where
  tot : Nat
  buf : Nat
  deriving DecidableEq, Repr

namespace SendCall

variable (call : SendCall)

/-- A `writen` that has come to this: it unlocks behind its loop and at no other return. -/
def status (t : TransferState Bytes) : Status WriteVars Int :=
  match t.returned with
  | none => .inside ⟨t.tot, t.buf⟩
  | some value => if (t.tot : Int) < call.bytes.length then .kept value else .released value

/-- A `write(fd, buf, n - totWritten)` with what it returns, and the rest of the pass. -/
def writeStep (result : SysResult Nat) (vars : WriteVars) (wires : Wires) :
    CRun (Status WriteVars Int × Wires) := do
  let t ← transferPass (writeDirection call.bytes) call.bytes.length result
    ⟨vars.tot, vars.buf, wires call.sock, none⟩
  pure (call.status t, Function.update wires call.sock t.data)

end SendCall

/-- `writen` as the body of `send_mutex`. -/
def writenBody : Body Fault SendCall (SysResult Nat) WriteVars Int Wires where
  enter call := call.status (TransferState.start call.bytes.length [])
  step := SendCall.writeStep

/-- The threads of the process and its sockets. -/
abbrev Senders (Thread : Type) := CriticalSection.State Thread SendCall WriteVars Int Wires

section Calls

variable {Thread : Type}

/-- Every byte of the message was written, as the return value says. -/
def SendCall.Whole (call : SendCall) (value : Int) : Prop := value = call.bytes.length

instance (call : SendCall) (value : Int) : Decidable (call.Whole value) :=
  inferInstanceAs (Decidable (_ = _))

/-- The calls that wrote a whole message to the socket, in the order of their returns. -/
def completed (returned : List (Thread × SendCall × Int)) (sock : Int) : List SendCall :=
  (returned.filter fun out => out.2.1.Whole out.2.2 ∧ out.2.1.sock = sock).map fun out => out.2.1

/-- The COBS string without the delimiter. -/
def SendCall.frame (call : SendCall) : Bytes := call.bytes.dropLast

end Calls

/-! ## One call -/

namespace SendCall

variable {call : SendCall}

theorem exists_cobsEncode (call : SendCall) : ∃ b, call.bytes = cobsEncode b := by
  obtain ⟨_, src, bytes, hencoded⟩ := call
  unfold msgToCobs at hencoded
  obtain ⟨⟨b, l2⟩, -, hencoded⟩ := bind_eq_ok.mp hencoded
  simp only at hencoded
  split at hencoded
  next =>
    rw [cobsEncodedLengthFromEncoded_cobsEncode] at hencoded
    cases hencoded
    exact ⟨b, rfl⟩
  next => cases hencoded

/-- The delimiter is at the end and nowhere else. -/
theorem bytes_eq (call : SendCall) :
    call.bytes = call.frame ++ [specialChar] ∧ specialChar ∉ call.frame := by
  obtain ⟨b, hb⟩ := call.exists_cobsEncode
  rw [frame, hb, cobsEncode_eq, List.dropLast_concat]
  exact ⟨rfl, specialChar_notMem_frame _⟩

theorem bytes_pos (call : SendCall) : 0 < call.bytes.length := by
  rw [call.bytes_eq.1, List.length_append, List.length_singleton]
  exact Nat.succ_pos _

/-- A part of the string that is not all of it has no delimiter. -/
theorem take_prefix_frame {tot : Nat} (hmore : tot < call.bytes.length) :
    call.bytes.take tot <+: call.frame := by
  rw [frame, List.dropLast_eq_take]
  exact List.take_prefix_take_left (Nat.le_sub_one_of_lt hmore)

/-- The socket with the front of the string. -/
def write (call : SendCall) (wires : Wires) (tot : Nat) : Wires :=
  Function.update wires call.sock (wires call.sock ++ call.bytes.take tot)

/-- What a call has done that was alone under the lock. -/
inductive Sent (call : SendCall) (wires : Wires) : Status WriteVars Int × Wires → Prop
  | inside (tot : Nat) : tot < call.bytes.length →
      Sent call wires (.inside ⟨tot, tot⟩, call.write wires tot)
  | released : Sent call wires (.released call.bytes.length, call.write wires call.bytes.length)
  | kept (tot : Nat) : tot < call.bytes.length → Sent call wires (.kept (-1), call.write wires tot)

theorem write_zero (wires : Wires) : call.write wires 0 = wires := by
  simp [write]

/-- The socket after the next part of the string. -/
theorem update_write {wires : Wires} {tot count : Nat} :
    Function.update (call.write wires tot) call.sock
      (call.write wires tot call.sock ++ (call.bytes.drop tot).take count) =
      call.write wires (tot + count) := by
  simp [write, List.take_add]

/-- A pass that moved something. -/
theorem transferPass_some {α σ : Type} {dir : Direction α σ} {n : Int} {part : α}
    (hsome : dir.size part ≠ 0) {tot buf : Nat} {data : σ} {t : TransferState σ}
    (hpass : transferPass dir n (.moved part) ⟨tot, buf, data, none⟩ = .ok t) :
    ∃ next, dir.move buf part data = .ok next ∧
      t = TransferState.test n ⟨tot + dir.size part, buf + dir.size part, next, none⟩ := by
  unfold transferPass at hpass
  simp only at hpass
  rw [if_neg hsome] at hpass
  obtain ⟨next, hmove, hpass⟩ := bind_eq_ok.mp hpass
  cases hpass
  exact ⟨next, hmove, rfl⟩

theorem test_data {n : Int} (t : TransferState Bytes) : (t.test n).data = t.data := by
  rw [TransferState.test]
  split <;> rfl

theorem status_whole (data : Bytes) :
    call.status (TransferState.test call.bytes.length
      ⟨call.bytes.length, call.bytes.length, data, none⟩) = .released call.bytes.length := by
  rw [test_of_le (t := ⟨_, call.bytes.length, data, none⟩) (Int.le_refl _)]
  simp only [status, Int.lt_irrefl, if_false]

/-- What the test at the head of the loop leaves. -/
theorem sent_test {wires : Wires} {tot : Nat} (htot : tot ≤ call.bytes.length) {data : Bytes} :
    Sent call wires (call.status (TransferState.test call.bytes.length ⟨tot, tot, data, none⟩),
      call.write wires tot) := by
  by_cases hmore : tot < call.bytes.length
  · rw [test_of_lt (Int.ofNat_lt.mpr hmore)]
    exact .inside tot hmore
  · have hall : tot = call.bytes.length := Nat.le_antisymm htot (Nat.not_lt.mp hmore)
    rw [hall, status_whole]
    exact .released

theorem enter_eq (call : SendCall) : writenBody.enter call = .inside ⟨0, 0⟩ := by
  have hmore : ((0 : Nat) : Int) < call.bytes.length := Int.ofNat_lt.mpr call.bytes_pos
  change call.status (TransferState.test _ _) = _
  rw [test_of_lt hmore]
  rfl

theorem sent_enter (call : SendCall) (wires : Wires) :
    Sent call wires (writenBody.enter call, wires) := by
  rw [enter_eq]
  have hsent : Sent call wires (.inside ⟨0, 0⟩, call.write wires 0) := .inside 0 call.bytes_pos
  rwa [write_zero] at hsent

/-- A system call of a `writen` that is under way. -/
theorem Sent.step {wires now : Wires} {vars : WriteVars} {next : Status WriteVars Int × Wires}
    (hsent : Sent call wires (.inside vars, now)) {result : SysResult Nat}
    (hstep : writenBody.step call result vars now = .ok next) : Sent call wires next := by
  cases hsent with
  | inside tot hmore =>
  obtain ⟨t, hpass, hnext⟩ := bind_eq_ok.mp hstep
  cases hnext
  cases result with
  | moved count =>
      by_cases hzero : count = 0
      · rw [transferPass_atZero hzero] at hpass
        cases hpass
        simp only [status, Int.ofNat_lt.mpr hmore, if_true, Function.update_eq_self]
        exact .kept tot hmore
      · obtain ⟨data, hmove, rfl⟩ := transferPass_some hzero hpass
        obtain ⟨part, hpart, -⟩ := bind_eq_ok.mp hmove
        have hfits := readRange_eq_ok hpart hzero
        rw [writeDirection_move _ hfits] at hmove
        cases hmove
        rw [test_data, update_write]
        exact sent_test hfits
  | interrupted =>
      rw [transferPass_interrupted (Int.ofNat_lt.mpr hmore)] at hpass
      cases hpass
      simp only [status, Function.update_eq_self]
      exact .inside tot hmore
  | failed =>
      cases hpass
      simp only [status, Int.ofNat_lt.mpr hmore, if_true, Function.update_eq_self]
      exact .kept tot hmore

/-- A call that is alone under the lock. -/
theorem sent_alone {wires : Wires} {results : List (SysResult Nat)}
    {next : Status WriteVars Int × Wires}
    (halone : writenBody.alone call results wires = .ok next) : Sent call wires next := by
  apply run_invariant ?_ (sent_enter call wires) halone
  rintro result ⟨out, now⟩ next hsent hadvance
  cases out with
  | inside vars => exact hsent.step hadvance
  | released value =>
      cases hadvance
      exact hsent
  | kept value =>
      cases hadvance
      exact hsent

end SendCall

/-! ## The calls one after another -/

section Streams

variable {Thread : Type}

theorem completed_append (front back : List (Thread × SendCall × Int)) (sock : Int) :
    completed (front ++ back) sock = completed front sock ++ completed back sock := by
  simp [completed]

theorem completed_whole {call : SendCall} {value : Int} (hwhole : call.Whole value)
    (thread : Thread) (sock : Int) :
    completed [(thread, call, value)] sock = if call.sock = sock then [call] else [] := by
  by_cases hsock : call.sock = sock
  · simp [completed, hwhole, hsock]
  · simp [completed, hsock]

theorem completed_not_whole {call : SendCall} {value : Int} (hpart : ¬ call.Whole value)
    (thread : Thread) (sock : Int) : completed [(thread, call, value)] sock = [] := by
  simp [completed, hpart]

/-- What calls have written that ran one after another. -/
structure Written (start : Wires) (history : List (Thread × SendCall × Int)) (wires : Wires) :
    Prop where
  whole : ∀ out ∈ history, out.2.1.Whole out.2.2
  stream : ∀ sock, wires sock = start sock ++ (completed history sock).flatMap SendCall.bytes

theorem SendCall.not_whole_neg (call : SendCall) : ¬ call.Whole (-1) := by
  rw [Whole]
  omega

/-- The call that comes behind them, as far as it is. -/
theorem Written.write {history : List (Thread × SendCall × Int)} {wires : Wires}
    (hwritten : Written (fun _ => []) history wires) (call : SendCall) (tot : Nat) (sock : Int) :
    call.write wires tot sock = (completed history sock).flatMap SendCall.bytes ++
      if sock = call.sock then call.bytes.take tot else [] := by
  by_cases hsock : sock = call.sock
  · subst hsock
    simp [SendCall.write, hwritten.stream]
  · simp [SendCall.write, hsock, hwritten.stream]

theorem serial_written {start wires : Wires} {history : List (Thread × SendCall × Int)}
    (hserial : Serial writenBody start history wires) : Written start history wires := by
  induction hserial with
  | nil => exact ⟨List.forall_mem_nil _, fun sock => (List.append_nil _).symm⟩
  | @concat history shared next inputs call value thread _ halone ih =>
      cases SendCall.sent_alone halone
      refine ⟨?_, fun sock => ?_⟩
      · intro out hout
        rcases List.mem_append.mp hout with hout | hout
        · exact ih.whole out hout
        · rw [List.mem_singleton.mp hout]
          rfl
      · rw [completed_append, completed_whole rfl, SendCall.write, List.take_length]
        by_cases hsock : call.sock = sock
        · subst hsock
          simp [ih.stream]
        · simp [hsock, Function.update_of_ne (Ne.symm hsock), ih.stream]

/-- The frames of strings that stand one behind the other. -/
theorem frames_flatMap_bytes (calls : List SendCall) {part : Bytes} (hpart : specialChar ∉ part) :
    frames specialChar (calls.flatMap SendCall.bytes ++ part) = calls.map SendCall.frame := by
  induction calls with
  | nil => exact frames_of_notMem hpart
  | cons call rest ih =>
      obtain ⟨hbytes, hframe⟩ := call.bytes_eq
      rw [List.flatMap_cons, List.append_assoc, hbytes, List.append_assoc, List.singleton_append,
        frames_append_cons, List.splitOn_eq_singleton hframe, ih]
      rfl

end Streams

/-! ## Any schedule of the threads -/

section Threads

variable {Thread : Type} [DecidableEq Thread] {program : Thread → List SendCall}
  {events : List (Event Thread (SysResult Nat))} {s : Senders Thread}

/-- However the threads are scheduled, and whatever their writes do, a socket carries the
strings of whole messages one behind the other, and at most on one socket a front of
another message comes behind them. So the frames that a socket delimits are those of
whole messages, in the order of their returns and for every thread in its own. -/
theorem sendMsg_frames
    (hrun : run (event writenBody) events (State.start (fun _ => []) program) = .ok s) :
    (∀ thread, s.callsOf thread ++ s.todo thread = program thread) ∧
    (∀ sock, frames specialChar (s.shared sock) = (completed s.returned sock).map SendCall.frame) ∧
    ∃ last part, (∀ sock, s.shared sock = (completed s.returned sock).flatMap SendCall.bytes ++
        if sock = last then part else []) ∧
      (part = [] ∨ ∃ thread, ∃ call ∈ program thread, call.sock = last ∧ part <+: call.frame) := by
  have horder := run_order hrun
  suffices hstream : ∃ last part, (∀ sock, s.shared sock =
      (completed s.returned sock).flatMap SendCall.bytes ++ if sock = last then part else []) ∧
      (part = [] ∨ ∃ thread, ∃ call ∈ program thread, call.sock = last ∧ part <+: call.frame) by
    refine ⟨horder, ?_, hstream⟩
    obtain ⟨last, part, hwires, hpart⟩ := hstream
    have hfree : specialChar ∉ part := by
      rcases hpart with rfl | ⟨_, call, -, -, hfront⟩
      · exact List.not_mem_nil
      · exact fun hmem => call.bytes_eq.2 (hfront.subset hmem)
    intro sock
    rw [hwires sock]
    split
    next => exact frames_flatMap_bytes _ hfree
    next => exact frames_flatMap_bytes _ List.not_mem_nil
  cases run_stands hrun with
  | free hserial =>
      refine ⟨0, [], ?_, .inl rfl⟩
      intro sock
      simp only [(serial_written hserial).stream, ite_self, List.append_nil, List.nil_append]
  | @held todo history base shared inputs call vars rest thread hserial halone htodo =>
      cases SendCall.sent_alone halone with
      | inside tot hmore =>
      refine ⟨call.sock, call.bytes.take tot, (serial_written hserial).write call tot,
        .inr ⟨thread, call, ?_, rfl, SendCall.take_prefix_frame hmore⟩⟩
      have hnext : call ∈ todo thread := htodo ▸ List.mem_cons_self
      rw [← horder thread]
      exact List.mem_append_right _ hnext
  | @lost todo history base shared inputs call value thread hserial halone =>
      cases SendCall.sent_alone halone with
      | kept tot hmore =>
      refine ⟨call.sock, call.bytes.take tot, ?_,
        .inr ⟨thread, call, ?_, rfl, SendCall.take_prefix_frame hmore⟩⟩
      · intro sock
        rw [completed_append, completed_not_whole call.not_whole_neg, List.append_nil]
        exact (serial_written hserial).write call tot sock
      · rw [← horder thread]
        refine List.mem_append_left _ ?_
        simp [State.callsOf]

end Threads

/-- An empty message to the fifth descriptor. -/
def emptyCall : SendCall :=
  ⟨5, parsedMsg emptyMsgBytes, cobsEncode emptyMsgBytes, by decide +kernel⟩

/-- Two threads with a message each. One has written three bytes when the other comes. -/
theorem sendMsg_frames_two :
    ∃ s : Senders Bool, run (event writenBody)
        [.lock true, .step true (.moved 3), .lock false, .step false .interrupted]
        (State.start (fun _ => []) fun _ => [emptyCall]) = .ok s ∧
      s.shared 5 = emptyCall.bytes.take 3 ∧
      (∀ thread, s.callsOf thread ++ s.todo thread = [emptyCall]) ∧
      (∀ sock, frames specialChar (s.shared sock) =
        (completed s.returned sock).map SendCall.frame) ∧
      ∃ last part, (∀ sock, s.shared sock = (completed s.returned sock).flatMap SendCall.bytes ++
          if sock = last then part else []) ∧
        (part = [] ∨ ∃ _ : Bool, ∃ call ∈ [emptyCall], call.sock = last ∧ part <+: call.frame) := by
  have hrun : ∃ s : Senders Bool, run (event writenBody)
      [.lock true, .step true (.moved 3), .lock false, .step false .interrupted]
      (State.start (fun _ => []) fun _ => [emptyCall]) = .ok s ∧
      s.shared 5 = emptyCall.bytes.take 3 := by
    decide +kernel
  obtain ⟨s, hrun, hshared⟩ := hrun
  exact ⟨s, hrun, hshared, sendMsg_frames hrun⟩

/-! ## A write that fails -/

section Failures

variable {Thread : Type} [DecidableEq Thread] {program : Thread → List SendCall}
  {events : List (Event Thread (SysResult Nat))} {s : Senders Thread}

/-- A peer that takes the rest brings the call to its end. -/
theorem SendCall.step_rest {call : SendCall} {tot : Nat} (hmore : tot < call.bytes.length)
    (wires : Wires) : writenBody.step call (.moved (call.bytes.length - tot)) ⟨tot, tot⟩ wires =
      .ok (.released call.bytes.length,
        Function.update wires call.sock (wires call.sock ++ call.bytes.drop tot)) := by
  have hsome : (writeDirection call.bytes).size (call.bytes.length - tot) ≠ 0 :=
    Nat.sub_ne_zero_of_lt hmore
  have htotal : tot + (call.bytes.length - tot) = call.bytes.length := by omega
  have hmove := writeDirection_move (wires call.sock) (Nat.le_of_eq htotal)
  rw [List.take_of_length_le (Nat.le_of_eq List.length_drop)] at hmove
  change SendCall.writeStep _ _ _ _ = _
  rw [SendCall.writeStep, transferPass_moved hsome hmove, ok_bind, writeDirection_size, id, htotal,
    test_data, SendCall.status_whole]
  rfl

theorem writenBody_releases : Releases writenBody where
  enter call value := by
    rw [SendCall.enter_eq]
    exact nofun
  ends {call inputs base vars shared} halone := by
    cases SendCall.sent_alone halone with
    | inside tot hmore =>
    exact ⟨[_], _, _, run_cons_of_ok (SendCall.step_rest hmore _)⟩

/-- A thread that has messages to send can be brought through them exactly if every write
of the process came to its end so far. After one that did not, no thread writes anything
to any socket. -/
theorem sendMsg_progress_iff
    (hrun : run (event writenBody) events (State.start (fun _ => []) program) = .ok s) :
    (∀ thread, s.todo thread ≠ [] →
      ((∃ more s', run (event writenBody) more s = .ok s' ∧ s'.todo thread = []) ↔
        ∀ out ∈ s.returned, out.2.1.Whole out.2.2)) ∧
    ((∃ out ∈ s.returned, ¬ out.2.1.Whole out.2.2) →
      ∀ more, run (event writenBody) more s = .ok s) := by
  have hwhole : (∀ out ∈ s.returned, out.2.1.Whole out.2.2) ↔ s.lock ≠ .lost := by
    cases run_stands hrun with
    | free hserial => exact iff_of_true (serial_written hserial).whole nofun
    | held thread hserial halone htodo => exact iff_of_true (serial_written hserial).whole nofun
    | lost thread hserial halone =>
        cases SendCall.sent_alone halone
        refine iff_of_false (fun hall => ?_) fun hne => hne rfl
        exact SendCall.not_whole_neg _ (hall _ (List.mem_append_right _ List.mem_cons_self))
  constructor
  · intro thread htodo
    rw [hwhole]
    exact writenBody_releases.exists_run_iff (run_stands hrun) htodo
  · rintro ⟨out, hout, hpart⟩ more
    apply run_lost
    by_contra hlock
    exact hpart (hwhole.mpr hlock out hout)

end Failures

/-- The peer of the one thread is gone, and the other waits for ever. -/
theorem sendMsg_progress_iff_two :
    ∃ s : Senders Bool, run (event writenBody) [.lock true, .step true .failed]
        (State.start (fun _ => []) fun _ => [emptyCall]) = .ok s ∧ (s.todo false).length = 1 ∧
      (∀ thread, s.todo thread ≠ [] →
        ((∃ more s', run (event writenBody) more s = .ok s' ∧ s'.todo thread = []) ↔
          ∀ out ∈ s.returned, out.2.1.Whole out.2.2)) ∧
      ((∃ out ∈ s.returned, ¬ out.2.1.Whole out.2.2) →
        ∀ more, run (event writenBody) more s = .ok s) := by
  have hrun : ∃ s : Senders Bool, run (event writenBody) [.lock true, .step true .failed]
      (State.start (fun _ => []) fun _ => [emptyCall]) = .ok s ∧ (s.todo false).length = 1 := by
    decide +kernel
  obtain ⟨s, hrun, htodo⟩ := hrun
  exact ⟨s, hrun, htodo, sendMsg_progress_iff hrun⟩

end Hipft
