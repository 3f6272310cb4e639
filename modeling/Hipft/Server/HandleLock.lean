import Hipft.Foundation.CriticalSection
import Hipft.Server.FileHandle

/-! # Reading from several threads

Channels that ship the same file share its handle, and with it the position of one
`FILE`. A segment is sought and read under the mutex of the handle.
-/

namespace Hipft

open CMemory CriticalSection Transitions

/-- `segment_in_file_handle` up to its lock: where the segment begins, and `*numBytes`.
There is none for a number that the file does not have. -/
def segmentPlace (fhandle : FileHandle) (segmentNum segmentSize : UInt64) :
    Run (Option (UInt64 × UInt64)) := do
  if segmentNum = 0 then return none
  let numSegments ← numSegmentsInFileHandle fhandle segmentSize
  if segmentNum > numSegments then return none
  let start := (segmentNum - 1) * segmentSize
  let numBytes :=
    if start + segmentSize > fhandle.fileSize then fhandle.fileSize - start else segmentSize
  return some (start, numBytes)

/-- The part of `segment_in_file_handle` behind its lock. -/
def segmentAt (fhandle : FileHandle) : Option (UInt64 × UInt64) → Bytes × UInt64
  | none => ([], 0)
  | some (start, numBytes) =>
      ((fhandle.content.drop start.toUInt32.toNat).take numBytes.toNat, numBytes)

/-- A `segment_in_file_handle` that has come to its lock. -/
structure ReadCall (fhandle : FileHandle) where
  segmentNum : UInt64
  segmentSize : UInt64
  start : UInt64
  numBytes : UInt64
  place : segmentPlace fhandle segmentNum segmentSize = .ok (some (start, numBytes))

/-- What a call does next that has the mutex of the handle. -/
inductive ReadPhase
  | fseek
  | fread
  deriving DecidableEq, Repr

/-- `segment_in_file_handle` as the body of the mutex of its handle. What the threads share
is the position in the file. -/
def readBody (fhandle : FileHandle) : Body Fault (ReadCall fhandle) Unit ReadPhase Bytes Nat where
  enter _ := .inside .fseek
  step call _ phase position :=
    match phase with
    | .fseek => pure (.inside .fread, call.start.toUInt32.toNat)
    | .fread =>
        let bytes := (fhandle.content.drop position).take call.numBytes.toNat
        pure (.released bytes, position + bytes.length)

/-! ## One reader -/

/-- The function is its two parts. -/
theorem segmentInFileHandle_eq_place (fhandle : FileHandle) (segmentNum segmentSize : UInt64) :
    segmentInFileHandle fhandle segmentNum segmentSize =
      (segmentPlace fhandle segmentNum segmentSize).map (segmentAt fhandle) := by
  unfold segmentInFileHandle segmentPlace
  by_cases hzero : segmentNum = 0
  · simp only [if_pos hzero]
    rfl
  simp only [if_neg hzero]
  cases numSegmentsInFileHandle fhandle segmentSize with
  | error crash => rfl
  | ok numSegments =>
      simp only [run_bind]
      by_cases hgt : segmentNum > numSegments
      · simp only [if_pos hgt]
        rfl
      · simp only [if_neg hgt]
        rfl

section Reader

variable {fhandle : FileHandle}

theorem ReadCall.segment (call : ReadCall fhandle) :
    segmentInFileHandle fhandle call.segmentNum call.segmentSize =
      .ok (segmentAt fhandle (some (call.start, call.numBytes))) := by
  rw [segmentInFileHandle_eq_place, call.place]
  rfl

/-- How far a call is that is alone under the mutex. -/
inductive Reading (call : ReadCall fhandle) : Status ReadPhase Bytes × Nat → Prop
  | fseek (position : Nat) : Reading call (.inside .fseek, position)
  | fread : Reading call (.inside .fread, call.start.toUInt32.toNat)
  | returned (position : Nat) : Reading call
      (.released (segmentAt fhandle (some (call.start, call.numBytes))).1, position)

theorem reading_alone {call : ReadCall fhandle} {inputs : List Unit} {position : Nat}
    {next : Status ReadPhase Bytes × Nat}
    (halone : (readBody fhandle).alone call inputs position = .ok next) : Reading call next := by
  apply run_invariant ?_ (.fseek position) halone
  intro input s next hreading hstep
  cases hreading with
  | fseek position =>
      cases hstep
      exact .fread
  | fread =>
      cases hstep
      exact .returned _
  | returned position =>
      cases hstep
      exact .returned position

theorem readBody_releases (fhandle : FileHandle) : Releases (readBody fhandle) where
  enter _ _ := nofun
  ends {call inputs base phase position} _ := by
    cases phase with
    | fseek => exact ⟨[(), ()], _, _, rfl⟩
    | fread => exact ⟨[()], _, _, rfl⟩

end Reader

/-! ## Any schedule of the threads -/

section Readers

variable {Thread : Type} [DecidableEq Thread] {fhandle : FileHandle} {position : Nat}
  {program : Thread → List (ReadCall fhandle)} {events : List (Event Thread Unit)}
  {s : CriticalSection.State Thread (ReadCall fhandle) ReadPhase Bytes Nat}

omit [DecidableEq Thread] in
theorem serial_segments {start last : Nat} {history : List (Thread × ReadCall fhandle × Bytes)}
    (hserial : Serial (readBody fhandle) start history last) :
    ∀ out ∈ history, segmentInFileHandle fhandle out.2.1.segmentNum out.2.1.segmentSize =
      .ok (out.2.2, out.2.1.numBytes) := by
  induction hserial with
  | nil => exact List.forall_mem_nil _
  | @concat history shared next inputs call bytes thread _ halone ih =>
      intro out hout
      rcases List.mem_append.mp hout with hout | hout
      · exact ih out hout
      · rw [List.mem_singleton.mp hout, call.segment]
        cases reading_alone halone
        rfl

/-- However the threads are scheduled that read from a handle, every call returns the segment
that it asked for, every thread has its calls in its own order, and none has to wait for
ever. -/
theorem segmentInFileHandle_concurrent
    (hrun : run (event (readBody fhandle)) events (State.start position program) = .ok s) :
    (∀ thread, s.callsOf thread ++ s.todo thread = program thread) ∧
    (∀ out ∈ s.returned, segmentInFileHandle fhandle out.2.1.segmentNum out.2.1.segmentSize =
      .ok (out.2.2, out.2.1.numBytes)) ∧
    ∀ thread, ∃ more s', run (event (readBody fhandle)) more s = .ok s' ∧
      s'.todo thread = [] := by
  have hstands := run_stands hrun
  suffices hreturned : (∀ out ∈ s.returned, segmentInFileHandle fhandle out.2.1.segmentNum
      out.2.1.segmentSize = .ok (out.2.2, out.2.1.numBytes)) ∧ s.lock ≠ .lost by
    refine ⟨run_order hrun, hreturned.1, fun thread => ?_⟩
    exact (readBody_releases fhandle).exists_run_through hstands hreturned.2 thread
  cases hstands with
  | free hserial => exact ⟨serial_segments hserial, nofun⟩
  | held _ hserial _ _ => exact ⟨serial_segments hserial, nofun⟩
  | lost _ _ halone => cases reading_alone halone

end Readers

/-- The second segment of two bytes. -/
def secondSegment : ReadCall threeBytes := ⟨2, 2, 2, 1, by decide⟩

/-- One thread has sought when the other comes. -/
theorem segmentInFileHandle_concurrent_two :
    ∃ s : CriticalSection.State Bool (ReadCall threeBytes) ReadPhase Bytes Nat,
      run (event (readBody threeBytes)) [.lock true, .step true (), .lock false, .step true ()]
        (State.start 0 fun _ => [secondSegment]) = .ok s ∧ s.returned.length = 1 ∧
      (∀ thread, s.callsOf thread ++ s.todo thread = [secondSegment]) ∧
      (∀ out ∈ s.returned, segmentInFileHandle threeBytes out.2.1.segmentNum
        out.2.1.segmentSize = .ok (out.2.2, out.2.1.numBytes)) ∧
      ∀ thread, ∃ more s', run (event (readBody threeBytes)) more s = .ok s' ∧
        s'.todo thread = [] := by
  have hrun : ∃ s : CriticalSection.State Bool (ReadCall threeBytes) ReadPhase Bytes Nat,
      run (event (readBody threeBytes)) [.lock true, .step true (), .lock false, .step true ()]
        (State.start 0 fun _ => [secondSegment]) = .ok s ∧ s.returned.length = 1 := ⟨_, rfl, rfl⟩
  obtain ⟨s, hrun, hreturned⟩ := hrun
  exact ⟨s, hrun, hreturned, segmentInFileHandle_concurrent hrun⟩

end Hipft
