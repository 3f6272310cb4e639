import Hipft.Server.FileTransfer

/-! # Whole reads and writes

`readn` and `writen` repeat a system call until all of a buffer is moved, each under
a mutex of its own. The mutex is released behind the loop and not where a return
leaves it, so the call after an incomplete one waits for ever.
-/

namespace Hipft

open CMemory

/-- A `pthread_mutex_t` of the default kind. -/
inductive Mutex
  | unlocked
  | locked
  deriving DecidableEq, Repr

/-- `pthread_mutex_lock`, which waits for a mutex that nobody will release. -/
def Mutex.lock : Mutex → CRun Mutex
  | unlocked => .ok locked
  | locked => .error .hang

/-- `pthread_mutex_unlock`. -/
def Mutex.unlock (_ : Mutex) : Mutex := unlocked

/-- A result of `read` or `write`: the part that it moved, -1 with `EINTR`, or -1 with
another error. -/
inductive SysResult (α : Type)
  | moved (part : α)
  | interrupted
  | failed
  deriving DecidableEq, Repr

/-- What tells the two loops apart: the size of a part, the part's way into or out of the
buffer, and what is returned at a count of 0. -/
structure Direction (α σ : Type) where
  size : α → Nat
  move : Nat → α → σ → CRun σ
  atZero : Nat → Int

/-- The value returned, what has been moved, and the mutex. -/
structure Returned (σ : Type) where
  value : Int
  moved : σ
  mutex : Mutex

section Model

variable {α σ : Type} (dir : Direction α σ) (n : Int) (mutex : Mutex)

/-- The loop of both functions, from a total on. Where it asks for a result and there is
none, the call has not returned. -/
def transferLoop : List (SysResult α) → Nat → σ → CRun (Returned σ)
  | [], tot, data => if (tot : Int) < n then .error .hang else .ok ⟨tot, data, mutex.unlock⟩
  | result :: rest, tot, data =>
      if (tot : Int) < n then
        match result with
        | .moved part =>
            -- The returns from inside the loop leave the mutex as it is.
            if dir.size part = 0 then .ok ⟨dir.atZero tot, data, mutex⟩
            else do
              let data ← dir.move tot part data
              transferLoop rest (tot + dir.size part) data
        | .interrupted => transferLoop rest tot data
        | .failed => .ok ⟨-1, data, mutex⟩
      else .ok ⟨tot, data, mutex.unlock⟩

end Model

/-- `read` copies its part behind what is filled; at the end of the file the total is
returned. -/
def readDirection : Direction Bytes (Cursor UInt8) where
  size := List.length
  move _ part buf := buf.put part
  atZero tot := tot

/-- `write` takes its part from behind the total; a count of 0 is an error. -/
def writeDirection (buffer : Bytes) : Direction Nat Bytes where
  size := id
  move tot count sent := do
    let part ← readRange buffer tot count
    pure (sent ++ part)
  atZero _ := -1

/-- `readn(fd, buffer, n)`, for the results that `read` gives. -/
def readn (recvMutex : Mutex) (buffer : Bytes) (n : Int) (results : List (SysResult Bytes)) :
    CRun (Returned (Cursor UInt8)) := do
  let mutex ← recvMutex.lock
  transferLoop readDirection n mutex results 0 ⟨buffer, 0⟩

/-- `writen(fd, buffer, n)`, for the results that `write` gives. -/
def writen (sendMutex : Mutex) (buffer : Bytes) (n : Int) (results : List (SysResult Nat)) :
    CRun (Returned Bytes) := do
  let mutex ← sendMutex.lock
  transferLoop (writeDirection buffer) n mutex results 0 []

/-- `send_msg` on a connection that takes what the results say. It does not tell its caller
whether that was all. -/
def sendMsgOver (sendMutex : Mutex) (src : Msg) (results : List (SysResult Nat)) :
    CRun (Returned Bytes) := do
  let (bytes, size) ← msgToCobs src
  writen sendMutex bytes size results

/-! ## Complete transfers -/

/-- A result after which the loop goes on. -/
def SysResult.Continues {α : Type} (size : α → Nat) : SysResult α → Prop
  | moved part => size part ≠ 0
  | interrupted => True
  | failed => False

/-- The count of a result. -/
def SysResult.count {α : Type} (size : α → Nat) : SysResult α → Nat
  | moved part => size part
  | interrupted => 0
  | failed => 0

/-- Interruptions and counts above 0, which add up to `n`, come before anything else. -/
def Completes {α : Type} (size : α → Nat) (n : Int) (results : List (SysResult α)) : Prop :=
  ∃ front, front <+: results ∧ (∀ r ∈ front, r.Continues size) ∧
    n ≤ (front.map (SysResult.count size)).sum

section Completes

variable {α : Type} {size : α → Nat} {n : Int}

theorem completes_of_nonpos (hn : n ≤ 0) (results : List (SysResult α)) :
    Completes size n results :=
  ⟨[], List.nil_prefix, by simp, by simpa using hn⟩

theorem completes_cons (hn : 0 < n) (result : SysResult α) (rest : List (SysResult α)) :
    Completes size n (result :: rest) ↔
      result.Continues size ∧ Completes size (n - result.count size) rest := by
  constructor
  · rintro ⟨front, hfront, hgoes, hsum⟩
    cases front with
    | nil => exact absurd hsum (by simpa using hn)
    | cons first front =>
        rw [List.cons_prefix_cons] at hfront
        obtain ⟨rfl, hfront⟩ := hfront
        rw [List.map_cons, List.sum_cons] at hsum
        exact ⟨hgoes first List.mem_cons_self, front, hfront,
          fun r hr => hgoes r (List.mem_cons_of_mem _ hr), by omega⟩
  · rintro ⟨hfirst, front, hfront, hgoes, hsum⟩
    refine ⟨result :: front, List.cons_prefix_cons.mpr ⟨rfl, hfront⟩, ?_, ?_⟩
    · intro r hr
      rcases List.mem_cons.mp hr with rfl | hr
      · exact hfirst
      · exact hgoes r hr
    · rw [List.map_cons, List.sum_cons]
      omega

end Completes

/-! ## The passes of the loop -/

section Passes

variable {α σ : Type} {dir : Direction α σ} {n : Int} {mutex : Mutex}
  {rest : List (SysResult α)} {tot : Nat} {data : σ}

theorem transferLoop_done (hdone : n ≤ tot) (results : List (SysResult α)) :
    transferLoop dir n mutex results tot data = .ok ⟨tot, data, mutex.unlock⟩ := by
  cases results with
  | nil => rw [transferLoop, if_neg (Int.not_lt.mpr hdone)]
  | cons result rest => rw [transferLoop.eq_def]; exact if_neg (Int.not_lt.mpr hdone)

theorem transferLoop_waits (hmore : (tot : Int) < n) :
    transferLoop dir n mutex [] tot data = .error .hang := by
  rw [transferLoop, if_pos hmore]

theorem transferLoop_interrupted (hmore : (tot : Int) < n) :
    transferLoop dir n mutex (.interrupted :: rest) tot data =
      transferLoop dir n mutex rest tot data := by
  rw [transferLoop, if_pos hmore]

theorem transferLoop_failed (hmore : (tot : Int) < n) :
    transferLoop dir n mutex (.failed :: rest) tot data = .ok ⟨-1, data, mutex⟩ := by
  rw [transferLoop, if_pos hmore]

theorem transferLoop_atZero (hmore : (tot : Int) < n) {part : α} (hzero : dir.size part = 0) :
    transferLoop dir n mutex (.moved part :: rest) tot data =
      .ok ⟨dir.atZero tot, data, mutex⟩ := by
  rw [transferLoop, if_pos hmore, if_pos hzero]

theorem transferLoop_moved (hmore : (tot : Int) < n) {part : α} (hsome : dir.size part ≠ 0) :
    transferLoop dir n mutex (.moved part :: rest) tot data =
      dir.move tot part data >>= fun data =>
        transferLoop dir n mutex rest (tot + dir.size part) data := by
  rw [transferLoop, if_pos hmore, if_neg hsome]

end Passes

/-! ## The mutex -/

section Release

variable {α σ : Type} (dir : Direction α σ) {n : Int}

theorem unlocked_iff_of_le {results : List (SysResult α)} {tot : Nat} {data : σ}
    {out : Returned σ} (hdone : n ≤ tot)
    (hrun : transferLoop dir n .locked results tot data = .ok out) :
    out.mutex = .unlocked ↔ Completes dir.size (n - tot) results := by
  rw [transferLoop_done hdone, Except.ok.injEq] at hrun
  rw [← hrun]
  exact iff_of_true rfl (completes_of_nonpos (by omega) results)

/-- The loop that is left behind its last pass has released the mutex, and any other way
out keeps it. -/
theorem transferLoop_unlocked_iff {results : List (SysResult α)} {tot : Nat} {data : σ}
    {out : Returned σ} (hrun : transferLoop dir n .locked results tot data = .ok out) :
    out.mutex = .unlocked ↔ Completes dir.size (n - tot) results := by
  induction results generalizing tot data with
  | nil =>
      by_cases hmore : (tot : Int) < n
      · rw [transferLoop_waits hmore] at hrun
        cases hrun
      · exact unlocked_iff_of_le dir (Int.not_lt.mp hmore) hrun
  | cons result rest ih =>
      by_cases hmore : (tot : Int) < n
      · rw [completes_cons (by omega)]
        cases result with
        | moved part =>
            by_cases hzero : dir.size part = 0
            · rw [transferLoop_atZero hmore hzero, Except.ok.injEq] at hrun
              rw [← hrun]
              exact iff_of_false (by simp) fun h => h.1 hzero
            · rw [transferLoop_moved hmore hzero, bind_eq_ok] at hrun
              obtain ⟨data, -, hrun⟩ := hrun
              have htotal : n - tot - dir.size part = n - (tot + dir.size part : Nat) := by omega
              rw [ih hrun, SysResult.count, htotal]
              exact (and_iff_right hzero).symm
        | interrupted =>
            rw [transferLoop_interrupted hmore] at hrun
            rw [ih hrun, SysResult.count, Nat.cast_zero, Int.sub_zero]
            exact (and_iff_right trivial).symm
        | failed =>
            rw [transferLoop_failed hmore, Except.ok.injEq] at hrun
            rw [← hrun]
            exact iff_of_false (by simp) fun h => h.1
      · exact unlocked_iff_of_le dir (Int.not_lt.mp hmore) hrun

end Release

/-- Either function returns with its mutex unlocked exactly when it has moved all that was
asked for. -/
theorem readn_writen_unlocked_iff (buffer : Bytes) (n : Int) (reads : List (SysResult Bytes))
    (writes : List (SysResult Nat)) :
    (∀ out, readn .unlocked buffer n reads = .ok out →
      (out.mutex = .unlocked ↔ Completes List.length n reads)) ∧
    (∀ out, writen .unlocked buffer n writes = .ok out →
      (out.mutex = .unlocked ↔ Completes id n writes)) := by
  constructor
  · intro out hrun
    have hiff := transferLoop_unlocked_iff readDirection hrun
    rwa [Nat.cast_zero, Int.sub_zero] at hiff
  · intro out hrun
    have hiff := transferLoop_unlocked_iff (writeDirection buffer) hrun
    rwa [Nat.cast_zero, Int.sub_zero] at hiff

theorem readn_writen_unlocked_iff_two :
    Mutex.unlocked = .unlocked ↔ Completes id 2 [.moved 1, .interrupted, .moved 1] :=
  (readn_writen_unlocked_iff [0x07, 0x09] 2 [] [.moved 1, .interrupted, .moved 1]).2
    ⟨2, [0x07, 0x09], .unlocked⟩ rfl

/-- A peer that is gone leaves the mutex of either function locked. -/
theorem not_readn_writen_unlocked :
    ¬ ((∀ buffer n results out, readn .unlocked buffer n results = .ok out →
        out.mutex = .unlocked) ∧
      (∀ buffer n results out, writen .unlocked buffer n results = .ok out →
        out.mutex = .unlocked)) := by
  rintro ⟨hread, -⟩
  have hlocked := hread [0x00] 1 [.moved []] ⟨0, ⟨[0x00], 0⟩, .locked⟩ rfl
  cases hlocked

/-! ## The calls after it -/

/-- After a call that was not complete no call returns. -/
theorem writen_after_incomplete {buffer : Bytes} {n : Int} {results : List (SysResult Nat)}
    {out : Returned Bytes} (hrun : writen .unlocked buffer n results = .ok out)
    (hincomplete : ¬ Completes id n results) (buffer' : Bytes) (n' : Int)
    (results' : List (SysResult Nat)) : writen out.mutex buffer' n' results' = .error .hang := by
  have hiff := transferLoop_unlocked_iff (writeDirection buffer) hrun
  rw [Nat.cast_zero, Int.sub_zero] at hiff
  cases hmutex : out.mutex with
  | unlocked => exact absurd (hiff.mp hmutex) hincomplete
  | locked => rfl

/-- A message that is not written to its end is the last one: `send_msg` returns, and any
later `send_msg` waits. -/
theorem sendMsgOver_after_incomplete {src next : Msg} {bytes bytes' : Bytes} {size size' : Nat}
    {results : List (SysResult Nat)} {out : Returned Bytes}
    (hsrc : msgToCobs src = .ok (bytes, size)) (hnext : msgToCobs next = .ok (bytes', size'))
    (hrun : sendMsgOver .unlocked src results = .ok out)
    (hincomplete : ¬ Completes id size results) (results' : List (SysResult Nat)) :
    sendMsgOver out.mutex next results' = .error .hang := by
  rw [sendMsgOver, hsrc, ok_bind] at hrun
  rw [sendMsgOver, hnext, ok_bind]
  exact writen_after_incomplete hrun hincomplete bytes' size' results'

/-! ## What is written -/

/-- The loop of `writen` writes the front of the buffer, as much as it returns or reports
as an error. -/
theorem writeLoop_moved {buffer : Bytes} {n : Int} {mutex : Mutex}
    {results : List (SysResult Nat)} {tot : Nat} {out : Returned Bytes}
    (htot : tot ≤ buffer.length)
    (hrun : transferLoop (writeDirection buffer) n mutex results tot (buffer.take tot) =
      .ok out) :
    ∃ total ≤ buffer.length, out.moved = buffer.take total ∧
      (out.value = total ∨ out.value = -1) := by
  induction results generalizing tot with
  | nil =>
      by_cases hmore : (tot : Int) < n
      · rw [transferLoop_waits hmore] at hrun
        cases hrun
      · rw [transferLoop_done (Int.not_lt.mp hmore)] at hrun
        cases hrun
        exact ⟨tot, htot, rfl, Or.inl rfl⟩
  | cons result rest ih =>
      by_cases hmore : (tot : Int) < n
      · cases result with
        | moved count =>
            by_cases hzero : (writeDirection buffer).size count = 0
            · rw [transferLoop_atZero hmore hzero] at hrun
              cases hrun
              exact ⟨tot, htot, rfl, Or.inr rfl⟩
            · rw [transferLoop_moved hmore hzero, bind_eq_ok] at hrun
              obtain ⟨data, hmove, hrun⟩ := hrun
              obtain ⟨part, hpart, hdata⟩ := bind_eq_ok.mp hmove
              have hfits := readRange_eq_ok hpart hzero
              rw [readRange_of_le hfits, Except.ok.injEq] at hpart
              have htake : data = buffer.take (tot + count) := by
                rw [List.take_add, hpart]
                exact (Except.ok.inj hdata).symm
              rw [htake] at hrun
              exact ih hfits hrun
        | interrupted =>
            rw [transferLoop_interrupted hmore] at hrun
            exact ih htot hrun
        | failed =>
            rw [transferLoop_failed hmore] at hrun
            cases hrun
            exact ⟨tot, htot, rfl, Or.inr rfl⟩
      · rw [transferLoop_done (Int.not_lt.mp hmore)] at hrun
        cases hrun
        exact ⟨tot, htot, rfl, Or.inl rfl⟩

/-- A message whose size `writen` returns has been written as `sendMsg` has it. -/
theorem sendMsgOver_whole {src : Msg} {bytes : Bytes} {size : Nat}
    {results : List (SysResult Nat)} {out : Returned Bytes}
    (hsrc : msgToCobs src = .ok (bytes, size))
    (hrun : sendMsgOver .unlocked src results = .ok out) (hall : out.value = size) :
    sendMsg src = .ok out.moved := by
  rw [sendMsgOver, hsrc, ok_bind] at hrun
  obtain ⟨total, htotal, hmoved, hvalue⟩ := writeLoop_moved (Nat.zero_le _) hrun
  have hsize : total = size := by omega
  rw [sendMsg, hsrc, ok_bind]
  change readRange bytes 0 size = .ok out.moved
  rw [readRange_of_le (by omega), hmoved, hsize, List.drop_zero]

end Hipft
