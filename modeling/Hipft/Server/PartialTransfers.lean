import Hipft.Foundation.Transitions
import Hipft.Server.SocketHelp

/-! # Reads and writes in parts

A call of `readn` or `writen` that has its mutex, one system call after the other: the
total, the pointer and what is still asked for stay in step, whatever the results are.
-/

namespace Hipft

open CMemory Transitions

/-- The variables of a loop, what its system calls have moved, and the value that was
returned. -/
structure TransferState (σ : Type) where
  tot : Nat
  buf : Nat
  data : σ
  returned : Option Int
  deriving DecidableEq

/-- `read(fd, buf, ...)` writes its part at the pointer; at the end of the file the total
is returned. -/
def readInto : Direction Bytes Bytes where
  size := List.length
  move buf part dest :=
    if buf + part.length ≤ dest.length then
      .ok (dest.take buf ++ part ++ dest.drop (buf + part.length))
    else .error .outOfBounds
  atZero tot := tot

section Model

variable {α σ : Type} (dir : Direction α σ) (n : Int)

/-- The test at the head of the loop. -/
def TransferState.test (t : TransferState σ) : TransferState σ :=
  if t.tot < n then t else { t with returned := some t.tot }

/-- The call before its first system call. -/
def TransferState.start (data : σ) : TransferState σ :=
  TransferState.test n { tot := 0, buf := 0, data, returned := none }

/-- `(size_t)(n - tot)`, what the next system call is asked for. -/
def TransferState.request (t : TransferState σ) : Nat := (n - t.tot).toNat

/-- One pass of the loop, with the result of its system call. -/
def transferPass (result : SysResult α) (t : TransferState σ) : CRun (TransferState σ) :=
  match t.returned with
  | some _ => pure t
  | none =>
      match result with
      | .moved part =>
          if dir.size part = 0 then pure { t with returned := some (dir.atZero t.tot) }
          else do
            let data ← dir.move t.buf part t.data
            let tot := t.tot + dir.size part
            let buf := t.buf + dir.size part
            pure (TransferState.test n { tot, buf, data, returned := none })
      | .interrupted => pure (TransferState.test n t)
      | .failed => pure { t with returned := some (-1) }

/-- The system call does not move more than it is asked for. -/
def WithinRequest (result : SysResult α) (t : TransferState σ) : Prop :=
  t.returned = none → result.count dir.size ≤ t.request n

end Model

/-- `writen(fd, buffer, n)` on a buffer of `n` bytes, after these results of `write`. What
is moved are the bytes that were accepted. -/
def writenRun (buffer : Bytes) (results : List (SysResult Nat)) : CRun (TransferState Bytes) :=
  run (transferPass (writeDirection buffer) buffer.length) results
    (TransferState.start buffer.length [])

/-- `readn(fd, buffer, n)` into a buffer of `n` bytes, after these results of `read`. What
is moved is in the buffer. -/
def readnRun (buffer : Bytes) (results : List (SysResult Bytes)) : CRun (TransferState Bytes) :=
  run (transferPass readInto buffer.length) results (TransferState.start buffer.length buffer)

/-! ## The results that a call uses -/

section Results

variable {α : Type} (size : α → Nat)

/-- What the results have moved. -/
def SysResult.total (results : List (SysResult α)) : Nat :=
  (results.map (SysResult.count size)).sum

theorem SysResult.total_append (front back : List (SysResult α)) :
    total size (front ++ back) = total size front + total size back := by
  rw [total, List.map_append, List.sum_append]
  rfl

theorem SysResult.total_concat (front : List (SysResult α)) (result : SysResult α) :
    total size (front ++ [result]) = total size front + result.count size := by
  rw [total_append]
  rfl

end Results

/-- What a result of `read` gives. -/
def SysResult.bytes : SysResult Bytes → Bytes
  | moved part => part
  | interrupted => []
  | failed => []

/-- The stream that the results of `read` give, one after the other. -/
def readStream (results : List (SysResult Bytes)) : Bytes := results.flatMap SysResult.bytes

theorem readStream_length (results : List (SysResult Bytes)) :
    (readStream results).length = SysResult.total List.length results := by
  rw [readStream, List.length_flatMap, SysResult.total]
  congr 2
  funext result
  cases result <;> rfl

theorem readStream_append (front back : List (SysResult Bytes)) :
    readStream (front ++ back) = readStream front ++ readStream back := List.flatMap_append

/-- How a call stands that has moved `k` of `n` bytes, before these results. -/
inductive Stands {α σ : Type} (dir : Direction α σ) (n : Int) (k : Nat) :
    List (SysResult α) → Option Int → Prop
  | whole (results) : n ≤ k → Stands dir n k results (some k)
  | waiting : k < n → Stands dir n k [] none
  | atZero {part : α} (later) : k < n → dir.size part = 0 →
      Stands dir n k (.moved part :: later) (some (dir.atZero k))
  | failed (later) : k < n → Stands dir n k (.failed :: later) (some (-1))

section Passes

variable {α σ : Type} {dir : Direction α σ} {n : Int}

theorem test_of_lt {t : TransferState σ} (hmore : t.tot < n) : t.test n = t := if_pos hmore

theorem test_of_le {t : TransferState σ} (hdone : n ≤ t.tot) :
    t.test n = { t with returned := some (t.tot : Int) } := if_neg (Int.not_lt.mpr hdone)

/-- A call that has returned makes no system calls. -/
theorem run_returned {t : TransferState σ} {value : Int} (hreturned : t.returned = some value)
    (results : List (SysResult α)) : run (transferPass dir n) results t = .ok t := by
  obtain ⟨tot, buf, data, returned⟩ := t
  subst hreturned
  induction results with
  | nil => rfl
  | cons result rest ih => exact (run_cons_of_ok rfl).trans ih

variable {tot : Nat} {data : σ}

theorem transferPass_moved {part : α} (hsome : dir.size part ≠ 0) {data' : σ}
    (hmove : dir.move tot part data = .ok data') :
    transferPass dir n (.moved part) ⟨tot, tot, data, none⟩ =
      .ok (TransferState.test n ⟨tot + dir.size part, tot + dir.size part, data', none⟩) := by
  simp only [transferPass, if_neg hsome, hmove, ok_bind, pure_eq_ok]

theorem transferPass_atZero {part : α} (hzero : dir.size part = 0) :
    transferPass dir n (.moved part) ⟨tot, tot, data, none⟩ =
      .ok ⟨tot, tot, data, some (dir.atZero tot)⟩ := by
  simp only [transferPass, if_pos hzero, pure_eq_ok]

theorem transferPass_interrupted (hmore : tot < n) :
    transferPass dir n .interrupted ⟨tot, tot, data, none⟩ = .ok ⟨tot, tot, data, none⟩ :=
  congrArg Except.ok (test_of_lt hmore)

/-- The state after results that the call has gone on after, when `content` says what these
have moved. -/
def TransferState.after (dir : Direction α σ) (n : Int) (content : List (SysResult α) → σ)
    (front : List (SysResult α)) : TransferState σ :=
  TransferState.test n ⟨SysResult.total dir.size front, SysResult.total dir.size front,
    content front, none⟩

section Script

variable {content : List (SysResult α) → σ} {front : List (SysResult α)}

theorem after_of_lt (hmore : SysResult.total dir.size front < n) :
    TransferState.after dir n content front = ⟨SysResult.total dir.size front,
      SysResult.total dir.size front, content front, none⟩ := test_of_lt hmore

theorem after_of_le (hdone : n ≤ SysResult.total dir.size front) :
    TransferState.after dir n content front = ⟨SysResult.total dir.size front,
      SysResult.total dir.size front, content front,
      some (SysResult.total dir.size front : Int)⟩ := test_of_le hdone

/-- What the results have moved, as each system call moves it. -/
structure Moves (dir : Direction α σ) (n : Int) (content : List (SysResult α) → σ) : Prop where
  moved : ∀ front part, dir.size part ≠ 0 →
    SysResult.total dir.size (front ++ [.moved part]) ≤ n →
    dir.move (SysResult.total dir.size front) part (content front) =
      .ok (content (front ++ [.moved part]))
  interrupted : ∀ front, content (front ++ [.interrupted]) = content front

/-- A pass after which the loop goes on. -/
theorem Moves.pass (hmoves : Moves dir n content) {result : SysResult α}
    (hmore : SysResult.total dir.size front < n) (hgoes : result.Continues dir.size)
    (hfits : SysResult.total dir.size (front ++ [result]) ≤ n) :
    transferPass dir n result (.after dir n content front) =
      .ok (.after dir n content (front ++ [result])) := by
  rw [after_of_lt hmore]
  cases result with
  | moved part =>
      have hmove := hmoves.moved front part hgoes hfits
      rw [transferPass_moved hgoes hmove, TransferState.after, SysResult.total_concat]
      rfl
  | interrupted =>
      have hsame : SysResult.total dir.size (front ++ [.interrupted]) =
          SysResult.total dir.size front := SysResult.total_concat dir.size front .interrupted
      rw [transferPass_interrupted hmore, TransferState.after, hsame, hmoves.interrupted,
        test_of_lt hmore]
  | failed => exact absurd hgoes id

variable (content) in
/-- A result that the loop does not go on after. -/
theorem run_ends {result : SysResult α} (hmore : SysResult.total dir.size front < n)
    (hends : ¬ result.Continues dir.size) (later : List (SysResult α)) :
    ∃ value, run (transferPass dir n) (result :: later) (.after dir n content front) =
        .ok ⟨SysResult.total dir.size front, SysResult.total dir.size front, content front,
          some value⟩ ∧
      Stands dir n (SysResult.total dir.size front) (result :: later) (some value) := by
  rw [after_of_lt hmore]
  cases result with
  | moved part =>
      have hzero : dir.size part = 0 := not_not.mp hends
      refine ⟨_, ?_, .atZero later hmore hzero⟩
      rw [run_cons_of_ok (transferPass_atZero hzero), run_returned rfl]
  | interrupted => exact absurd trivial hends
  | failed =>
      refine ⟨_, ?_, .failed later hmore⟩
      rw [run_cons_of_ok rfl, run_returned rfl]

/-- The total, the pointer and the content are those of the results that were used, which
the next one ends. -/
theorem Moves.passes (hmoves : Moves dir n content) {rest : List (SysResult α)}
    (htotal : SysResult.total dir.size front ≤ n)
    (hmeets : Meets (transferPass dir n) (WithinRequest dir n) rest
      (.after dir n content front)) :
    ∃ used left t, rest = used ++ left ∧ (∀ r ∈ used, r.Continues dir.size) ∧
      run (transferPass dir n) rest (.after dir n content front) = .ok t ∧
      t.tot = SysResult.total dir.size (front ++ used) ∧ t.buf = t.tot ∧
      t.data = content (front ++ used) ∧ t.tot ≤ n ∧ Stands dir n t.tot left t.returned := by
  induction rest generalizing front with
  | nil =>
      refine ⟨[], [], _, rfl, List.forall_mem_nil _, rfl, ?_⟩
      rw [List.append_nil]
      by_cases hmore : SysResult.total dir.size front < n
      · rw [after_of_lt hmore]
        exact ⟨rfl, rfl, rfl, htotal, .waiting hmore⟩
      · have hdone := Int.not_lt.mp hmore
        rw [after_of_le hdone]
        exact ⟨rfl, rfl, rfl, htotal, .whole [] hdone⟩
  | cons result rest ih =>
      by_cases hmore : SysResult.total dir.size front < n
      · by_cases hgoes : result.Continues dir.size
        · have hwithin := hmeets.1
          rw [after_of_lt hmore] at hwithin
          have hcount : result.count dir.size ≤ (n - SysResult.total dir.size front).toNat :=
            hwithin rfl
          have hfits : SysResult.total dir.size (front ++ [result]) ≤ n := by
            rw [SysResult.total_concat]
            omega
          have hpass := hmoves.pass hmore hgoes hfits
          obtain ⟨used, left, t, hrest, hused, hrun, hstate⟩ := ih hfits (hmeets.2 _ hpass)
          rw [List.append_assoc, List.singleton_append] at hstate
          refine ⟨result :: used, left, t, congrArg (result :: ·) hrest,
            List.forall_mem_cons.mpr ⟨hgoes, hused⟩, ?_, hstate⟩
          rw [run_cons_of_ok hpass, hrun]
        · -- The result ends the loop, and the results behind it are not used.
          obtain ⟨value, hrun, hstands⟩ := run_ends content hmore hgoes rest
          refine ⟨[], result :: rest, _, rfl, List.forall_mem_nil _, hrun, ?_⟩
          rw [List.append_nil]
          exact ⟨rfl, rfl, rfl, htotal, hstands⟩
      · have hdone := Int.not_lt.mp hmore
        rw [after_of_le hdone]
        refine ⟨[], result :: rest, _, rfl, List.forall_mem_nil _, run_returned rfl _, ?_⟩
        rw [List.append_nil]
        exact ⟨rfl, rfl, rfl, htotal, .whole _ hdone⟩

end Script

end Passes

/-! ## Writing and reading -/

@[simp] theorem writeDirection_size (buffer : Bytes) : (writeDirection buffer).size = id := rfl

@[simp] theorem readInto_size : readInto.size = List.length := rfl

theorem writeDirection_move {buffer : Bytes} {buf count : Nat} (sent : Bytes)
    (hrange : buf + count ≤ buffer.length) :
    (writeDirection buffer).move buf count sent = .ok (sent ++ (buffer.drop buf).take count) := by
  change readRange buffer buf count >>= _ = _
  rw [readRange_of_le hrange]
  rfl

/-- The part comes behind what is filled. -/
theorem readInto_move {front part back : Bytes} (hroom : part.length ≤ back.length) :
    readInto.move front.length part (front ++ back) =
      .ok (front ++ part ++ back.drop part.length) := by
  have hrange : front.length + part.length ≤ (front ++ back).length := by
    rw [List.length_append]
    exact Nat.add_le_add_left hroom _
  change (if _ then _ else _) = _
  rw [if_pos hrange, List.take_left, ← List.drop_drop, List.drop_left]

theorem writeDirection_moves (buffer : Bytes) : Moves (writeDirection buffer) buffer.length
    fun front => buffer.take (SysResult.total id front) where
  moved front count _ hfits := by
    rw [writeDirection_size, SysResult.total_concat] at hfits
    have hrange : SysResult.total id front + count ≤ buffer.length := Int.ofNat_le.mp hfits
    rw [writeDirection_size, writeDirection_move _ hrange, SysResult.total_concat, ← List.take_add]
    rfl
  interrupted front := by
    rw [SysResult.total_concat]
    rfl

theorem readInto_moves (dest : Bytes) : Moves readInto dest.length
    fun front => readStream front ++ dest.drop (SysResult.total List.length front) where
  moved front part _ hfits := by
    rw [readInto_size, SysResult.total_concat] at hfits
    have hfits := Int.ofNat_le.mp hfits
    have hroom : part.length ≤ (dest.drop (SysResult.total List.length front)).length := by
      rw [List.length_drop]
      exact Nat.le_sub_of_add_le' hfits
    have hpart : readStream [.moved part] = part := List.append_nil part
    rw [readInto_size, ← readStream_length, readInto_move (by rwa [readStream_length]),
      readStream_append, hpart, List.drop_drop, readStream_length, SysResult.total_concat]
    rfl
  interrupted front := by
    rw [readStream_append, SysResult.total_concat]
    exact congrArg (· ++ _) (List.append_nil _)

/-! ## Whole calls -/

section Calls

variable {α σ : Type} {dir : Direction α σ} {n k : Nat} {left : List (SysResult α)}
  {returned : Option Int}

/-- The size of the buffer is returned exactly for all of it, whatever a count of 0 returns
below that. -/
theorem Stands.returned_iff (hstands : Stands dir n k left returned) (hk : (k : Int) ≤ n)
    (hzero : k < n → dir.atZero k ≠ n) : returned = some (n : Int) ↔ k = n := by
  cases hstands with
  | whole _ hdone =>
      have hsame : k = n := by omega
      exact iff_of_true (by rw [hsame]) hsame
  | waiting hmore => exact iff_of_false nofun (by omega)
  | atZero later hmore =>
      have hless : k < n := by omega
      refine iff_of_false (fun hsome => hzero hless (Option.some.inj hsome)) (Nat.ne_of_lt hless)
  | failed later hmore =>
      refine iff_of_false (fun hsome => ?_) (by omega)
      have := Option.some.inj hsome
      omega

/-- A call from its start. -/
theorem Moves.call {content : List (SysResult α) → σ} (hmoves : Moves dir n content)
    (hzero : ∀ k < n, dir.atZero k ≠ n) {results : List (SysResult α)} {data : σ}
    (hdata : content [] = data)
    (hmeets : Meets (transferPass dir n) (WithinRequest dir n) results (.start n data)) :
    ∃ used left t, results = used ++ left ∧ (∀ r ∈ used, r.Continues dir.size) ∧
      run (transferPass dir n) results (.start n data) = .ok t ∧
      t.tot = SysResult.total dir.size used ∧ t.buf = t.tot ∧ t.tot ≤ n ∧
      t.data = content used ∧ (t.returned = some (n : Int) ↔ t.tot = n) ∧
      Stands dir n t.tot left t.returned := by
  subst hdata
  have hnone : (SysResult.total dir.size [] : Int) ≤ n := Int.natCast_nonneg n
  obtain ⟨used, left, t, hscript, hused, hrun, htot, hbuf, hcontent, hle, hstands⟩ :=
    hmoves.passes hnone hmeets
  exact ⟨used, left, t, hscript, hused, hrun, htot, hbuf, Int.ofNat_le.mp hle, hcontent,
    hstands.returned_iff hle (hzero _), hstands⟩

end Calls

/-! ## The loop as a whole -/

section Loop

variable {α σ τ : Type} {dir : Direction α σ} {dir' : Direction α τ} {R : Nat → σ → τ → Prop}

/-- The directions differ in how they keep what they move. -/
structure Direction.Simulates (dir : Direction α σ) (dir' : Direction α τ)
    (R : Nat → σ → τ → Prop) : Prop where
  size : dir'.size = dir.size
  atZero : dir'.atZero = dir.atZero
  move : ∀ {tot part data data' next}, R tot data data' → dir.move tot part data = .ok next →
    ∃ next', dir'.move tot part data' = .ok next' ∧ R (tot + dir.size part) next next'

/-- A loop that returns does so after its passes. -/
theorem Direction.Simulates.run (hsimulates : dir.Simulates dir' R) {n : Int} {mutex : Mutex}
    {results : List (SysResult α)} {tot : Nat} {data : σ} {data' : τ} {out : Returned σ}
    (hdata : R tot data data')
    (hloop : transferLoop dir n mutex results tot data = .ok out) :
    ∃ total moved, Transitions.run (transferPass dir' n) results
        (TransferState.test n ⟨tot, tot, data', none⟩) =
        .ok ⟨total, total, moved, some out.value⟩ ∧ R total out.moved moved := by
  induction results generalizing tot data data' with
  | nil =>
      by_cases hmore : (tot : Int) < n
      · rw [transferLoop_waits hmore] at hloop
        cases hloop
      · rw [transferLoop_done (Int.not_lt.mp hmore)] at hloop
        cases hloop
        exact ⟨tot, data', congrArg Except.ok (test_of_le (Int.not_lt.mp hmore)), hdata⟩
  | cons result rest ih =>
      by_cases hmore : (tot : Int) < n
      · rw [test_of_lt (t := ⟨tot, tot, data', none⟩) hmore]
        cases result with
        | moved part =>
            by_cases hzero : dir.size part = 0
            · have hzero' : dir'.size part = 0 := hsimulates.size ▸ hzero
              rw [transferLoop_atZero hmore hzero] at hloop
              cases hloop
              rw [run_cons_of_ok (transferPass_atZero hzero'), run_returned rfl,
                hsimulates.atZero]
              exact ⟨tot, data', rfl, hdata⟩
            · have hsome : dir'.size part ≠ 0 := hsimulates.size ▸ hzero
              rw [transferLoop_moved hmore hzero, bind_eq_ok] at hloop
              obtain ⟨next, hmove, hloop⟩ := hloop
              obtain ⟨next', hmove', hnext⟩ := hsimulates.move hdata hmove
              rw [run_cons_of_ok (transferPass_moved hsome hmove'), hsimulates.size]
              exact ih hnext hloop
        | interrupted =>
            rw [transferLoop_interrupted hmore] at hloop
            rw [run_cons_of_ok (transferPass_interrupted hmore),
              ← test_of_lt (t := ⟨tot, tot, data', none⟩) hmore]
            exact ih hdata hloop
        | failed =>
            rw [transferLoop_failed hmore] at hloop
            cases hloop
            rw [run_cons_of_ok rfl, run_returned rfl]
            exact ⟨tot, data', rfl, hdata⟩
      · have hdone := Int.not_lt.mp hmore
        rw [transferLoop_done hdone] at hloop
        cases hloop
        rw [test_of_le (t := ⟨tot, tot, data', none⟩) hdone, run_returned rfl]
        exact ⟨tot, data', rfl, hdata⟩

end Loop

/-- What `writen` returns and has written is what its run of system calls ends in. -/
theorem writen_writenRun {buffer : Bytes} {results : List (SysResult Nat)} {out : Returned Bytes}
    (hwriten : writen .unlocked buffer buffer.length results = .ok out) :
    ∃ total, writenRun buffer results = .ok ⟨total, total, out.moved, some out.value⟩ := by
  have hsimulates : (writeDirection buffer).Simulates (writeDirection buffer)
      fun _ sent sent' => sent = sent' := by
    refine ⟨rfl, rfl, ?_⟩
    rintro tot part data _ next rfl hmove
    exact ⟨next, hmove, rfl⟩
  obtain ⟨total, moved, hrun, rfl⟩ := hsimulates.run rfl hwriten
  exact ⟨total, hrun⟩

/-- What `readn` returns and has filled is what its run of system calls ends in. -/
theorem readn_readnRun {buffer : Bytes} {results : List (SysResult Bytes)}
    {out : Returned (Cursor UInt8)}
    (hreadn : readn .unlocked buffer buffer.length results = .ok out) :
    readnRun buffer results =
      .ok ⟨out.moved.filled, out.moved.filled, out.moved.block, some out.value⟩ := by
  have hsimulates : readDirection.Simulates readInto
      fun tot cursor dest => cursor = ⟨dest, tot⟩ := by
    refine ⟨rfl, rfl, ?_⟩
    rintro tot part _ dest next rfl hmove
    change (if _ then _ else _) = _ at hmove
    split at hmove
    next hrange =>
      cases hmove
      exact ⟨_, if_pos hrange, rfl⟩
    next => cases hmove
  obtain ⟨total, moved, hrun, hmoved⟩ := hsimulates.run rfl hreadn
  rw [hmoved]
  exact hrun

/-! ## What a call leaves -/

/-- However the system cuts a transfer into parts and interrupts it, total and pointer are the
sum of the counts. The bytes that were accepted are the front of the buffer, and a
destination has the front of the stream. The size is returned exactly for a whole buffer,
and `Stands` says what ended the call otherwise. -/
theorem writen_readn_partial {buffer dest : Bytes} {writes : List (SysResult Nat)}
    {reads : List (SysResult Bytes)}
    (hwrites : Meets (transferPass (writeDirection buffer) buffer.length)
      (WithinRequest (writeDirection buffer) buffer.length) writes
      (.start buffer.length []))
    (hreads : Meets (transferPass readInto dest.length) (WithinRequest readInto dest.length) reads
      (.start dest.length dest)) :
    (∃ used left t, writes = used ++ left ∧ (∀ r ∈ used, r.Continues id) ∧
      writenRun buffer writes = .ok t ∧ t.tot = SysResult.total id used ∧ t.buf = t.tot ∧
      t.tot ≤ buffer.length ∧ t.data = buffer.take t.tot ∧
      (t.returned = some (buffer.length : Int) ↔ t.data = buffer) ∧
      Stands (writeDirection buffer) buffer.length t.tot left t.returned) ∧
    ∃ used left t, reads = used ++ left ∧ (∀ r ∈ used, r.Continues List.length) ∧
      readnRun dest reads = .ok t ∧ t.tot = SysResult.total List.length used ∧ t.buf = t.tot ∧
      t.tot ≤ dest.length ∧ t.data = (readStream reads).take t.tot ++ dest.drop t.tot ∧
      (t.returned = some (dest.length : Int) ↔ t.tot = dest.length) ∧
      Stands readInto dest.length t.tot left t.returned := by
  constructor
  · have hzero : ∀ k < buffer.length, (writeDirection buffer).atZero k ≠ buffer.length := by
      intro k _ hsame
      have hneg : (-1 : Int) = buffer.length := hsame
      omega
    obtain ⟨used, left, t, hscript, hused, hrun, htot, hbuf, hle, hdata, hiff, hstands⟩ :=
      (writeDirection_moves buffer).call hzero rfl hwrites
    have hfront : t.data = buffer.take t.tot := by
      rw [hdata, htot]
      rfl
    refine ⟨used, left, t, hscript, hused, hrun, htot, hbuf, hle, hfront, ?_, hstands⟩
    rw [hiff, hfront, List.take_eq_self_iff]
    exact ⟨Nat.le_of_eq ∘ Eq.symm, Nat.le_antisymm hle⟩
  · have hzero : ∀ k < dest.length, readInto.atZero k ≠ dest.length := by
      intro k hless hsame
      exact Nat.ne_of_lt hless (Int.ofNat_inj.mp hsame)
    obtain ⟨used, left, t, hscript, hused, hrun, htot, hbuf, hle, hdata, hiff, hstands⟩ :=
      (readInto_moves dest).call hzero rfl hreads
    have hlength : t.tot = (readStream used).length := by
      rw [htot, readStream_length]
      rfl
    refine ⟨used, left, t, hscript, hused, hrun, htot, hbuf, hle, ?_, hiff, hstands⟩
    rw [hdata, hscript, readStream_append, hlength, List.take_left, readStream_length]

/-- A write in two parts with an interruption between them, and a read that ends at the end
of the file. -/
theorem writen_readn_partial_two :
    (∃ used left t, [.moved 1, .interrupted, .moved 1] = used ++ left ∧
      (∀ r ∈ used, r.Continues id) ∧
      writenRun [7, 9] [.moved 1, .interrupted, .moved 1] = .ok t ∧
      t.tot = SysResult.total id used ∧ t.buf = t.tot ∧ t.tot ≤ ([7, 9] : Bytes).length ∧
      t.data = ([7, 9] : Bytes).take t.tot ∧
      (t.returned = some (([7, 9] : Bytes).length : Int) ↔ t.data = [7, 9]) ∧
      Stands (writeDirection [7, 9]) ([7, 9] : Bytes).length t.tot left t.returned) ∧
    ∃ used left t, [.moved [5], .moved []] = used ++ left ∧
      (∀ r ∈ used, r.Continues List.length) ∧ readnRun [0, 0] [.moved [5], .moved []] = .ok t ∧
      t.tot = SysResult.total List.length used ∧ t.buf = t.tot ∧ t.tot ≤ ([0, 0] : Bytes).length ∧
      t.data = (readStream [.moved [5], .moved []]).take t.tot ++ ([0, 0] : Bytes).drop t.tot ∧
      (t.returned = some (([0, 0] : Bytes).length : Int) ↔ t.tot = ([0, 0] : Bytes).length) ∧
      Stands readInto ([0, 0] : Bytes).length t.tot left t.returned := by
  refine writen_readn_partial ?_ ?_
  · refine ⟨fun _ => by decide, ?_⟩
    rintro _ ⟨⟩
    refine ⟨fun _ => by decide, ?_⟩
    rintro _ ⟨⟩
    refine ⟨fun _ => by decide, ?_⟩
    rintro _ ⟨⟩
    trivial
  · refine ⟨fun _ => by decide, ?_⟩
    rintro _ ⟨⟩
    refine ⟨fun _ => by decide, ?_⟩
    rintro _ ⟨⟩
    trivial

end Hipft
