import Hipft.Cobs.Codec

/-! # File handles

The server opens every file of its directory at the start and cuts it into
segments of the size that a client asks for. A division by zero ends the process.
-/

namespace Hipft

open CMemory

/-- How a run of the server ends before its time. -/
inductive Crash
  | memory (fault : Fault)
  | divideByZero
  deriving DecidableEq, Repr

/-- A run of a server function: its value, or the crash that ended the process. -/
abbrev Run := Except Crash

/-- A part of the run that only its memory accesses can end. -/
def checked {α : Type} (run : CRun α) : Run α := run.mapError .memory

section Laws

variable {α β : Type}

@[simp] theorem run_bind (a : α) (next : α → Run β) :
    (Except.ok a >>= next : Run β) = next a := rfl

@[simp] theorem crash_bind (crash : Crash) (next : α → Run β) :
    (Except.error crash >>= next : Run β) = .error crash := rfl

@[simp] theorem checked_ok (a : α) : checked (Except.ok a) = .ok a := rfl

@[simp] theorem checked_error (fault : Fault) :
    checked (Except.error fault : CRun α) = .error (.memory fault) := rfl

theorem run_bind_eq_ok {run : Run α} {next : α → Run β} {b : β} :
    run >>= next = .ok b ↔ ∃ a, run = .ok a ∧ next a = .ok b := by
  cases run with
  | error crash => simp
  | ok a => simp

theorem checked_eq_ok {run : CRun α} {a : α} : checked run = .ok a ↔ run = .ok a := by
  cases run with
  | error fault => simp
  | ok value => simp

end Laws

/-- `file_handle_t`, with the bytes that reading the file gives. The size is that of a
`long`. -/
structure FileHandle where
  fileName : Bytes
  content : Bytes
  fits : content.length < 2 ^ 63
  deriving DecidableEq

/-- `fileSize`. -/
def FileHandle.fileSize (fhandle : FileHandle) : UInt64 := UInt64.ofNat fhandle.content.length

/-- `num_segments_in_file_handle(fhandle, segmentSize)`. -/
def numSegmentsInFileHandle (fhandle : FileHandle) (segmentSize : UInt64) : Run UInt64 :=
  if segmentSize = 0 then .error .divideByZero
  else if fhandle.fileSize % segmentSize = 0 then .ok (fhandle.fileSize / segmentSize)
  else .ok (fhandle.fileSize / segmentSize + 1)

/-- `segment_in_file_handle(fhandle, segmentNum, segmentSize, numBytes)`: the bytes, and
`*numBytes`. -/
def segmentInFileHandle (fhandle : FileHandle) (segmentNum segmentSize : UInt64) :
    Run (Bytes × UInt64) := do
  if segmentNum = 0 then return ([], 0)
  let numSegments ← numSegmentsInFileHandle fhandle segmentSize
  if segmentNum > numSegments then return ([], 0)
  let start := (segmentNum - 1) * segmentSize
  let numBytes :=
    if start + segmentSize > fhandle.fileSize then fhandle.fileSize - start else segmentSize
  -- The position is cut to 32 bits.
  return ((fhandle.content.drop start.toUInt32.toNat).take numBytes.toNat, numBytes)

/-- `compare_bytes(b1, s1, b2, s2)`. -/
def compareBytes (b1 : Bytes) (s1 : Nat) (b2 : Bytes) (s2 : Nat) : CRun Bool :=
  if s1 ≠ s2 then pure false
  else (List.range s1).allM fun i => do
    let x ← readAt b1 i
    let y ← readAt b2 i
    pure (x = y)

/-- `file_handle_for_file(dhandle, file, fileLength)`: the first handle of that name. -/
def fileHandleForFile (file : Bytes) (fileLength : Nat) :
    List FileHandle → CRun (Option FileHandle)
  | [] => pure none
  | fhandle :: handles => do
      let same ← compareBytes file fileLength fhandle.fileName fhandle.fileName.length
      if same then pure (some fhandle) else fileHandleForFile file fileLength handles

/-! ## Segments -/

/-- The number of segments of `size` bytes that hold the file. -/
def FileHandle.segments (fhandle : FileHandle) (size : Nat) : Nat :=
  (fhandle.content.length + size - 1) / size

/-- The segments from 1 on. -/
def FileHandle.segment (fhandle : FileHandle) (size k : Nat) : Bytes :=
  (fhandle.content.drop ((k - 1) * size)).take size

theorem FileHandle.fileSize_toNat (fhandle : FileHandle) :
    fhandle.fileSize.toNat = fhandle.content.length := by
  have hfits := fhandle.fits
  rw [FileHandle.fileSize, UInt64.toNat_ofNat', Nat.mod_eq_of_lt (by omega)]

theorem FileHandle.segments_eq (fhandle : FileHandle) {size : Nat} (hsize : 0 < size) :
    fhandle.segments size = fhandle.content.length / size +
      if fhandle.content.length % size = 0 then 0 else 1 := by
  have hmod := Nat.mod_lt fhandle.content.length hsize
  have hsum : fhandle.content.length + size - 1 =
      fhandle.content.length % size + size - 1 + size * (fhandle.content.length / size) := by
    have hdiv := Nat.mod_add_div fhandle.content.length size
    omega
  rw [FileHandle.segments, hsum, Nat.add_mul_div_left _ _ hsize, Nat.add_comm]
  congr 1
  split
  next hzero => exact Nat.div_eq_of_lt (by omega)
  next hpos => exact Nat.div_eq_of_lt_le (by omega) (by omega)

theorem FileHandle.segments_le (fhandle : FileHandle) {size : Nat} (hsize : 0 < size) :
    fhandle.segments size ≤ fhandle.content.length := by
  have hmul := Nat.le_mul_of_pos_left (fhandle.content.length / size) hsize
  have hdiv := Nat.mod_add_div fhandle.content.length size
  rw [fhandle.segments_eq hsize]
  split
  next => omega
  next => omega

/-- A segment begins inside the file exactly up to the number of segments. -/
theorem FileHandle.start_lt_iff (fhandle : FileHandle) {size k : Nat} (hsize : 0 < size)
    (hk : 0 < k) : (k - 1) * size < fhandle.content.length ↔ k ≤ fhandle.segments size := by
  rw [FileHandle.segments, Nat.le_div_iff_mul_le hsize]
  obtain ⟨k, rfl⟩ := Nat.exists_eq_add_of_lt hk
  rw [Nat.zero_add, Nat.add_mul, Nat.add_sub_cancel, Nat.one_mul]
  omega

theorem FileHandle.segments_lt (fhandle : FileHandle) {size : Nat} (hsize : 0 < size) :
    fhandle.segments size < 2 ^ 63 := Nat.lt_of_le_of_lt (fhandle.segments_le hsize) fhandle.fits

/-- The segments one behind the other are the file. -/
theorem FileHandle.take_append_segment (fhandle : FileHandle) (size k : Nat) :
    fhandle.content.take (k * size) ++ fhandle.segment size (k + 1) =
      fhandle.content.take ((k + 1) * size) := by
  rw [FileHandle.segment, Nat.add_sub_cancel, Nat.succ_mul, List.take_add]

theorem FileHandle.segment_length (fhandle : FileHandle) (size k : Nat) :
    min (k * size) fhandle.content.length + (fhandle.segment size (k + 1)).length =
      min ((k + 1) * size) fhandle.content.length := by
  rw [FileHandle.segment, Nat.add_sub_cancel, Nat.succ_mul, List.length_take, List.length_drop]
  omega

theorem numSegmentsInFileHandle_eq (fhandle : FileHandle) {segmentSize : UInt64}
    (hsize : segmentSize ≠ 0) :
    ∃ n, numSegmentsInFileHandle fhandle segmentSize = .ok n ∧
      n.toNat = fhandle.segments segmentSize.toNat := by
  have hpos := toNat_pos hsize
  have hlt := fhandle.segments_lt hpos
  have hmod : fhandle.fileSize % segmentSize = 0 ↔
      fhandle.content.length % segmentSize.toNat = 0 := by
    rw [← UInt64.toNat_inj, UInt64.toNat_mod, fhandle.fileSize_toNat]
    rfl
  rw [numSegmentsInFileHandle, if_neg hsize]
  rw [fhandle.segments_eq hpos] at hlt ⊢
  have hdiv : (fhandle.fileSize / segmentSize).toNat =
      fhandle.content.length / segmentSize.toNat := by
    rw [UInt64.toNat_div, fhandle.fileSize_toNat]
  by_cases hzero : fhandle.content.length % segmentSize.toNat = 0
  · rw [if_pos hzero]
    exact ⟨_, if_pos (hmod.mpr hzero), hdiv⟩
  · rw [if_neg hzero] at hlt ⊢
    refine ⟨_, if_neg (mt hmod.mp hzero), ?_⟩
    rw [toNat_add_one (by omega), hdiv]

theorem segmentInFileHandle_outside (fhandle : FileHandle) {segmentNum segmentSize : UInt64}
    (hsize : segmentSize ≠ 0)
    (houtside : segmentNum = 0 ∨ fhandle.segments segmentSize.toNat < segmentNum.toNat) :
    segmentInFileHandle fhandle segmentNum segmentSize = .ok ([], 0) := by
  obtain ⟨n, hrun, hn⟩ := numSegmentsInFileHandle_eq fhandle hsize
  unfold segmentInFileHandle
  by_cases hzero : segmentNum = 0
  · rw [if_pos hzero]
    rfl
  · have hgt : segmentNum > n := by
      rw [gt_iff_lt, UInt64.lt_iff_toNat_lt, hn]
      exact houtside.resolve_left hzero
    rw [if_neg hzero, hrun]
    simp only [run_bind, if_pos hgt]
    rfl

/-- A segment of the file: where its start does not fit in 32 bits, as many bytes from
another place. -/
theorem segmentInFileHandle_inside (fhandle : FileHandle) {segmentNum segmentSize : UInt64}
    (hsize : segmentSize ≠ 0) (hpos : segmentNum ≠ 0)
    (hinside : segmentNum.toNat ≤ fhandle.segments segmentSize.toNat) :
    ∃ numBytes, segmentInFileHandle fhandle segmentNum segmentSize =
        .ok ((fhandle.content.drop
          ((segmentNum.toNat - 1) * segmentSize.toNat % 2 ^ 32)).take numBytes.toNat, numBytes) ∧
      numBytes.toNat = min segmentSize.toNat
        (fhandle.content.length - (segmentNum.toNat - 1) * segmentSize.toNat) := by
  have hsizePos := toNat_pos hsize
  have hnumPos := toNat_pos hpos
  obtain ⟨n, hrun, hn⟩ := numSegmentsInFileHandle_eq fhandle hsize
  have hstart := (fhandle.start_lt_iff hsizePos hnumPos).mpr hinside
  have hfits := fhandle.fits
  generalize hs : (segmentNum.toNat - 1) * segmentSize.toNat = s at hstart ⊢
  have hstartNat : ((segmentNum - 1) * segmentSize).toNat = s := by
    rw [UInt64.toNat_mul, toNat_previous hpos, hs, Nat.mod_eq_of_lt (by omega)]
  have hle : ¬ segmentNum > n := by
    rw [gt_iff_lt, UInt64.lt_iff_toNat_lt, hn]
    omega
  have hroom : s + segmentSize.toNat < 2 ^ 64 := by
    have hlt := segmentSize.toNat_lt
    rcases Nat.eq_zero_or_pos (segmentNum.toNat - 1) with hfirst | hlater
    · rw [hfirst, Nat.zero_mul] at hs
      omega
    · have hmul := Nat.le_mul_of_pos_left segmentSize.toNat hlater
      omega
  have hsum : ((segmentNum - 1) * segmentSize + segmentSize).toNat = s + segmentSize.toNat := by
    rw [UInt64.toNat_add, hstartNat, Nat.mod_eq_of_lt hroom]
  have hrest : (fhandle.fileSize - (segmentNum - 1) * segmentSize).toNat =
      fhandle.content.length - s := by
    rw [UInt64.toNat_sub_of_le, hstartNat, fhandle.fileSize_toNat]
    rw [UInt64.le_iff_toNat_le, hstartNat, fhandle.fileSize_toNat]
    omega
  have hposition : ((segmentNum - 1) * segmentSize).toUInt32.toNat = s % 2 ^ 32 := by
    rw [UInt64.toNat_toUInt32, hstartNat]
  refine ⟨if (segmentNum - 1) * segmentSize + segmentSize > fhandle.fileSize then
    fhandle.fileSize - (segmentNum - 1) * segmentSize else segmentSize, ?_, ?_⟩
  · unfold segmentInFileHandle
    rw [if_neg hpos, hrun]
    simp only [run_bind, if_neg hle, hposition]
    rfl
  · have hover : (segmentNum - 1) * segmentSize + segmentSize > fhandle.fileSize ↔
        fhandle.content.length < s + segmentSize.toNat := by
      rw [gt_iff_lt, UInt64.lt_iff_toNat_lt, hsum, fhandle.fileSize_toNat]
    by_cases hlast : fhandle.content.length < s + segmentSize.toNat
    · rw [if_pos (hover.mpr hlast), hrest]
      omega
    · rw [if_neg (mt hover.mp hlast)]
      omega

/-- Asking for a segment ends in its bytes, if the size is not zero. -/
theorem segmentInFileHandle_total (fhandle : FileHandle) (segmentNum : UInt64)
    {segmentSize : UInt64} (hsize : segmentSize ≠ 0) :
    ∃ bytes numBytes, segmentInFileHandle fhandle segmentNum segmentSize = .ok (bytes, numBytes) ∧
      bytes.length = numBytes.toNat := by
  by_cases houtside : segmentNum = 0 ∨ fhandle.segments segmentSize.toNat < segmentNum.toNat
  · exact ⟨[], 0, segmentInFileHandle_outside fhandle hsize houtside, rfl⟩
  rw [not_or, Nat.not_lt] at houtside
  obtain ⟨numBytes, hrun, hcount⟩ := segmentInFileHandle_inside fhandle hsize houtside.1 houtside.2
  refine ⟨_, numBytes, hrun, ?_⟩
  have hmod := Nat.mod_le ((segmentNum.toNat - 1) * segmentSize.toNat) (2 ^ 32)
  rw [List.length_take, List.length_drop]
  omega

/-- A file of three bytes with the name `a`. -/
def threeBytes : FileHandle := ⟨[97], [1, 2, 3], by decide⟩

end Hipft
