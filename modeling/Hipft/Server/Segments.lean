import Hipft.Server.FileHandle

/-! # The segments of a file

Segments 1 to n have the sizes that cut a file into pieces, and what is returned for one of
them is read at its start, as far as that start is a number of 32 bits.
-/

namespace Hipft

open CMemory

/-- The length of segment `k`. -/
def FileHandle.segmentLength (fhandle : FileHandle) (size k : Nat) : Nat :=
  min size (fhandle.content.length - (k - 1) * size)

/-- The bytes that are returned for segment `k`. -/
def FileHandle.returned (fhandle : FileHandle) (size k : Nat) : Bytes :=
  if k = 0 ∨ fhandle.segments size < k then []
  else (fhandle.content.drop ((k - 1) * size % 2 ^ 32)).take (fhandle.segmentLength size k)

/-- The segments 1 to `n` are the file, cut every `size` bytes, and there are no others. -/
structure Partitioned (fhandle : FileHandle) (size n : Nat) (part : Nat → Bytes) : Prop where
  whole : (List.range n).flatMap (fun i => part (i + 1)) = fhandle.content
  full : ∀ k, 1 ≤ k → k < n → (part k).length = size
  last : 0 < n → 1 ≤ (part n).length ∧ (part n).length ≤ size
  outside : ∀ k < 2 ^ 64, k = 0 ∨ n < k → part k = []

/-- Lists of the same lengths are equal one by one when they are equal in a row. -/
theorem flatMap_range_eq_iff {α : Type} {f g : Nat → List α} {n : Nat}
    (hlength : ∀ i < n, (f i).length = (g i).length) :
    (List.range n).flatMap f = (List.range n).flatMap g ↔ ∀ i < n, f i = g i := by
  induction n with
  | zero => simp
  | succ n ih =>
      have hbefore : ((List.range n).flatMap f).length = ((List.range n).flatMap g).length := by
        rw [List.length_flatMap, List.length_flatMap]
        congr 1
        apply List.map_congr_left
        intro i hi
        exact hlength i (Nat.lt_succ_of_lt (List.mem_range.mp hi))
      rw [List.range_succ, List.flatMap_append, List.flatMap_append, List.flatMap_singleton,
        List.flatMap_singleton]
      constructor
      · intro hsame i hi
        obtain ⟨hfront, hlast⟩ := List.append_inj hsame hbefore
        rcases Nat.lt_succ_iff_lt_or_eq.mp hi with hlt | rfl
        · exact (ih fun i hi => hlength i (Nat.lt_succ_of_lt hi)).mp hfront i hlt
        · exact hlast
      · intro hsame
        rw [(ih fun i hi => hlength i (Nat.lt_succ_of_lt hi)).mpr
          fun i hi => hsame i (Nat.lt_succ_of_lt hi), hsame n (Nat.lt_succ_self n)]

section Sizes

variable (fhandle : FileHandle) {size : Nat} (hsize : 0 < size)

theorem FileHandle.flatMap_segment (size k : Nat) :
    (List.range k).flatMap (fun i => fhandle.segment size (i + 1)) =
      fhandle.content.take (k * size) := by
  induction k with
  | zero => simp
  | succ k ih =>
      rw [List.range_succ, List.flatMap_append, List.flatMap_singleton, ih,
        fhandle.take_append_segment]

theorem FileHandle.segment_length_eq (size k : Nat) :
    (fhandle.segment size k).length = fhandle.segmentLength size k := by
  rw [FileHandle.segment, FileHandle.segmentLength, List.length_take, List.length_drop]

include hsize

theorem FileHandle.length_le_segments_mul :
    fhandle.content.length ≤ fhandle.segments size * size := by
  by_contra hlonger
  have hnext := (fhandle.start_lt_iff hsize (Nat.succ_pos _)).mp (Nat.lt_of_not_le hlonger)
  exact Nat.not_succ_le_self _ hnext

theorem FileHandle.returned_length {k : Nat} (hpos : 1 ≤ k) (hk : k ≤ fhandle.segments size) :
    (fhandle.returned size k).length = fhandle.segmentLength size k := by
  have hmod := Nat.mod_le ((k - 1) * size) (2 ^ 32)
  have hinside : ¬ (k = 0 ∨ fhandle.segments size < k) := by omega
  rw [FileHandle.returned, if_neg hinside, List.length_take, List.length_drop,
    FileHandle.segmentLength]
  omega

theorem FileHandle.segmentLength_of_lt {k : Nat} (hpos : 1 ≤ k) (hk : k < fhandle.segments size) :
    fhandle.segmentLength size k = size := by
  have hnext := (fhandle.start_lt_iff hsize (Nat.succ_pos k)).mpr hk
  have hend : k * size = (k - 1) * size + size := by
    rw [← Nat.succ_mul, Nat.succ_eq_add_one, Nat.sub_add_cancel hpos]
  rw [Nat.succ_sub_one, hend] at hnext
  rw [FileHandle.segmentLength, Nat.min_eq_left (by omega)]

theorem FileHandle.segmentLength_last (hpos : 0 < fhandle.segments size) :
    1 ≤ fhandle.segmentLength size (fhandle.segments size) ∧
      fhandle.segmentLength size (fhandle.segments size) ≤ size := by
  have hstart := (fhandle.start_lt_iff hsize hpos).mpr (Nat.le_refl _)
  rw [FileHandle.segmentLength]
  omega

/-- The sizes are right in any case, so the segments partition the file when each has the
bytes of its place. -/
theorem partitioned_returned_iff :
    Partitioned fhandle size (fhandle.segments size) (fhandle.returned size) ↔
      ∀ k, 1 ≤ k → k ≤ fhandle.segments size →
        fhandle.returned size k = fhandle.segment size k := by
  have hlength : ∀ i < fhandle.segments size, (fhandle.returned size (i + 1)).length =
      (fhandle.segment size (i + 1)).length := by
    intro i hi
    rw [fhandle.returned_length hsize (Nat.succ_pos i) hi, fhandle.segment_length_eq]
  have hwhole : (List.range (fhandle.segments size)).flatMap
      (fun i => fhandle.segment size (i + 1)) = fhandle.content := by
    rw [fhandle.flatMap_segment, List.take_of_length_le (fhandle.length_le_segments_mul hsize)]
  constructor
  · rintro ⟨hcontent, -, -, -⟩ k hpos hk
    have hsame := (flatMap_range_eq_iff hlength).mp (hcontent.trans hwhole.symm) (k - 1) (by omega)
    rwa [Nat.sub_add_cancel hpos] at hsame
  · intro hsame
    constructor
    · rw [← hwhole, flatMap_range_eq_iff hlength]
      intro i hi
      exact hsame (i + 1) (Nat.succ_pos i) hi
    · intro k hpos hk
      rw [fhandle.returned_length hsize hpos (Nat.le_of_lt hk),
        fhandle.segmentLength_of_lt hsize hpos hk]
    · intro hpos
      rw [fhandle.returned_length hsize hpos (Nat.le_refl _)]
      exact fhandle.segmentLength_last hsize hpos
    · intro k _ houtside
      rw [FileHandle.returned, if_pos houtside]

end Sizes

theorem segmentInFileHandle_returned (fhandle : FileHandle) {segmentSize : UInt64}
    (hsize : segmentSize ≠ 0) (segmentNum : UInt64) :
    segmentInFileHandle fhandle segmentNum segmentSize =
      .ok (fhandle.returned segmentSize.toNat segmentNum.toNat,
        UInt64.ofNat (fhandle.returned segmentSize.toNat segmentNum.toNat).length) := by
  have hzero : segmentNum = 0 ↔ segmentNum.toNat = 0 := by
    rw [← UInt64.toNat_inj]
    rfl
  by_cases houtside : segmentNum.toNat = 0 ∨ fhandle.segments segmentSize.toNat < segmentNum.toNat
  · rw [segmentInFileHandle_outside fhandle hsize (houtside.imp_left hzero.mpr),
      FileHandle.returned, if_pos houtside]
    rfl
  · rw [FileHandle.returned, if_neg houtside]
    rw [not_or, Nat.not_lt] at houtside
    have hpos : segmentNum ≠ 0 := mt hzero.mp houtside.1
    obtain ⟨numBytes, hrun, hcount⟩ := segmentInFileHandle_inside fhandle hsize hpos houtside.2
    have hbytes : fhandle.segmentLength segmentSize.toNat segmentNum.toNat = numBytes.toNat :=
      hcount.symm
    have hlength := fhandle.returned_length (toNat_pos hsize) (toNat_pos hpos) houtside.2
    rw [FileHandle.returned, if_neg (not_or.mpr ⟨houtside.1, Nat.not_lt.mpr houtside.2⟩)] at hlength
    rw [hrun, hlength, hbytes, UInt64.ofNat_toNat]

/-- Where a segment starts at 2^32 or later, what lies at its start modulo 2^32 is the same. -/
def RepeatsFarSegments (fhandle : FileHandle) (size : Nat) : Prop :=
  ∀ k, 1 ≤ k → k ≤ fhandle.segments size → 2 ^ 32 ≤ (k - 1) * size →
    (fhandle.content.drop ((k - 1) * size % 2 ^ 32)).take (fhandle.segmentLength size k) =
      fhandle.segment size k

theorem returned_eq_segment_iff (fhandle : FileHandle) (size : Nat) :
    (∀ k, 1 ≤ k → k ≤ fhandle.segments size → fhandle.returned size k = fhandle.segment size k) ↔
      RepeatsFarSegments fhandle size := by
  have hreturned {k : Nat} (hpos : 1 ≤ k) (hk : k ≤ fhandle.segments size) :
      fhandle.returned size k = (fhandle.content.drop ((k - 1) * size % 2 ^ 32)).take
        (fhandle.segmentLength size k) := by
    have hinside : ¬ (k = 0 ∨ fhandle.segments size < k) := by omega
    rw [FileHandle.returned, if_neg hinside]
  constructor
  · intro hsame k hpos hk _
    rw [← hreturned hpos hk, hsame k hpos hk]
  · intro hrepeats k hpos hk
    rw [hreturned hpos hk]
    by_cases hfar : 2 ^ 32 ≤ (k - 1) * size
    · exact hrepeats k hpos hk hfar
    · rw [Nat.mod_eq_of_lt (Nat.lt_of_not_le hfar), FileHandle.segment, List.take_eq_take_iff,
        List.length_drop, FileHandle.segmentLength, Nat.min_assoc, Nat.min_self]

/-- The segments of every file and of every size partition it exactly when those that start
behind the first 2^32 bytes repeat what lies 2^32 bytes, or a multiple of that, before. -/
theorem segmentInFileHandle_partitioned (fhandle : FileHandle) {segmentSize : UInt64}
    (hsize : segmentSize ≠ 0) :
    ∃ n part, numSegmentsInFileHandle fhandle segmentSize = .ok n ∧
      (∀ segmentNum, segmentInFileHandle fhandle segmentNum segmentSize =
        .ok (part segmentNum.toNat, UInt64.ofNat (part segmentNum.toNat).length)) ∧
      (Partitioned fhandle segmentSize.toNat n.toNat part ↔
        RepeatsFarSegments fhandle segmentSize.toNat) := by
  obtain ⟨n, hrun, hn⟩ := numSegmentsInFileHandle_eq fhandle hsize
  refine ⟨n, fhandle.returned segmentSize.toNat, hrun,
    segmentInFileHandle_returned fhandle hsize, ?_⟩
  rw [hn, partitioned_returned_iff fhandle (toNat_pos hsize), returned_eq_segment_iff]

theorem segmentInFileHandle_partitioned_two :
    ∃ n part, numSegmentsInFileHandle threeBytes 2 = .ok n ∧
      (∀ segmentNum, segmentInFileHandle threeBytes segmentNum 2 =
        .ok (part segmentNum.toNat, UInt64.ofNat (part segmentNum.toNat).length)) ∧
      (Partitioned threeBytes 2 n.toNat part ↔ RepeatsFarSegments threeBytes 2) :=
  segmentInFileHandle_partitioned threeBytes (by decide)

/-- Of 2^32 zeros and a one, cut every 2^32 bytes, the second segment is returned as a zero. -/
theorem segmentInFileHandle_repeated :
    ¬ ∀ (fhandle : FileHandle) (segmentSize : UInt64), segmentSize ≠ 0 →
      ∀ n part, numSegmentsInFileHandle fhandle segmentSize = .ok n →
        (∀ segmentNum, segmentInFileHandle fhandle segmentNum segmentSize =
          .ok (part segmentNum.toNat, UInt64.ofNat (part segmentNum.toNat).length)) →
        Partitioned fhandle segmentSize.toNat n.toNat part := by
  intro hevery
  have hlength : (List.replicate (2 ^ 32) (0 : UInt8) ++ [1]).length = 2 ^ 32 + 1 := by
    rw [List.length_append, List.length_replicate, List.length_singleton]
  have hfits : (List.replicate (2 ^ 32) (0 : UInt8) ++ [1]).length < 2 ^ 63 := by
    rw [hlength]
    decide
  have hsize : (4294967296 : UInt64) ≠ 0 := by decide
  obtain ⟨fhandle, hcontent⟩ : ∃ fhandle : FileHandle,
      fhandle.content = List.replicate (2 ^ 32) 0 ++ [1] := ⟨⟨[97], _, hfits⟩, rfl⟩
  obtain ⟨n, hrun, hn⟩ := numSegmentsInFileHandle_eq fhandle hsize
  have hpartitioned := hevery fhandle 4294967296 hsize n _ hrun
    (segmentInFileHandle_returned fhandle hsize)
  rw [hn, partitioned_returned_iff fhandle (toNat_pos hsize), returned_eq_segment_iff]
    at hpartitioned
  have hnat : (4294967296 : UInt64).toNat = 2 ^ 32 := rfl
  rw [hnat] at hpartitioned
  have hsegments : fhandle.segments (2 ^ 32) = 2 := by
    rw [FileHandle.segments, hcontent, hlength]
    decide
  have hsame := hpartitioned 2 (by decide) (Nat.le_of_eq hsegments.symm) (by decide)
  have hsecond : fhandle.segment (2 ^ 32) 2 = [1] := by
    rw [FileHandle.segment, hcontent, Nat.add_one_sub_one, Nat.one_mul,
      List.drop_left' List.length_replicate]
    rfl
  have hone : fhandle.segmentLength (2 ^ 32) 2 = 1 := by
    rw [← fhandle.segment_length_eq, hsecond]
    rfl
  have hzeros : List.replicate (2 ^ 32) (0 : UInt8) = 0 :: List.replicate (2 ^ 32 - 1) 0 :=
    List.replicate_succ
  rw [hsecond, hone, hcontent, Nat.add_one_sub_one, Nat.one_mul, Nat.mod_self, List.drop_zero,
    hzeros, List.cons_append, List.take_succ_cons, List.take_zero] at hsame
  revert hsame
  decide

end Hipft
