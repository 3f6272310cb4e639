import Hipft.Client.ReadBlocks

/-! # The receive buffer

A new buffer is set to zero, and the cells that it grows by are as `realloc` gives
them. So the delimiter that is not stored stands behind a chunk that leaves room in
the first buffer, and behind a longer one there is what memory held.
-/

namespace Hipft

open CMemory

section Room

variable (heap : Heap) (chunkcount : Nat)

/-- Cell `i` of the receive buffer until a byte is stored in it. -/
def freshCell (i : Nat) : UInt8 :=
  if i < blockInitialSize then 0 else heap.grown (chunkcount + 1) i

/-- The cells of the buffer behind the `n` bytes of a chunk. -/
def room (n : Nat) : Bytes :=
  (List.range' n (blockInitialSize - n % blockInitialSize)).map (freshCell heap chunkcount)

theorem room_of_lt {n : Nat} (hn : n < blockInitialSize) :
    room heap chunkcount n = List.replicate (blockInitialSize - n) 0 := by
  rw [room, Nat.mod_eq_of_lt hn, List.eq_replicate_iff, List.length_map, List.length_range']
  refine ⟨rfl, ?_⟩
  intro cell hcell
  obtain ⟨i, hi, rfl⟩ := List.mem_map.mp hcell
  rw [List.mem_range'_1] at hi
  exact if_pos (by omega)

/-- Behind a long chunk there is nothing but grown cells. -/
theorem mem_room_of_le {n : Nat} (hn : blockInitialSize ≤ n) {cell : UInt8}
    (hcell : cell ∈ room heap chunkcount n) : ∃ i, cell = heap.grown (chunkcount + 1) i := by
  obtain ⟨i, hi, rfl⟩ := List.mem_map.mp hcell
  rw [List.mem_range'_1] at hi
  exact ⟨i, if_neg (by omega)⟩

/-- One more byte takes the first cell; when it was the last, the buffer grows. -/
theorem room_succ (n : Nat) :
    ∃ rest, room heap chunkcount n = freshCell heap chunkcount n :: rest ∧
      room heap chunkcount (n + 1) =
        if rest = [] then
          (List.range blockInitialSize).map fun i => heap.grown (chunkcount + 1) (n + 1 + i)
        else rest := by
  have hsize : blockInitialSize = 8192 := rfl
  have hmod : n % blockInitialSize < blockInitialSize := Nat.mod_lt _ (by decide)
  have hcount : blockInitialSize - n % blockInitialSize =
      blockInitialSize - n % blockInitialSize - 1 + 1 := by omega
  refine ⟨(List.range' (n + 1) (blockInitialSize - n % blockInitialSize - 1)).map
    (freshCell heap chunkcount), ?_, ?_⟩
  · rw [room, hcount, List.range'_succ, List.map_cons, Nat.add_sub_cancel]
  · have hempty : (List.range' (n + 1) (blockInitialSize - n % blockInitialSize - 1)).map
        (freshCell heap chunkcount) = [] ↔ blockInitialSize - n % blockInitialSize - 1 = 0 := by
      rw [List.map_eq_nil_iff, List.range'_eq_nil_iff]
    by_cases hfull : blockInitialSize - n % blockInitialSize - 1 = 0
    · have hlast : n % 8192 = 8191 := by
        rw [hsize] at hfull
        omega
      have hgrown : ∀ i, freshCell heap chunkcount (n + 1 + i) =
          heap.grown (chunkcount + 1) (n + 1 + i) := fun i => if_neg (by omega)
      have hnext : blockInitialSize - (n + 1) % blockInitialSize = blockInitialSize := by
        rw [hsize]
        omega
      rw [if_pos (hempty.mpr hfull), room, hnext, List.range'_eq_map_range, List.map_map]
      exact List.map_congr_left fun i _ => hgrown i
    · have hnext : blockInitialSize - (n + 1) % blockInitialSize =
          blockInitialSize - n % blockInitialSize - 1 := by
        rw [hsize] at hfull ⊢
        omega
      rw [if_neg (mt hempty.mp hfull), room, hnext]

end Room

/-! ## Collecting a chunk -/

/-- The reader after the bytes of an unfinished chunk of any length. -/
def Reader.collected (heap : Heap) (chunk : Bytes) (chunkcount blockcount : Nat)
    (log : List LogEntry) : Reader where
  buffer := chunk ++ room heap chunkcount chunk.length
  bindex := chunk.length
  chunkcount := chunkcount
  blockcount := blockcount
  log := log

/-- The receive buffer when `read_blocks` has read the bytes of a chunk. -/
def receive (heap : Heap) (chunkcount blockcount : Nat) (log : List LogEntry) (chunk : Bytes) :
    CRun Bytes := do
  let r ← chunk.foldlM (readByte heap) (Reader.fresh chunkcount blockcount log)
  pure r.buffer

section Collecting

variable (heap : Heap) (chunkcount blockcount : Nat) (log : List LogEntry)

theorem fresh_eq_collected :
    Reader.fresh chunkcount blockcount log =
      Reader.collected heap [] chunkcount blockcount log := by
  have hempty : 0 < blockInitialSize := by decide
  simp only [Reader.fresh, Reader.collected, List.nil_append, List.length_nil,
    room_of_lt heap chunkcount hempty, Nat.sub_zero]

theorem readByte_collected (chunk : Bytes) {c : UInt8} (hc : c ≠ specialChar) :
    readByte heap (Reader.collected heap chunk chunkcount blockcount log) c =
      .ok (Reader.collected heap (chunk ++ [c]) chunkcount blockcount log) := by
  obtain ⟨rest, hroom, hnext⟩ := room_succ heap chunkcount chunk.length
  have hlength : (chunk ++ [c]).length = chunk.length + 1 := by simp
  have hfull : chunk.length + 1 = (chunk ++ c :: rest).length ↔ rest = [] := by
    rw [List.length_append, List.length_cons, ← List.length_eq_zero_iff]
    omega
  rw [readByte, if_neg hc]
  simp only [Reader.collected, hroom, modifyAt_append_length, ok_bind, pure_eq_ok, hlength, hnext,
    hfull]
  by_cases hrest : rest = []
  · simp [hrest]
  · simp [hrest]

/-- The bytes of a chunk are collected in the buffer, whatever its length. -/
theorem foldlM_readByte_collected (done : Bytes) {chunk : Bytes} (hchunk : specialChar ∉ chunk) :
    chunk.foldlM (readByte heap) (Reader.collected heap done chunkcount blockcount log) =
      .ok (Reader.collected heap (done ++ chunk) chunkcount blockcount log) := by
  induction chunk generalizing done with
  | nil => rw [List.append_nil]; rfl
  | cons c rest ih =>
      rw [List.mem_cons, not_or] at hchunk
      rw [List.foldlM_cons, readByte_collected heap chunkcount blockcount log done
        (Ne.symm hchunk.1), ok_bind, ih (done ++ [c]) hchunk.2, List.append_assoc,
        List.singleton_append]

theorem receive_eq {chunk : Bytes} (hchunk : specialChar ∉ chunk) :
    receive heap chunkcount blockcount log chunk =
      .ok (chunk ++ room heap chunkcount chunk.length) := by
  rw [receive, fresh_eq_collected heap, foldlM_readByte_collected heap chunkcount blockcount log []
    hchunk, ok_bind]
  rfl

end Collecting

end Hipft
