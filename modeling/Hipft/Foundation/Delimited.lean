import Mathlib.Data.List.Basic

/-! # Streams cut by a delimiter

A stream is a sequence of chunks without the delimiter, each but the last ended
by one. The ended chunks are the frames of the stream.
-/

namespace Delimited

variable {α : Type} [BEq α] [LawfulBEq α] {zero : α}

/-- The chunks of a stream that a delimiter ends. -/
def frames (zero : α) (stream : List α) : List (List α) := (stream.splitOn zero).dropLast

theorem splitOn_append_cons_of_notMem {chunk : List α} (hchunk : zero ∉ chunk)
    (rest : List α) : (chunk ++ zero :: rest).splitOn zero = chunk :: rest.splitOn zero := by
  rw [List.splitOn_append_cons_self, List.splitOn_eq_singleton hchunk, List.singleton_append]

theorem frames_of_notMem {stream : List α} (hstream : zero ∉ stream) : frames zero stream = [] := by
  rw [frames, List.splitOn_eq_singleton hstream]
  rfl

/-- Where a delimiter stands, the stream falls into two independent ones. -/
theorem frames_append_cons (front back : List α) :
    frames zero (front ++ zero :: back) = front.splitOn zero ++ frames zero back := by
  rw [frames, List.splitOn_append_cons_self,
    List.dropLast_append_of_ne_nil (List.splitOn_ne_nil zero back), frames]

theorem frames_append_singleton (front : List α) :
    frames zero (front ++ [zero]) = front.splitOn zero := by
  rw [frames_append_cons, frames_of_notMem List.not_mem_nil, List.append_nil]

theorem frames_resync (front back : List α) :
    frames zero (front ++ [zero] ++ back) =
      frames zero (front ++ [zero]) ++ frames zero back := by
  rw [List.append_assoc, List.singleton_append, frames_append_cons, frames_append_singleton]

omit [BEq α] [LawfulBEq α] in
/-- A stream that is cut somewhere is cut in its first chunk or behind the delimiter. -/
theorem prefix_chunk_cases {received chunk rest : List α}
    (hcut : received <+: chunk ++ zero :: rest) :
    received <+: chunk ∨ ∃ back, back <+: rest ∧ received = chunk ++ zero :: back := by
  rcases List.prefix_or_prefix_of_prefix hcut (List.prefix_append chunk _) with
    hpart | ⟨back, rfl⟩
  · exact .inl hpart
  cases back with
  | nil => exact .inl (by simp)
  | cons a back =>
      rw [List.prefix_append_right_inj, List.cons_prefix_cons] at hcut
      obtain ⟨rfl, hback⟩ := hcut
      exact .inr ⟨back, hback, rfl⟩

omit [BEq α] [LawfulBEq α] in
/-- Induction over the chunks of a stream. -/
theorem chunk_induction (zero : α) {motive : List α → Prop}
    (last : ∀ chunk, zero ∉ chunk → motive chunk)
    (delimited : ∀ chunk rest, zero ∉ chunk → motive rest → motive (chunk ++ zero :: rest))
    (stream : List α) : motive stream := by
  have hchunks : ∀ chunk rest, zero ∉ chunk → motive (chunk ++ rest) := by
    intro chunk rest
    induction rest generalizing chunk with
    | nil =>
        intro hchunk
        rw [List.append_nil]
        exact last chunk hchunk
    | cons a rest ih =>
        intro hchunk
        by_cases ha : a = zero
        · subst ha
          exact delimited chunk rest hchunk (ih [] List.not_mem_nil)
        · have hmore := ih (chunk ++ [a]) (by
            rw [List.mem_append, List.mem_singleton, not_or]
            exact ⟨hchunk, Ne.symm ha⟩)
          rwa [List.append_assoc, List.singleton_append] at hmore
  exact hchunks [] stream List.not_mem_nil

/-! ## Counting frames -/

theorem frames_cons {chunk : List α} (hchunk : zero ∉ chunk) (rest : List α) :
    frames zero (chunk ++ zero :: rest) = chunk :: frames zero rest := by
  rw [frames_append_cons, List.splitOn_eq_singleton hchunk, List.singleton_append]

/-- A delimiter for each frame. -/
theorem frames_length (stream : List α) : (frames zero stream).length = stream.count zero := by
  induction stream using chunk_induction zero with
  | last chunk hchunk => rw [frames_of_notMem hchunk, List.count_eq_zero_of_not_mem hchunk]; rfl
  | delimited chunk rest hchunk ih =>
      rw [frames_cons hchunk, List.length_cons, ih, List.count_append,
        List.count_eq_zero_of_not_mem hchunk, List.count_cons_self, Nat.zero_add]

theorem splitOn_length (stream : List α) :
    (stream.splitOn zero).length = stream.count zero + 1 := by
  rw [← frames_append_singleton, frames_length, List.count_append, List.count_singleton_self]

/-- Only the last chunk of a stream is touched by what comes behind it. -/
theorem frames_append (front : List α) :
    ∃ last, zero ∉ last ∧ ∀ back, frames zero (front ++ back) =
      frames zero front ++ frames zero (last ++ back) := by
  induction front using chunk_induction zero with
  | last chunk hchunk =>
      refine ⟨chunk, hchunk, fun back => ?_⟩
      rw [frames_of_notMem hchunk, List.nil_append]
  | delimited chunk rest hchunk ih =>
      obtain ⟨last, hlast, happend⟩ := ih
      refine ⟨last, hlast, fun back => ?_⟩
      rw [List.append_assoc, List.cons_append, frames_cons hchunk, happend, frames_cons hchunk,
        List.cons_append]

variable (zero) in
/-- Whatever stands in the middle of a stream, it touches one frame more than it has
delimiters, and all others stay as they are. -/
theorem frames_middle (front back : List α) :
    ∃ before after : List (List α), ∀ middle, ∃ touched,
      frames zero (front ++ (middle ++ back)) = before ++ (touched ++ after) ∧
        touched.length ≤ middle.count zero + 1 := by
  obtain ⟨last, hlast, happend⟩ := frames_append front
  induction back using chunk_induction zero with
  | last chunk hchunk =>
      refine ⟨frames zero front, [], fun middle =>
        ⟨frames zero (last ++ (middle ++ chunk)), ?_, ?_⟩⟩
      · rw [happend, List.append_nil]
      · rw [frames_length, List.count_append, List.count_append,
          List.count_eq_zero_of_not_mem hlast, List.count_eq_zero_of_not_mem hchunk]
        omega
  | delimited chunk rest hchunk _ =>
      refine ⟨frames zero front, frames zero rest,
        fun middle => ⟨(last ++ (middle ++ chunk)).splitOn zero, ?_, ?_⟩⟩
      · rw [happend, ← frames_append_cons, List.append_assoc, List.append_assoc]
      · rw [splitOn_length, List.count_append, List.count_append,
          List.count_eq_zero_of_not_mem hlast, List.count_eq_zero_of_not_mem hchunk]
        omega

variable (zero) in
/-- What the middle of a stream can do to a count of frames. -/
theorem countP_frames_middle (p : List α → Bool) (front back : List α) :
    ∃ base, ∀ middle, base ≤ (frames zero (front ++ (middle ++ back))).countP p ∧
      (frames zero (front ++ (middle ++ back))).countP p ≤ base + middle.count zero + 1 := by
  obtain ⟨before, after, hframes⟩ := frames_middle zero front back
  refine ⟨before.countP p + after.countP p, fun middle => ?_⟩
  obtain ⟨touched, heq, hlength⟩ := hframes middle
  have htouched : touched.countP p ≤ touched.length := List.countP_le_length
  rw [heq, List.countP_append, List.countP_append]
  omega

end Delimited
