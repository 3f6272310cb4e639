import Hipft.Cobs.Blocks

/-! # Encoding and decoding against each other

Decoding with the delimiter counted puts a zero behind every block that is not
full, the last one included. The encoder ends an unfinished last block the same
way as one a zero ended, so the two directions differ: every accepted string is
the encoding of its text, but a text comes back with a zero too many unless it
stops where a block stops.
-/

namespace Hipft

open CMemory Stuffing

/-- The decoder, run on an encoding with its delimiter, gives the text of the
encoder's blocks. -/
theorem cobsDecode_cobsEncode_eq (x : Bytes) :
    cobsDecode (cobsEncode x) (cobsEncode x).length = .ok (text (cobsBlocks x)) := by
  have hdecode := cobsDecode_frame (cobsBlocks x)
  rw [cobsEncode_eq]
  simpa using hdecode

theorem cobsEncode_eq_iff (x y : Bytes) :
    cobsEncode x = cobsEncode y ↔ cobsBlocks x = cobsBlocks y := by
  rw [cobsEncode_eq, cobsEncode_eq, List.append_left_inj]
  exact frame_injective.eq_iff

/-- Two inputs share an encoding exactly when one is the other with the zero
that decoding adds. -/
theorem cobsEncode_collision (x y : Bytes) :
    cobsEncode y = cobsEncode x ↔ y = x ∨
      (x = y ++ [specialChar] ∧ ¬ 254 ∣ tailLength specialChar y) ∨
      (y = x ++ [specialChar] ∧ ¬ 254 ∣ tailLength specialChar x) := by
  rw [cobsEncode_eq_iff]
  constructor
  · intro hblocks
    have htext : text (cobsBlocks y) = text (cobsBlocks x) := congrArg text hblocks
    by_cases hy : 254 ∣ tailLength specialChar y
    · rw [text_split_of_dvd _ hy] at htext
      by_cases hx : 254 ∣ tailLength specialChar x
      · rw [text_split_of_dvd _ hx] at htext
        exact Or.inl htext
      · rw [text_split_of_not_dvd _ hx] at htext
        exact Or.inr (Or.inr ⟨htext, hx⟩)
    · rw [text_split_of_not_dvd _ hy] at htext
      by_cases hx : 254 ∣ tailLength specialChar x
      · rw [text_split_of_dvd _ hx] at htext
        exact Or.inr (Or.inl ⟨htext.symm, hy⟩)
      · rw [text_split_of_not_dvd _ hx] at htext
        exact Or.inl (List.append_cancel_right htext)
  · rintro (rfl | ⟨rfl, hy⟩ | ⟨rfl, hx⟩)
    · rfl
    · exact ((split_append_zero_eq_iff _ y).mpr hy).symm
    · exact (split_append_zero_eq_iff _ x).mpr hx

/-- Decoding undoes encoding exactly for the inputs whose last run of nonzero
bytes fills whole blocks, and only the other inputs share their encoding. -/
theorem cobsDecode_cobsEncode (x : Bytes) :
    (cobsDecode (cobsEncode x) (cobsEncode x).length = .ok x ↔
      254 ∣ tailLength specialChar x) ∧
    ∀ y, cobsEncode y = cobsEncode x ↔ y = x ∨
      (x = y ++ [specialChar] ∧ ¬ 254 ∣ tailLength specialChar y) ∨
      (y = x ++ [specialChar] ∧ ¬ 254 ∣ tailLength specialChar x) := by
  refine ⟨?_, fun y => cobsEncode_collision x y⟩
  rw [cobsDecode_cobsEncode_eq, Except.ok.injEq]
  exact text_split_eq_iff _ x

/-- One nonzero byte decodes to two bytes, and these two encode like the one. -/
theorem cobsDecode_cobsEncode_single :
    ¬ ((∀ x : Bytes, cobsDecode (cobsEncode x) (cobsEncode x).length = .ok x) ∧
      Function.Injective cobsEncode) := by
  rintro ⟨hround, _⟩
  have hone := hround [0x01]
  have hzero : cobsDecode (cobsEncode [0x01]) (cobsEncode [0x01]).length =
      .ok [0x01, 0x00] := by decide +kernel
  rw [hzero] at hone
  cases hone

theorem altCobsVerify_iff (e : Bytes) :
    altCobsVerify e e.length = .ok true ↔ ∃ blocks, e = frame blocks := by
  obtain ⟨r, hr, hiff⟩ := altCobsVerify_eq e e.length (Nat.le_refl _)
  rw [hr, Except.ok.injEq, hiff, List.take_length]

/-- Encoding undoes decoding on every accepted string, so no two accepted
strings decode to the same text. -/
theorem cobsEncode_cobsDecode (e : Bytes) (hverify : altCobsVerify e e.length = .ok true) :
    ∃ d, cobsDecode (e ++ [specialChar]) (e.length + 1) = .ok d ∧
      cobsEncode d = e ++ [specialChar] ∧
      ∀ e', altCobsVerify e' e'.length = .ok true →
        cobsDecode (e' ++ [specialChar]) (e'.length + 1) = .ok d → e' = e := by
  obtain ⟨blocks, rfl⟩ := (altCobsVerify_iff e).mp hverify
  refine ⟨text blocks, cobsDecode_frame blocks, ?_, ?_⟩
  · rw [cobsEncode_eq, cobsBlocks, split_text]
  · intro e' hverify' hdecode'
    obtain ⟨blocks', rfl⟩ := (altCobsVerify_iff e').mp hverify'
    rw [cobsDecode_frame, Except.ok.injEq] at hdecode'
    rw [text_injective (by decide) hdecode']

theorem cobsEncode_cobsDecode_small :
    ∃ d, cobsDecode [0x03, 0x07, 0x09, 0x01, 0x00] 5 = .ok d ∧
      cobsEncode d = [0x03, 0x07, 0x09, 0x01, 0x00] ∧
      ∀ e', altCobsVerify e' e'.length = .ok true →
        cobsDecode (e' ++ [specialChar]) (e'.length + 1) = .ok d →
        e' = [0x03, 0x07, 0x09, 0x01] :=
  cobsEncode_cobsDecode [0x03, 0x07, 0x09, 0x01] (by decide +kernel)

end Hipft
