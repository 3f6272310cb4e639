import Hipft.Cobs.Verifiers

/-! # Encoded lengths

An encoding is as long as its input, and one byte longer for every full block, for
a block that the input stops inside, and for the delimiter. The routine that
predicts the length counts the full blocks too, but takes a last unfinished block
for granted.
-/

namespace Hipft

open CMemory Stuffing

/-- The number of bytes `cobs_encode` writes. -/
theorem cobsEncode_length (x : Bytes) :
    (cobsEncode x).length =
      x.length + fullCount (cobsBlocks x) + (if 254 ∣ tailLength specialChar x then 0 else 1) +
        1 := by
  have hwire : (frame (cobsBlocks x)).length = _ := wire_split_length (by decide) blockCode x
  rw [cobsEncode_eq, List.length_append, List.length_singleton, hwire]

theorem fullCount_cobsBlocks_le (x : Bytes) : fullCount (cobsBlocks x) ≤ x.length / 254 := by
  rw [Nat.le_div_iff_mul_le (by decide), Nat.mul_comm]
  exact fullCount_split_le (by decide) x

theorem cobsEncode_length_le (x : Bytes) :
    (cobsEncode x).length ≤ cobsEncodedLengthWorseCase x.length := by
  have hfull := fullCount_cobsBlocks_le x
  rw [cobsEncode_length, cobsEncodedLengthWorseCase]
  split
  · omega
  · omega

/-! ## The encoder's output -/

/-- Whatever the input, the encoder writes a string of blocks that both verifiers
accept and one delimiter, finds its own length again, and keeps to the bounds that
its callers allocate by. -/
theorem cobsEncode_wellFormed (x : Bytes) :
    (∃ e, cobsEncode x = e ++ [specialChar] ∧ specialChar ∉ e ∧
      altCobsVerify e e.length = .ok true ∧ cobsVerify e e.length = .ok true) ∧
    (∀ after, cobsEncodedLengthFromEncoded (cobsEncode x ++ after) = .ok (cobsEncode x).length) ∧
    (cobsEncode x).length ≤ cobsEncodedLengthWorseCase x.length ∧
    (2 ≤ x.length → (cobsEncode x).length ≤ 2 * x.length) := by
  have hworse := cobsEncode_length_le x
  refine ⟨?_, ?_, hworse, ?_⟩
  · obtain ⟨r, halt, hverify, hiff⟩ := altCobsVerify_eq_cobsVerify (frame (cobsBlocks x))
    have htrue : r = true := hiff.mpr (framed_frame _)
    subst htrue
    exact ⟨frame (cobsBlocks x), cobsEncode_eq x, specialChar_notMem_frame _, halt, hverify⟩
  · intro after
    rw [cobsEncodedLengthFromEncoded, cobsEncode_eq, List.append_assoc, List.singleton_append,
      scanSpecialChar_frame, ok_bind, List.length_append]
    rfl
  · intro hlength
    unfold cobsEncodedLengthWorseCase at hworse
    omega

/-! ## The predicted length -/

/-- The run of the length routine is the run of the splitter. -/
theorem foldl_countEncoded (open_ : Run specialChar 254) (x : Bytes) (sum : Nat) :
    (x.foldl countEncoded (sum, open_.data.length)).1 =
      sum + fullCount (splitFrom (by decide) open_ x) := by
  induction x generalizing open_ sum with
  | nil =>
      unfold splitFrom
      split
      · rfl
      · rw [fullCount_cons, if_neg (Run.close_open open_)]
        rfl
  | cons byte rest ih =>
      rw [List.foldl_cons]
      unfold splitFrom
      split
      next hbyte =>
        have hpass : countEncoded (sum, open_.data.length) byte = (sum, 0) := by
          simp [countEncoded, hbyte]
        rw [hpass, fullCount_cons, if_neg (Run.close_open open_), Nat.add_zero]
        exact ih (.empty (by decide)) sum
      next hbyte =>
        split
        next hopen =>
          have hpass : countEncoded (sum, open_.data.length) byte =
              (sum, (open_.extend byte hbyte hopen).data.length) := by
            have hlow : ¬ open_.data.length + 1 ≥ 254 := by omega
            simp [countEncoded, hbyte, hlow]
          rw [hpass]
          exact ih _ sum
        next hfull =>
          have hpass : countEncoded (sum, open_.data.length) byte = (sum + 1, 0) := by
            have hhigh : open_.data.length + 1 ≥ 254 := by omega
            simp [countEncoded, hbyte, hhigh]
          rw [hpass, fullCount_cons, if_pos (Run.push_full open_ hbyte hfull), ← Nat.add_assoc,
            Nat.add_right_comm]
          exact ih (.empty (by decide)) (sum + 1)

theorem cobsEncodedLengthFromDecoded_eq (x : Bytes) :
    cobsEncodedLengthFromDecoded x = x.length + 2 + fullCount (cobsBlocks x) :=
  foldl_countEncoded (.empty (by decide)) x (x.length + 2)

/-- The prediction is exact, and the actual length within the two bounds, for the inputs
that stop inside a block and for no others. -/
theorem cobsEncodedLengthFromDecoded_iff (x : Bytes) :
    (cobsEncodedLengthFromDecoded x = (cobsEncode x).length ∧
      cobsEncodedLengthBestCase x.length ≤ (cobsEncode x).length ∧
      (cobsEncode x).length ≤ cobsEncodedLengthWorseCase x.length) ↔
    ¬ 254 ∣ tailLength specialChar x := by
  have hworse := cobsEncode_length_le x
  rw [and_iff_left hworse, cobsEncodedLengthFromDecoded_eq, cobsEncodedLengthBestCase,
    cobsEncode_length]
  by_cases hdvd : 254 ∣ tailLength specialChar x
  · rw [if_pos hdvd]
    refine iff_of_false ?_ (not_not.mpr hdvd)
    rintro ⟨hsame, -⟩
    omega
  · rw [if_neg hdvd]
    exact iff_of_true ⟨by omega, by omega⟩ hdvd

/-- A zero byte is encoded as a code and the delimiter; three bytes are predicted. -/
theorem cobsEncodedLengthFromDecoded_zero :
    ¬ ∀ x : Bytes, cobsEncodedLengthFromDecoded x = (cobsEncode x).length ∧
      cobsEncodedLengthBestCase x.length ≤ (cobsEncode x).length ∧
      (cobsEncode x).length ≤ cobsEncodedLengthWorseCase x.length := by
  intro hall
  have hpredicted : cobsEncodedLengthFromDecoded [0x00] = 3 := by decide
  have hactual : (cobsEncode [0x00]).length = 2 := by decide
  have hsame := (hall [0x00]).1
  rw [hpredicted, hactual] at hsame
  cases hsame

end Hipft
