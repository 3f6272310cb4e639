import Hipft.Cobs.Lengths
import Hipft.Foundation.Padding

/-! # Decoding the front of a string

`cobs_partial_decode` takes bytes off the front of a string that may be damaged
further on. Its test for a full block compares with `0x255`, which no byte is, so
it puts a zero behind every block: it reads the padded letters of a string.
-/

namespace Hipft

open CMemory Stuffing

/-! ## Running -/

theorem cobsPartialDecodeFrom_total (src : Bytes) (dlensave cur slen dlen : Nat) (dst : Bytes)
    (hslen : cur + slen ≤ src.length) :
    ∃ r, cobsPartialDecodeFrom src dlensave cur slen dlen dst = .ok r := by
  induction slen using Nat.strongRecOn generalizing cur dlen dst with
  | ind slen ih =>
      rw [cobsPartialDecodeFrom]
      by_cases hmore : 0 < slen ∧ 0 < dlen
      · rw [if_pos hmore, readAt_of_lt (by omega), ok_bind]
        by_cases hcode : src[cur] = 0x00
        · rw [if_pos hcode]
          exact ⟨_, rfl⟩
        rw [if_neg hcode]
        have hcount : min (slen - 1) (min dlen (src[cur].toNat - 1)) ≤ slen - 1 :=
          Nat.min_le_left _ _
        generalize min (slen - 1) (min dlen (src[cur].toNat - 1)) = count at hcount ⊢
        have hfits : cur + 1 + count ≤ src.length := by omega
        simp only [readRange_of_le hfits, ok_bind]
        by_cases hend : slen - 1 - count = 0 ∧ 0 < dlen - count
        · rw [if_pos hend]
          exact ⟨_, rfl⟩
        rw [if_neg hend]
        split
        · exact ih _ (by omega) _ _ _ (by omega)
        · exact ih _ (by omega) _ _ _ (by omega)
      · rw [if_neg hmore]
        exact ⟨_, rfl⟩

/-- Partial decoding reads the given bytes only, whatever they are. -/
theorem cobsPartialDecode_total (src : Bytes) (slen dlen : Nat) (hslen : slen ≤ src.length) :
    ∃ r, cobsPartialDecode src slen dlen = .ok r := by
  unfold cobsPartialDecode
  split
  · exact ⟨_, rfl⟩
  · exact cobsPartialDecodeFrom_total src dlen 0 slen dlen [] (by omega)

/-! ## One block -/

section Block

variable {src dst run : Bytes} {dlensave cur slen dlen : Nat} {code : UInt8}

/-- The wanted bytes end inside the block. -/
theorem cobsPartialDecodeFrom_inside (hread : readAt src cur = .ok code) (hcode : code ≠ 0x00)
    (hpos : 0 < dlen) (hinside : dlen ≤ code.toNat - 1) (hslen : dlen < slen)
    (hrun : readRange src (cur + 1) dlen = .ok run) :
    cobsPartialDecodeFrom src dlensave cur slen dlen dst =
      .ok (Int32.ofNat dlensave, dst ++ run) := by
  have hcount : min (slen - 1) (min dlen (code.toNat - 1)) = dlen := by omega
  rw [cobsPartialDecodeFrom, if_pos ⟨by omega, hpos⟩, hread, ok_bind, if_neg hcode]
  simp only [hcount, hrun, ok_bind, Nat.sub_self, Nat.lt_irrefl, and_false, false_and, if_false]
  rw [cobsPartialDecodeFrom, if_neg (by omega)]

/-- The block ends before the wanted bytes and before the string. -/
theorem cobsPartialDecodeFrom_past (hread : readAt src cur = .ok code) (hcode : code ≠ 0x00)
    (hpast : code.toNat - 1 < dlen) (hslen : code.toNat < slen)
    (hrun : readRange src (cur + 1) (code.toNat - 1) = .ok run) :
    cobsPartialDecodeFrom src dlensave cur slen dlen dst =
      cobsPartialDecodeFrom src dlensave (cur + code.toNat) (slen - code.toNat)
        (dlen - code.toNat) (dst ++ run ++ [specialChar]) := by
  have hpos := toNat_ne_zero hcode
  have hbyte := code.toNat_lt
  have hcount : min (slen - 1) (min dlen (code.toNat - 1)) = code.toNat - 1 := by omega
  have happend : code.toNat ≠ 0x255 := by omega
  have hcur : cur + 1 + (code.toNat - 1) = cur + code.toNat := by omega
  have hrest : slen - 1 - (code.toNat - 1) = slen - code.toNat := by omega
  have hwanted : dlen - (code.toNat - 1) - 1 = dlen - code.toNat := by omega
  rw [cobsPartialDecodeFrom, if_pos ⟨by omega, by omega⟩, hread, ok_bind, if_neg hcode]
  simp only [hcount, hrun, ok_bind, hcur, hrest, hwanted]
  rw [if_neg (by omega), if_pos ⟨by omega, happend⟩]
  rfl

/-- The string ends with the block and before the wanted bytes. -/
theorem cobsPartialDecodeFrom_end (hread : readAt src cur = .ok code) (hcode : code ≠ 0x00)
    (hslen : code.toNat = slen) (hend : slen ≤ dlen)
    (hrun : readRange src (cur + 1) (code.toNat - 1) = .ok run) :
    cobsPartialDecodeFrom src dlensave cur slen dlen dst = .ok (0, dst ++ run) := by
  have hpos := toNat_ne_zero hcode
  have hcount : min (slen - 1) (min dlen (code.toNat - 1)) = code.toNat - 1 := by omega
  rw [cobsPartialDecodeFrom, if_pos ⟨by omega, by omega⟩, hread, ok_bind, if_neg hcode]
  simp only [hcount, hrun, ok_bind]
  rw [if_pos (by omega)]

end Block

/-! ## Strings of blocks -/

/-- With a byte left behind them, the wanted bytes are the first of the padded letters. -/
theorem cobsPartialDecodeFrom_frame (before after : Bytes) (blocks : List Block)
    (dlensave slen dlen : Nat) (dst : Bytes) (hslen : dlen < slen)
    (hdlen : dlen ≤ (padded blocks).length) :
    cobsPartialDecodeFrom (before ++ (frame blocks ++ after)) dlensave before.length slen dlen
      dst = .ok (Int32.ofNat dlensave, dst ++ (padded blocks).take dlen) := by
  induction blocks generalizing before slen dlen dst with
  | nil =>
      have hzero : dlen = 0 := Nat.le_zero.mp hdlen
      subst hzero
      rw [cobsPartialDecodeFrom, if_neg (by omega)]
      simp
  | cons b rest ih =>
      have hcode := blockCode_toNat b.short
      rw [frame_cons, List.append_assoc]
      by_cases hpos : dlen = 0
      · subst hpos
        rw [cobsPartialDecodeFrom, if_neg (by omega)]
        simp
      by_cases hinside : dlen ≤ b.data.length
      · rw [cobsPartialDecodeFrom_inside (readAt_wire before _ b) (blockCode_ne b.short)
          (by omega) (by omega) hslen (readRange_wire before _ b hinside), padded_cons,
          List.take_append_of_le_length hinside]
      · have hrun := readRange_wire before (frame rest ++ after) b (Nat.le_refl _)
        have hlength : dlen - b.data.length = dlen - (b.data.length + 1) + 1 := by omega
        rw [padded_cons, List.length_append, List.length_cons] at hdlen
        have hrest := ih (before ++ b.wire blockCode) (slen - (b.data.length + 1))
          (dlen - (b.data.length + 1)) (dst ++ b.data ++ [specialChar]) (by omega) (by omega)
        rw [List.take_length] at hrun
        rw [cobsPartialDecodeFrom_past (readAt_wire before _ b) (blockCode_ne b.short) (by omega)
          (by omega) (by rw [hcode]; exact hrun), hcode, padded_cons, List.take_append, hlength,
          List.take_succ_cons, List.take_of_length_le (by omega)]
        simpa [Block.wire_length] using hrest

/-- When all of the string is wanted, it ends a byte too early. -/
theorem cobsPartialDecodeFrom_all (before : Bytes) (blocks : List Block) (dlensave : Nat)
    (dst : Bytes) (hblocks : blocks ≠ []) :
    ∃ written, cobsPartialDecodeFrom (before ++ frame blocks) dlensave before.length
      (frame blocks).length (frame blocks).length dst = .ok (0, written) := by
  induction blocks generalizing before dst with
  | nil => exact absurd rfl hblocks
  | cons b rest ih =>
      have hcode := blockCode_toNat b.short
      have hrun := readRange_wire before (frame rest) b (Nat.le_refl _)
      have hsize : (frame (b :: rest)).length = b.data.length + 1 + (frame rest).length := by
        rw [frame_cons, List.length_append, Block.wire_length]
      rw [hsize, frame_cons]
      by_cases hlast : rest = []
      · subst hlast
        exact ⟨_, cobsPartialDecodeFrom_end (readAt_wire before _ b) (blockCode_ne b.short)
          (by rw [hcode]; rfl) (Nat.le_refl _) (by rw [hcode]; exact hrun)⟩
      · obtain ⟨written, hrest⟩ := ih (before ++ b.wire blockCode)
          (dst ++ b.data.take b.data.length ++ [specialChar]) hlast
        have hpos : (frame rest).length ≠ 0 := by
          cases rest with
          | nil => exact absurd rfl hlast
          | cons c rest =>
              rw [frame_cons, List.length_append, Block.wire_length]
              omega
        refine ⟨written, ?_⟩
        rw [cobsPartialDecodeFrom_past (readAt_wire before _ b) (blockCode_ne b.short) (by omega)
          (by omega) (by rw [hcode]; exact hrun), hcode, Nat.add_sub_cancel_left]
        simpa [Block.wire_length] using hrest

/-! ## Against the whole text -/

theorem frame_append_singleton_length (front : List Block) (last : Block) :
    (frame (front ++ [last])).length =
      (text front ++ last.data).length + fullCount front + 1 := by
  have hfront : (frame front).length = (text front).length + fullCount front :=
    wire_length_eq blockCode front
  have hlast : (frame [last]).length = last.data.length + 1 := by simp
  rw [frame_append, List.length_append, List.length_append, hfront, hlast]
  omega

/-- A length that leaves some of the string out is always met. -/
theorem cobsPartialDecode_of_lt (front : List Block) (last : Block) {dlen : Nat}
    (hdlen : dlen < (frame (front ++ [last])).length) :
    cobsPartialDecode (frame (front ++ [last])) (frame (front ++ [last])).length dlen =
      .ok (Int32.ofNat dlen, (padded front ++ last.data).take dlen) := by
  have hpadded : (padded (front ++ [last])).length = (frame (front ++ [last])).length :=
    padded_length blockCode _
  have hrun := cobsPartialDecodeFrom_frame [] [] (front ++ [last]) dlen _ dlen [] hdlen (by omega)
  have hsplit : padded (front ++ [last]) = (padded front ++ last.data) ++ [specialChar] := by
    rw [padded_append, padded_cons, padded_nil, List.append_assoc]
  rw [hsplit, List.length_append, List.length_singleton] at hpadded
  rw [hsplit, List.take_append_of_le_length (by omega)] at hrun
  rw [cobsPartialDecode, if_neg (by omega)]
  simpa using hrun

theorem cobsPartialDecode_of_le (blocks : List Block) {dlen : Nat} (hpos : 1 ≤ dlen)
    (hdlen : (frame blocks).length ≤ dlen) :
    ∃ written, cobsPartialDecode (frame blocks) (frame blocks).length dlen = .ok (0, written) := by
  by_cases hlt : (frame blocks).length < dlen
  · exact ⟨[], if_pos hlt⟩
  · have hall : dlen = (frame blocks).length := Nat.le_antisymm (Nat.le_of_not_lt hlt) hdlen
    have hblocks : blocks ≠ [] := by
      rintro rfl
      rw [hall, frame_nil, List.length_nil] at hpos
      cases hpos
    rw [cobsPartialDecode, if_neg hlt, hall]
    exact cobsPartialDecodeFrom_all [] blocks _ [] hblocks

theorem toInt_ofNat_eq_iff {n : Nat} : (Int32.ofNat n).toInt = n ↔ n < 2 ^ 31 := by
  have hsize : Int32.size = 2 ^ 32 := rfl
  rw [Int32.toInt_ofNat', Int.bmod_def, hsize]
  omega

theorem ofNat_eq_zero_iff {n : Nat} : Int32.ofNat n = 0 ↔ 2 ^ 32 ∣ n := by
  have hsize : Int32.size = 2 ^ 32 := rfl
  rw [← Int32.toInt_inj, Int32.toInt_ofNat', Int.bmod_def, Int32.toInt_zero, hsize]
  omega

/-- Partial decoding of `dlen` bytes does what decoding does first, or reports that there
is less. -/
def DecodesPrefix (e : Bytes) (dlen : Nat) : Prop :=
  ∃ d ret written, cobsDecode e e.length = .ok d ∧
    cobsPartialDecode e e.length dlen = .ok (ret, written) ∧
    if dlen ≤ d.length then ret.toInt = dlen ∧ written = d.take dlen else ret = 0

theorem decodesPrefix_of_le {e : Bytes} (hverify : altCobsVerify e e.length = .ok true)
    {dlen : Nat} (hpos : 1 ≤ dlen) (hdlen : e.length ≤ dlen) : DecodesPrefix e dlen := by
  obtain ⟨blocks, rfl⟩ := (altCobsVerify_iff e).mp hverify
  obtain ⟨written, hrun⟩ := cobsPartialDecode_of_le blocks hpos hdlen
  refine ⟨openText blocks, 0, written, cobsDecode_undelimited blocks, hrun, ?_⟩
  have hshort : ¬ dlen ≤ (openText blocks).length := by
    rcases List.eq_nil_or_concat' blocks with rfl | ⟨front, last, rfl⟩
    · rw [openText, List.length_nil]
      omega
    · rw [frame_append_singleton_length] at hdlen
      rw [openText_append_singleton]
      omega
  rw [if_neg hshort]

theorem decodesPrefix_iff_of_lt (front : List Block) (last : Block) {dlen : Nat}
    (hdlen : dlen < (frame (front ++ [last])).length) :
    DecodesPrefix (frame (front ++ [last])) dlen ↔
      (dlen < 2 ^ 31 ∧ AgreesUpTo front dlen) ∨
        (2 ^ 32 ∣ dlen ∧ (frame (front ++ [last])).length ≤ dlen + fullCount front) := by
  have hdecode := cobsDecode_undelimited (front ++ [last])
  rw [openText_append_singleton] at hdecode
  have hrun := cobsPartialDecode_of_lt front last hdlen
  have hlength := frame_append_singleton_length front last
  have hproperty : DecodesPrefix (frame (front ++ [last])) dlen ↔
      if dlen ≤ (text front ++ last.data).length then
        (Int32.ofNat dlen).toInt = dlen ∧
          (padded front ++ last.data).take dlen = (text front ++ last.data).take dlen
      else Int32.ofNat dlen = 0 := by
    unfold DecodesPrefix
    simp only [hdecode, hrun, Except.ok.injEq, Prod.mk.injEq]
    constructor
    · rintro ⟨d, ret, written, rfl, ⟨rfl, rfl⟩, hsame⟩
      exact hsame
    · exact fun hsame => ⟨_, _, _, rfl, ⟨rfl, rfl⟩, hsame⟩
  rw [hproperty]
  by_cases hinside : dlen ≤ (text front ++ last.data).length
  · rw [if_pos hinside, toInt_ofNat_eq_iff, take_padded_iff (by decide) front last hinside]
    exact (or_iff_left fun h => by omega).symm
  · have hless : (frame (front ++ [last])).length ≤ dlen + fullCount front := by omega
    rw [if_neg hinside, ofNat_eq_zero_iff, and_iff_left hless]
    refine (or_iff_right ?_).symm
    rintro ⟨-, hagrees⟩
    rw [List.length_append] at hinside
    have hnone := fullCount_of_agreesUpTo (by decide) hagrees (by omega)
    rw [hlength, hnone, List.length_append] at hdlen
    omega

/-- Partial decoding of an accepted string is decoding cut off, or fails where decoding
writes less, exactly under one of three conditions: no less than the string is wanted;
the padded letters are right up to the wanted length, which an `int` holds; or the length
is a failure as an `int` and decoding does write less. -/
theorem cobsPartialDecode_prefix_iff {e : Bytes} (hverify : altCobsVerify e e.length = .ok true)
    {dlen : Nat} (hpos : 1 ≤ dlen) :
    DecodesPrefix e dlen ↔
      e.length ≤ dlen ∨ ∃ front last, e = frame (front ++ [last]) ∧
        ((dlen < 2 ^ 31 ∧ AgreesUpTo front dlen) ∨
          (2 ^ 32 ∣ dlen ∧ e.length ≤ dlen + fullCount front)) := by
  by_cases hdlen : e.length ≤ dlen
  · exact iff_of_true (decodesPrefix_of_le hverify hpos hdlen) (Or.inl hdlen)
  rw [or_iff_right hdlen]
  obtain ⟨blocks, rfl⟩ := (altCobsVerify_iff e).mp hverify
  rcases List.eq_nil_or_concat' blocks with rfl | ⟨front, last, rfl⟩
  · exact absurd (Nat.zero_le dlen) hdlen
  rw [decodesPrefix_iff_of_lt front last (Nat.lt_of_not_le hdlen)]
  constructor
  · exact fun hright => ⟨front, last, rfl, hright⟩
  · rintro ⟨front', last', hsame, hright⟩
    obtain ⟨rfl, -⟩ := List.append_inj' (frame_injective hsame) rfl
    exact hright

/-- The first byte of a block that is not full. -/
theorem cobsPartialDecode_prefix_iff_one :
    DecodesPrefix [0x03, 0x07, 0x09] 1 ↔
      [0x03, 0x07, 0x09].length ≤ 1 ∨
        ∃ front last, [0x03, 0x07, 0x09] = frame (front ++ [last]) ∧
          ((1 < 2 ^ 31 ∧ AgreesUpTo front 1) ∨
            (2 ^ 32 ∣ 1 ∧ [0x03, 0x07, 0x09].length ≤ 1 + fullCount front)) :=
  cobsPartialDecode_prefix_iff (e := [0x03, 0x07, 0x09]) (by decide +kernel) (Nat.le_refl 1)

/-- A full block, and a byte in a block of its own. -/
def fullBlockAndByte : Bytes := 0xFF :: List.replicate 254 0x01 ++ [0x02, 0x05]

/-- The byte behind the full block comes out as a zero. -/
theorem cobsPartialDecode_prefix_full :
    ¬ ∀ e, altCobsVerify e e.length = .ok true → ∀ dlen, 1 ≤ dlen → DecodesPrefix e dlen := by
  intro hall
  let full : Block := ⟨List.replicate 254 0x01, by decide +kernel, by decide +kernel⟩
  let last : Block := ⟨[0x05], by decide, by decide⟩
  have hframe : fullBlockAndByte = frame ([full] ++ [last]) := by decide +kernel
  have hverify := (altCobsVerify_iff fullBlockAndByte).mpr ⟨[full] ++ [last], hframe⟩
  have hprefix := hall _ hverify 255 (by decide)
  have hless : 255 < (frame ([full] ++ [last])).length := by decide +kernel
  rw [hframe, decodesPrefix_iff_of_lt [full] last hless] at hprefix
  rcases hprefix with ⟨-, hagrees⟩ | ⟨hdvd, -⟩
  · have hend := hagrees [] full [] rfl List.length_replicate
    exact absurd hend (by decide +kernel)
  · exact absurd hdvd (by decide)

/-! ## Damaged strings -/

/-- What is decoded depends on the bytes up to one behind as many as are wanted, wherever
the two strings end after that. -/
theorem cobsPartialDecodeFrom_congr {src other : Bytes} {dlensave cur slen slen' dlen : Nat}
    {dst : Bytes} (hsame : src.take (cur + dlen + 1) = other.take (cur + dlen + 1))
    (hsrc : cur + dlen < src.length) (hother : cur + dlen < other.length)
    (hslen : dlen < slen) (hslen' : dlen < slen') :
    cobsPartialDecodeFrom src dlensave cur slen dlen dst =
      cobsPartialDecodeFrom other dlensave cur slen' dlen dst := by
  -- Every block but the last takes its own length off what is wanted.
  induction dlen using Nat.strongRecOn generalizing cur slen slen' dst with
  | ind dlen ih =>
      by_cases hpos : dlen = 0
      · subst hpos
        rw [cobsPartialDecodeFrom, if_neg (by omega), cobsPartialDecodeFrom, if_neg (by omega)]
      have hkept : cur < cur + dlen + 1 := by omega
      have hread : readAt other cur = readAt src cur := by
        rw [← readAt_take hkept, ← hsame, readAt_take hkept]
      have hlt : cur < src.length := by omega
      have hcode := readAt_of_lt hlt
      have hrun : ∀ count ≤ dlen,
          readRange other (cur + 1) count = readRange src (cur + 1) count := by
        intro count hcount
        have hdrop := congrArg (List.take count ∘ List.drop (cur + 1)) hsame
        simp only [Function.comp_apply, List.drop_take, List.take_take] at hdrop
        rw [Nat.min_eq_left (by omega)] at hdrop
        rw [readRange_of_le (by omega), readRange_of_le (by omega), hdrop]
      rw [hcode] at hread
      generalize src[cur] = code at hcode hread
      by_cases hzero : code = 0x00
      · rw [cobsPartialDecodeFrom, if_pos ⟨by omega, by omega⟩, hcode, ok_bind, if_pos hzero,
          cobsPartialDecodeFrom, if_pos ⟨by omega, by omega⟩, hread, ok_bind, if_pos hzero]
      have hnat := toNat_ne_zero hzero
      by_cases hinside : dlen ≤ code.toNat - 1
      · have hfits : cur + 1 + dlen ≤ src.length := by omega
        have hsrun := readRange_of_le hfits
        rw [cobsPartialDecodeFrom_inside hcode hzero (by omega) hinside hslen hsrun,
          cobsPartialDecodeFrom_inside hread hzero (by omega) hinside hslen'
            ((hrun dlen (Nat.le_refl _)).trans hsrun)]
      · have hfits : cur + 1 + (code.toNat - 1) ≤ src.length := by omega
        have hsrun := readRange_of_le hfits
        have hnext : cur + code.toNat + (dlen - code.toNat) = cur + dlen := by omega
        rw [cobsPartialDecodeFrom_past hcode hzero (by omega) (by omega) hsrun,
          cobsPartialDecodeFrom_past hread hzero (by omega) (by omega)
            ((hrun _ (by omega)).trans hsrun)]
        exact ih (dlen - code.toNat) (by omega) (by rw [hnext]; exact hsame) (by omega)
          (by omega) (by omega) (by omega)

/-- Up to the length of a full block, the front of an input comes back from any string
that begins with the front of its encoding and one byte more. -/
theorem cobsPartialDecode_intact {x f : Bytes} (len : Nat) (hlen : len ≤ 254)
    (hx : len ≤ x.length) (hf : len + 1 ≤ f.length)
    (hsame : f.take (len + 1) = (cobsEncode x).take (len + 1)) :
    cobsPartialDecode f f.length len = .ok (Int32.ofNat len, x.take len) := by
  have hlength : x.length + 1 ≤ (cobsEncode x).length := by
    rw [cobsEncode_length]
    omega
  have hpadded : (padded (cobsBlocks x)).length + 1 = (cobsEncode x).length := by
    rw [cobsEncode_eq, padded_length blockCode, List.length_append, List.length_singleton]
    rfl
  have hrun := cobsPartialDecodeFrom_frame [] [specialChar] (cobsBlocks x) len
    (cobsEncode x).length len [] (by omega) (by omega)
  rw [List.nil_append, ← cobsEncode_eq, List.nil_append, take_padded_of_le hlen, text_split,
    List.take_append_of_le_length hx, List.length_nil] at hrun
  rw [cobsPartialDecode, if_neg (by omega)]
  refine Eq.trans ?_ hrun
  apply cobsPartialDecodeFrom_congr
  · rw [Nat.zero_add]
    exact hsame
  · omega
  · omega
  · omega
  · omega

/-- The first 56 bytes of an input come back from any string that begins with the first 57
of its encoding. -/
theorem cobsPartialDecode_header {x f : Bytes} (hx : 56 ≤ x.length) (hf : 57 ≤ f.length)
    (hsame : f.take 57 = (cobsEncode x).take 57) :
    cobsPartialDecode f f.length 56 = .ok (56, x.take 56) :=
  cobsPartialDecode_intact 56 (by decide) hx hf hsame

/-- A header with a zero in it, and something else behind the first 57 bytes. -/
theorem cobsPartialDecode_header_changed :
    let header : Bytes := List.replicate 28 0x90 ++ 0x00 :: List.replicate 27 0x07
    let front : Bytes := 29 :: List.replicate 28 0x90 ++ 32 :: List.replicate 27 0x07
    cobsPartialDecode (front ++ [0xFF, 0x02, 0x00]) (front ++ [0xFF, 0x02, 0x00]).length 56 =
      .ok (56, header) :=
  cobsPartialDecode_header
    (x := List.replicate 28 0x90 ++ 0x00 :: List.replicate 27 0x07 ++ [0x05, 0x09, 0x03, 0x01])
    (by decide) (by decide) (by decide +kernel)

end Hipft
