import Hipft.Message.Layout
import Hipft.Message.Parse

/-! # The grammar of the parser

`msg_from_bytes` never leaves its input and gives exactly the message whose
parts are the consecutive slices of it, when they fit. The lengths in the header
are any 32-bit numbers, so the sizes the parser computes may be negative.
-/

namespace Hipft

open CMemory ByteLayout

/-! ## The pieces of the parser -/

theorem safeMemcpy_eq {mem : Bytes} {eob src : Nat} {len : UInt32} (heob : eob ≤ mem.length) :
    safeMemcpy mem eob src len =
      .ok (if src + len.toNat ≤ eob then some (slice mem src len.toNat) else none) := by
  unfold safeMemcpy
  by_cases hfits : src + len.toNat ≤ eob
  · rw [if_neg (by omega), if_pos hfits, readRange_of_le (by omega)]
    rfl
  · rw [if_pos (by omega), if_neg hfits]
    rfl

theorem msgHtFromBytes_eq {mem : Bytes} {src : Nat} {len : UInt64}
    (heos : src + len.toNat ≤ mem.length) :
    msgHtFromBytes mem src len =
      .ok (if 56 ≤ len.toNat then
        some (MsgHeader.ofBytes (slice mem src 56), src + 56, len - calculateHeaderLength)
      else none) := by
  have hsize : calculateHeaderLength.toUInt32.toNat = 56 := rfl
  rw [msgHtFromBytes, safeMemcpy_eq heos, ok_bind, hsize]
  by_cases hfits : 56 ≤ len.toNat
  · rw [if_pos (by omega), if_pos hfits]
    rfl
  · rw [if_neg (by omega), if_neg hfits]
    rfl

/-- A negative `int` asks `malloc` for more than it can give. -/
theorem mallocSucceeds_int (size : Int32) :
    mallocSucceeds size.toInt64.toUInt64 = true ↔ 0 ≤ size.toInt := by
  have hextend : size.toInt64.toUInt64.toNat = (size.toBitVec.signExtend 64).toNat := rfl
  have hint : size.toInt = size.toBitVec.toInt := rfl
  have hlt := size.toBitVec.isLt
  rw [mallocSucceeds, decide_eq_true_eq, hextend, hint, BitVec.toNat_signExtend,
    BitVec.toNat_setWidth_of_le (by decide), BitVec.msb_eq_toInt]
  by_cases hneg : size.toBitVec.toInt < 0
  · rw [if_pos (decide_eq_true hneg)]
    omega
  · rw [if_neg (by simpa using hneg)]
    omega

/-- The length of the horizontal parity is an `int` of its true value exactly
when the header's parity length leaves room for the vertical parity. -/
theorem hparityLen_nonneg (p : UInt32) :
    0 ≤ (hparityLen p.toUInt64).toInt ↔ 32 ≤ p.toNat ∧ p.toNat < 2 ^ 31 + 32 := by
  have hvparity : computeVparityLength.toNat = 32 := rfl
  have hp := p.toNat_lt
  have hint : (hparityLen p.toUInt64).toInt =
      ((p.toUInt64 - computeVparityLength).toUInt32).toBitVec.toInt := rfl
  have hnat : ((p.toUInt64 - computeVparityLength).toUInt32).toBitVec.toNat =
      (2 ^ 64 - 32 + p.toNat) % 2 ^ 64 % 2 ^ 32 := by
    rw [UInt32.toNat_toBitVec, UInt64.toNat_toUInt32, UInt64.toNat_sub, hvparity,
      UInt32.toNat_toUInt64]
  rw [hint, BitVec.toInt_pos_iff, hnat]
  omega

theorem hparityLen_toInt {p : UInt32} (hlow : 32 ≤ p.toNat) (hhigh : p.toNat < 2 ^ 31 + 32) :
    (hparityLen p.toUInt64).toInt = (p.toNat - 32 : Nat) ∧
      (hparityLen p.toUInt64).toUInt32.toNat = p.toNat - 32 := by
  have hvparity : computeVparityLength.toNat = 32 := rfl
  have hword : (hparityLen p.toUInt64).toUInt32 =
      (p.toUInt64 - computeVparityLength).toUInt32 := rfl
  have hnat : (hparityLen p.toUInt64).toUInt32.toNat = p.toNat - 32 := by
    rw [hword, UInt64.toNat_toUInt32, UInt64.toNat_sub, hvparity, UInt32.toNat_toUInt64]
    omega
  refine ⟨?_, hnat⟩
  have hint : (hparityLen p.toUInt64).toInt = (hparityLen p.toUInt64).toBitVec.toInt := rfl
  have hbits : (hparityLen p.toUInt64).toBitVec.toNat = p.toNat - 32 := hnat
  rw [hint, BitVec.toInt_eq_toNat_cond, hbits, if_pos (by omega)]

/-- The body at `src` with the given lengths. -/
def bodyAt (mem : Bytes) (src c p : Nat) : MsgBody where
  content := slice mem src c
  vparityData := vparityWords (slice mem (src + c) 32)
  hparityData := slice mem (src + c + 32) (p - 32)

theorem msgBodyFromBytes_eq {mem : Bytes} {src : Nat} {len : UInt64} (c p : UInt32)
    (heos : src + len.toNat ≤ mem.length) :
    msgBodyFromBytes mem src len c.toUInt64 p.toUInt64 =
      .ok (if c.toNat < 65536 ∧ (32 ≤ p.toNat ∧ p.toNat < 2 ^ 31 + 32) ∧
          c.toNat + p.toNat ≤ len.toNat then
        some (bodyAt mem src c.toNat p.toNat, src + c.toNat + p.toNat,
          len - UInt64.ofNat (c.toNat + p.toNat))
      else none) := by
  have hmax : c.toUInt64 ≥ maxMessageSize ↔ 65536 ≤ c.toNat := by
    rw [ge_iff_le, UInt64.le_iff_toNat_le, UInt32.toNat_toUInt64]
    rfl
  have hempty : len ≤ 0 ↔ len.toNat = 0 := by
    rw [UInt64.le_iff_toNat_le]
    exact Nat.le_zero
  have hvlen : computeVparityLength.toUInt32.toNat = 32 := rfl
  have hvsize : computeVparityLength.toNat = 32 := rfl
  have hint := hparityLen_nonneg p
  simp only [msgBodyFromBytes, hmax, hempty, safeMemcpy_eq heos, ok_bind, pure_eq_ok,
    UInt32.toUInt32_toUInt64, UInt32.toNat_toUInt64, hvlen, hvsize, Bool.not_eq_eq_eq_not,
    Bool.not_true, ← Bool.not_eq_true, mallocSucceeds_int, hint]
  by_cases hearly : len.toNat = 0 ∨ 65536 ≤ c.toNat
  · rw [if_pos hearly, if_neg (by omega)]
  have hmalloc : mallocSucceeds c.toUInt64 = true := by
    rw [mallocSucceeds, decide_eq_true_eq, UInt32.toNat_toUInt64]
    omega
  rw [if_neg hearly, if_neg (not_not.mpr hmalloc)]
  -- Each copy is a bound on what remains; the first that fails ends the parse.
  by_cases hcontent : src + c.toNat ≤ src + len.toNat
  case neg =>
    simp only [if_neg hcontent]
    rw [if_neg (by omega)]
  by_cases hvparity : src + c.toNat + 32 ≤ src + len.toNat
  case neg =>
    simp only [if_pos hcontent, if_neg hvparity]
    rw [if_neg (by omega)]
  by_cases hsign : 32 ≤ p.toNat ∧ p.toNat < 2 ^ 31 + 32
  case neg =>
    simp only [if_pos hcontent, if_pos hvparity, if_pos hsign]
    rw [if_neg (by omega)]
  obtain ⟨hcurrent, hsize⟩ := hparityLen_toInt hsign.1 hsign.2
  simp only [if_pos hcontent, if_pos hvparity, if_neg (not_not.mpr hsign), hsize, hcurrent]
  by_cases hhparity : src + c.toNat + 32 + (p.toNat - 32) ≤ src + len.toNat
  case neg =>
    rw [if_neg hhparity, if_neg (by omega)]
  have hend : (((src + c.toNat + 32 : Nat) : Int) + (p.toNat - 32 : Nat)).toNat =
      src + c.toNat + p.toNat := by omega
  rw [if_pos hhparity, if_pos (by omega)]
  simp only [hend, bodyAt, show src + c.toNat + p.toNat - src = c.toNat + p.toNat by omega]

/-! ## The whole parser -/

/-- The message whose parts are the consecutive slices of `b`. -/
def parsedMsg (b : Bytes) : Msg :=
  let head := MsgHeader.ofBytes (slice b 0 56)
  { head
    body := bodyAt b 56 head.contentLength.toNat head.parityLength.toNat
    trail := MsgHeader.ofBytes
      (slice b (56 + head.contentLength.toNat + head.parityLength.toNat) 56) }

/-- `len` bytes hold a header and what its lengths ask for, and the length of the
horizontal parity is one of an `int`. -/
structure Fits (h : MsgHeader) (len : Nat) : Prop where
  header : 56 ≤ len
  content : h.contentLength.toNat < 65536
  parity : 32 ≤ h.parityLength.toNat ∧ h.parityLength.toNat < 2 ^ 31 + 32
  total : 56 + h.contentLength.toNat + h.parityLength.toNat + 56 ≤ len

theorem fits_iff {h : MsgHeader} {len : Nat} :
    Fits h len ↔ 56 ≤ len ∧ h.contentLength.toNat < 65536 ∧
      (32 ≤ h.parityLength.toNat ∧ h.parityLength.toNat < 2 ^ 31 + 32) ∧
      56 + h.contentLength.toNat + h.parityLength.toNat + 56 ≤ len :=
  ⟨fun hfits => ⟨hfits.header, hfits.content, hfits.parity, hfits.total⟩,
    fun ⟨hheader, hcontent, hparity, htotal⟩ => ⟨hheader, hcontent, hparity, htotal⟩⟩

instance (h : MsgHeader) (len : Nat) : Decidable (Fits h len) := decidable_of_iff' _ fits_iff

/-- `msg_from_bytes` on the first `len` bytes of a block: it ends inside them,
with the message of the slices when these fit. -/
theorem msgFromBytes_eq {b : Bytes} {len : UInt64} (hmem : len.toNat ≤ b.length) :
    msgFromBytes b len =
      .ok (if Fits (MsgHeader.ofBytes (slice b 0 56)) len.toNat then some (parsedMsg b)
        else none) := by
  have hhl : calculateHeaderLength.toNat = 56 := rfl
  unfold msgFromBytes
  rw [msgHtFromBytes_eq (by omega), ok_bind]
  by_cases hheader : 56 ≤ len.toNat
  case neg =>
    rw [if_neg hheader, if_neg (fun hfits => hheader hfits.header)]
    rfl
  have hremain : (len - calculateHeaderLength).toNat = len.toNat - 56 := by
    rw [UInt64.toNat_sub_of_le _ _ (by rw [UInt64.le_iff_toNat_le, hhl]; exact hheader), hhl]
  simp only [if_pos hheader, Nat.zero_add]
  generalize hhead : MsgHeader.ofBytes (slice b 0 56) = head
  rw [msgBodyFromBytes_eq _ _ (by omega), ok_bind, hremain]
  by_cases hbody : head.contentLength.toNat < 65536 ∧
      (32 ≤ head.parityLength.toNat ∧ head.parityLength.toNat < 2 ^ 31 + 32) ∧
      head.contentLength.toNat + head.parityLength.toNat ≤ len.toNat - 56
  case neg =>
    rw [if_neg hbody, if_neg]
    · rfl
    · rintro ⟨-, hcontent, hparity, htotal⟩
      exact hbody ⟨hcontent, hparity, by omega⟩
  have hused : (UInt64.ofNat (head.contentLength.toNat + head.parityLength.toNat)).toNat =
      head.contentLength.toNat + head.parityLength.toNat := by
    rw [UInt64.toNat_ofNat', Nat.mod_eq_of_lt (by omega)]
  have hrest : (len - calculateHeaderLength -
      UInt64.ofNat (head.contentLength.toNat + head.parityLength.toNat)).toNat =
      len.toNat - 56 - (head.contentLength.toNat + head.parityLength.toNat) := by
    rw [UInt64.toNat_sub_of_le _ _ (by rw [UInt64.le_iff_toNat_le, hused, hremain]; omega), hused,
      hremain]
  simp only [if_pos hbody]
  rw [msgHtFromBytes_eq (by omega), ok_bind, hrest]
  by_cases htrailer : 56 ≤ len.toNat - 56 - (head.contentLength.toNat + head.parityLength.toNat)
  case neg =>
    rw [if_neg htrailer, if_neg (fun hfits => htrailer (by have := hfits.total; omega))]
    rfl
  rw [if_pos htrailer, if_pos ⟨hheader, hbody.1, hbody.2.1, by omega⟩, parsedMsg, hhead]
  rfl

/-- The parts of `m` are the consecutive parts of `b`, the lengths being the
big-endian numbers at the offsets of `contentLength` and `parityLength`. -/
structure MsgAt (b : Bytes) (m : Msg) : Prop where
  head : HeaderAt b 0 m.head
  content : m.body.content = slice b 56 (ofBe (slice b 16 4))
  words : m.body.vparityData.length = 4
  vparity : ∀ i < 4,
    (m.body.vparityData.getD i 0).toNat = ofBe (slice b (56 + ofBe (slice b 16 4) + 8 * i) 8)
  hparity : m.body.hparityData =
    slice b (56 + ofBe (slice b 16 4) + 32) (ofBe (slice b 20 4) - 32)
  trail : HeaderAt b (56 + ofBe (slice b 16 4) + ofBe (slice b 20 4)) m.trail

theorem vparityWords_getD {bytes : Bytes} (hlength : bytes.length = 32) {i : Nat} (hi : i < 4) :
    ((vparityWords bytes).getD i 0).toNat = ofBe (slice bytes (8 * i) 8) := by
  have hrange : (List.range 4)[i]? = some i := List.getElem?_range hi
  rw [vparityWords, List.getD_eq_getElem?_getD, List.getElem?_map, hrange, Option.map_some,
    Option.getD_some, ntoh64_ofLe (slice_length (by omega))]

theorem msgAt_parsedMsg {b : Bytes} (hfits : Fits (MsgHeader.ofBytes (slice b 0 56)) b.length) :
    MsgAt b (parsedMsg b) := by
  have hhead : HeaderAt b 0 (MsgHeader.ofBytes (slice b 0 56)) :=
    headerAt_ofBytes hfits.header
  have hcontent := hhead.contentLength
  have hparity := hhead.parityLength
  have htotal := hfits.total
  have hlow := hfits.parity.1
  rw [Nat.zero_add] at hcontent hparity
  rw [hcontent, hparity] at htotal
  rw [hparity] at hlow
  refine ⟨hhead, ?_, by simp [parsedMsg, bodyAt, vparityWords], ?_, ?_, ?_⟩
  · rw [← hcontent]
    rfl
  · intro i hi
    have hwindow : (slice b (56 + ofBe (slice b 16 4)) 32).length = 32 :=
      slice_length (by omega)
    have hword := vparityWords_getD hwindow hi
    rw [slice_slice (by omega)] at hword
    rw [← hword, ← hcontent]
    rfl
  · rw [← hcontent, ← hparity]
    rfl
  · rw [← hcontent, ← hparity]
    exact headerAt_ofBytes (by omega)

/-- The parser reads inside its input only, accepts exactly the byte strings
that hold what the lengths in their header announce, and returns their parts. -/
theorem msgFromBytes_grammar (b : Bytes) (hlen : b.length < 2 ^ 31) :
    ∃ r, msgFromBytes b (UInt64.ofNat b.length) = .ok r ∧
      (r.isSome = true ↔ 56 ≤ b.length ∧ ofBe (slice b 16 4) < 65536 ∧
        32 ≤ ofBe (slice b 20 4) ∧
        56 + ofBe (slice b 16 4) + ofBe (slice b 20 4) + 56 ≤ b.length) ∧
      ∀ m, r = some m → MsgAt b m := by
  have hnat : (UInt64.ofNat b.length).toNat = b.length := by
    rw [UInt64.toNat_ofNat', Nat.mod_eq_of_lt (by omega)]
  refine ⟨_, msgFromBytes_eq (by omega), ?_, ?_⟩
  · rw [hnat]
    by_cases hheader : 56 ≤ b.length
    · have hhead : HeaderAt b 0 (MsgHeader.ofBytes (slice b 0 56)) := headerAt_ofBytes hheader
      rw [← Nat.zero_add 16, ← Nat.zero_add 20, ← hhead.contentLength, ← hhead.parityLength]
      split
      next hfits =>
        exact ⟨fun _ => ⟨hheader, hfits.content, hfits.parity.1, hfits.total⟩, fun _ => rfl⟩
      next hnot =>
        refine ⟨fun hnone => absurd hnone (by simp), ?_⟩
        rintro ⟨-, hcontent, hparity, htotal⟩
        exact absurd ⟨hheader, hcontent, ⟨hparity, by omega⟩, htotal⟩ hnot
    · rw [if_neg (fun hfits => hheader hfits.header)]
      simp [hheader]
  · intro m hm
    rw [hnat] at hm
    split at hm
    next hfits =>
      cases hm
      exact msgAt_parsedMsg hfits
    next => cases hm

/-- The least message: no content, four words of parity. -/
theorem msgFromBytes_grammar_least :
    ∃ m, msgFromBytes (List.replicate 23 0 ++ 32 :: List.replicate 120 0) 144 = .ok (some m) ∧
      HeaderAt (List.replicate 23 0 ++ 32 :: List.replicate 120 0) 0 m.head := by
  obtain ⟨r, hrun, haccept, hparts⟩ := msgFromBytes_grammar
    (List.replicate 23 0 ++ 32 :: List.replicate 120 0) (by decide +kernel)
  obtain ⟨m, rfl⟩ := Option.isSome_iff_exists.mp (haccept.mpr (by decide +kernel))
  exact ⟨m, hrun, (hparts m rfl).head⟩

end Hipft
