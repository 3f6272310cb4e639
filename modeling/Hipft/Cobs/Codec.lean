import Hipft.Foundation.Memory

/-! # The COBS routines

`cobs_encode`, `cobs_decode`, `cobs_partial_decode`, the two verifiers and the
length routines. A pointer is an index into the block it points into; the bytes
a routine writes through `dst` are its result. Reads outside the block are
faults.
-/

namespace Hipft

open CMemory

/-- A byte string in memory. -/
abbrev Bytes := List UInt8

/-- The frame delimiter `SPECIAL_CHAR`. -/
def specialChar : UInt8 := 0x00

/-! ## Encoding -/

/-- The encoder between two bytes: everything below the write pointer `dst`,
the slot `currDst` kept for the pending code, and the code so far. A slot
holds zero until its code is known. -/
structure EncodeState where
  dst : Bytes
  currDst : Nat
  marker : UInt8
  deriving DecidableEq, Repr

namespace EncodeState

def start : EncodeState where
  dst := [0x00]
  currDst := 0
  marker := 0x01

/-- `PlaceMarker(marker)`: fill the slot, keep the next one. -/
def placeMarker (s : EncodeState) : EncodeState where
  dst := s.dst.set s.currDst (if s.marker = specialChar then 0x00 else s.marker) ++ [0x00]
  currDst := s.dst.length
  marker := 0x01

/-- `*dst++ = *src; marker++`. -/
def copyByte (s : EncodeState) (byte : UInt8) : EncodeState :=
  { s with dst := s.dst ++ [byte], marker := s.marker + 1 }

/-- The encoder's loop body. -/
def step (s : EncodeState) (byte : UInt8) : EncodeState :=
  if byte = specialChar then s.placeMarker
  else if (s.copyByte byte).marker = 0xFF then (s.copyByte byte).placeMarker
  else s.copyByte byte

/-- `*curr_dst = SPECIAL_CHAR`. -/
def delimit (s : EncodeState) : Bytes := s.dst.set s.currDst specialChar

/-- What follows the loop: the code of an unfinished run, then the delimiter. -/
def finish (s : EncodeState) : Bytes :=
  if s.marker ≠ 0x01 then s.placeMarker.delimit else s.delimit

end EncodeState

/-- The bytes `cobs_encode(src, len, dst)` writes for the `len` bytes `src`. -/
def cobsEncode (src : Bytes) : Bytes := (src.foldl EncodeState.step .start).finish

/-! ## Decoding -/

/-- `cobs_decode` from the pointer `cur` on, `dst` being written so far. -/
def cobsDecodeFrom (src : Bytes) (len cur : Nat) (dst : Bytes) : CRun Bytes :=
  if cur < len then do
    let code ← readAt src cur
    let marker := (if code = 0x00 then specialChar else code).toNat
    let run ← readRange src (cur + 1) (marker - 1)
    let next := cur + 1 + (marker - 1)
    let zero := if marker < 0xFF ∧ next < len then [specialChar] else []
    cobsDecodeFrom src len next (dst ++ run ++ zero)
  else .ok dst
termination_by len - cur

/-- The bytes `cobs_decode(src, len, dst)` writes. -/
def cobsDecode (src : Bytes) (len : Nat) : CRun Bytes := cobsDecodeFrom src len 0 []

/-- The loop of `cobs_partial_decode`: `slen` source bytes are left from `cur`
on, `dlen` bytes are still wanted. The value is the one returned, `dlensave`
as an `int` or 0 for a failure, and everything written to `dst`. -/
def cobsPartialDecodeFrom (src : Bytes) (dlensave cur slen dlen : Nat) (dst : Bytes) :
    CRun (Int32 × Bytes) :=
  if 0 < slen ∧ 0 < dlen then do
    let substringlen ← readAt src cur
    if substringlen = 0x00 then
      .ok (0, dst)
    else
      -- the comparison with 0x255 is the source's own, and no byte is equal to it
      let append := substringlen.toNat ≠ 0x255
      let count := min (slen - 1) (min dlen (substringlen.toNat - 1))
      let run ← readRange src (cur + 1) count
      let slen' := slen - 1 - count
      let dlen' := dlen - count
      if slen' = 0 ∧ 0 < dlen' then
        .ok (0, dst ++ run)
      else if 0 < dlen' ∧ append then
        cobsPartialDecodeFrom src dlensave (cur + 1 + count) slen' (dlen' - 1)
          (dst ++ run ++ [0x00])
      else cobsPartialDecodeFrom src dlensave (cur + 1 + count) slen' dlen' (dst ++ run)
  else .ok (Int32.ofNat dlensave, dst)
termination_by slen

/-- `cobs_partial_decode(src, slen, dst, dlen)`. -/
def cobsPartialDecode (src : Bytes) (slen dlen : Nat) : CRun (Int32 × Bytes) :=
  if slen < dlen then .ok (0, []) else cobsPartialDecodeFrom src dlen 0 slen dlen []

/-! ## Verifying -/

/-- The first loop of `alt_cobs_verify`: where the chain of codes leaves the
string, or `none` at a zero code. -/
def altCobsChain (src : Bytes) (len cur : Nat) : CRun (Option Nat) :=
  if cur < len then do
    let substringlen ← readAt src cur
    if substringlen.toNat = 0 then .ok none else altCobsChain src len (cur + substringlen.toNat)
  else .ok (some cur)
termination_by len - cur

/-- `alt_cobs_verify(src, len)`. -/
def altCobsVerify (src : Bytes) (len : Nat) : CRun Bool := do
  match ← altCobsChain src len 0 with
  | none => pure false
  | some cur =>
      if cur ≠ len then pure false
      else (List.range len).allM fun i => do
        let byte ← readAt src i
        pure (byte ≠ specialChar)

/-- The loop of `cobs_verify`: the marker at the end of the string, or `none` at
a delimiter. -/
def cobsVerifyFrom (src : Bytes) (len cur : Nat) (marker : UInt8) : CRun (Option UInt8) :=
  if cur < len then do
    let byte ← readAt src cur
    if byte = specialChar then .ok none
    else
      let marker :=
        if marker = 0x00 then (if byte = 0x00 then specialChar else byte) else marker
      cobsVerifyFrom src len (cur + 1) (marker - 1)
  else .ok (some marker)
termination_by len - cur

/-- `cobs_verify(src, len)`. -/
def cobsVerify (src : Bytes) (len : Nat) : CRun Bool := do
  match ← cobsVerifyFrom src len 0 0x00 with
  | none => pure false
  | some marker => pure (marker = 0x00)

/-! ## Lengths -/

/-- The index of the first delimiter from `cur` on. The scan faults where the
block ends without one. -/
def scanSpecialChar (src : Bytes) (cur : Nat) : CRun Nat :=
  if h : cur < src.length then
    if src[cur] = specialChar then .ok cur else scanSpecialChar src (cur + 1)
  else .error .outOfBounds
termination_by src.length - cur

/-- `cobs_encoded_length_from_encoded(src)`. -/
def cobsEncodedLengthFromEncoded (src : Bytes) : CRun Nat := do
  let i ← scanSpecialChar src 0
  pure (i + 1)

/-- One pass of `cobs_encoded_length_from_decoded`: `sum` and `last_spcl_char`. -/
def countEncoded (state : Nat × Nat) (byte : UInt8) : Nat × Nat :=
  let lastSpclChar := if byte = specialChar then 0 else state.2 + 1
  if lastSpclChar ≥ 254 then (state.1 + 1, 0) else (state.1, lastSpclChar)

/-- `cobs_encoded_length_from_decoded(src, len)` for the `len` bytes `src`. -/
def cobsEncodedLengthFromDecoded (src : Bytes) : Nat :=
  (src.foldl countEncoded (src.length + 2, 0)).1

/-- The counting loop of `cobs_decoded_length_from_encoded`. A zero code would
leave the pointer where it is. -/
def countDecoded (src : Bytes) (stop cur sum : Nat) : CRun Nat :=
  if cur < stop then do
    let substringlen ← readAt src cur
    if substringlen.toNat = 0 then .error .hang
    else
      let step := if substringlen = 0xFF then 0xFE else substringlen.toNat
      countDecoded src stop (cur + substringlen.toNat) (sum + step)
  else if cur = stop then .ok sum else .error .assertion
termination_by stop - cur

/-- `cobs_decoded_length_from_encoded(src)`. -/
def cobsDecodedLengthFromEncoded (src : Bytes) : CRun Nat := do
  let stop ← scanSpecialChar src 0
  countDecoded src stop 0 0

/-- `cobs_encoded_length_worse_case(len)`. -/
def cobsEncodedLengthWorseCase (len : Nat) : Nat := len + 2 + len / 254

/-- `cobs_encoded_length_best_case(len)`. -/
def cobsEncodedLengthBestCase (len : Nat) : Nat := len + 2

end Hipft
