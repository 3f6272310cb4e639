import Hipft.Cobs.Codec

/-! # The parity routines

Vertical parity is meant to be one bit for each of the 256 columns of a buffer
read in 32-byte words, horizontal parity is one bit for each 4-byte word. Both
bits are set when the number of ones is even.
-/

namespace Hipft

open CMemory

/-- `bit_table`: the number of bits set in each nibble. -/
def bitTable : List Nat := [0, 1, 1, 2, 1, 2, 2, 3, 1, 2, 2, 3, 2, 3, 3, 4]

/-! ## Vertical parity -/

/-- `compute_vparity_length()`. -/
def computeVparityLength : UInt64 := 8 * 4

/-- The inner loop of both vertical routines: the ones at bit `i % 8` of the
bytes `i % 32`, `i % 32 + 32` and so on. -/
def columnTotal (buf : Bytes) (buflen : UInt64) (i : Nat) : CRun Nat :=
  let bitmask : UInt8 := 1 <<< UInt8.ofNat (i % 8)
  (forIndices (i % 32) buflen.toNat 32).foldlM (fun bitTotal j => do
    let byte ← readAt buf j
    pure (if byte &&& bitmask ≠ 0 then bitTotal + 1 else bitTotal)) 0

/-- `(uint64)(1 << (i % 64))`: the shift is one of an `int`, whose count is
taken modulo 32, and its result is extended with its sign. -/
def parityMask (i : Nat) : UInt64 := ((1 : Int32) <<< Int32.ofNat (i % 64)).toInt64.toUInt64

/-- One pass of the outer loop of `compute_vparity`. -/
def vparityPass (buf : Bytes) (buflen : UInt64) (parity : List UInt64) (i : Nat) :
    CRun (List UInt64) := do
  let bitTotal ← columnTotal buf buflen i
  if bitTotal % 2 = 0 then modifyAt parity (i / 64) (· ||| parityMask i) else pure parity

/-- `compute_vparity(buf, buflen, parity)`: the four words it fills. -/
def computeVparity (buf : Bytes) (buflen : UInt64) : CRun (List UInt64) :=
  (List.range 256).foldlM (vparityPass buf buflen) (List.replicate 4 0)

/-- One pass of the outer loop of `check_vparity`: false leaves the loop. -/
def vparityTest (buf : Bytes) (buflen : UInt64) (parity : List UInt64) (i : Nat) : CRun Bool := do
  let bitTotal ← columnTotal buf buflen i
  let word ← readAt parity (i / 64)
  let bitTotal := if word &&& parityMask i ≠ 0 then bitTotal + 1 else bitTotal
  pure (bitTotal % 2 ≠ 0)

/-- `check_vparity(buf, buflen, parity)`. -/
def checkVparity (buf : Bytes) (buflen : UInt64) (parity : List UInt64) : CRun Bool :=
  (List.range 256).allM (vparityTest buf buflen parity)

/-! ## Horizontal parity -/

/-- `compute_hparity_words(buflen)`. -/
def computeHparityWords (buflen : UInt64) : UInt64 :=
  buflen / 4 + if buflen % 4 ≠ 0 then 1 else 0

/-- `compute_hparity_length(bufflen)`. -/
def computeHparityLength (bufflen : UInt64) : UInt64 :=
  let words := computeHparityWords bufflen
  words / 8 + if words % 8 ≠ 0 then 1 else 0

/-- One pass of the inner loop of both horizontal routines, over byte `j` of
word `i`. Indices are those of a buffer below 2 GiB, where no `int` overflows. -/
def wordPass (buf : Bytes) (buflen : UInt64) (i bitTotal j : Nat) : CRun Nat :=
  if i * 4 + j < buflen.toNat then do
    let byte ← readAt buf (i * 4 + j)
    let high ← readAt bitTable (byte >>> 4).toNat
    let low ← readAt bitTable (byte &&& 0xF).toNat
    pure (bitTotal + (high + low))
  else pure bitTotal

/-- The inner loop: the ones of word `i`, on top of `start`. -/
def wordTotal (buf : Bytes) (buflen : UInt64) (i start : Nat) : CRun Nat :=
  (List.range 4).foldlM (wordPass buf buflen i) start

/-- One pass of the outer loop of `compute_hparity`. -/
def hparityPass (buf : Bytes) (buflen : UInt64) (parity : Bytes) (i : Nat) : CRun Bytes := do
  let bitTotal ← wordTotal buf buflen i 0
  if bitTotal % 2 = 0 then modifyAt parity (i / 8) (· ||| 1 <<< UInt8.ofNat (i % 8))
  else pure parity

/-- `compute_hparity(buf, buflen, parity)`: the parity bytes it fills. -/
def computeHparity (buf : Bytes) (buflen : UInt64) : CRun Bytes :=
  (List.range (computeHparityWords buflen).toNat).foldlM (hparityPass buf buflen)
    (List.replicate (computeHparityLength buflen).toNat 0)

/-- One pass of the outer loop of `check_hparity`: false leaves the loop. -/
def hparityTest (buf : Bytes) (buflen : UInt64) (parity : Bytes) (i : Nat) : CRun Bool := do
  let byte ← readAt parity (i / 8)
  let bitTotal ← wordTotal buf buflen i (if byte &&& 1 <<< UInt8.ofNat (i % 8) ≠ 0 then 1 else 0)
  pure (bitTotal % 2 ≠ 0)

/-- `check_hparity(buf, buflen, parity)`. -/
def checkHparity (buf : Bytes) (buflen : UInt64) (parity : Bytes) : CRun Bool :=
  (List.range (computeHparityWords buflen).toNat).allM (hparityTest buf buflen parity)

end Hipft
