import Hipft.Message.Format

/-! # Parsing a message

Pointers are offsets into the received block. A parser gives the value, the
position after it and the number of bytes that remain, or nothing when the C
function goes to its `fail` label.
-/

namespace Hipft

open CMemory ByteLayout

/-- `malloc(size)` gives memory. The sizes asked for are either below 2^31 or,
from a negative `int`, at least 2^63. -/
def mallocSucceeds (size : UInt64) : Bool := size.toNat < 2 ^ 63

/-- `safe_memcpy(eob, dest, src, len, where)`: the bytes copied, or nothing when
it reports an overrun. -/
def safeMemcpy (mem : Bytes) (eob src : Nat) (len : UInt32) : CRun (Option Bytes) :=
  if src + len.toNat > eob then pure none
  else do
    let copied ← readRange mem src len.toNat
    pure (some copied)

/-- `msg_ht_from_bytes(src, len, consumed, remain, diag)`. -/
def msgHtFromBytes (mem : Bytes) (src : Nat) (len : UInt64) :
    CRun (Option (MsgHeader × Nat × UInt64)) := do
  match ← safeMemcpy mem (src + len.toNat) src calculateHeaderLength.toUInt32 with
  | none => pure none
  | some bytes =>
    pure (some ((MsgHeader.ofMemory bytes).toHost, src + 56, len - calculateHeaderLength))

/-- `hparlen = paritylen - VPL`: the difference is one of `uint64` and is cut to
an `int`. -/
def hparityLen (paritylen : UInt64) : Int32 := (paritylen - computeVparityLength).toUInt32.toInt32

/-- The words of the vertical parity, `ntoh64` applied to each. -/
def vparityWords (bytes : Bytes) : List UInt64 :=
  (List.range 4).map fun i => ntoh64 (UInt64.ofNat (ofLe (slice bytes (8 * i) 8)))

/-- `msg_body_from_bytes(src, len, consumed, remain, contentlen, paritylen)`. -/
def msgBodyFromBytes (mem : Bytes) (src : Nat) (len contentlen paritylen : UInt64) :
    CRun (Option (MsgBody × Nat × UInt64)) := do
  let eos := src + len.toNat
  if len ≤ 0 ∨ contentlen ≥ maxMessageSize then return none
  if !mallocSucceeds contentlen then return none
  let some content ← safeMemcpy mem eos src contentlen.toUInt32 | return none
  let current := src + contentlen.toNat
  let some vparity ← safeMemcpy mem eos current computeVparityLength.toUInt32 | return none
  let current := current + computeVparityLength.toNat
  let hparlen := hparityLen paritylen
  -- As an argument of `malloc` the `int` is extended with its sign.
  if !mallocSucceeds hparlen.toInt64.toUInt64 then return none
  let some hparityData ← safeMemcpy mem eos current hparlen.toUInt32 | return none
  let current := (current + hparlen.toInt).toNat
  return some ({ content, vparityData := vparityWords vparity, hparityData }, current,
    len - UInt64.ofNat (current - src))

/-- `msg_from_bytes(src, len)`. -/
def msgFromBytes (src : Bytes) (len : UInt64) : CRun (Option Msg) := do
  let some (head, current, remain) ← msgHtFromBytes src 0 len | return none
  let some (body, current, remain) ← msgBodyFromBytes src current remain
    head.contentLength.toUInt64 head.parityLength.toUInt64 | return none
  let some (trail, _, _) ← msgHtFromBytes src current remain | return none
  return some { head, body, trail }

end Hipft
