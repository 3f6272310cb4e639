import Hipft.Client.Errors

/-! # Reading blocks from a stream

`read_blocks` collects bytes up to a delimiter, decodes and parses what it has
collected, and starts again with an empty buffer. What memory holds when it is
first handed out is a parameter.
-/

namespace Hipft

open CMemory ByteLayout

/-- `BLOCK_INITIAL_SIZE`. -/
def blockInitialSize : Nat := 8192

/-- What the cells of fresh memory hold, by the number of the chunk and the cell's
place: in a decode buffer, and in the part of a buffer that `realloc` adds. -/
structure Heap where
  decode : Nat → Nat → UInt8
  grown : Nat → Nat → UInt8

/-- The variables of the loops: the receive buffer and how much of it is used,
the chunks seen, the valid blocks counted, and what has been logged. -/
structure Reader where
  buffer : Bytes
  bindex : Nat
  chunkcount : Nat
  blockcount : Nat
  log : List LogEntry

/-- The start of a pass of the outer loop: a new buffer, set to zero. -/
def Reader.fresh (chunkcount blockcount : Nat) (log : List LogEntry) : Reader where
  buffer := List.replicate blockInitialSize 0
  bindex := 0
  chunkcount := chunkcount
  blockcount := blockcount
  log := log

/-- The decode buffer of a verified chunk, and the length that replaces `bindex`. -/
def decodeChunk (heap : Heap) (chunkcount : Nat) (buffer : Bytes) (bindex : Nat) :
    CRun (Bytes × Nat) := do
  let decoded ← cobsDecode buffer bindex
  let decodeBuffer ← writeFront ((List.range bindex).map (heap.decode chunkcount)) decoded
  let len ← cobsDecodedLengthFromEncoded buffer
  pure (decodeBuffer, len)

/-- A terminated chunk: whether it is a valid block, and what is logged. -/
def handleChunk (heap : Heap) (chunkcount : Nat) (buffer : Bytes) (bindex : Nat) :
    CRun (Bool × List LogEntry) := do
  if bindex = 0 then return (false, [handleNullPacket chunkcount])
  let verified ← altCobsVerify buffer bindex
  if !verified then
    let entry ← handleCobsErrors chunkcount buffer bindex
    return (false, [entry])
  let (decodeBuffer, len) ← decodeChunk heap chunkcount buffer bindex
  match ← msgFromBytes decodeBuffer (UInt64.ofNat len) with
  | none =>
      -- The encoded bytes are passed on with the decoded length.
      let entry ← handleBustedMsg1 chunkcount buffer (UInt64.ofNat len)
      pure (false, [entry])
  | some m => validateMessage m chunkcount len

/-- One pass of the inner loop, for the byte `c` of the stream. -/
def readByte (heap : Heap) (r : Reader) (c : UInt8) : CRun Reader :=
  if c = specialChar then do
    let (valid, entries) ← handleChunk heap (r.chunkcount + 1) r.buffer r.bindex
    pure (Reader.fresh (r.chunkcount + 1) (if valid then r.blockcount + 1 else r.blockcount)
      (r.log ++ entries))
  else do
    let buffer ← modifyAt r.buffer r.bindex fun _ => c
    -- A full buffer grows at once; the new cells are not set to zero.
    pure { r with
      buffer := if r.bindex + 1 = buffer.length then
          buffer ++ (List.range blockInitialSize).map fun i =>
            heap.grown (r.chunkcount + 1) (buffer.length + i)
        else buffer
      bindex := r.bindex + 1 }

/-- `read_blocks` on a stream that ends after the given bytes: the number of valid
blocks, and the log. -/
def readBlocks (heap : Heap) (stream : Bytes) : CRun (Nat × List LogEntry) := do
  let r ← stream.foldlM (readByte heap) (Reader.fresh 0 0 [])
  pure (r.blockcount, r.log)

end Hipft
