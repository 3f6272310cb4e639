import Hipft.Message.RoundTrip

/-! # Shipping files

The server reads a file block by block, makes a message of every block and
writes its COBS string to the connection. It does so for the files of its
directory and logs how much it sent.
-/

namespace Hipft

open CMemory ByteLayout

/-- `HIPFT_BLOCK_SIZE`. -/
def hipftBlockSize : Nat := 4096

/-- `send_msg`: the bytes that are written to a connection that takes them all. -/
def sendMsg (src : Msg) : CRun Bytes := do
  let (bytes, size) ← msgToCobs src
  readRange bytes 0 size

/-- The pass of `shipfile` over one block, with the message ID that it draws. -/
def shipBlock (msgID : UInt32) (databuf : Bytes) : CRun Bytes := do
  let m ← formMsg msgID 0 0 0 0 0 databuf (UInt32.ofNat databuf.length)
  sendMsg m

/-- The loop of `shipfile` over the blocks of a file. -/
def shipBlocks (blocks : List (UInt32 × Bytes)) : CRun Bytes := do
  let sent ← blocks.mapM fun block => shipBlock block.1 block.2
  pure sent.flatten

/-! ## A directory -/

/-- A `struct dirent`, with what `fread` gets from its file if that opens. -/
structure DirEntry where
  dType : UInt8
  dName : Bytes
  file : Option Bytes
  deriving DecidableEq, Repr

/-- `DT_REG`. -/
def dtReg : UInt8 := 8

/-- The messages given to `send_msg`, and the bytes it wrote. -/
structure Outgoing where
  sent : List Msg
  wire : Bytes
  deriving DecidableEq, Repr

/-- `blockcount` and `bytecount`. -/
structure ShipCounts where
  blockcount : Int
  bytecount : Int
  deriving DecidableEq, Repr

/-- One pass of the loop of `shipfile`, with `draw k` the ID of message `k`. -/
def shipfilePass (draw : Nat → UInt32) (databuf : Bytes) (counts : ShipCounts) (out : Outgoing) :
    CRun (ShipCounts × Outgoing) := do
  let m ← formMsg (draw out.sent.length) 0 0 0 0 0 databuf (UInt32.ofNat databuf.length)
  let written ← sendMsg m
  pure (⟨counts.blockcount + 1, counts.bytecount + databuf.length⟩,
    ⟨out.sent ++ [m], out.wire ++ written⟩)

/-- The loop of `shipfile` over what is left of the file. -/
def shipfileLoop (draw : Nat → UInt32) (blocksize : Nat) :
    Nat → Bytes → ShipCounts → Outgoing → CRun (ShipCounts × Outgoing)
  | 0, _, _, _ => .error .hang
  | fuel + 1, fp, counts, out =>
      if fp.length < blocksize then pure (counts, out)
      else do
        let (counts, out) ← shipfilePass draw (fp.take blocksize) counts out
        shipfileLoop draw blocksize fuel (fp.drop blocksize) counts out

/-- `shipfile(s, filename, blocksize, blockcount, bytecount)`: what it returns and what
the counts are then. The first two returns leave them as they were. -/
def shipfile (draw : Nat → UInt32) (entry : DirEntry) (blocksize : Nat) (counts : ShipCounts)
    (out : Outgoing) : CRun (Nat × ShipCounts × Outgoing) :=
  if entry.dName.headD 0 = 0 ∨ entry.dName.headD 0 = '.'.toUInt8 then pure (0, counts, out)
  else
    match entry.file with
    | none => pure (1, counts, out)
    | some fp => do
        let (counts, out) ← shipfileLoop draw blocksize (fp.length + 1) fp ⟨0, 0⟩ out
        pure (0, counts, out)

/-- The locals of `run_file_transfer`. -/
structure Transfer where
  blocktotal : Int
  bytetotal : Int
  errors : Nat
  counts : ShipCounts
  out : Outgoing
  deriving DecidableEq, Repr

/-- The body of the loop over the entries. -/
def transferEntry (draw : Nat → UInt32) (blocksize : Nat) (t : Transfer) (dep : DirEntry) :
    CRun Transfer :=
  if dep.dType &&& dtReg ≠ 0 then do
    let (failed, counts, out) ← shipfile draw dep blocksize t.counts t.out
    pure { blocktotal := t.blocktotal + counts.blockcount
           bytetotal := t.bytetotal + counts.bytecount
           errors := if failed ≠ 0 then t.errors + 1 else t.errors
           counts, out }
  else pure t

/-- `run_file_transfer` over the entries that `readdir` gives before it ends or fails:
the totals and errors are those that go to `hipftlog`. The counts are not initialised. -/
def runFileTransfer (draw : Nat → UInt32) (blocksize : Nat) (uninitialised : ShipCounts)
    (entries : List DirEntry) (readdirFails : Bool) : CRun Transfer := do
  let t ← entries.foldlM (transferEntry draw blocksize) ⟨0, 0, 0, uninitialised, ⟨[], []⟩⟩
  pure { t with errors := if readdirFails then t.errors + 1 else t.errors }

/-! ## What is sent -/

theorem sendMsg_eq {m : Msg} (hsized : m.Sized) (hcrc : m.trail.crc = 0) :
    sendMsg m = .ok (cobsEncode m.bytes) := by
  rw [sendMsg, msgToCobs_eq hsized hcrc, ok_bind]
  simp only
  rw [readRange_of_le (by omega), List.drop_zero, List.take_length]

/-- Forming and sending a message from what lies in memory. -/
theorem formMsg_sendMsg (msgID : UInt32) (sID rID : UInt64) (chant datat : UInt8) (snum : UInt64)
    {content : Bytes} {clen : UInt32} (hclen : clen.toNat ≤ content.length) :
    ∃ m, formMsg msgID sID rID chant datat snum content clen = .ok m ∧
      sendMsg m = .ok (cobsEncode m.bytes) ∧
      Formed (formHeader msgID sID rID chant datat snum clen) (content.take clen.toNat) m := by
  obtain ⟨m, hform, hformed⟩ := formMsg_prefix msgID sID rID chant datat snum hclen
  have hsized : m.Sized := by
    apply hformed.sized
    rw [hformed.head, List.length_take]
    exact (Nat.min_eq_left hclen).symm
  have hcrc : m.trail.crc = 0 := by
    rw [hformed.trail]
    rfl
  exact ⟨m, hform, sendMsg_eq hsized hcrc, hformed⟩

/-- What is shipped is the frame of a consistent message, which is not too long. -/
theorem shipBlock_eq (msgID : UInt32) {block : Bytes} (hsize : block.length < 65536) :
    ∃ m, shipBlock msgID block = .ok (cobsEncode m.bytes) ∧ m.Stored ∧ Consistent m ∧
      m.head = formHeader msgID 0 0 0 0 0 (UInt32.ofNat block.length) ∧ m.trail = m.head ∧
      m.bytes.length = block.length + hparityBytes block.length + 144 := by
  obtain ⟨m, hform, hformed, hstored, hconsistent⟩ := formMsg_consistent msgID 0 0 0 0 0 hsize
  have hsized := hstored.sized hconsistent.lengths.parity
  have htrail : m.trail = m.head := hformed.trail.trans hformed.head.symm
  have hcrc : m.trail.crc = 0 := by
    rw [htrail]
    exact hconsistent.crc
  have hcontent : m.head.contentLength.toNat = block.length := by
    rw [← hstored.content, hformed.content]
  refine ⟨m, ?_, hstored, hconsistent, hformed.head, htrail, ?_⟩
  · rw [shipBlock, hform, ok_bind, sendMsg_eq hsized hcrc]
  · rw [hsized.bytes_length, hcontent]

end Hipft
