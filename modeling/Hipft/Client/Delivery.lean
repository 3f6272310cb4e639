import Hipft.Client.Transfer
import Hipft.Server.TransferLog

/-! # Delivery

What `run_file_transfer` writes for a directory, read by the client up to any byte. A
file goes out as its full blocks, and what is left of it behind them is not sent.
-/

namespace Hipft

open CMemory ByteLayout Stuffing

/-! ## Messages that count -/

/-- The frame of the message counts, and nothing is logged for it. -/
def CountedSilently (m : Msg) : Prop :=
  ∃ chunk, cobsEncode m.bytes = chunk ++ [specialChar] ∧ specialChar ∉ chunk ∧
    chunk.length < blockInitialSize ∧ ∀ heap chunkcount,
      handleChunk heap chunkcount (chunkBuffer chunk) chunk.length = .ok (true, [])

/-- What the messages are on the wire. -/
def wireOf (sent : List Msg) : Bytes := sent.flatMap fun m => cobsEncode m.bytes

/-- What the messages carry. -/
def contentOf (sent : List Msg) : Bytes := sent.flatMap fun m => m.body.content

/-- The full blocks of a file. -/
def fullBlocks (blocksize : Nat) (file : Bytes) : Bytes :=
  file.take (blocksize * (file.length / blocksize))

/-- What a transfer has sent behind what it had sent before: messages that count silently
and carry the content. -/
def Ships (out out' : Outgoing) (content : Bytes) : Prop :=
  ∃ msgs, out' = ⟨out.sent ++ msgs, out.wire ++ wireOf msgs⟩ ∧ contentOf msgs = content ∧
    ∀ m ∈ msgs, CountedSilently m

namespace Ships

variable {out middle out' : Outgoing} {content content' : Bytes}

theorem refl (out : Outgoing) : Ships out out [] :=
  ⟨[], by simp [wireOf], rfl, List.forall_mem_nil _⟩

theorem trans (hfront : Ships out middle content) (hback : Ships middle out' content') :
    Ships out out' (content ++ content') := by
  obtain ⟨front, rfl, rfl, hfront⟩ := hfront
  obtain ⟨back, rfl, rfl, hback⟩ := hback
  refine ⟨front ++ back, ?_, ?_, List.forall_mem_append.mpr ⟨hfront, hback⟩⟩
  · simp [wireOf]
  · simp [contentOf]

end Ships

/-! ## What is sent -/

section Sending

variable (draw : Nat → UInt32)

theorem shipfilePass_ships {databuf : Bytes} (hsize : databuf.length ≤ hipftBlockSize)
    (counts : ShipCounts) (out : Outgoing) :
    ∃ counts' out', shipfilePass draw databuf counts out = .ok (counts', out') ∧
      Ships out out' databuf := by
  have hblock : hipftBlockSize = 4096 := rfl
  obtain ⟨m, hform, hformed, hstored, hconsistent⟩ :=
    formMsg_consistent (draw out.sent.length) 0 0 0 0 0 (show databuf.length < 65536 by omega)
  have hcrc : m.trail.crc = 0 := by
    rw [hformed.trail]
    rfl
  have hsend := sendMsg_eq (hstored.sized hconsistent.lengths.parity) hcrc
  obtain ⟨chunk, hship, hsilent⟩ := shipBlock_silent (draw out.sent.length) hsize
  rw [shipBlock, hform, ok_bind, hsend, Except.ok.injEq] at hship
  refine ⟨⟨counts.blockcount + 1, counts.bytecount + databuf.length⟩,
    ⟨out.sent ++ [m], out.wire ++ wireOf [m]⟩, ?_, [m], rfl, ?_, ?_⟩
  · rw [shipfilePass, hform, ok_bind, hsend, ok_bind, pure_eq_ok, wireOf, List.flatMap_singleton]
  · rw [contentOf, List.flatMap_singleton, hformed.content]
  · rw [List.forall_mem_singleton]
    exact ⟨chunk, hship, hsilent⟩

/-- The loop sends the full blocks. -/
theorem shipfileLoop_ships {blocksize : Nat} (hpos : 0 < blocksize)
    (hsize : blocksize ≤ hipftBlockSize) {fuel : Nat} {fp : Bytes} (hfuel : fp.length < fuel)
    (counts : ShipCounts) (out : Outgoing) :
    ∃ counts' out', shipfileLoop draw blocksize fuel fp counts out = .ok (counts', out') ∧
      Ships out out' (fullBlocks blocksize fp) := by
  induction fuel generalizing fp counts out with
  | zero => omega
  | succ fuel ih =>
      rw [shipfileLoop]
      by_cases hshort : fp.length < blocksize
      · rw [if_pos hshort, fullBlocks, Nat.div_eq_of_lt hshort]
        exact ⟨counts, out, rfl, .refl out⟩
      have hblock : (fp.take blocksize).length = blocksize := by
        rw [List.length_take]
        omega
      have hrest : (fp.drop blocksize).length < fuel := by
        rw [List.length_drop]
        omega
      obtain ⟨counts', out', hpass, hfirst⟩ :=
        shipfilePass_ships draw (show (fp.take blocksize).length ≤ _ by omega) counts out
      obtain ⟨counts'', out'', hloop, hback⟩ := ih hrest counts' out'
      refine ⟨counts'', out'', ?_, ?_⟩
      · rw [if_neg hshort, hpass, ok_bind]
        exact hloop
      · have hdiv : fp.length / blocksize = (fp.drop blocksize).length / blocksize + 1 := by
          rw [List.length_drop, ← Nat.div_eq_sub_div hpos (by omega)]
        have hfull : fullBlocks blocksize fp =
            fp.take blocksize ++ fullBlocks blocksize (fp.drop blocksize) := by
          rw [fullBlocks, hdiv, Nat.mul_succ, Nat.add_comm, List.take_add]
          rfl
        rw [hfull]
        exact hfirst.trans hback

theorem transferEntry_ships {blocksize : Nat} (hpos : 0 < blocksize)
    (hsize : blocksize ≤ hipftBlockSize) (t : Transfer) (e : DirEntry) :
    ∃ t', transferEntry draw blocksize t e = .ok t' ∧
      Ships t.out t'.out (e.shipped.elim [] (fullBlocks blocksize)) := by
  unfold transferEntry
  by_cases hregular : e.dType &&& dtReg ≠ 0
  case neg =>
    have hnone : e.shipped = none := if_neg fun hships => hregular hships.1
    rw [if_neg hregular, hnone]
    exact ⟨t, rfl, .refl t.out⟩
  rw [if_pos hregular]
  by_cases hhidden : e.dName.headD 0 = 0 ∨ e.dName.headD 0 = '.'.toUInt8
  · have hnone : e.shipped = none := if_neg fun hships => hships.2 hhidden
    rw [shipfile, if_pos hhidden, hnone]
    exact ⟨_, rfl, .refl t.out⟩
  rw [shipfile, if_neg hhidden]
  cases hfile : e.file with
  | none =>
      have hnone : e.shipped = none := by
        rw [DirEntry.shipped, hfile, ite_self]
      rw [hnone]
      exact ⟨_, rfl, .refl t.out⟩
  | some fp =>
      have hshipped : e.shipped = some fp := DirEntry.shipped_eq_some.mpr ⟨hregular, hhidden, hfile⟩
      obtain ⟨counts, out, hloop, hships⟩ :=
        shipfileLoop_ships draw hpos hsize (Nat.lt_succ_self fp.length) ⟨0, 0⟩ t.out
      simp only [hloop, ok_bind]
      rw [hshipped]
      exact ⟨_, rfl, hships⟩

theorem foldlM_transferEntry_ships {blocksize : Nat} (hpos : 0 < blocksize)
    (hsize : blocksize ≤ hipftBlockSize) (entries : List DirEntry) (t : Transfer) :
    ∃ t', entries.foldlM (transferEntry draw blocksize) t = .ok t' ∧
      Ships t.out t'.out ((entries.filterMap DirEntry.shipped).flatMap (fullBlocks blocksize)) := by
  induction entries generalizing t with
  | nil => exact ⟨t, rfl, .refl t.out⟩
  | cons e rest ih =>
      obtain ⟨middle, hentry, hfirst⟩ := transferEntry_ships draw hpos hsize t e
      obtain ⟨t', hrun, hrest⟩ := ih middle
      refine ⟨t', ?_, ?_⟩
      · rw [List.foldlM_cons, hentry, ok_bind, hrun]
      · have hboth := hfirst.trans hrest
        cases hshipped : e.shipped with
        | none =>
            rw [List.filterMap_cons_none hshipped]
            rwa [hshipped] at hboth
        | some file =>
            rw [List.filterMap_cons_some hshipped, List.flatMap_cons]
            rwa [hshipped] at hboth

end Sending

/-! ## What is read -/

/-- Of messages that count silently, the reader has counted those that have arrived to
their delimiter. -/
theorem foldlM_readByte_cut (heap : Heap) {msgs : List Msg} (hmsgs : ∀ m ∈ msgs, CountedSilently m)
    {received : Bytes} (hcut : received <+: wireOf msgs) (chunkcount blockcount : Nat)
    (log : List LogEntry) :
    ∃ r, received.foldlM (readByte heap) (Reader.fresh chunkcount blockcount log) = .ok r ∧
      r.blockcount = blockcount + received.count specialChar ∧ r.log = log := by
  induction msgs generalizing received chunkcount blockcount with
  | nil =>
      rw [List.prefix_nil.mp hcut]
      exact ⟨_, rfl, rfl, rfl⟩
  | cons m msgs ih =>
      rw [List.forall_mem_cons] at hmsgs
      obtain ⟨⟨chunk, hencode, hfree, hshort, hsilent⟩, hrest⟩ := hmsgs
      rw [wireOf, List.flatMap_cons, hencode, List.append_assoc, List.singleton_append] at hcut
      rcases Delimited.prefix_chunk_cases hcut with hpart | ⟨back, hback, rfl⟩
      · -- The cut is inside the first frame.
        have hnone : specialChar ∉ received := fun hmem => hfree (hpart.subset hmem)
        refine ⟨_, foldlM_readByte_chunk heap chunkcount blockcount log [] hnone ?_, ?_, rfl⟩
        · rw [List.length_nil, Nat.zero_add]
          exact Nat.lt_of_le_of_lt hpart.length_le hshort
        · rw [List.count_eq_zero_of_not_mem hnone]
          rfl
      · obtain ⟨r, hr, hcount, hlog⟩ := ih hrest hback (chunkcount + 1) (blockcount + 1)
        rw [foldlM_readByte_frame heap chunkcount blockcount log hfree hshort, hsilent, ok_bind]
        simp only [if_true, List.append_nil]
        refine ⟨r, hr, ?_, hlog⟩
        rw [hcount, List.count_append, List.count_eq_zero_of_not_mem hfree, List.count_cons_self]
        omega

theorem count_wireOf {msgs : List Msg} (hmsgs : ∀ m ∈ msgs, CountedSilently m) :
    (wireOf msgs).count specialChar = msgs.length := by
  induction msgs with
  | nil => rfl
  | cons m msgs ih =>
      rw [List.forall_mem_cons] at hmsgs
      obtain ⟨⟨chunk, hencode, hfree, -⟩, hrest⟩ := hmsgs
      have hback : (msgs.flatMap fun m => cobsEncode m.bytes).count specialChar = msgs.length :=
        ih hrest
      rw [wireOf, List.flatMap_cons, hencode, List.count_append, hback, List.count_append,
        List.count_eq_zero_of_not_mem hfree, List.count_singleton_self, List.length_cons]
      omega

/-- Whatever is in a directory, what is sent for it are the full blocks of its files in
their order. A client that has read the stream up to any byte has counted the messages
whose delimiters it has seen and logged nothing, so all of them at the end. -/
theorem runFileTransfer_delivers (draw : Nat → UInt32) (uninitialised : ShipCounts)
    (entries : List DirEntry) (readdirFails : Bool) :
    ∃ t, runFileTransfer draw hipftBlockSize uninitialised entries readdirFails = .ok t ∧
      contentOf t.out.sent =
        (entries.filterMap DirEntry.shipped).flatMap (fullBlocks hipftBlockSize) ∧
      t.out.wire = wireOf t.out.sent ∧ t.out.wire.count specialChar = t.out.sent.length ∧
      ∀ heap cut, readBlocks heap (t.out.wire.take cut) =
        .ok ((t.out.wire.take cut).count specialChar, []) := by
  obtain ⟨t, hrun, msgs, hout, hcontent, hmsgs⟩ := foldlM_transferEntry_ships draw
    (show 0 < hipftBlockSize by decide) (Nat.le_refl _) entries ⟨0, 0, 0, uninitialised, ⟨[], []⟩⟩
  obtain ⟨hsent, hwire⟩ : t.out.sent = msgs ∧ t.out.wire = wireOf msgs := by
    rw [hout]
    exact ⟨rfl, rfl⟩
  refine ⟨{ t with errors := if readdirFails then t.errors + 1 else t.errors }, ?_, ?_, ?_, ?_, ?_⟩
  · rw [runFileTransfer, hrun]
    rfl
  · rw [← hsent] at hcontent
    exact hcontent
  · rw [← hsent] at hwire
    exact hwire
  · have hcount := count_wireOf hmsgs
    rw [← hwire, ← hsent] at hcount
    exact hcount
  · intro heap cut
    have hcut : t.out.wire.take cut <+: wireOf msgs := hwire ▸ List.take_prefix cut _
    obtain ⟨r, hr, hcount, hlog⟩ := foldlM_readByte_cut heap hmsgs hcut 0 0 []
    change readBlocks heap (t.out.wire.take cut) = _
    rw [readBlocks, hr, ok_bind, hcount, hlog, Nat.zero_add]
    rfl

end Hipft
