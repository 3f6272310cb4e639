import Hipft.Client.Transfer
import Hipft.Foundation.BitString

/-! # Differences between header and trailer

The Hamming distance is taken over both structures, and it is taken only where the
comparison before it finds a difference. That comparison ends with the first four fields.
-/

namespace Hipft

open CMemory ByteLayout BitString

/-! ## The Hamming distance -/

theorem hdTable_eq (byte : UInt8) :
    hdTable.getD byte.toNat 0 =
      ((Finset.range 8).filter fun k => byte.toNat.testBit k = true).card := by
  have hall : ∀ n : Fin 256, hdTable.getD n.val 0 =
      ((Finset.range 8).filter fun k => n.val.testBit k = true).card := by decide +kernel
  exact hall ⟨byte.toNat, byte.toNat_lt⟩

/-- After `l` passes the sum is that of the table entries. -/
theorem foldl_hdcmpPass (b1 b2 : Bytes) (l : Nat) :
    ((List.range l).foldl (fun (state : Nat × Bytes) i =>
      (state.1 + hdTable.getD (b1.getD i 0 ^^^ b2.getD i 0).toNat 0,
        state.2 ++ [b1.getD i 0 ^^^ b2.getD i 0])) (0, [])).1 =
      ∑ i ∈ Finset.range l, hdTable.getD (b1.getD i 0 ^^^ b2.getD i 0).toNat 0 := by
  induction l with
  | zero => rfl
  | succ l ih => rw [List.range_succ, List.foldl_append, Finset.sum_range_succ, ← ih]; rfl

/-- `hdcmp` counts the bits in which its buffers differ. -/
theorem hdcmp_distance {b1 b2 : Bytes} {l : Nat} (h1 : b1.length = l) (h2 : b2.length = l) :
    ∃ xorbuf, hdcmp b1 b2 l = .ok ((differing b1 b2).card, xorbuf) := by
  rw [hdcmp_eq h1 h2, card_differing h1 h2]
  refine ⟨_, congrArg Except.ok (Prod.ext ?_ rfl)⟩
  rw [foldl_hdcmpPass]
  apply Finset.sum_congr rfl
  intro i _
  rw [hdTable_eq]
  simp only [byteBit_ne_iff]

/-! ## The comparison -/

/-- The fields in the first eight bytes are the same. -/
structure SameFront (head : MsgHeader) (trail : MsgTrailer) : Prop where
  mbz : head.mbz = trail.mbz
  chanType : head.chanType = trail.chanType
  dataType : head.dataType = trail.dataType
  msgID : head.msgID = trail.msgID

theorem MsgHeader.memory_inj {head trail : MsgHeader} :
    head.memory = trail.memory ↔ head = trail := by
  constructor
  · intro hsame
    rw [← head.ofMemory_memory, hsame, MsgHeader.ofMemory_memory]
  · exact congrArg MsgHeader.memory

theorem sameFront_iff {head : MsgHeader} {trail : MsgTrailer} :
    head.memory.take 8 = trail.memory.take 8 ↔ SameFront head trail := by
  rw [MsgHeader.memory_take, MsgHeader.memory_take]
  constructor
  · intro hsame
    obtain ⟨hmbz, hrest⟩ := List.append_inj hsame (by simp)
    obtain ⟨hchan, hrest⟩ := List.append_inj hrest (by simp)
    obtain ⟨hdata, hmsgID⟩ := List.append_inj hrest (by simp)
    rw [leBytes_inj head.mbz.toNat_lt trail.mbz.toNat_lt] at hmbz
    rw [leBytes_inj head.chanType.toNat_lt trail.chanType.toNat_lt] at hchan
    rw [leBytes_inj head.dataType.toNat_lt trail.dataType.toNat_lt] at hdata
    rw [leBytes_inj head.msgID.toNat_lt trail.msgID.toNat_lt] at hmsgID
    exact ⟨UInt16.toNat_inj.mp hmbz, UInt8.toNat_inj.mp hchan, UInt8.toNat_inj.mp hdata,
      UInt32.toNat_inj.mp hmsgID⟩
  · rintro ⟨hmbz, hchan, hdata, hmsgID⟩
    rw [hmbz, hchan, hdata, hmsgID]

/-- A line of the log says that header and trailer differ. -/
def Reported (entries : List LogEntry) : Prop := ∃ entry ∈ entries, entry.subtype = .headTrail

/-- A message within the ranges is reported where the first four fields of header and
trailer differ, with the distance over all of them. So a difference is always reported
exactly when it reaches these fields. -/
theorem validateMessage_headTrail {m : Msg} {len : Nat} (chunkcount : Nat)
    (hrange : validateRanges m.head len = none) :
    ∃ entries, validateMessage m chunkcount len = .ok (true, entries) ∧
      (((Reported entries ↔ m.head.memory ≠ m.trail.memory) ∧
          ∀ entry ∈ entries, entry.subtype = .headTrail → entry.specific =
            .hammingDistance (differing m.head.memory m.trail.memory).card) ↔
        (SameFront m.head m.trail → m.head = m.trail)) := by
  rw [← sameFront_iff, ← MsgHeader.memory_inj, validateMessage, hrange]
  by_cases hfront : m.head.memory.take 8 = m.trail.memory.take 8
  · simp only [if_neg (not_not.mpr hfront)]
    refine ⟨[], rfl, ?_⟩
    simp [Reported, hfront]
  · obtain ⟨xorbuf, hdistance⟩ := hdcmp_distance m.head.memory_length
      (MsgHeader.memory_length m.trail)
    have hdiffer : m.head.memory ≠ m.trail.memory := by
      intro hsame
      exact hfront (congrArg (List.take 8) hsame)
    simp only [if_pos hfront, hdistance, ok_bind]
    refine ⟨_, rfl, ?_⟩
    simp [Reported, hfront, hdiffer]

/-- The bytes of an empty message whose trailer is all zero: it differs from the header
in the lengths only. -/
def zeroTrailerBytes : Bytes :=
  List.replicate 11 0 ++ 144 :: (List.replicate 11 0 ++ 32 :: List.replicate 120 0)

theorem validateMessage_headTrail_lengths :
    ∃ entries, validateMessage (parsedMsg zeroTrailerBytes) 1 144 = .ok (true, entries) ∧
      (((Reported entries ↔ (parsedMsg zeroTrailerBytes).head.memory ≠
            (parsedMsg zeroTrailerBytes).trail.memory) ∧
          ∀ entry ∈ entries, entry.subtype = .headTrail → entry.specific =
            .hammingDistance (differing (parsedMsg zeroTrailerBytes).head.memory
              (parsedMsg zeroTrailerBytes).trail.memory).card) ↔
        (SameFront (parsedMsg zeroTrailerBytes).head (parsedMsg zeroTrailerBytes).trail →
          (parsedMsg zeroTrailerBytes).head = (parsedMsg zeroTrailerBytes).trail)) :=
  validateMessage_headTrail 1 (by decide +kernel)

/-- Such a message parses and passes the range checks, and no difference is reported. -/
theorem validateMessage_headTrail_unreported :
    ¬ ∀ (bytes : Bytes) (n : Nat) (m : Msg), msgFromBytes bytes (UInt64.ofNat n) = .ok (some m) →
      validateRanges m.head n = none →
      ∀ entries, validateMessage m 1 n = .ok (true, entries) →
        (Reported entries ↔ m.head.memory ≠ m.trail.memory) := by
  intro hevery
  have hparse : msgFromBytes zeroTrailerBytes 144 = .ok (some (parsedMsg zeroTrailerBytes)) := by
    rw [msgFromBytes_eq (by decide +kernel), if_pos (by decide +kernel)]
  have hsilent : validateMessage (parsedMsg zeroTrailerBytes) 1 144 = .ok (true, []) := by
    decide +kernel
  have hreported := hevery zeroTrailerBytes 144 _ hparse (by decide +kernel) [] hsilent
  obtain ⟨entry, hmem, -⟩ := hreported.mpr (by decide +kernel)
  cases hmem

end Hipft
