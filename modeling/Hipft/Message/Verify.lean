import Hipft.Message.Grammar

/-! # Verifying a message

`verify_msg` compares header and trailer field by field, checks that the lengths
belong together, checks both parities and asks for a zero checksum. The first
check that fails logs its alert.
-/

namespace Hipft

open CMemory ByteLayout

/-- The alert for a field in which header and trailer differ. -/
def mismatchAlert (field : String) (bytes : Nat) : String :=
  "hipERROR: " ++ field ++ " (" ++ toString bytes ++ " bytes) Mismatch within a Packet."

/-- The alert for two lengths that contradict each other. -/
def linkAlert (left right : String) : String :=
  "hipERROR: " ++ left ++ " Length and " ++ right ++ " Length does not link up within a Packet."

/-- Header and trailer data. Nothing compares the `mbz` fields. -/
def verifyFields (head : MsgHeader) (trail : MsgTrailer) : Option String :=
  if head.sendID ≠ trail.sendID then some (mismatchAlert "SendID" 8)
  else if head.recvID ≠ trail.recvID then some (mismatchAlert "RecvID" 8)
  else if head.msgID ≠ trail.msgID then some (mismatchAlert "MsgID" 4)
  else if head.chanType ≠ trail.chanType then some (mismatchAlert "ChanType" 1)
  else if head.dataType ≠ trail.dataType then some (mismatchAlert "DataType" 1)
  else if head.totalLength ≠ trail.totalLength then some (mismatchAlert "Total Length" 4)
  else if head.bodyLength ≠ trail.bodyLength then some (mismatchAlert "Body Length" 4)
  else if head.contentLength ≠ trail.contentLength then some (mismatchAlert "Content Length" 4)
  else if head.parityLength ≠ trail.parityLength then some (mismatchAlert "Parity Length" 4)
  else if head.segmentNum ≠ trail.segmentNum then some (mismatchAlert "Segment Number" 8)
  else if head.crc ≠ trail.crc then some (mismatchAlert "CRC" 8)
  else none

/-- The lengths of the message. `tempsize` is a `uint32`. -/
def verifyLengths (head : MsgHeader) : Option String :=
  if head.totalLength.toUInt64 ≠ calculateTotalLength head.contentLength.toUInt64 then
    some (linkAlert "Total" "Content")
  else if head.totalLength ≠
      (calculateHeaderLength + head.bodyLength.toUInt64 + calculateTrailerLength).toUInt32 then
    some (linkAlert "Total" "Body")
  else if head.parityLength.toUInt64 ≠ calculateParityLength head.contentLength.toUInt64 then
    some (linkAlert "Parity" "Content")
  else none

/-- The alert that `verify_msg` logs, if any. -/
def verifyMsgAlert (src : Msg) : CRun (Option String) :=
  match verifyFields src.head src.trail with
  | some alert => pure (some alert)
  | none =>
    match verifyLengths src.head with
    | some alert => pure (some alert)
    | none => do
      let vparity ← checkVparity src.body.content src.head.contentLength.toUInt64
        src.body.vparityData
      if !vparity then return some "hipERROR: Vertical Parity hints at an Error within a Packet."
      let hparity ← checkHparity src.body.content src.head.contentLength.toUInt64
        src.body.hparityData
      if !hparity then
        return some "hipERROR: Horizontal Parity hints at an Error within a Packet."
      if src.head.crc ≠ 0 then return some "hipERROR: CRC is messed up within a Packet."
      return none

/-- `verify_msg`. -/
def verifyMsg (src : Msg) : CRun Bool := do
  let alert ← verifyMsgAlert src
  pure alert.isNone

/-! ## What verification accepts -/

/-- Header and trailer agree in every field but `mbz`. -/
structure SameFields (head : MsgHeader) (trail : MsgTrailer) : Prop where
  sendID : head.sendID = trail.sendID
  recvID : head.recvID = trail.recvID
  msgID : head.msgID = trail.msgID
  chanType : head.chanType = trail.chanType
  dataType : head.dataType = trail.dataType
  totalLength : head.totalLength = trail.totalLength
  bodyLength : head.bodyLength = trail.bodyLength
  contentLength : head.contentLength = trail.contentLength
  parityLength : head.parityLength = trail.parityLength
  segmentNum : head.segmentNum = trail.segmentNum
  crc : head.crc = trail.crc

/-- The lengths of a header belong together. -/
structure LengthsLink (head : MsgHeader) : Prop where
  total : head.totalLength.toNat =
    head.contentLength.toNat + hparityBytes head.contentLength.toNat + 144
  body : head.totalLength.toNat = (head.bodyLength.toNat + 112) % 2 ^ 32
  parity : head.parityLength.toNat = 32 + hparityBytes head.contentLength.toNat

/-- A message that verification accepts. -/
structure Consistent (m : Msg) : Prop where
  fields : SameFields m.head m.trail
  lengths : LengthsLink m.head
  odd : ParityOdd m.body.content m.body.vparityData m.body.hparityData
  crc : m.head.crc = 0

/-- The buffers are those that the parser fills for the lengths of the header. -/
structure Msg.Stored (m : Msg) : Prop where
  content : m.body.content.length = m.head.contentLength.toNat
  vparity : m.body.vparityData.length = 4
  hparity : m.body.hparityData.length = m.head.parityLength.toNat - 32

theorem verifyFields_eq_none {head : MsgHeader} {trail : MsgTrailer} :
    verifyFields head trail = none ↔ SameFields head trail := by
  simp only [verifyFields, check_eq_none, ne_eq, not_not, and_true]
  constructor
  · rintro ⟨hsend, hrecv, hmsg, hchan, hdata, htotal, hbody, hcontent, hparity, hsegment, hcrc⟩
    exact ⟨hsend, hrecv, hmsg, hchan, hdata, htotal, hbody, hcontent, hparity, hsegment, hcrc⟩
  · rintro ⟨hsend, hrecv, hmsg, hchan, hdata, htotal, hbody, hcontent, hparity, hsegment, hcrc⟩
    exact ⟨hsend, hrecv, hmsg, hchan, hdata, htotal, hbody, hcontent, hparity, hsegment, hcrc⟩

theorem verifyLengths_eq_none {head : MsgHeader} :
    verifyLengths head = none ↔ LengthsLink head := by
  have hheader : calculateHeaderLength.toNat = 56 := rfl
  have htrailer : calculateTrailerLength.toNat = 56 := rfl
  have hbodyLength := head.bodyLength.toNat_lt
  have htotal : head.totalLength.toUInt64 = calculateTotalLength head.contentLength.toUInt64 ↔
      head.totalLength.toNat =
        head.contentLength.toNat + hparityBytes head.contentLength.toNat + 144 := by
    rw [← UInt64.toNat_inj, calculateTotalLength_toNat, UInt32.toNat_toUInt64]
  have hbody : head.totalLength =
      (calculateHeaderLength + head.bodyLength.toUInt64 + calculateTrailerLength).toUInt32 ↔
      head.totalLength.toNat = (head.bodyLength.toNat + 112) % 2 ^ 32 := by
    have hsum : (56 + head.bodyLength.toNat) % 2 ^ 64 + 56 = head.bodyLength.toNat + 112 := by
      omega
    rw [← UInt32.toNat_inj, UInt64.toNat_toUInt32, UInt64.toNat_add, UInt64.toNat_add,
      UInt32.toNat_toUInt64, hheader, htrailer, hsum,
      Nat.mod_eq_of_lt (show head.bodyLength.toNat + 112 < 2 ^ 64 by omega)]
  have hparity : head.parityLength.toUInt64 = calculateParityLength head.contentLength.toUInt64 ↔
      head.parityLength.toNat = 32 + hparityBytes head.contentLength.toNat := by
    rw [← UInt64.toNat_inj, calculateParityLength_toNat, UInt32.toNat_toUInt64]
  simp only [verifyLengths, check_eq_none, ne_eq, not_not, and_true, htotal, hbody, hparity]
  exact ⟨fun ⟨htotal, hbody, hparity⟩ => ⟨htotal, hbody, hparity⟩,
    fun ⟨htotal, hbody, hparity⟩ => ⟨htotal, hbody, hparity⟩⟩

/-- `verify_msg` ends without leaving the buffers of the message, and accepts
the consistent ones. -/
theorem verifyMsg_eq {m : Msg} (hstored : m.Stored) :
    ∃ accepts, verifyMsg m = .ok accepts ∧ (accepts = true ↔ Consistent m) := by
  rw [verifyMsg, verifyMsgAlert]
  cases hfields : verifyFields m.head m.trail with
  | some alert =>
      refine ⟨false, rfl, by simp, fun hgood => ?_⟩
      rw [verifyFields_eq_none.mpr hgood.fields] at hfields
      cases hfields
  | none =>
      cases hlengths : verifyLengths m.head with
      | some alert =>
          refine ⟨false, rfl, by simp, fun hgood => ?_⟩
          rw [verifyLengths_eq_none.mpr hgood.lengths] at hlengths
          cases hlengths
      | none =>
          have hsame := verifyFields_eq_none.mp hfields
          have hlink := verifyLengths_eq_none.mp hlengths
          have hlen : m.head.contentLength.toUInt64.toNat = m.body.content.length := by
            rw [UInt32.toNat_toUInt64, hstored.content]
          obtain ⟨columns, hcolumns, hcolumnsIff⟩ := checkVparity_eq hlen hstored.vparity
          have hroom : (computeHparityLength m.head.contentLength.toUInt64).toNat ≤
              m.body.hparityData.length := by
            rw [computeHparityLength_eq, hstored.hparity, hlink.parity]
            omega
          obtain ⟨rows, hrows, hrowsIff⟩ := checkHparity_eq hlen hroom
          rw [computeHparityWords_toNat, hlen] at hrowsIff
          simp only [hcolumns, hrows, ok_bind]
          have hodd : ParityOdd m.body.content m.body.vparityData m.body.hparityData ↔
              columns = true ∧ rows = true := by
            rw [hcolumnsIff, hrowsIff]
            exact ⟨fun hodd => ⟨hodd.columns, hodd.rows⟩, fun h => ⟨h.1, h.2⟩⟩
          have hgood : Consistent m ↔ (columns = true ∧ rows = true) ∧ m.head.crc = 0 := by
            rw [← hodd]
            exact ⟨fun hgood => ⟨hgood.odd, hgood.crc⟩, fun h => ⟨hsame, hlink, h.1, h.2⟩⟩
          rw [hgood]
          cases columns with
          | false => exact ⟨false, rfl, by simp⟩
          | true =>
              cases rows with
              | false => exact ⟨false, rfl, by simp⟩
              | true =>
                  by_cases hcrc : m.head.crc = 0
                  · exact ⟨true, by simp [hcrc], by simp [hcrc]⟩
                  · exact ⟨false, by simp [hcrc], by simp [hcrc]⟩

theorem verifyMsg_iff {m : Msg} (hstored : m.Stored) :
    verifyMsg m = .ok true ↔ Consistent m := by
  obtain ⟨accepts, hrun, haccepts⟩ := verifyMsg_eq hstored
  rw [hrun, Except.ok.injEq, haccepts]

/-! ## Parsed and formed messages -/

theorem stored_parsedMsg {b : Bytes} {len : Nat} (hlen : len ≤ b.length)
    (hfits : Fits (MsgHeader.ofBytes (slice b 0 56)) len) : (parsedMsg b).Stored := by
  have htotal := hfits.total
  have hparity := hfits.parity.1
  refine ⟨slice_length (by omega), by simp [parsedMsg, bodyAt, vparityWords], ?_⟩
  exact slice_length (by omega)

theorem stored_of_msgFromBytes {b : Bytes} {len : UInt64} {m : Msg} (hmem : len.toNat ≤ b.length)
    (hparse : msgFromBytes b len = .ok (some m)) : m.Stored := by
  rw [msgFromBytes_eq hmem] at hparse
  split at hparse
  next hfits =>
    cases hparse
    exact stored_parsedMsg hmem hfits
  next => cases hparse

/-- Where the lengths contradict each other no buffer of the body is read. -/
theorem verifyMsg_unlinked {m : Msg} (hlengths : ¬ LengthsLink m.head) (body : MsgBody) :
    verifyMsg { m with body } = .ok false := by
  rw [verifyMsg, verifyMsgAlert]
  cases hfields : verifyFields m.head m.trail with
  | some alert => rfl
  | none =>
      cases hlinks : verifyLengths m.head with
      | some alert => rfl
      | none => exact absurd (verifyLengths_eq_none.mp hlinks) hlengths

/-- Verifying a parsed message reads inside the buffers that the parser filled. Where the
parity bytes would not do for the content, it ends with a length mismatch, and would on
any buffers. -/
theorem verifyMsg_inBounds {b : Bytes} {len : UInt64} {m : Msg} (hmem : len.toNat ≤ b.length)
    (hparse : msgFromBytes b len = .ok (some m)) :
    (m.body.content.length = m.head.contentLength.toNat ∧ m.body.vparityData.length = 4 ∧
      m.body.hparityData.length = m.head.parityLength.toNat - 32) ∧
    (∃ accepts, verifyMsg m = .ok accepts) ∧
    (m.head.parityLength.toNat - 32 <
        (computeHparityLength m.head.contentLength.toUInt64).toNat →
      ∀ body, verifyMsg { m with body } = .ok false) := by
  have hstored := stored_of_msgFromBytes hmem hparse
  obtain ⟨accepts, hrun, -⟩ := verifyMsg_eq hstored
  refine ⟨⟨hstored.content, hstored.vparity, hstored.hparity⟩, ⟨accepts, hrun⟩, ?_⟩
  intro hshort
  apply verifyMsg_unlinked
  intro hlink
  rw [computeHparityLength_eq, hlink.parity, Nat.add_sub_cancel_left] at hshort
  exact Nat.lt_irrefl _ hshort

/-- A message of one content byte and no horizontal parity. -/
theorem verifyMsg_inBounds_short :
    ∃ m : Msg, msgFromBytes (List.replicate 19 0 ++ 1 :: (List.replicate 3 0 ++
        32 :: List.replicate 121 0)) 145 = .ok (some m) ∧
      (m.body.content.length = m.head.contentLength.toNat ∧
        m.body.vparityData.length = 4 ∧
        m.body.hparityData.length = m.head.parityLength.toNat - 32) ∧
      (∃ accepts, verifyMsg m = .ok accepts) ∧
      (m.head.parityLength.toNat - 32 <
          (computeHparityLength m.head.contentLength.toUInt64).toNat →
        ∀ body, verifyMsg { m with body } = .ok false) := by
  have hrun : ∃ m, msgFromBytes (List.replicate 19 0 ++ 1 :: (List.replicate 3 0 ++
      32 :: List.replicate 121 0)) 145 = .ok (some m) := by
    rw [msgFromBytes_eq (by decide +kernel), if_pos (by decide +kernel)]
    exact ⟨_, rfl⟩
  obtain ⟨m, hparse⟩ := hrun
  exact ⟨m, hparse, verifyMsg_inBounds (by decide +kernel) hparse⟩

theorem lengthsLink_formHeader (msgID : UInt32) (sID rID : UInt64) (chant datat : UInt8)
    (snum : UInt64) {clen : UInt32} (hclen : clen.toNat < 65536) :
    LengthsLink (formHeader msgID sID rID chant datat snum clen) := by
  have hsmall : hparityBytes clen.toNat < 65536 := by
    unfold hparityBytes
    omega
  constructor
  · simp only [formHeader, UInt64.toNat_toUInt32, calculateTotalLength_toNat]
    omega
  · simp only [formHeader, UInt64.toNat_toUInt32, calculateTotalLength_toNat,
      calculateBodyLength_toNat]
    omega
  · simp only [formHeader, UInt64.toNat_toUInt32, calculateParityLength_toNat]
    omega

theorem sameFields_refl (head : MsgHeader) : SameFields head head := by
  constructor <;> rfl

/-- Forming a message of less than 64 KiB gives one that verification accepts. -/
theorem formMsg_consistent (msgID : UInt32) (sID rID : UInt64) (chant datat : UInt8)
    (snum : UInt64) {content : Bytes} (hsize : content.length < 65536) :
    ∃ m, formMsg msgID sID rID chant datat snum content (UInt32.ofNat content.length) = .ok m ∧
      Formed (formHeader msgID sID rID chant datat snum (UInt32.ofNat content.length)) content m ∧
      m.Stored ∧ Consistent m := by
  have hclen : (UInt32.ofNat content.length).toNat = content.length := by
    rw [UInt32.toNat_ofNat', Nat.mod_eq_of_lt (by omega)]
  obtain ⟨m, hform, hformed⟩ := formMsg_eq msgID sID rID chant datat snum hclen
  have hlink := lengthsLink_formHeader msgID sID rID chant datat snum (hclen ▸ hsize)
  refine ⟨m, hform, hformed, ⟨?_, hformed.vparity, ?_⟩, ⟨?_, ?_, hformed.odd, ?_⟩⟩
  · rw [hformed.content, hformed.head]
    exact hclen.symm
  · have hcontent : (formHeader msgID sID rID chant datat snum
        (UInt32.ofNat content.length)).contentLength.toNat = content.length := hclen
    rw [hformed.hparity, hformed.head, hlink.parity, hcontent, Nat.add_sub_cancel_left]
  · rw [hformed.head, hformed.trail]
    exact sameFields_refl _
  · rw [hformed.head]
    exact hlink
  · rw [hformed.head]
    rfl

/-! ## What a message looks like that was formed -/

/-- The message is the formed one but for bits that no check looks at: the `mbz` of both its
ends, the bits of a vertical word that stand for the same column, of which any can be set, and
the horizontal bits behind the last word of the content. -/
structure Resembles (formed m : Msg) : Prop where
  head : m.head = { formed.head with mbz := m.head.mbz }
  trail : m.trail = { formed.trail with mbz := m.trail.mbz }
  content : m.body.content = formed.body.content
  columns : ∀ w < 4, ∀ c < 32, storedColumn (m.body.vparityData.getD w 0) c =
    storedColumn (formed.body.vparityData.getD w 0) c
  rows : ∀ w < (formed.body.content.length + 3) / 4,
    BitString.bitAt m.body.hparityData w = BitString.bitAt formed.body.hparityData w

/-- It is what `form_msg` makes of a content below 64 KiB, but for such bits. -/
def FormedBut (m : Msg) : Prop :=
  ∃ (msgID : UInt32) (sID rID : UInt64) (chant datat : UInt8) (snum : UInt64) (content : Bytes)
    (formed : Msg), content.length < 65536 ∧
      formMsg msgID sID rID chant datat snum content (UInt32.ofNat content.length) = .ok formed ∧
      Resembles formed m

theorem SameFields.trail_eq {head : MsgHeader} {trail : MsgTrailer}
    (hfields : SameFields head trail) : trail = { head with mbz := trail.mbz } := by
  obtain ⟨hsend, hrecv, hmsg, hchan, hdata, htotal, hbody, hcontent, hparity, hsegment, hcrc⟩ :=
    hfields
  rw [hsend, hrecv, hmsg, hchan, hdata, htotal, hbody, hcontent, hparity, hsegment, hcrc]

/-- The lengths of a header are those that `form_msg` computes. -/
theorem LengthsLink.head_eq {head : MsgHeader} (hlink : LengthsLink head)
    (hsize : head.contentLength.toNat < 65536) (hcrc : head.crc = 0) :
    head = { formHeader head.msgID head.sendID head.recvID head.chanType head.dataType
      head.segmentNum head.contentLength with mbz := head.mbz } := by
  obtain ⟨htotal, hbody, hparity⟩ := hlink
  obtain ⟨htotal', hbody', hparity'⟩ := lengthsLink_formHeader head.msgID head.sendID head.recvID
    head.chanType head.dataType head.segmentNum hsize
  have htotalLength : head.totalLength = (formHeader head.msgID head.sendID head.recvID
      head.chanType head.dataType head.segmentNum head.contentLength).totalLength :=
    UInt32.toNat_inj.mp (htotal.trans htotal'.symm)
  have hbodyLength : head.bodyLength = (formHeader head.msgID head.sendID head.recvID
      head.chanType head.dataType head.segmentNum head.contentLength).bodyLength := by
    have hlt := head.bodyLength.toNat_lt
    have hlt' := (formHeader head.msgID head.sendID head.recvID head.chanType head.dataType
      head.segmentNum head.contentLength).bodyLength.toNat_lt
    rw [← htotalLength] at hbody'
    exact UInt32.toNat_inj.mp (by omega)
  have hparityLength : head.parityLength = (formHeader head.msgID head.sendID head.recvID
      head.chanType head.dataType head.segmentNum head.contentLength).parityLength :=
    UInt32.toNat_inj.mp (hparity.trans hparity'.symm)
  exact SameFields.trail_eq ⟨rfl, rfl, rfl, rfl, rfl, htotalLength.symm, hbodyLength.symm, rfl,
    hparityLength.symm, rfl, hcrc.symm⟩

/-- Verification accepts what resembles a formed message, and nothing else. -/
theorem consistent_iff_formedBut {m : Msg} (hsize : m.head.contentLength.toNat < 65536)
    (hcontent : m.body.content.length = m.head.contentLength.toNat) :
    Consistent m ↔ FormedBut m := by
  constructor
  · rintro ⟨hfields, hlengths, hodd, hcrc⟩
    have hclen : UInt32.ofNat m.body.content.length = m.head.contentLength := by
      rw [hcontent, UInt32.ofNat_toNat]
    obtain ⟨formed, hform, hformed, -, hgood⟩ := formMsg_consistent m.head.msgID m.head.sendID
      m.head.recvID m.head.chanType m.head.dataType m.head.segmentNum
      (show m.body.content.length < 65536 by omega)
    refine ⟨m.head.msgID, m.head.sendID, m.head.recvID, m.head.chanType, m.head.dataType,
      m.head.segmentNum, m.body.content, formed, by omega, hform, ?_, ?_, hformed.content.symm,
      ?_, ?_⟩
    · rw [hformed.head, hclen]
      exact hlengths.head_eq hsize hcrc
    · have htrail := hfields.trail_eq
      rw [hlengths.head_eq hsize hcrc] at htrail
      rw [hformed.trail, hclen]
      exact htrail
    · intro w hw c hc
      have hsum := (hodd.columns w hw c hc).trans (hgood.odd.columns w hw c hc).symm
      rw [hformed.content] at hsum
      exact add_left_cancel hsum
    · intro w hw
      rw [hformed.content] at hw
      have hsum := (hodd.rows w hw).trans (hgood.odd.rows w (hformed.content.symm ▸ hw)).symm
      rw [hformed.content] at hsum
      exact add_left_cancel hsum
  · rintro ⟨msgID, sID, rID, chant, datat, snum, content, formed, hshort, hform, hlike⟩
    obtain ⟨formed', hform', hformed, -, hgood⟩ :=
      formMsg_consistent msgID sID rID chant datat snum hshort
    obtain rfl : formed = formed' := Except.ok.inj (hform.symm.trans hform')
    obtain ⟨hhead, htrail, hsame, hcolumns, hrows⟩ := hlike
    have hfields := hgood.fields
    have hlengths := hgood.lengths
    have hcrc := hgood.crc
    refine ⟨?_, ?_, ⟨?_, ?_⟩, ?_⟩
    · rw [hhead, htrail]
      exact ⟨hfields.sendID, hfields.recvID, hfields.msgID, hfields.chanType, hfields.dataType,
        hfields.totalLength, hfields.bodyLength, hfields.contentLength, hfields.parityLength,
        hfields.segmentNum, hfields.crc⟩
    · rw [hhead]
      exact ⟨hlengths.total, hlengths.body, hlengths.parity⟩
    · intro w hw c hc
      rw [hsame, hcolumns w hw c hc]
      exact hgood.odd.columns w hw c hc
    · intro w hw
      rw [hsame] at hw ⊢
      rw [hrows w hw]
      exact hgood.odd.rows w hw
    · rw [hhead]
      exact hcrc

end Hipft
