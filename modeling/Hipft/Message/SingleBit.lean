import Hipft.Message.Detection

/-! # Flipping one bit of a message

A flipped bit lies in the header, the content, one of the parities or the
trailer, and each region is protected by a check of its own. The bits that no
check protects are those of the `mbz` fields, the parity bits of rows that do
not exist, and the many copies of the parity bit of column 31.
-/

namespace Hipft

open CMemory ByteLayout BitString ParityCheck

/-! ## Rejection -/

/-- The parser ends without a message, or verification refuses the message. -/
def Rejected (b : Bytes) : Prop :=
  ∃ r, msgFromBytes b (UInt64.ofNat b.length) = .ok r ∧
    ∀ m, r = some m → verifyMsg m = .ok false

theorem rejected_iff {b : Bytes} (hlength : b.length < 2 ^ 64) :
    Rejected b ↔
      ¬ (Fits (MsgHeader.ofBytes (slice b 0 56)) b.length ∧ Consistent (parsedMsg b)) := by
  have hnat : (UInt64.ofNat b.length).toNat = b.length := by
    rw [UInt64.toNat_ofNat', Nat.mod_eq_of_lt hlength]
  rw [Rejected, msgFromBytes_eq (Nat.le_of_eq hnat), hnat]
  by_cases hfits : Fits (MsgHeader.ofBytes (slice b 0 56)) b.length
  case neg =>
    rw [if_neg hfits]
    simp [hfits]
  have hstored := stored_parsedMsg (Nat.le_refl _) hfits
  obtain ⟨accepts, hrun, haccepts⟩ := verifyMsg_eq hstored
  rw [if_pos hfits, ← haccepts]
  constructor
  · rintro ⟨r, hr, hfalse⟩ ⟨-, htrue⟩
    cases hr
    have hrefused := hfalse _ rfl
    rw [hrun, htrue] at hrefused
    cases hrefused
  · intro hnot
    refine ⟨_, rfl, ?_⟩
    rintro m hm
    cases hm
    rw [hrun, Bool.eq_false_iff.mpr fun htrue => hnot ⟨hfits, htrue⟩]

/-! ## Headers and trailers -/

theorem sameFields_iff_drop {head : MsgHeader} {trail : MsgTrailer} :
    SameFields head trail ↔ head.bytes.drop 2 = trail.bytes.drop 2 := by
  constructor
  · intro hsame
    have hmbz : ∀ h : MsgHeader, h.bytes.drop 2 = { h with mbz := 0 }.bytes.drop 2 := by
      intro h
      simp only [MsgHeader.bytes, MsgHeader.memory, MsgHeader.toNetwork]
      rw [List.drop_left' (leBytes_length 2 _), List.drop_left' (leBytes_length 2 _)]
    rw [hmbz head, hmbz trail]
    simp only [hsame.sendID, hsame.recvID, hsame.msgID, hsame.chanType, hsame.dataType,
      hsame.totalLength, hsame.bodyLength, hsame.contentLength, hsame.parityLength,
      hsame.segmentNum, hsame.crc]
  · intro hdrop
    have hslice {off w : Nat} (hoff : 2 ≤ off) :
        slice head.bytes off w = slice trail.bytes off w := by
      have hskip : off = 2 + (off - 2) := by omega
      rw [hskip, ← slice_drop, ← slice_drop, hdrop]
    rw [← head.ofBytes_bytes, ← MsgHeader.ofBytes_bytes trail]
    constructor <;>
      simp (disch := decide) only [MsgHeader.ofBytes, MsgHeader.toHost, MsgHeader.ofMemory, hslice]

theorem SameFields.symm {head : MsgHeader} {trail : MsgTrailer} (hsame : SameFields head trail) :
    SameFields trail head := sameFields_iff_drop.mpr (sameFields_iff_drop.mp hsame).symm

theorem SameFields.trans {first second third : MsgHeader} (hleft : SameFields first second)
    (hright : SameFields second third) : SameFields first third :=
  sameFields_iff_drop.mpr
    ((sameFields_iff_drop.mp hleft).trans (sameFields_iff_drop.mp hright))

/-- A flipped bit of the bytes of a header keeps all compared fields exactly when
it is one of the `mbz` field. -/
theorem sameFields_flipBit {h : MsgHeader} {t : Nat} (ht : t / 8 < 56) :
    SameFields h (MsgHeader.ofBytes (flipBit h.bytes t)) ↔ t / 8 < 2 := by
  have hin : t < 8 * h.bytes.length := by
    rw [MsgHeader.bytes_length]
    omega
  rw [sameFields_iff_drop, MsgHeader.bytes_ofBytes (by rw [flipBit_length, MsgHeader.bytes_length])]
  constructor
  · intro hdrop
    by_contra hlow
    exact drop_flipBit_ne hin (Nat.le_of_not_lt hlow) hdrop.symm
  · intro hlow
    exact (drop_flipBit_eq hlow).symm

theorem LengthsLink.congr {head other : MsgHeader} (hsame : SameFields head other)
    (hlink : LengthsLink head) : LengthsLink other where
  total := by rw [← hsame.totalLength, ← hsame.contentLength, hlink.total]
  body := by rw [← hsame.totalLength, ← hsame.bodyLength, hlink.body]
  parity := by rw [← hsame.parityLength, ← hsame.contentLength, hlink.parity]

/-- The total length determines the content length. -/
theorem LengthsLink.contentLength_inj {head other : MsgHeader} (hlink : LengthsLink head)
    (hother : LengthsLink other) (htotal : head.totalLength = other.totalLength) :
    head.contentLength = other.contentLength := by
  have hleft := hlink.total
  have hright := hother.total
  rw [htotal] at hleft
  unfold hparityBytes at hleft hright
  rw [← UInt32.toNat_inj]
  omega

/-! ## Words of vertical parity -/

/-- The bit of a word that bit `t` of the vertical parity bytes is. -/
def wordBit (t : Nat) : Nat := 8 * (7 - t / 8 % 8) + t % 8

theorem vparityWords_flipBit {bytes : Bytes} (hlength : bytes.length = 32) {t w i : Nat}
    (hw : w < 4) (hi : i < 64) :
    ((vparityWords (flipBit bytes t)).getD w 0).toNat.testBit i = true ↔
      ¬(((vparityWords bytes).getD w 0).toNat.testBit i = true ↔ w = t / 64 ∧ i = wordBit t) := by
  have hslice : (slice bytes (8 * w) 8).length = 8 := slice_length (by omega)
  rw [vparityWords_getD (by rw [flipBit_length]; exact hlength) hw, vparityWords_getD hlength hw]
  by_cases hword : w = t / 64
  · have hplace : beBit 8 (t - 8 * (8 * w)) = wordBit t := by
      unfold beBit wordBit
      omega
    rw [slice_flipBit_inside (by omega) (by omega),
      ofBe_flipBit_testBit (by omega) (by omega), hslice, hplace]
    simp only [hword, true_and]
  · rw [slice_flipBit_outside (by omega)]
    simp [hword]

/-- A flipped bit of the words leaves every column odd only where the column has
other copies of its bit, and these are set. -/
theorem columns_flipBit {content bytes : Bytes} (hlength : bytes.length = 32) {t : Nat}
    (ht : t < 256)
    (hbits : ∀ w < 4, ∀ i < 64, (((vparityWords bytes).getD w 0).toNat.testBit i = true ↔
      columnSum content (min i 31) = 0)) :
    (∀ w < 4, ∀ c < 32,
        columnSum content c + storedColumn ((vparityWords (flipBit bytes t)).getD w 0) c = 1) ↔
      31 ≤ wordBit t ∧ columnSum content 31 = 0 := by
  have hwordBit : wordBit t < 64 := by
    unfold wordBit
    omega
  have hflip {w i : Nat} (hw : w < 4) (hi : i < 64) :
      ((vparityWords (flipBit bytes t)).getD w 0).toNat.testBit i = true ↔
        ¬(columnSum content (min i 31) = 0 ↔ w = t / 64 ∧ i = wordBit t) := by
    rw [vparityWords_flipBit hlength hw hi, hbits w hw i hi]
  have hword : t / 64 < 4 := by omega
  constructor
  · intro hodd
    have hcolumn := hodd (t / 64) hword (min (wordBit t) 31) (by omega)
    rw [add_one_eq_iff, storedColumn_eq_one (by omega)] at hcolumn
    have hself := hflip hword hwordBit
    by_cases hzero : columnSum content (min (wordBit t) 31) = 0
    · obtain ⟨i, hi, hset, hmin⟩ := hcolumn.mpr hzero
      have hne : i ≠ wordBit t := by
        rintro rfl
        exact hself.mp hset (iff_of_true hzero ⟨rfl, rfl⟩)
      have hhigh : min (wordBit t) 31 = 31 := by omega
      rw [hhigh] at hzero
      exact ⟨by omega, hzero⟩
    · refine absurd (hcolumn.mp ⟨wordBit t, hwordBit, hself.mpr ?_, rfl⟩) hzero
      simp [hzero]
  · rintro ⟨hhigh, hzero⟩ w hw c hc
    rw [add_one_eq_iff, storedColumn_eq_one hc]
    by_cases hc31 : c = 31
    · subst hc31
      refine iff_of_true ?_ hzero
      -- One of the bits 31 and 32 is not the flipped one.
      have hother : ∃ i, i < 64 ∧ i ≠ wordBit t ∧ min i 31 = 31 := by
        by_cases h31 : wordBit t = 31
        · exact ⟨32, by decide, by omega, rfl⟩
        · exact ⟨31, by decide, by omega, rfl⟩
      obtain ⟨i, hi, hne, hmin⟩ := hother
      refine ⟨i, hi, (hflip hw hi).mpr ?_, hmin⟩
      simp [hmin, hzero, hne]
    · constructor
      · rintro ⟨i, hi, hset, rfl⟩
        have hne : i ≠ wordBit t := by omega
        have hset := (hflip hw hi).mp hset
        simpa [hne] using hset
      · intro hsum
        have hmin : min c 31 = c := by omega
        have hne : c ≠ wordBit t := by omega
        refine ⟨c, by omega, (hflip hw (by omega)).mpr ?_, hmin⟩
        simp [hmin, hsum, hne]

/-! ## The regions of a message -/

section Regions

variable {m : Msg} (hstored : m.Stored) (hgood : Consistent m)

include hstored hgood

theorem slice_flipBit_head {k : Nat} (hk : k / 8 < 56) :
    slice (flipBit m.bytes k) 0 56 = flipBit m.head.bytes k := by
  have hpieces := pieces_bytes hstored hgood.lengths.parity
  rw [slice_flipBit_inside (Nat.zero_le _) (by omega), hpieces.head, Nat.mul_zero, Nat.sub_zero]

/-- A flipped bit of the header that passes is one of `mbz`: the lengths cannot move
the trailer without contradicting each other. -/
theorem lt_of_accepted_header {k : Nat} (hk : k / 8 < 56)
    (hfits : Fits (MsgHeader.ofBytes (slice (flipBit m.bytes k) 0 56)) m.bytes.length)
    (hgood' : Consistent (parsedMsg (flipBit m.bytes k))) : k / 8 < 2 := by
  have hpieces := pieces_bytes hstored hgood.lengths.parity
  have hhead := slice_flipBit_head hstored hgood hk
  have hlink := hgood'.lengths
  have hlength : (flipBit m.bytes k).length = m.bytes.length := flipBit_length _ _
  have hold : HeaderAt m.bytes 0 (MsgHeader.ofBytes (slice m.bytes 0 56)) :=
    headerAt_ofBytes hfits.header
  have hnew : HeaderAt (flipBit m.bytes k) 0
      (MsgHeader.ofBytes (slice (flipBit m.bytes k) 0 56)) :=
    headerAt_ofBytes (hlength ▸ hfits.header)
  generalize hother : MsgHeader.ofBytes (slice (flipBit m.bytes k) 0 56) = other at hfits hnew
  have hparsed : (parsedMsg (flipBit m.bytes k)).head = other := hother
  rw [hparsed] at hlink
  rw [hpieces.head, MsgHeader.ofBytes_bytes] at hold
  have hcontent : m.head.contentLength = other.contentLength := by
    by_cases htotal : 8 ≤ k / 8 ∧ k / 8 < 12
    · rw [← UInt32.toNat_inj, hold.contentLength, hnew.contentLength,
        slice_flipBit_outside (by omega)]
    · apply hgood.lengths.contentLength_inj hlink
      rw [← UInt32.toNat_inj, hold.totalLength, hnew.totalLength,
        slice_flipBit_outside (by omega)]
  have hparity : m.head.parityLength = other.parityLength := by
    rw [← UInt32.toNat_inj, hgood.lengths.parity, hlink.parity, hcontent]
  have htrail : (parsedMsg (flipBit m.bytes k)).trail = m.trail := by
    have hplace : (parsedMsg (flipBit m.bytes k)).trail = MsgHeader.ofBytes (slice
        (flipBit m.bytes k) (56 + other.contentLength.toNat + other.parityLength.toNat) 56) := by
      rw [← hparsed]
      rfl
    rw [hplace, slice_flipBit_outside (by omega), ← hcontent, ← hparity, hpieces.trail,
      MsgHeader.ofBytes_bytes]
  have hsame : SameFields m.head other := by
    have hfields := hgood'.fields
    rw [hparsed, htrail] at hfields
    exact hgood.fields.trans hfields.symm
  rw [← hother, hhead] at hsame
  exact (sameFields_flipBit hk).mp hsame

/-- A flipped bit of `mbz` changes nothing that is looked at. -/
theorem accepted_of_mbz (hsize : m.head.contentLength.toNat < 65536) {k : Nat} (hk : k / 8 < 2) :
    Fits (MsgHeader.ofBytes (slice (flipBit m.bytes k) 0 56)) m.bytes.length ∧
      Consistent (parsedMsg (flipBit m.bytes k)) := by
  have hpieces := pieces_bytes hstored hgood.lengths.parity
  have hbyte : k / 8 < 56 := by omega
  have hhead := slice_flipBit_head hstored hgood hbyte
  have hrest {off w : Nat} (hoff : 56 ≤ off) :
      slice (flipBit m.bytes k) off w = slice m.bytes off w :=
    slice_flipBit_outside (Or.inl (by omega))
  have hsame := (sameFields_flipBit (h := m.head) hbyte).mpr hk
  rw [hhead]
  generalize hother : MsgHeader.ofBytes (flipBit m.head.bytes k) = other at hsame
  have hpieces' : Pieces (flipBit m.bytes k) { m with head := other } := by
    constructor
    · rw [hhead, ← hother,
        MsgHeader.bytes_ofBytes (by rw [flipBit_length, MsgHeader.bytes_length])]
    · rw [hrest (by omega), ← hsame.contentLength, hpieces.content]
    · rw [hrest (by omega), ← hsame.contentLength, hpieces.vparity]
    · rw [hrest (by omega), ← hsame.contentLength, ← hsame.parityLength, hpieces.hparity]
    · rw [hrest (by omega), ← hsame.contentLength, ← hsame.parityLength, hpieces.trail]
  have hfits := fits_bytes hstored hgood.lengths hsize
  rw [parsedMsg_of_pieces hpieces' hstored.vparity]
  refine ⟨⟨hfits.header, ?_, ?_, ?_⟩, hsame.symm.trans hgood.fields,
    hgood.lengths.congr hsame, hgood.odd, ?_⟩
  · rw [← hsame.contentLength]
    exact hsize
  · rw [← hsame.parityLength]
    exact hfits.parity
  · rw [← hsame.contentLength, ← hsame.parityLength]
    exact hfits.total
  · rw [← hsame.crc]
    exact hgood.crc

theorem accepted_flipBit_header (hsize : m.head.contentLength.toNat < 65536) {k : Nat}
    (hk : k / 8 < 56) :
    (Fits (MsgHeader.ofBytes (slice (flipBit m.bytes k) 0 56)) m.bytes.length ∧
        Consistent (parsedMsg (flipBit m.bytes k))) ↔ k / 8 < 2 :=
  ⟨fun haccepted => lt_of_accepted_header hstored hgood hk haccepted.1 haccepted.2,
    accepted_of_mbz hstored hgood hsize⟩

/-- Past the header a flipped bit leaves only the consistency to be checked. -/
theorem accepted_flipBit_body (hsize : m.head.contentLength.toNat < 65536) {k : Nat}
    (hk : 56 ≤ k / 8) :
    (Fits (MsgHeader.ofBytes (slice (flipBit m.bytes k) 0 56)) m.bytes.length ∧
        Consistent (parsedMsg (flipBit m.bytes k))) ↔
      Consistent (parsedMsg (flipBit m.bytes k)) := by
  have hpieces := pieces_bytes hstored hgood.lengths.parity
  rw [slice_flipBit_outside (Or.inr (by omega)), hpieces.head, MsgHeader.ofBytes_bytes]
  exact and_iff_right (fits_bytes hstored hgood.lengths hsize)

/-- A flipped bit of the content meets its row once. -/
theorem consistent_flipBit_content {k : Nat} (hlow : 56 ≤ k / 8)
    (hhigh : k / 8 < 56 + m.head.contentLength.toNat) :
    ¬ Consistent (parsedMsg (flipBit m.bytes k)) := by
  have hpieces := pieces_bytes hstored hgood.lengths.parity
  have hparity := hgood.lengths.parity
  have hcontent := hstored.content
  have hbit : k - 8 * 56 < 8 * m.body.content.length := by omega
  have hpieces' : Pieces (flipBit m.bytes k)
      (m.withContent (flipBit m.body.content (k - 8 * 56))) := by
    constructor <;> dsimp only [Msg.withContent]
    · rw [slice_flipBit_outside (by omega), hpieces.head]
    · rw [slice_flipBit_inside hlow hhigh, hpieces.content]
    · rw [slice_flipBit_outside (by omega), hpieces.vparity]
    · rw [slice_flipBit_outside (by omega), hpieces.hparity]
    · rw [slice_flipBit_outside (by omega), hpieces.trail]
  rw [parsedMsg_of_pieces hpieces' hstored.vparity,
    consistent_withContent hgood, ← flipBits_singleton hbit,
    parityOdd_flipBits hgood.odd (by simpa using hbit)]
  rintro ⟨-, hrows⟩
  have hrow := hrows ((k - 8 * 56) / 32) (by omega)
  rw [Finset.filter_singleton, if_pos rfl, Finset.card_singleton] at hrow
  exact absurd hrow (by decide)

/-- A flipped bit of the vertical parity passes exactly when it is one of several
set copies of the bit of column 31. -/
theorem consistent_flipBit_vparity {k : Nat}
    (hbits : ∀ w < 4, ∀ i < 64, ((m.body.vparityData.getD w 0).toNat.testBit i = true ↔
      columnSum m.body.content (min i 31) = 0))
    (hlow : 56 + m.head.contentLength.toNat ≤ k / 8)
    (hhigh : k / 8 < 56 + m.head.contentLength.toNat + 32) :
    Consistent (parsedMsg (flipBit m.bytes k)) ↔
      31 ≤ wordBit (k - 8 * (56 + m.head.contentLength.toNat)) ∧
        columnSum m.body.content 31 = 0 := by
  have hpieces := pieces_bytes hstored hgood.lengths.parity
  have hparity := hgood.lengths.parity
  have hlength : (vparityBytes m.body.vparityData).length = 32 := by
    rw [vparityBytes_length, hstored.vparity]
  generalize ht : k - 8 * (56 + m.head.contentLength.toNat) = t
  have hpieces' : Pieces (flipBit m.bytes k) { m with body := { m.body with
      vparityData := vparityWords (flipBit (vparityBytes m.body.vparityData) t) } } := by
    constructor <;> dsimp only
    · rw [slice_flipBit_outside (by omega), hpieces.head]
    · rw [slice_flipBit_outside (by omega), hpieces.content]
    · rw [slice_flipBit_inside hlow hhigh, hpieces.vparity, ht,
        vparityBytes_vparityWords (by rw [flipBit_length, hlength])]
    · rw [slice_flipBit_outside (by omega), hpieces.hparity]
    · rw [slice_flipBit_outside (by omega), hpieces.trail]
  rw [parsedMsg_of_pieces hpieces' (by simp [vparityWords])]
  rw [← vparityWords_vparityBytes hstored.vparity] at hbits
  rw [← columns_flipBit hlength (by omega) hbits]
  constructor
  · exact fun hgood' => hgood'.odd.columns
  · exact fun hcolumns => ⟨hgood.fields, hgood.lengths, ⟨hcolumns, hgood.odd.rows⟩, hgood.crc⟩

/-- A flipped bit of the horizontal parity passes exactly when its row does not
exist. -/
theorem consistent_flipBit_hparity {k : Nat}
    (hlow : 56 + m.head.contentLength.toNat + 32 ≤ k / 8)
    (hhigh : k / 8 < 56 + m.head.contentLength.toNat + m.head.parityLength.toNat) :
    Consistent (parsedMsg (flipBit m.bytes k)) ↔
      (m.body.content.length + 3) / 4 ≤ k - 8 * (56 + m.head.contentLength.toNat + 32) := by
  have hpieces := pieces_bytes hstored hgood.lengths.parity
  have hparity := hgood.lengths.parity
  have hlength := hstored.hparity
  generalize ht : k - 8 * (56 + m.head.contentLength.toNat + 32) = t
  have hbit : t < 8 * m.body.hparityData.length := by omega
  have hpieces' : Pieces (flipBit m.bytes k) { m with body := { m.body with
      hparityData := flipBit m.body.hparityData t } } := by
    constructor <;> dsimp only
    · rw [slice_flipBit_outside (by omega), hpieces.head]
    · rw [slice_flipBit_outside (by omega), hpieces.content]
    · rw [slice_flipBit_outside (by omega), hpieces.vparity]
    · rw [slice_flipBit_inside hlow (by omega), hpieces.hparity, ht]
    · rw [slice_flipBit_outside (by omega), hpieces.trail]
  rw [parsedMsg_of_pieces hpieces' hstored.vparity]
  constructor
  · intro hgood'
    by_contra hrow
    have hnew := hgood'.odd.rows t (by exact Nat.lt_of_not_le hrow)
    have hold := hgood.odd.rows t (by exact Nat.lt_of_not_le hrow)
    rw [bitAt_flipBit hbit, if_pos rfl, ← add_assoc, hold] at hnew
    exact absurd hnew (by decide)
  · intro hrow
    refine ⟨hgood.fields, hgood.lengths, ⟨hgood.odd.columns, ?_⟩, hgood.crc⟩
    intro w hw
    have hw : w < (m.body.content.length + 3) / 4 := hw
    rw [bitAt_flipBit hbit, if_neg (by omega), add_zero]
    exact hgood.odd.rows w hw

/-- A flipped bit of the trailer passes exactly when it is one of `mbz`. -/
theorem consistent_flipBit_trailer {k : Nat} (hsame : m.trail = m.head)
    (hlow : 56 + m.head.contentLength.toNat + m.head.parityLength.toNat ≤ k / 8)
    (hhigh : k / 8 < 56 + m.head.contentLength.toNat + m.head.parityLength.toNat + 56) :
    Consistent (parsedMsg (flipBit m.bytes k)) ↔
      k / 8 < 56 + m.head.contentLength.toNat + m.head.parityLength.toNat + 2 := by
  have hpieces := pieces_bytes hstored hgood.lengths.parity
  have hparity := hgood.lengths.parity
  generalize ht : k - 8 * (56 + m.head.contentLength.toNat + m.head.parityLength.toNat) = t
  have hpieces' : Pieces (flipBit m.bytes k)
      { m with trail := MsgHeader.ofBytes (flipBit m.trail.bytes t) } := by
    constructor <;> dsimp only
    · rw [slice_flipBit_outside (by omega), hpieces.head]
    · rw [slice_flipBit_outside (by omega), hpieces.content]
    · rw [slice_flipBit_outside (by omega), hpieces.vparity]
    · rw [slice_flipBit_outside (by omega), hpieces.hparity]
    · rw [slice_flipBit_inside hlow hhigh, hpieces.trail, ht,
        MsgHeader.bytes_ofBytes (by rw [flipBit_length, MsgHeader.bytes_length])]
  have hbyte : t / 8 < 56 := by omega
  have hfields := sameFields_flipBit (h := m.head) hbyte
  have hplace : k / 8 < 56 + m.head.contentLength.toNat + m.head.parityLength.toNat + 2 ↔
      t / 8 < 2 := by omega
  rw [parsedMsg_of_pieces hpieces' hstored.vparity, hsame, hplace, ← hfields]
  exact ⟨fun hgood' => hgood'.fields,
    fun hfields => ⟨hfields, hgood.lengths, hgood.odd, hgood.crc⟩⟩

end Regions

/-- The bits of a formed message that no check protects: those of the two `mbz`
fields, from bit 31 on those of a vertical parity word when column 31 of the
content is even, and those of the horizontal parity that belong to no row. -/
def Unprotected (content : Bytes) (k : Nat) : Prop :=
  let vparity := 56 + content.length
  let hparity := vparity + 32
  let trailer := hparity + hparityBytes content.length
  k / 8 < 2 ∨
    (vparity ≤ k / 8 ∧ k / 8 < hparity ∧
      31 ≤ wordBit (k - 8 * vparity) ∧ columnSum content 31 = 0) ∨
    (hparity ≤ k / 8 ∧ k / 8 < trailer ∧ (content.length + 3) / 4 ≤ k - 8 * hparity) ∨
    (trailer ≤ k / 8 ∧ k / 8 < trailer + 2)

/-- Flipping one bit of a formed message is noticed exactly outside the
unprotected bits. -/
theorem formMsg_flipBit (msgID : UInt32) (sID rID : UInt64) (chant datat : UInt8) (snum : UInt64)
    (content : Bytes) (hsize : content.length < 65536) :
    ∃ m bytes,
      formMsg msgID sID rID chant datat snum content (UInt32.ofNat content.length) = .ok m ∧
      msgToBytes m = .ok (bytes, bytes.length) ∧
      ∀ k < 8 * bytes.length, Rejected (flipBit bytes k) ↔ ¬ Unprotected content k := by
  obtain ⟨m, hform, hformed, hstored, hgood⟩ :=
    formMsg_consistent msgID sID rID chant datat snum hsize
  have hparity := hgood.lengths.parity
  have hsized := hstored.sized hparity
  have hlength := hsized.bytes_length
  have hcontent : m.head.contentLength.toNat = content.length := by
    rw [← hstored.content, hformed.content]
  have hsize' : m.head.contentLength.toNat < 65536 := hcontent ▸ hsize
  have hsame : m.trail = m.head := by rw [hformed.trail, hformed.head]
  have hbits := hformed.columns
  refine ⟨m, m.bytes, hform, msgToBytes_eq hsized, ?_⟩
  intro k hk
  have hsmall : hparityBytes content.length < 65536 := by
    unfold hparityBytes
    omega
  rw [hcontent] at hlength hparity
  rw [rejected_iff (by rw [flipBit_length]; omega), flipBit_length]
  apply not_congr
  unfold Unprotected
  by_cases hheader : k / 8 < 56
  · rw [accepted_flipBit_header hstored hgood hsize' hheader]
    omega
  rw [accepted_flipBit_body hstored hgood hsize' (by omega)]
  by_cases hbody : k / 8 < 56 + content.length
  · have hnot := consistent_flipBit_content hstored hgood (k := k) (by omega) (by omega)
    simp only [hnot, false_iff]
    omega
  by_cases hvertical : k / 8 < 56 + content.length + 32
  · rw [← hformed.content] at hbits
    rw [consistent_flipBit_vparity hstored hgood hbits (by omega) (by omega), hcontent,
      hformed.content]
    constructor
    · exact fun hcopy => Or.inr (Or.inl ⟨by omega, hvertical, hcopy⟩)
    · rintro (hmbz | ⟨-, -, hcopy⟩ | ⟨hlow, -⟩ | ⟨hlow, -⟩)
      · omega
      · exact hcopy
      · omega
      · omega
  by_cases hhorizontal : k / 8 < 56 + content.length + 32 + hparityBytes content.length
  · rw [consistent_flipBit_hparity hstored hgood (by omega) (by omega), hcontent, hformed.content]
    omega
  · rw [consistent_flipBit_trailer hstored hgood hsame (by omega) (by omega), hcontent, hparity]
    omega

theorem formMsg_flipBit_small :
    ∃ m bytes, formMsg 7 1 2 0 0 3 [5, 0, 9] 3 = .ok m ∧
      msgToBytes m = .ok (bytes, bytes.length) ∧
      ∀ k < 8 * bytes.length, Rejected (flipBit bytes k) ↔ ¬ Unprotected [5, 0, 9] k :=
  formMsg_flipBit 7 1 2 0 0 3 [5, 0, 9] (by decide)

/-- The lowest bit of the header's `mbz` is not looked at. -/
theorem formMsg_flipBit_mbz :
    ¬ ∀ (msgID : UInt32) (sID rID : UInt64) (chant datat : UInt8) (snum : UInt64)
      (content : Bytes), content.length < 65536 → ∀ m bytes n,
      formMsg msgID sID rID chant datat snum content (UInt32.ofNat content.length) = .ok m →
      msgToBytes m = .ok (bytes, n) → ∀ k < 8 * n, Rejected (flipBit bytes k) := by
  intro hevery
  have hbytes : (do
      let m ← formMsg 0 0 0 0 0 0 [] 0
      msgToBytes m) = .ok (emptyMsgBytes, 144) := by decide +kernel
  obtain ⟨m, hform, hbytes⟩ := bind_eq_ok.mp hbytes
  obtain ⟨r, hparse, hrefused⟩ := hevery 0 0 0 0 0 0 [] (by decide) m emptyMsgBytes 144 hform
    hbytes 0 (by decide)
  have hactual : msgFromBytes (flipBit emptyMsgBytes 0) 144 =
      .ok (some (parsedMsg (flipBit emptyMsgBytes 0))) := by decide +kernel
  have hverified : verifyMsg (parsedMsg (flipBit emptyMsgBytes 0)) = .ok true := by
    decide +kernel
  have hlength : UInt64.ofNat (flipBit emptyMsgBytes 0).length = 144 := by decide +kernel
  rw [hlength, hactual, Except.ok.injEq] at hparse
  rw [hrefused _ hparse.symm] at hverified
  cases hverified

end Hipft
