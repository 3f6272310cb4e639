import Hipft.Message.RoundTrip

/-! # Which errors verification notices

Changes inside the content are seen by the row and column sums. A row covers a
4-byte word completely, but the columns cover one bit of each byte only, so two
changes in one word may stay unseen.
-/

namespace Hipft

open CMemory ByteLayout BitString ParityCheck

/-! ## Changes of content bits -/

/-- The message with other bytes as its content, and all else as it was. -/
def Msg.withContent (m : Msg) (content : Bytes) : Msg :=
  { m with body := { m.body with content } }

/-- Bit `t` lies in one of the summed columns: its place in its byte is the
byte's index modulo eight. -/
def InColumns (t : Nat) : Prop := t / 8 % 8 = t % 8

instance (t : Nat) : Decidable (InColumns t) := inferInstanceAs (Decidable (_ = _))

theorem checkSum_flipBits {buf : Bytes} {flips : Finset Nat}
    (hflips : ∀ t ∈ flips, t < 8 * buf.length) (p : Nat → Prop) [DecidablePred p] :
    checkSum ((Finset.range (8 * buf.length)).filter p) (bitAt (flipBits buf flips)) =
        checkSum ((Finset.range (8 * buf.length)).filter p) (bitAt buf) ↔
      Even (flips.filter p).card := by
  have hchanged : ((Finset.range (8 * buf.length)).filter p).filter
      (fun t => bitAt (flipBits buf flips) t ≠ bitAt buf t) = flips.filter p := by
    apply Finset.ext
    intro t
    rw [Finset.mem_filter, Finset.mem_filter, Finset.mem_filter, Finset.mem_range,
      bitAt_flipBits hflips]
    by_cases ht : t ∈ flips
    · simp [ht, hflips t ht]
    · simp [ht]
  rw [checkSum_eq_iff_even, hchanged]

theorem columnSum_flipBits {buf : Bytes} {flips : Finset Nat}
    (hflips : ∀ t ∈ flips, t < 8 * buf.length) (c : Nat) :
    columnSum (flipBits buf flips) c = columnSum buf c ↔
      Even (flips.filter fun t => t / 8 % 32 = c ∧ t % 8 = c % 8).card := by
  rw [columnSum, columnSum, column, column, flipBits_length]
  exact checkSum_flipBits hflips _

theorem rowSum_flipBits {buf : Bytes} {flips : Finset Nat}
    (hflips : ∀ t ∈ flips, t < 8 * buf.length) (w : Nat) :
    rowSum (flipBits buf flips) w = rowSum buf w ↔
      Even (flips.filter fun t => t / 32 = w).card := by
  rw [rowSum, rowSum, row, row, flipBits_length]
  exact checkSum_flipBits hflips _

/-- Flipping content bits keeps the parities odd exactly when it meets every
column and every row an even number of times. -/
theorem parityOdd_flipBits {content hparityData : Bytes} {vparityData : List UInt64}
    {flips : Finset Nat} (hodd : ParityOdd content vparityData hparityData)
    (hflips : ∀ t ∈ flips, t < 8 * content.length) :
    ParityOdd (flipBits content flips) vparityData hparityData ↔
      (∀ c < 32, Even (flips.filter fun t => t / 8 % 32 = c ∧ t % 8 = c % 8).card) ∧
      ∀ w < (content.length + 3) / 4, Even (flips.filter fun t => t / 32 = w).card := by
  constructor
  · intro hodd'
    constructor
    · intro c hc
      rw [← columnSum_flipBits hflips]
      exact add_right_cancel
        ((hodd'.columns 0 (by decide) c hc).trans (hodd.columns 0 (by decide) c hc).symm)
    · intro w hw
      rw [← rowSum_flipBits hflips]
      have hrow := hodd'.rows w (by rw [flipBits_length]; exact hw)
      exact add_right_cancel (hrow.trans (hodd.rows w hw).symm)
  · rintro ⟨hcolumns, hrows⟩
    constructor
    · intro w hw c hc
      rw [(columnSum_flipBits hflips c).mpr (hcolumns c hc)]
      exact hodd.columns w hw c hc
    · intro w hw
      rw [flipBits_length] at hw
      rw [(rowSum_flipBits hflips w).mpr (hrows w hw)]
      exact hodd.rows w hw

/-- Up to three positions meet every row evenly only as two of one row. -/
theorem even_rows_iff {flips : Finset Nat} {len : Nat} (hcard : 1 ≤ flips.card ∧ flips.card ≤ 3)
    (hflips : ∀ t ∈ flips, t < 8 * len) :
    (∀ w < (len + 3) / 4, Even (flips.filter fun t => t / 32 = w).card) ↔
      ∃ a b, flips = {a, b} ∧ a ≠ b ∧ a / 32 = b / 32 := by
  have hall : (∀ w < (len + 3) / 4, Even (flips.filter fun t => t / 32 = w).card) ↔
      ∀ w, Even (flips.filter fun t => t / 32 = w).card := by
    constructor
    · intro heven w
      by_cases hw : w < (len + 3) / 4
      · exact heven w hw
      · have hnone : flips.filter (fun t => t / 32 = w) = ∅ := by
          apply Finset.filter_false_of_mem
          intro t ht
          have := hflips t ht
          omega
        rw [hnone, Finset.card_empty]
        exact Even.zero
    · exact fun heven w _ => heven w
  rw [hall]
  constructor
  · intro heven
    have hcardEven : Even flips.card := by
      rw [← Nat.not_odd_iff_even]
      intro hodd
      obtain ⟨w, hw⟩ := exists_odd_class flips (fun t => t / 32) hodd
      exact Nat.not_even_iff_odd.mpr hw (heven w)
    have htwo : flips.card = 2 := by
      obtain ⟨n, hn⟩ := hcardEven
      omega
    obtain ⟨a, b, hne, rfl⟩ := Finset.card_eq_two.mp htwo
    exact ⟨a, b, rfl, hne, (even_class_pair_iff hne fun t => t / 32).mp heven⟩
  · rintro ⟨a, b, rfl, hne, hrow⟩
    exact (even_class_pair_iff hne fun t => t / 32).mpr hrow

/-- Two bits of one row are never in one column, so each column sees them
unless neither is in any. -/
theorem even_columns_pair_iff {a b : Nat} (hne : a ≠ b) (hrow : a / 32 = b / 32) :
    (∀ c < 32,
        Even ((({a, b} : Finset Nat)).filter fun t => t / 8 % 32 = c ∧ t % 8 = c % 8).card) ↔
      ¬ InColumns a ∧ ¬ InColumns b := by
  have hsingle : ∀ s t : Nat, s ≠ t → s / 32 = t / 32 → InColumns s →
      (({s, t} : Finset Nat)).filter (fun u => u / 8 % 32 = s / 8 % 32 ∧ u % 8 = s / 8 % 32 % 8) =
        {s} := by
    intro s t hst hrow hs
    unfold InColumns at hs
    rw [Finset.filter_insert, if_pos ⟨rfl, by omega⟩, Finset.filter_singleton, if_neg (by omega)]
    rfl
  constructor
  · intro heven
    constructor
    · intro ha
      have hodd := heven (a / 8 % 32) (Nat.mod_lt _ (by decide))
      rw [hsingle a b hne hrow ha, Finset.card_singleton] at hodd
      exact absurd hodd (by decide)
    · intro hb
      have hodd := heven (b / 8 % 32) (Nat.mod_lt _ (by decide))
      rw [Finset.pair_comm, hsingle b a hne.symm hrow.symm hb, Finset.card_singleton] at hodd
      exact absurd hodd (by decide)
  · rintro ⟨ha, hb⟩ c hc
    unfold InColumns at ha hb
    have hnone : (({a, b} : Finset Nat)).filter (fun t => t / 8 % 32 = c ∧ t % 8 = c % 8) = ∅ := by
      rw [Finset.filter_insert, if_neg (by omega), Finset.filter_singleton, if_neg (by omega)]
    rw [hnone, Finset.card_empty]
    exact Even.zero

theorem stored_withContent {m : Msg} (hstored : m.Stored) {content : Bytes}
    (hlength : content.length = m.body.content.length) : (m.withContent content).Stored :=
  ⟨hlength.trans hstored.content, hstored.vparity, hstored.hparity⟩

theorem consistent_withContent {m : Msg} (hgood : Consistent m) (content : Bytes) :
    Consistent (m.withContent content) ↔
      ParityOdd content m.body.vparityData m.body.hparityData :=
  ⟨fun hgood' => hgood'.odd, fun hodd => ⟨hgood.fields, hgood.lengths, hodd, hgood.crc⟩⟩

/-- One to three flipped content bits pass verification exactly when they are
two bits of one 4-byte word that the columns do not cover. -/
theorem verifyMsg_flipBits (msgID : UInt32) (sID rID : UInt64) (chant datat : UInt8)
    (snum : UInt64) (content : Bytes) (hsize : content.length < 65536) (flips : Finset Nat)
    (hflips : ∀ t ∈ flips, t < 8 * content.length)
    (hcard : 1 ≤ flips.card ∧ flips.card ≤ 3) :
    ∃ m accepts,
      formMsg msgID sID rID chant datat snum content (UInt32.ofNat content.length) = .ok m ∧
      verifyMsg (m.withContent (flipBits m.body.content flips)) = .ok accepts ∧
      (accepts = false ↔ ¬ ∃ a b, flips = {a, b} ∧ a ≠ b ∧ a / 32 = b / 32 ∧
        ¬ InColumns a ∧ ¬ InColumns b) := by
  obtain ⟨m, hform, hformed, hstored, hgood⟩ :=
    formMsg_consistent msgID sID rID chant datat snum hsize
  have hodd := hgood.odd
  rw [hformed.content] at hodd
  obtain ⟨accepts, hrun, haccepts⟩ := verifyMsg_eq
    (stored_withContent hstored (flipBits_length m.body.content flips))
  refine ⟨m, accepts, hform, hrun, ?_⟩
  rw [← Bool.not_eq_true, haccepts, consistent_withContent hgood, hformed.content,
    parityOdd_flipBits hodd hflips, even_rows_iff hcard hflips]
  apply not_congr
  constructor
  · rintro ⟨hcolumns, a, b, rfl, hne, hrow⟩
    exact ⟨a, b, rfl, hne, hrow, (even_columns_pair_iff hne hrow).mp hcolumns⟩
  · rintro ⟨a, b, rfl, hne, hrow, hoff⟩
    exact ⟨(even_columns_pair_iff hne hrow).mpr hoff, a, b, rfl, hne, hrow⟩

/-- Two bits of one word: one of them is in a column, so they are found. -/
theorem verifyMsg_flipBits_word :
    ∃ m, formMsg 7 1 2 0 0 3 [5, 0, 9] 3 = .ok m ∧
      verifyMsg (m.withContent (flipBits m.body.content {9, 12})) = .ok false := by
  obtain ⟨m, accepts, hform, hrun, haccepts⟩ :=
    verifyMsg_flipBits 7 1 2 0 0 3 [5, 0, 9] (by decide) {9, 12} (by decide) (by decide)
  refine ⟨m, hform, hrun.trans (congrArg Except.ok (haccepts.mpr ?_))⟩
  rintro ⟨a, b, hpair, -, -, ha, hb⟩
  have hmem : 9 ∈ ({a, b} : Finset Nat) := hpair ▸ by decide
  rcases Finset.mem_insert.mp hmem with rfl | hmem
  · exact ha (by decide)
  · rw [Finset.mem_singleton] at hmem
    exact hb (hmem ▸ by decide)

/-- Bits 1 and 2 of the only content byte are in no column. -/
theorem verifyMsg_flipBits_pair :
    ¬ ∀ (msgID : UInt32) (sID rID : UInt64) (chant datat : UInt8) (snum : UInt64)
      (content : Bytes) (flips : Finset Nat), content.length < 65536 →
      (∀ t ∈ flips, t < 8 * content.length) → 1 ≤ flips.card → flips.card ≤ 3 →
      ∀ m, formMsg msgID sID rID chant datat snum content (UInt32.ofNat content.length) = .ok m →
        verifyMsg (m.withContent (flipBits m.body.content flips)) = .ok false := by
  intro hevery
  have hrun : (do
      let m ← formMsg 0 0 0 0 0 0 [0] 1
      verifyMsg (m.withContent (flipBits m.body.content {1, 2}))) = .ok true := by decide +kernel
  obtain ⟨m, hform, hundetected⟩ := bind_eq_ok.mp hrun
  have hdetected := hevery 0 0 0 0 0 0 [0] {1, 2} (by decide) (by decide) (by decide) (by decide)
    m hform
  rw [hundetected] at hdetected
  cases hdetected

end Hipft
