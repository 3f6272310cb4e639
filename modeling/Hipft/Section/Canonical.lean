import Hipft.Section.Pieces

/-! # Canonical sections

On a section whose pieces are apart and in order, adding and deleting are those
of sets. There is one exception: the high bound of a piece is compared without
a guard, so that 0 follows the largest number.
-/

namespace Hipft

open Intervals

/-- The order of the machine's numbers. -/
instance linearOrderUInt64 : LinearOrder UInt64 where
  le_refl := UInt64.le_refl
  le_trans _ _ _ := UInt64.le_trans
  le_antisymm _ _ := UInt64.le_antisymm
  le_total := UInt64.le_total
  lt_iff_le_not_ge a b := by
    rw [UInt64.lt_iff_toNat_lt, UInt64.le_iff_toNat_le, UInt64.le_iff_toNat_le]
    omega
  toDecidableLE := inferInstance
  toDecidableLT := inferInstance
  toDecidableEq := inferInstance

/-- `UINT64_MAX`. -/
def uint64Max : UInt64 := 18446744073709551615

/-! ## Neighbouring numbers -/

theorem covBy_iff_toNat {a b : UInt64} : a ⋖ b ↔ b.toNat = a.toNat + 1 := by
  constructor
  · rintro ⟨hlt, hbetween⟩
    have hlt := UInt64.lt_iff_toNat_lt.mp hlt
    have hb := b.toNat_lt
    have hnext : (UInt64.ofNat (a.toNat + 1)).toNat = a.toNat + 1 := by
      rw [UInt64.toNat_ofNat', Nat.mod_eq_of_lt (by omega)]
    have hnot := @hbetween (UInt64.ofNat (a.toNat + 1))
      (UInt64.lt_iff_toNat_lt.mpr (by omega))
    rw [UInt64.lt_iff_toNat_lt, hnext] at hnot
    omega
  · intro heq
    refine ⟨UInt64.lt_iff_toNat_lt.mpr (by omega), fun c hac hcb => ?_⟩
    have hac := UInt64.lt_iff_toNat_lt.mp hac
    have hcb := UInt64.lt_iff_toNat_lt.mp hcb
    omega

theorem add_one_eq_iff_covBy {a b : UInt64} : a + 1 = b ↔ a ⋖ b ∨ a = uint64Max ∧ b = 0 := by
  have ha := a.toNat_lt
  have hb := b.toNat_lt
  have hone : (1 : UInt64).toNat = 1 := rfl
  have hmax : uint64Max.toNat = 2 ^ 64 - 1 := rfl
  have hzero : (0 : UInt64).toNat = 0 := rfl
  rw [covBy_iff_toNat, ← UInt64.toNat_inj, ← UInt64.toNat_inj, ← UInt64.toNat_inj,
    UInt64.toNat_add, hone, hmax, hzero]
  omega

theorem sub_one_eq_iff_covBy {a b : UInt64} : b ≠ 0 ∧ b - 1 = a ↔ a ⋖ b := by
  have hb := b.toNat_lt
  have hone : (1 : UInt64).toNat = 1 := rfl
  have hzero : (0 : UInt64).toNat = 0 := rfl
  rw [covBy_iff_toNat, ne_eq, ← UInt64.toNat_inj, ← UInt64.toNat_inj, UInt64.toNat_sub, hone, hzero]
  omega

theorem covBy_add_one {a b : UInt64} (hlt : a < b) : a ⋖ a + 1 := by
  rcases add_one_eq_iff_covBy.mp (Eq.refl (a + 1)) with hcov | ⟨rfl, -⟩
  · exact hcov
  · have hb := b.toNat_lt
    have hmax : uint64Max.toNat = 2 ^ 64 - 1 := rfl
    have hlt := UInt64.lt_iff_toNat_lt.mp hlt
    omega

theorem covBy_sub_one {a b : UInt64} (hlt : a < b) : b - 1 ⋖ b :=
  sub_one_eq_iff_covBy.mp ⟨UInt64.pos_iff_ne_zero.mp (UInt64.zero_le.trans_lt hlt), rfl⟩

theorem le_uint64Max (a : UInt64) : a ≤ uint64Max := by
  have ha := a.toNat_lt
  have hmax : uint64Max.toNat = 2 ^ 64 - 1 := rfl
  rw [UInt64.le_iff_toNat_le]
  omega

/-! ## Adding -/

/-- The loop leaves the piece as it is and goes on. -/
structure Skipped (num : UInt64) (piece : Piece) : Prop where
  outside : ¬ (piece.lowBound ≤ num ∧ num ≤ piece.highBound)
  notBelow : piece.highBound + 1 ≠ num
  notAbove : ¬ num ⋖ piece.lowBound

theorem addLoop_skip {num : UInt64} {front : Section} (hfront : ∀ p ∈ front, Skipped num p)
    (index : Nat) (before rest : Section) :
    addLoop num index before (front ++ rest) =
      addLoop num (index + front.countP fun p => p.highBound < num) (before ++ front) rest := by
  induction front generalizing index before with
  | nil => rw [List.nil_append, List.append_nil, List.countP_nil, Nat.add_zero]
  | cons p front ih =>
      obtain ⟨hp, hfront⟩ := List.forall_mem_cons.mp hfront
      have habove : ¬ (p.lowBound ≠ 0 ∧ p.lowBound - 1 = num) :=
        fun h => hp.notAbove (sub_one_eq_iff_covBy.mp h)
      rw [List.cons_append, addLoop]
      simp only [ge_iff_le, if_neg hp.outside, if_neg hp.notBelow, if_neg habove]
      rw [ih hfront, List.append_assoc, List.singleton_append, List.countP_cons]
      by_cases hlt : p.highBound < num
      · simp only [hlt, if_true, decide_true]
        rw [Nat.add_assoc, Nat.add_comm 1]
      · simp only [hlt, if_false, decide_false, Bool.false_eq_true]
        rfl

theorem skipped_of_below {num : UInt64} {p : Piece} (hproper : p.lowBound ≤ p.highBound)
    (hbelow : ∃ c, p.highBound < c ∧ c < num) : Skipped num p := by
  obtain ⟨c, hpc, hcn⟩ := hbelow
  have hlt := hpc.trans hcn
  refine ⟨fun h => absurd h.2 (not_le.mpr hlt), fun h => ?_, fun h => ?_⟩
  · rcases add_one_eq_iff_covBy.mp h with hcov | ⟨hmax, -⟩
    · exact hcov.2 hpc hcn
    · exact absurd (le_uint64Max num) (not_le.mpr (hmax ▸ hlt))
  · exact absurd (h.1.trans_le hproper) (not_lt.mpr hlt.le)

theorem skipped_of_above {num : UInt64} {p : Piece} (hproper : p.lowBound ≤ p.highBound)
    (habove : ∃ c, num < c ∧ c < p.lowBound) (hwrap : ¬ (num = 0 ∧ p.highBound = uint64Max)) :
    Skipped num p := by
  obtain ⟨c, hnc, hcp⟩ := habove
  have hlt := hnc.trans hcp
  refine ⟨fun h => absurd h.1 (not_le.mpr hlt), fun h => ?_, fun h => h.2 hnc hcp⟩
  rcases add_one_eq_iff_covBy.mp h with hcov | ⟨hmax, hzero⟩
  · exact absurd (hcov.1.trans hlt) (not_lt.mpr hproper)
  · exact hwrap ⟨hzero, hmax⟩

/-- Adding 0 reaches a piece that ends in the largest number, and no piece before it has
0 or begins at 1. -/
structure Wraps (sec : Section) (num : UInt64) : Prop where
  zero : num = 0
  max : Covers sec uint64Max
  absent : ¬ Covers sec 0
  whole : Covers sec 1 → ∀ v, v ≠ 0 → Covers sec v

section Evaluation

variable {front back : Section} {num : UInt64}

/-- The loop passes what is in front of a piece that starts at the number or below. -/
theorem skipped_front {p : Piece} (hcanonical : Canonical (front ++ p :: back))
    (hlow : p.lowBound ≤ num) : ∀ q ∈ front, Skipped num q := by
  intro q hq
  obtain ⟨c, hqc, hcp⟩ := (canonical_append.mp hcanonical).2.2 q hq p List.mem_cons_self
  exact skipped_of_below (hcanonical.proper q (List.mem_append_left _ hq))
    ⟨c, hqc, hcp.trans_le hlow⟩

/-- The loop stops at the piece that has the number. -/
theorem addToSection_covered {p : Piece} (hcanonical : Canonical (front ++ p :: back))
    (hlow : p.lowBound ≤ num) (hhigh : num ≤ p.highBound) :
    addToSection (front ++ p :: back) num = front ++ p :: back := by
  rw [addToSection, addLoop_skip (skipped_front hcanonical hlow), List.nil_append, addLoop]
  exact if_pos ⟨hlow, hhigh⟩

/-- The loop stops at the piece that ends just below the number. -/
theorem addToSection_below {p : Piece} (hcanonical : Canonical (front ++ p :: back))
    (hcov : p.highBound ⋖ num) :
    addToSection (front ++ p :: back) num =
      front ++ mergeNext { p with highBound := num } back := by
  have hproper := hcanonical.proper p (by simp)
  have hlow : p.lowBound ≤ num := hproper.trans hcov.1.le
  have hout : ¬ (p.lowBound ≤ num ∧ p.highBound ≥ num) := fun h => absurd h.2 (not_le.mpr hcov.1)
  rw [addToSection, addLoop_skip (skipped_front hcanonical hlow), List.nil_append, addLoop]
  exact (if_neg hout).trans (if_pos (add_one_eq_iff_covBy.mpr (.inl hcov)))

theorem mergeLast_apart {piece : Piece}
    (hfront : ∀ p ∈ front, ∃ c, p.highBound < c ∧ c < piece.lowBound) :
    mergeLast front piece = front ++ [piece] := by
  rcases List.eq_nil_or_concat front with rfl | ⟨init, last, rfl⟩
  · rfl
  obtain ⟨c, hlast, hpiece⟩ := hfront last (by simp)
  have hne : last.highBound ≠ piece.lowBound - 1 := by
    intro heq
    have hpos : piece.lowBound ≠ 0 := by
      intro hzero
      rw [hzero] at hpiece
      exact absurd hpiece (UInt64.not_lt.mpr UInt64.zero_le)
    exact (sub_one_eq_iff_covBy.mp ⟨hpos, heq.symm⟩).2 hlast hpiece
  rw [mergeLast, List.concat_eq_append, List.getLast?_concat]
  exact if_neg hne

/-- The loop stops at the piece that begins just above the number. -/
theorem addToSection_above {p : Piece} (hcanonical : Canonical (front ++ p :: back))
    (hfront : ∀ q ∈ front, ∃ c, q.highBound < c ∧ c < num) (hcov : num ⋖ p.lowBound)
    (hwrap : ¬ (num = 0 ∧ p.highBound = uint64Max)) :
    addToSection (front ++ p :: back) num = front ++ { p with lowBound := num } :: back := by
  have hskip : ∀ q ∈ front, Skipped num q := fun q hq =>
    skipped_of_below (hcanonical.proper q (List.mem_append_left _ hq)) (hfront q hq)
  have hproper := hcanonical.proper p (by simp)
  have hout : ¬ (p.lowBound ≤ num ∧ p.highBound ≥ num) := fun h => absurd h.1 (not_le.mpr hcov.1)
  have hnext : p.highBound + 1 ≠ num := by
    intro heq
    rcases add_one_eq_iff_covBy.mp heq with hbelow | ⟨hmax, hzero⟩
    · exact absurd (hcov.1.trans_le hproper) (not_lt.mpr hbelow.1.le)
    · exact hwrap ⟨hzero, hmax⟩
  rw [addToSection, addLoop_skip hskip, List.nil_append, addLoop]
  refine ((if_neg hout).trans (if_neg hnext)).trans ?_
  refine (if_pos (sub_one_eq_iff_covBy.mpr hcov)).trans ?_
  rw [mergeLast_apart hfront, List.append_assoc, List.singleton_append]

/-- The loop passes all pieces, and the number becomes a piece of its own. -/
theorem addToSection_between (hcanonical : Canonical (front ++ back))
    (hfront : ∀ q ∈ front, ∃ c, q.highBound < c ∧ c < num)
    (hback : ∀ q ∈ back, ∃ c, num < c ∧ c < q.lowBound)
    (hwrap : ∀ q ∈ back, ¬ (num = 0 ∧ q.highBound = uint64Max)) :
    addToSection (front ++ back) num = front ++ ⟨num, num⟩ :: back := by
  have hskipFront : ∀ q ∈ front, Skipped num q := fun q hq =>
    skipped_of_below (hcanonical.proper q (List.mem_append_left _ hq)) (hfront q hq)
  have hskipBack : ∀ q ∈ back, Skipped num q := fun q hq =>
    skipped_of_above (hcanonical.proper q (List.mem_append_right _ hq)) (hback q hq) (hwrap q hq)
  have hcount : (front.countP fun p => p.highBound < num) = front.length := by
    rw [List.countP_eq_length]
    intro q hq
    obtain ⟨c, hqc, hcn⟩ := hfront q hq
    exact decide_eq_true (hqc.trans hcn)
  have hnone : (back.countP fun p => p.highBound < num) = 0 := by
    rw [List.countP_eq_zero]
    intro q hq
    obtain ⟨c, hnc, hcq⟩ := hback q hq
    have hproper := hcanonical.proper q (List.mem_append_right _ hq)
    simpa using ((hnc.trans hcq).trans_le hproper).le
  have hend := addLoop_skip hskipBack (0 + front.length) front []
  rw [hnone, List.append_nil] at hend
  rw [addToSection, addLoop_skip hskipFront, List.nil_append, hcount, hend, addLoop, Nat.add_zero,
    Nat.zero_add, List.take_left, List.drop_left]

end Evaluation

/-- The number extends the last piece below it, and perhaps joins it to the next. -/
theorem addToSection_below_spec {front back : Section} {p : Piece} {num : UInt64}
    (hcanonical : Canonical (front ++ p :: back)) (hcov : p.highBound ⋖ num)
    (hback : ∀ q ∈ back, num < q.lowBound) :
    Canonical (addToSection (front ++ p :: back) num) ∧
      ∀ v, Covers (addToSection (front ++ p :: back) num) v ↔
        v = num ∨ Covers (front ++ p :: back) v := by
  have hproper := hcanonical.proper p (by simp)
  obtain ⟨-, hrest, hcross⟩ := canonical_append.mp hcanonical
  obtain ⟨-, hapart, hcanonicalBack⟩ := canonical_cons.mp hrest
  have hfront : ∀ q ∈ front, ∀ high, Apart q ⟨p.lowBound, high⟩ := fun q hq high =>
    (hcross q hq p List.mem_cons_self).mono le_rfl le_rfl
  rw [addToSection_below hcanonical hcov]
  rcases hcanonicalBack.head_or_apart hback with ⟨q, tail, rfl, habove⟩ | hback'
  · have hq := hcanonicalBack.proper q List.mem_cons_self
    have htail := (canonical_cons.mp hcanonicalBack).2.1
    have hmerge : q.lowBound = num + 1 := (add_one_eq_iff_covBy.mpr (.inl habove)).symm
    have hresult : mergeNext { p with highBound := num } (q :: tail) =
        ⟨p.lowBound, q.highBound⟩ :: tail := if_pos hmerge
    rw [hresult]
    have hsplit : front ++ p :: q :: tail = front ++ ([p, q] ++ tail) := rfl
    rw [hsplit] at hcanonical ⊢
    apply hcanonical.insert
    · exact hproper.trans (hcov.1.le.trans (habove.1.le.trans hq))
    · exact fun r hr => hfront r hr _
    · exact fun r hr => (htail r hr).mono le_rfl le_rfl
    · intro v
      rw [between_of_covBy_both hproper hcov habove hq, covers_cons, covers_cons, covers_nil,
        or_false]
  · have hresult : mergeNext { p with highBound := num } back = ⟨p.lowBound, num⟩ :: back := by
      cases back with
      | nil => rfl
      | cons q tail =>
          apply if_neg
          intro hmerge
          obtain ⟨c, hnc, hcq⟩ := hback' q List.mem_cons_self
          rcases add_one_eq_iff_covBy.mp hmerge.symm with habove | ⟨-, hzero⟩
          · exact habove.2 hnc hcq
          · exact absurd hcq (hzero ▸ UInt64.not_lt.mpr UInt64.zero_le)
    rw [hresult]
    have hsplit : front ++ p :: back = front ++ ([p] ++ back) := rfl
    rw [hsplit] at hcanonical ⊢
    apply hcanonical.insert
    · exact hproper.trans hcov.1.le
    · exact fun r hr => hfront r hr _
    · exact hback'
    · intro v
      rw [between_of_covBy_high hproper hcov, covers_cons, covers_nil, or_false]

/-- Adding a number is adding it to the set, but for the exception. -/
theorem addToSection_spec {sec : Section} (hcanonical : Canonical sec) {num : UInt64}
    (hwrap : ¬ Wraps sec num) :
    Canonical (addToSection sec num) ∧
      ∀ v, Covers (addToSection sec num) v ↔ v = num ∨ Covers sec v := by
  by_cases hcovers : Covers sec num
  · obtain ⟨front, p, back, rfl, hlow, hhigh⟩ := covers_split hcovers
    rw [addToSection_covered hcanonical hlow hhigh]
    refine ⟨hcanonical, fun v => ⟨.inr, fun hv => ?_⟩⟩
    rcases hv with rfl | hv
    · exact hcovers
    · exact hv
  obtain ⟨front, back, rfl, hfront, hback⟩ := hcanonical.split hcovers
  obtain ⟨hcanonicalFront, hcanonicalBack, hcross⟩ := canonical_append.mp hcanonical
  rcases hcanonicalFront.last_or_apart hfront with ⟨init, p, rfl, hbelow⟩ | hfront'
  · rw [List.append_assoc, List.singleton_append] at hcanonical ⊢
    exact addToSection_below_spec hcanonical hbelow hback
  rcases hcanonicalBack.head_or_apart hback with ⟨q, tail, rfl, habove⟩ | hback'
  · have hq := hcanonicalBack.proper q List.mem_cons_self
    have htail := (canonical_cons.mp hcanonicalBack).2.1
    -- The piece behind 0 reaches the largest number only if it is the whole section.
    have hends : ¬ (num = 0 ∧ q.highBound = uint64Max) := by
      rintro ⟨rfl, hmax⟩
      have hwhole (v : UInt64) (hv : v ≠ 0) : Covers (front ++ q :: tail) v := by
        rw [covers_append, covers_cons]
        exact .inr (.inl ⟨habove.ge_of_gt (UInt64.pos_iff_ne_zero.mpr hv), hmax ▸ le_uint64Max v⟩)
      exact hwrap ⟨rfl, hwhole _ (by decide), hcovers, fun _ => hwhole⟩
    rw [addToSection_above hcanonical hfront' habove hends]
    have hsplit : front ++ q :: tail = front ++ ([q] ++ tail) := rfl
    rw [hsplit] at hcanonical ⊢
    apply hcanonical.insert
    · exact habove.1.le.trans hq
    · exact hfront'
    · exact fun r hr => (htail r hr).mono le_rfl le_rfl
    · intro v
      rw [between_of_covBy_low habove hq, covers_cons, covers_nil, or_false]
  · have hends : ∀ q ∈ back, ¬ (num = 0 ∧ q.highBound = uint64Max) := by
      rintro q hq ⟨rfl, hmax⟩
      refine hwrap ⟨rfl, ⟨q, List.mem_append_right _ hq, ?_, hmax.ge⟩, hcovers, ?_⟩
      · exact hmax ▸ hcanonicalBack.proper q hq
      -- Nothing before the number and nothing at its neighbour: 1 is not there.
      rintro ⟨r, hr, hlow, -⟩
      rcases List.mem_append.mp hr with hr | hr
      · exact absurd (hfront r hr) (UInt64.not_lt.mpr UInt64.zero_le)
      · obtain ⟨c, hzero, hcr⟩ := hback' r hr
        have hone : (0 : UInt64) ⋖ 1 := covBy_iff_toNat.mpr rfl
        exact absurd (hcr.trans_le hlow) (hone.2 hzero)
    rw [addToSection_between hcanonical hfront' hback' hends]
    have hsplit : front ++ back = front ++ ([] ++ back) := rfl
    rw [hsplit] at hcanonical ⊢
    apply hcanonical.insert
    · exact le_rfl
    · exact hfront'
    · exact hback'
    · intro v
      rw [covers_nil, or_false]
      exact ⟨fun h => le_antisymm h.2 h.1, fun h => ⟨h.ge, h.le⟩⟩

/-! ## Deleting -/

/-- What is left of a piece below the number. -/
def remainsBelow (num : UInt64) (piece : Piece) : Section :=
  if piece.lowBound < num then [⟨piece.lowBound, num - 1⟩] else []

/-- What is left of a piece above the number. -/
def remainsAbove (num : UInt64) (piece : Piece) : Section :=
  if num < piece.highBound then [⟨num + 1, piece.highBound⟩] else []

theorem deleteFromSection_cons_covered {num : UInt64} {piece : Piece} {rest : Section}
    (hlow : piece.lowBound ≤ num) (hhigh : num ≤ piece.highBound) :
    deleteFromSection num (piece :: rest) =
      (remainsBelow num piece ++ remainsAbove num piece) ++ rest := by
  rw [deleteFromSection, if_pos (show _ ∧ piece.highBound ≥ num from ⟨hlow, hhigh⟩), remainsBelow,
    remainsAbove]
  rcases hlow.lt_or_eq with hlow | hlow
  · rcases hhigh.lt_or_eq with hhigh | hhigh
    · simp [hlow, hhigh]
    · simp [hlow, ← hhigh]
  · rcases hhigh.lt_or_eq with hhigh | hhigh
    · simp [hlow, hhigh]
    · simp [hlow, hhigh]

theorem remainsBelow_spec (num : UInt64) (piece : Piece) :
    Canonical (remainsBelow num piece) ∧
      (∀ q ∈ remainsBelow num piece, q.highBound < num) ∧
      ∀ v, Covers (remainsBelow num piece) v ↔ piece.lowBound ≤ v ∧ v < num := by
  rw [remainsBelow]
  by_cases hlt : piece.lowBound < num
  · have hcov := covBy_sub_one hlt
    rw [if_pos hlt]
    refine ⟨canonical_cons.mpr ⟨hcov.le_of_lt hlt, List.forall_mem_nil _, canonical_nil⟩,
      List.forall_mem_singleton.mpr hcov.1, fun v => ?_⟩
    rw [covers_cons, covers_nil, or_false, hcov.lt_iff_le_left]
  · rw [if_neg hlt]
    refine ⟨canonical_nil, List.forall_mem_nil _, fun v => ?_⟩
    rw [covers_nil, false_iff]
    exact fun hv => hlt (hv.1.trans_lt hv.2)

theorem remainsAbove_spec (num : UInt64) (piece : Piece) :
    Canonical (remainsAbove num piece) ∧
      (∀ q ∈ remainsAbove num piece, num < q.lowBound ∧ q.highBound = piece.highBound) ∧
      ∀ v, Covers (remainsAbove num piece) v ↔ num < v ∧ v ≤ piece.highBound := by
  rw [remainsAbove]
  by_cases hlt : num < piece.highBound
  · have hcov := covBy_add_one hlt
    rw [if_pos hlt]
    refine ⟨canonical_cons.mpr ⟨hcov.ge_of_gt hlt, List.forall_mem_nil _, canonical_nil⟩,
      List.forall_mem_singleton.mpr ⟨hcov.1, rfl⟩, fun v => ?_⟩
    rw [covers_cons, covers_nil, or_false, hcov.lt_iff_le_right]
  · rw [if_neg hlt]
    refine ⟨canonical_nil, List.forall_mem_nil _, fun v => ?_⟩
    rw [covers_nil, false_iff]
    exact fun hv => hlt (hv.1.trans_le hv.2)

/-- Deleting a number is removing it from the set. -/
theorem deleteFromSection_spec {sec : Section} (hcanonical : Canonical sec) (num : UInt64) :
    Canonical (deleteFromSection num sec) ∧
      ∀ v, Covers (deleteFromSection num sec) v ↔ v ≠ num ∧ Covers sec v := by
  induction sec with
  | nil => exact ⟨canonical_nil, fun v => by simp [deleteFromSection]⟩
  | cons p rest ih =>
      obtain ⟨hp, hapart, hrest⟩ := canonical_cons.mp hcanonical
      by_cases hcovers : p.lowBound ≤ num ∧ p.highBound ≥ num
      · obtain ⟨hcanonicalBelow, hbelow, hvaluesBelow⟩ := remainsBelow_spec num p
        obtain ⟨hcanonicalAbove, habove, hvaluesAbove⟩ := remainsAbove_spec num p
        rw [deleteFromSection_cons_covered hcovers.1 hcovers.2]
        constructor
        · apply hcanonical.shrink
          · refine canonical_append.mpr ⟨hcanonicalBelow, hcanonicalAbove, fun q hq r hr => ?_⟩
            exact ⟨num, hbelow q hq, (habove r hr).1⟩
          · intro q hq
            rcases List.mem_append.mp hq with hq | hq
            · exact (hbelow q hq).le.trans hcovers.2
            · exact (habove q hq).2.le
        · intro v
          have hlater : Covers rest v → v ≠ num := fun hv =>
            (hcovers.2.trans_lt (hcanonical.lt_of_covers hv)).ne'
          rw [covers_append, covers_append, hvaluesBelow, hvaluesAbove, covers_cons]
          constructor
          · rintro ((⟨hlow, hlt⟩ | ⟨hlt, hhigh⟩) | hv)
            · exact ⟨hlt.ne, .inl ⟨hlow, hlt.le.trans hcovers.2⟩⟩
            · exact ⟨hlt.ne', .inl ⟨hcovers.1.trans hlt.le, hhigh⟩⟩
            · exact ⟨hlater hv, .inr hv⟩
          · rintro ⟨hne, ⟨hlow, hhigh⟩ | hv⟩
            · exact .inl (hne.lt_or_gt.imp (⟨hlow, ·⟩) (⟨·, hhigh⟩))
            · exact .inr hv
      · obtain ⟨hcanonical', hvalues⟩ := ih hrest
        rw [deleteFromSection, if_neg hcovers]
        refine ⟨hcanonical.cons_of_covers hcanonical' fun v hv => ((hvalues v).mp hv).2, ?_⟩
        intro v
        have hhere : p.lowBound ≤ v ∧ v ≤ p.highBound → v ≠ num := by
          rintro hv rfl
          exact hcovers hv
        rw [covers_cons, covers_cons, hvalues]
        tauto

end Hipft
