import Hipft.Section.Arrays
import Mathlib.Order.Bounds.Defs

/-! # Sections as sets

On arrays whose pieces are canonical, adding and deleting are those of sets, but for 0
behind the largest number. As the values of a canonical section determine it, the order in
which numbers were added does not show.
-/

namespace Hipft

open CMemory Intervals

/-! ## Room -/

theorem toNat_add_two_le {p q : Piece} (hapart : Apart p q) :
    p.highBound.toNat + 2 ≤ q.lowBound.toNat := by
  obtain ⟨c, hpc, hcq⟩ := hapart
  have hpc := UInt64.lt_iff_toNat_lt.mp hpc
  have hcq := UInt64.lt_iff_toNat_lt.mp hcq
  omega

/-- The pieces lie above one another with room between them, and so they are few. -/
theorem canonical_room {sec : Section} (hcanonical : Canonical sec) :
    sec.length + 1 < 2 ^ 64 := by
  have hfew : ∀ p ∈ sec.head?, p.lowBound.toNat + 2 * sec.length ≤ 2 ^ 64 + 1 := by
    induction sec with
    | nil => exact nofun
    | cons p rest ih =>
        rintro _ ⟨⟩
        obtain ⟨hproper, hapart, hrest⟩ := canonical_cons.mp hcanonical
        have hproper := UInt64.le_iff_toNat_le.mp hproper
        have hlt := p.lowBound.toNat_lt
        cases rest with
        | nil =>
            rw [List.length_singleton]
            omega
        | cons q rest =>
            have hnext := ih hrest q rfl
            have hgap := toNat_add_two_le (hapart q List.mem_cons_self)
            rw [List.length_cons]
            omega
  cases sec with
  | nil => decide
  | cons p rest =>
      have hbound := hfew p rfl
      omega

/-! ## Adding -/

/-- In the exception what comes out is not a canonical section. -/
theorem not_canonical_of_wraps {sec : Section} (hcanonical : Canonical sec) {num : UInt64}
    (hwraps : Wraps sec num) : ¬ Canonical (addToSection sec num) := by
  obtain ⟨rfl, hmax, hzero, hwhole⟩ := hwraps
  by_cases hone : Covers sec 1
  · -- Everything but 0 is there, so the section is one piece.
    have hsec : sec = [⟨1, uint64Max⟩] := by
      apply hcanonical.eq_of_covers (canonical_cons.mpr
        ⟨le_uint64Max 1, List.forall_mem_nil _, canonical_nil⟩)
      intro v
      rw [covers_cons, covers_nil, or_false]
      constructor
      · intro hv
        refine ⟨?_, le_uint64Max v⟩
        rw [← not_lt]
        intro hlt
        have hv0 : v = 0 := by
          rw [← UInt64.toNat_inj]
          have hlt := UInt64.lt_iff_toNat_lt.mp hlt
          exact Nat.lt_one_iff.mp hlt
        exact hzero (hv0 ▸ hv)
      · rintro ⟨hlow, -⟩
        apply hwhole hone
        rintro rfl
        exact absurd hlow (by decide)
    subst hsec
    intro hresult
    exact absurd (hresult.proper ⟨1, 0⟩ (by decide)) (by decide)
  · obtain ⟨front, q, rfl, hq, hadd⟩ := addToSection_wraps hcanonical hmax hzero hone
    rw [hadd]
    intro hresult
    have hproper := hresult.proper { q with highBound := 0 } (by simp)
    have hlow : q.lowBound = 0 := UInt64.le_zero_iff.mp hproper
    exact hzero ⟨q, by simp, hlow.le, UInt64.zero_le⟩

/-- Adding to an array of canonical pieces is adding to their set exactly where it does not
meet the exception. -/
theorem addToSection_inserts {arr : SectionArray} {sec : Section} (hhas : arr.Has sec)
    (hcanonical : Canonical sec) (num : UInt64) :
    ∃ arr' sec', arr.addToSection num = .ok arr' ∧ arr'.Has sec' ∧
      ((Canonical sec' ∧ ∀ v, Covers sec' v ↔ v = num ∨ Covers sec v) ↔ ¬ Wraps sec num) := by
  obtain ⟨arr', hadd, hhas'⟩ := hhas.addToSection (canonical_room hcanonical) num
  refine ⟨arr', _, hadd, hhas', ?_, addToSection_spec hcanonical⟩
  intro hresult hwraps
  exact not_canonical_of_wraps hcanonical hwraps hresult.1

/-- An array with the largest number. -/
def maxArray : SectionArray := ⟨1, [some ⟨uint64Max, uint64Max⟩], false⟩

theorem maxArray_has : maxArray.Has [⟨uint64Max, uint64Max⟩] := ⟨rfl, rfl, nofun⟩

theorem canonical_max : Canonical [(⟨uint64Max, uint64Max⟩ : Piece)] :=
  canonical_cons.mpr ⟨le_rfl, List.forall_mem_nil _, canonical_nil⟩

theorem addToSection_inserts_max :
    ∃ arr' sec', maxArray.addToSection 5 = .ok arr' ∧ arr'.Has sec' ∧
      ((Canonical sec' ∧ ∀ v, Covers sec' v ↔ v = 5 ∨ Covers [⟨uint64Max, uint64Max⟩] v) ↔
        ¬ Wraps [⟨uint64Max, uint64Max⟩] 5) :=
  addToSection_inserts maxArray_has canonical_max 5

/-- Adding 0 to the largest number gives a piece that ends below where it begins. -/
theorem addToSection_inserts_zero :
    ¬ ∀ (arr : SectionArray) (sec : Section) (num : UInt64), arr.Has sec → Canonical sec →
      ∃ arr' sec', arr.addToSection num = .ok arr' ∧ arr'.Has sec' ∧ Canonical sec' ∧
        ∀ v, Covers sec' v ↔ v = num ∨ Covers sec v := by
  intro hevery
  obtain ⟨arr', sec', hadd, hhas, hcanonical, -⟩ :=
    hevery maxArray [⟨uint64Max, uint64Max⟩] 0 maxArray_has canonical_max
  have hrun : maxArray.addToSection 0 = .ok ⟨1, [some ⟨uint64Max, 0⟩], false⟩ := by decide
  rw [hrun, Except.ok.injEq] at hadd
  subst hadd
  have hsec : [⟨uint64Max, 0⟩] = sec' := List.map_injective_iff.mpr (Option.some_injective _)
    hhas.pieces
  exact absurd (hcanonical.proper ⟨uint64Max, 0⟩ (by simp [← hsec])) (by decide)

/-! ## Deleting -/

theorem deleteFromSection_of_not_covers {sec : Section} {num : UInt64}
    (hnum : ¬ Covers sec num) : deleteFromSection num sec = sec := by
  induction sec with
  | nil => rfl
  | cons piece rest ih =>
      rw [covers_cons, not_or] at hnum
      rw [deleteFromSection, if_neg hnum.1, ih hnum.2]

/-- Deleting from an array of canonical pieces is deleting from their set; a number that is
not there leaves the array as it is. -/
theorem deleteFromSection_removes {arr : SectionArray} {sec : Section} (hhas : arr.Has sec)
    (hcanonical : Canonical sec) (num : UInt64) :
    ∃ arr' sec', arr.deleteFromSection num = .ok arr' ∧
      (arr'.pieces = sec'.map some ∧ arr'.numPieces.toNat = sec'.length) ∧ Canonical sec' ∧
      (∀ v, Covers sec' v ↔ v ≠ num ∧ Covers sec v) ∧ (¬ Covers sec num → arr' = arr) := by
  obtain ⟨arr', hdelete, hhas', -⟩ := hhas.deleteFromSection (canonical_room hcanonical) num
  obtain ⟨hcanonical', hvalues⟩ := deleteFromSection_spec hcanonical num
  refine ⟨arr', _, hdelete, ⟨hhas'.pieces, hhas'.numPieces⟩, hcanonical', hvalues, ?_⟩
  intro hnum
  rw [deleteFromSection_of_not_covers hnum] at hhas'
  apply hhas'.eq hhas
  cases sec with
  | nil =>
      rw [SectionArray.deleteFromSection, hhas.numPieces] at hdelete
      cases hdelete
      rfl
  | cons piece rest => rw [hhas.freed_eq_false (by simp), hhas'.freed_eq_false (by simp)]

/-- Three pieces. -/
def piecesArray : SectionArray := ⟨3, [some ⟨1, 2⟩, some ⟨5, 9⟩, some ⟨12, 12⟩], false⟩

/-- The piece in the middle is split. -/
theorem deleteFromSection_removes_split :
    piecesArray.deleteFromSection 7 =
        .ok ⟨4, [some ⟨1, 2⟩, some ⟨5, 6⟩, some ⟨8, 9⟩, some ⟨12, 12⟩], false⟩ ∧
      Canonical [(⟨1, 2⟩ : Piece), ⟨5, 6⟩, ⟨8, 9⟩, ⟨12, 12⟩] ∧
      ∀ v, Covers [(⟨1, 2⟩ : Piece), ⟨5, 6⟩, ⟨8, 9⟩, ⟨12, 12⟩] v ↔
        v ≠ 7 ∧ Covers [⟨1, 2⟩, ⟨5, 9⟩, ⟨12, 12⟩] v := by
  have hcanonical : Canonical [(⟨1, 2⟩ : Piece), ⟨5, 9⟩, ⟨12, 12⟩] := by
    refine canonical_cons.mpr ⟨by decide, ?_, canonical_cons.mpr ⟨by decide, ?_,
      canonical_cons.mpr ⟨le_rfl, List.forall_mem_nil _, canonical_nil⟩⟩⟩
    · rw [List.forall_mem_cons, List.forall_mem_singleton]
      exact ⟨⟨3, by decide, by decide⟩, 3, by decide, by decide⟩
    · exact List.forall_mem_singleton.mpr ⟨10, by decide, by decide⟩
  have hhas : piecesArray.Has [⟨1, 2⟩, ⟨5, 9⟩, ⟨12, 12⟩] := ⟨rfl, rfl, nofun⟩
  have hrun : piecesArray.deleteFromSection 7 =
      .ok ⟨4, [some ⟨1, 2⟩, some ⟨5, 6⟩, some ⟨8, 9⟩, some ⟨12, 12⟩], false⟩ := by decide
  obtain ⟨arr', sec', hdelete, ⟨hpieces, -⟩, hcanonical', hcovers, -⟩ :=
    deleteFromSection_removes hhas hcanonical 7
  rw [hrun, Except.ok.injEq] at hdelete
  subst hdelete
  obtain rfl : [⟨1, 2⟩, ⟨5, 6⟩, ⟨8, 9⟩, ⟨12, 12⟩] = sec' :=
    List.map_injective_iff.mpr (Option.some_injective _) hpieces
  exact ⟨hrun, hcanonical', hcovers⟩

/-! ## Orders of arrival -/

/-- The numbers are added one after the other to a new section. -/
def SectionArray.addAll (rs : List UInt64) : CRun SectionArray :=
  rs.foldlM SectionArray.addToSection .create

/-- Below the largest number there is no exception. -/
theorem noWrap_of_below {rs : List UInt64} (hbelow : ∀ num ∈ rs, num < uint64Max) :
    NoWrap rs := by
  rintro front back rfl - hmax
  exact absurd (hbelow uint64Max (List.mem_append_left _ hmax)) (lt_irrefl _)

theorem SectionArray.addAll_has {rs : List UInt64} (hnowrap : NoWrap rs) :
    ∃ arr, SectionArray.addAll rs = .ok arr ∧ arr.Has (Hipft.addAll rs) ∧
      arr.freed = false := by
  induction rs using List.reverseRecOn with
  | nil => exact ⟨.create, rfl, create_has, rfl⟩
  | append_singleton rs num ih =>
      obtain ⟨arr, hrun, hhas, -⟩ := ih hnowrap.of_append
      have hcanonical := (addAll_spec hnowrap.of_append).1
      obtain ⟨arr', hadd, hhas'⟩ := hhas.addToSection (canonical_room hcanonical) num
      refine ⟨arr', ?_, addAll_concat rs num ▸ hhas',
        hhas'.freed_eq_false (addToSection_ne_nil _ num)⟩
      rw [SectionArray.addAll, List.foldlM_append, ← SectionArray.addAll, hrun, ok_bind,
        List.foldlM_cons, hadd, ok_bind, List.foldlM_nil]
      rfl

/-- Lists of the same numbers below the largest one end in the same array. Its first low is
the least number, its last continual high the end of the numbers that follow on from it,
and it has a piece unless the lists are empty. -/
theorem addAll_order {rs rs' : List UInt64} (hbelow : ∀ num ∈ rs, num < uint64Max)
    (hsame : ∀ num, num ∈ rs ↔ num ∈ rs') :
    ∃ arr, SectionArray.addAll rs = .ok arr ∧ SectionArray.addAll rs' = .ok arr ∧
      (rs ≠ [] → ∃ low high, arr.firstLowInSection = .ok low ∧ IsLeast {num | num ∈ rs} low ∧
        arr.lastContinualHighInSection = .ok high ∧
        IsGreatest {k | low ≤ k ∧ ∀ num, low ≤ num → num ≤ k → num ∈ rs} high) ∧
      ∃ first, arr.getPieceInSection 0 = .ok first ∧ (first = none ↔ rs = []) := by
  have hbelow' : ∀ num ∈ rs', num < uint64Max := fun num hnum => hbelow num ((hsame num).mpr hnum)
  obtain ⟨arr, hrun, hhas, hfreed⟩ := SectionArray.addAll_has (noWrap_of_below hbelow)
  obtain ⟨arr', hrun', hhas', hfreed'⟩ := SectionArray.addAll_has (noWrap_of_below hbelow')
  obtain ⟨hcanonical, hvalues⟩ := addAll_spec (noWrap_of_below hbelow)
  obtain ⟨hcanonical', hvalues'⟩ := addAll_spec (noWrap_of_below hbelow')
  -- Both sections are canonical and have the same values.
  have hsec : addAll rs = addAll rs' := by
    apply hcanonical.eq_of_covers hcanonical'
    intro v
    rw [hvalues, hvalues', hsame]
  rw [← hsec] at hhas'
  refine ⟨arr, hrun, hhas.eq hhas' (hfreed.trans hfreed'.symm) ▸ hrun', ?_⟩
  cases hpieces : addAll rs with
  | nil =>
      rw [hpieces] at hhas hvalues
      have hempty : rs = [] := by
        rw [List.eq_nil_iff_forall_not_mem]
        intro num hnum
        exact (covers_nil num).mp ((hvalues num).mpr hnum)
      exact ⟨fun hne => absurd hempty hne, none, hhas.nothing, iff_of_true rfl hempty⟩
  | cons piece rest =>
      rw [hpieces] at hhas hvalues hcanonical
      obtain ⟨hlow, hhigh, hfirst⟩ := hhas.first
      have hproper := hcanonical.proper piece List.mem_cons_self
      have hleast : piece.lowBound ∈ rs :=
        (hvalues _).mp ⟨piece, List.mem_cons_self, le_rfl, hproper⟩
      refine ⟨fun _ => ⟨piece.lowBound, piece.highBound, hlow, ⟨hleast, ?_⟩, hhigh, ⟨hproper, ?_⟩,
        ?_⟩, some piece, hfirst, iff_of_false nofun (List.ne_nil_of_mem hleast)⟩
      · intro num hnum
        exact hcanonical.low_le ((hvalues num).mpr hnum)
      · intro num hlow hhigh
        exact (hvalues num).mp ⟨piece, List.mem_cons_self, hlow, hhigh⟩
      · rintro k ⟨-, hall⟩
        apply hcanonical.le_high
        intro num hlow hk
        exact (hvalues num).mpr (hall num hlow hk)

/-- Two orders of four numbers, one of them twice. -/
theorem addAll_order_four :
    ∃ arr, SectionArray.addAll [5, 7, 6, 2] = .ok arr ∧
      SectionArray.addAll [2, 5, 6, 2, 7] = .ok arr ∧
      (([5, 7, 6, 2] : List UInt64) ≠ [] → ∃ low high, arr.firstLowInSection = .ok low ∧
        IsLeast {num : UInt64 | num ∈ [5, 7, 6, 2]} low ∧
        arr.lastContinualHighInSection = .ok high ∧
        IsGreatest {k : UInt64 | low ≤ k ∧ ∀ num, low ≤ num → num ≤ k → num ∈ [5, 7, 6, 2]}
          high) ∧
      ∃ first, arr.getPieceInSection 0 = .ok first ∧
        (first = none ↔ ([5, 7, 6, 2] : List UInt64) = []) := by
  have hbelow : List.Forall (· < uint64Max) [5, 7, 6, 2] := by decide
  have hforth : List.Forall (· ∈ [2, 5, 6, 2, 7]) [(5 : UInt64), 7, 6, 2] := by decide
  have hback : List.Forall (· ∈ [5, 7, 6, 2]) [(2 : UInt64), 5, 6, 2, 7] := by decide
  rw [List.forall_iff_forall_mem] at hbelow hforth hback
  exact addAll_order hbelow fun num => ⟨hforth num, hback num⟩

end Hipft
