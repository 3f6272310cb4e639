import Hipft.Message.ParityLaws

/-! # Horizontal parity against another buffer

The parity bytes of one buffer accept another buffer of its length when no 4-byte word
differs between the two in an odd number of bits.
-/

namespace Hipft

open CMemory BitString ParityCheck

/-- There are no rows past the words of the buffer. -/
theorem row_eq_empty {len w : Nat} (hw : (len + 3) / 4 ≤ w) : row len w = ∅ := by
  rw [row, Finset.filter_eq_empty_iff]
  intro t ht
  rw [Finset.mem_range] at ht
  omega

/-- A row has the same sum in two buffers exactly when they differ in an even number of
its bits. -/
theorem rowSum_eq_iff {a b : Bytes} (hlength : a.length = b.length) (w : Nat) :
    rowSum a w = rowSum b w ↔ Even ((differing a b).filter fun t => t / 32 = w).card := by
  have hplaces : (row a.length w).filter (fun t => bitAt a t ≠ bitAt b t) =
      (differing a b).filter fun t => t / 32 = w := by
    ext t
    rw [row, differing, ← hlength, Nat.max_self, Finset.mem_filter, Finset.mem_filter,
      Finset.mem_filter, Finset.mem_filter]
    tauto
  rw [rowSum, rowSum, ← hlength, checkSum_eq_iff_even, hplaces]

/-- The bytes that `compute_hparity` fills for `a` pass `check_hparity` with `b` exactly
when every word differs in an even number of bits. -/
theorem checkHparity_computeHparity {a b : Bytes} {buflen : UInt64}
    (ha : buflen.toNat = a.length) (hb : buflen.toNat = b.length) :
    ∃ parity accepts, computeHparity a buflen = .ok parity ∧
      parity.length = (computeHparityLength buflen).toNat ∧
      checkHparity b buflen parity = .ok accepts ∧
      (accepts = true ↔ ∀ w, Even ((differing a b).filter fun t => t / 32 = w).card) := by
  obtain ⟨parity, hcompute, hroom, hodd⟩ := computeHparity_eq ha
  obtain ⟨accepts, hcheck, haccepts⟩ := checkHparity_eq hb (Nat.le_of_eq hroom.symm)
  have hlength : a.length = b.length := ha.symm.trans hb
  refine ⟨parity, accepts, hcompute, hroom, hcheck, haccepts.trans ?_⟩
  constructor
  · intro hpasses w
    rw [← rowSum_eq_iff hlength]
    by_cases hw : w < (computeHparityWords buflen).toNat
    · exact add_right_cancel ((hodd w hw).trans (hpasses w hw).symm)
    · have hpast : row a.length w = ∅ := by
        apply row_eq_empty
        rw [← ha, ← computeHparityWords_toNat]
        exact Nat.le_of_not_lt hw
      rw [rowSum, rowSum, ← hlength, hpast, checkSum, checkSum, Finset.sum_empty, Finset.sum_empty]
  · intro heven w hw
    rw [← (rowSum_eq_iff hlength w).mpr (heven w)]
    exact hodd w hw

/-- A buffer of five bytes against one with two bits of its last word changed. -/
theorem checkHparity_computeHparity_five :
    ∃ parity accepts, computeHparity [1, 2, 3, 4, 5] 5 = .ok parity ∧
      parity.length = (computeHparityLength 5).toNat ∧
      checkHparity [1, 2, 3, 4, 6] 5 parity = .ok accepts ∧
      (accepts = true ↔ ∀ w,
        Even ((differing [1, 2, 3, 4, 5] [1, 2, 3, 4, 6]).filter fun t => t / 32 = w).card) :=
  checkHparity_computeHparity rfl rfl

end Hipft
