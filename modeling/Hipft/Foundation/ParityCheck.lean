import Mathlib.Algebra.Field.ZMod
import Mathlib.Algebra.BigOperators.Ring.Finset
import Mathlib.Algebra.BigOperators.Ring.Nat

/-! # Parity checks

A check is a finite set of positions; its sum over a word is taken modulo two.
Two words have the same sum exactly when they differ in an even number of the
check's positions, so a check sees the odd changes inside it and no others.
-/

namespace ParityCheck

variable {ι κ : Type}

/-- The sum of a word over a check, modulo two. -/
def checkSum (check : Finset ι) (word : ι → ZMod 2) : ZMod 2 := ∑ t ∈ check, word t

theorem eq_zero_or_one (a : ZMod 2) : a = 0 ∨ a = 1 := by
  revert a
  decide

theorem sub_eq_indicator (a b : ZMod 2) : a - b = if a ≠ b then 1 else 0 := by
  revert a b
  decide

/-- Two words agree on a check exactly when the number of its positions in
which they differ is even. -/
theorem checkSum_eq_iff_even (check : Finset ι) (v w : ι → ZMod 2) :
    checkSum check v = checkSum check w ↔ Even (check.filter fun t => v t ≠ w t).card := by
  rw [← sub_eq_zero, checkSum, checkSum, ← Finset.sum_sub_distrib,
    Finset.sum_congr rfl fun t _ => sub_eq_indicator (v t) (w t), Finset.sum_boole,
    ZMod.natCast_eq_zero_iff_even]

section Classes

variable [DecidableEq κ]

/-- An odd number of positions meets some class of a partition oddly. -/
theorem exists_odd_class (s : Finset ι) (cls : ι → κ) (hodd : Odd s.card) :
    ∃ k, Odd (s.filter fun t => cls t = k).card := by
  by_contra hnone
  have heven : ∀ k, Even (s.filter fun t => cls t = k).card := by
    intro k
    rw [← Nat.not_odd_iff_even]
    exact fun hk => hnone ⟨k, hk⟩
  have hcard : Even s.card := by
    rw [Finset.card_eq_sum_card_image cls s]
    exact Finset.even_sum _ fun k _ => heven k
  exact (Nat.not_even_iff_odd.mpr hodd) hcard

/-- Two positions meet every class evenly exactly when they share theirs. -/
theorem even_class_pair_iff [DecidableEq ι] {a b : ι} (hne : a ≠ b) (cls : ι → κ) :
    (∀ k, Even (({a, b} : Finset ι).filter fun t => cls t = k).card) ↔ cls a = cls b := by
  constructor
  · intro heven
    by_contra hcls
    have hone : ({a, b} : Finset ι).filter (fun t => cls t = cls a) = {a} := by
      rw [Finset.filter_insert, if_pos rfl, Finset.filter_singleton, if_neg (Ne.symm hcls)]
      rfl
    have hcard := heven (cls a)
    rw [hone, Finset.card_singleton] at hcard
    exact absurd hcard (by decide)
  · intro hcls k
    by_cases hk : cls a = k
    · have hall : ({a, b} : Finset ι).filter (fun t => cls t = k) = {a, b} := by
        apply Finset.filter_true_of_mem
        intro t ht
        rcases Finset.mem_insert.mp ht with rfl | hb
        · exact hk
        · rw [Finset.mem_singleton.mp hb, ← hcls, hk]
      rw [hall, Finset.card_pair hne]
      decide
    · have hnone : ({a, b} : Finset ι).filter (fun t => cls t = k) = ∅ := by
        apply Finset.filter_false_of_mem
        intro t ht
        rcases Finset.mem_insert.mp ht with rfl | hb
        · exact hk
        · rw [Finset.mem_singleton.mp hb, ← hcls]
          exact hk
      rw [hnone, Finset.card_empty]
      exact Even.zero

end Classes

end ParityCheck
