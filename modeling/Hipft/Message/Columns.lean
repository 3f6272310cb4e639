import Hipft.Message.ParityLaws

/-! # The documented column parity

Vertical parity is documented as one bit for each of the 256 columns of a buffer in
32-byte words. The routine takes a column's byte modulo 32 of the bit's number where it
should take it by eights, and its mask shifts an `int`; so bit `n` of the result tells
the parity of another column, and only five columns are told at all.
-/

namespace Hipft

open CMemory BitString ParityCheck

/-- The 256-bit words of a buffer, the last one possibly partial, that have bit `n` set. -/
def columnOnes (buf : Bytes) (n : Nat) : Nat :=
  ((Finset.range ((buf.length + 31) / 32)).filter fun w =>
    (buf.getD (32 * w + n / 8) 0).toNat.testBit (n % 8)).card

/-- The column whose parity bit `n` of the result tells. -/
def visitedColumn (n : Nat) : Nat := 8 * min (n % 64) 31 + min (n % 64) 31 % 8

/-- The columns that share a bit of the result, by way of the columns visited for them. -/
def columnClass (n : Nat) : Nat := if n % 64 < 32 then min (n % 8) 4 else 4

theorem columnOnes_cast (buf : Bytes) (n : Nat) :
    (columnOnes buf n : ZMod 2) =
      ∑ w ∈ Finset.range ((buf.length + 31) / 32), bitAt buf (256 * w + n) := by
  have hbit : ∀ w, bitAt buf (256 * w + n) =
      if (buf.getD (32 * w + n / 8) 0).toNat.testBit (n % 8) then 1 else 0 := by
    intro w
    have hbyte : (256 * w + n) / 8 = 32 * w + n / 8 := by omega
    have hplace : (256 * w + n) % 8 = n % 8 := by omega
    rw [bitAt, byteBit, hbyte, hplace]
  rw [columnOnes, Finset.sum_congr rfl fun w _ => hbit w, Finset.sum_boole]

/-- The columns that the loops visit, among the documented ones. -/
theorem columnSum_eq (buf : Bytes) {c : Nat} (hc : c < 32) :
    columnSum buf c = (columnOnes buf (8 * c + c % 8) : ZMod 2) := by
  have hbit : ∀ t ∈ column buf.length c,
      t < 8 * buf.length ∧ t = 256 * (t / 256) + (8 * c + c % 8) := by
    intro t ht
    rw [column, Finset.mem_filter, Finset.mem_range] at ht
    omega
  rw [columnOnes_cast, columnSum, checkSum]
  apply Finset.sum_of_injOn (fun t => t / 256)
  · intro t ht u hu hsame
    have hsame : t / 256 = u / 256 := hsame
    rw [(hbit t ht).2, (hbit u hu).2, hsame]
  · intro t ht
    have hlt := (hbit t ht).1
    have hword : t / 256 < (buf.length + 31) / 32 := by omega
    exact Finset.mem_coe.mpr (Finset.mem_range.mpr hword)
  · intro w _ hmissed
    apply bitAt_eq_zero
    by_contra hlt
    have hword : (256 * w + (8 * c + c % 8)) / 256 = w := by omega
    have hplace : (256 * w + (8 * c + c % 8)) / 8 = 32 * w + c := by omega
    have hbyte : (256 * w + (8 * c + c % 8)) / 8 % 32 = c := by omega
    refine hmissed ⟨256 * w + (8 * c + c % 8), ?_, hword⟩
    rw [Finset.mem_coe, column, Finset.mem_filter, Finset.mem_range]
    exact ⟨Nat.lt_of_not_le hlt, hbyte, by omega⟩
  · intro t ht
    rw [← (hbit t ht).2]

theorem even_iff_cast_eq_zero (n : Nat) : Even n ↔ (n : ZMod 2) = 0 :=
  (ZMod.natCast_eq_zero_iff_even).symm

/-- Each bit of the result is set exactly when the column visited for it is even. -/
theorem computeVparity_visited {buf : Bytes} {buflen : UInt64}
    (hlen : buflen.toNat = buf.length) :
    ∃ parity, computeVparity buf buflen = .ok parity ∧ parity.length = 4 ∧
      ∀ n < 256, (parity.getD (n / 64) 0).toNat.testBit (n % 64) = true ↔
        Even (columnOnes buf (visitedColumn n)) := by
  obtain ⟨parity, hrun, hfour, hbits⟩ := computeVparity_eq hlen
  refine ⟨parity, hrun, hfour, ?_⟩
  intro n hn
  rw [hbits (n / 64) (by omega) (n % 64) (Nat.mod_lt _ (by decide)),
    columnSum_eq buf (by omega), even_iff_cast_eq_zero]
  rfl

/-! ## Where the documentation holds -/

theorem visitedColumn_mod (n : Nat) : visitedColumn (n % 64) = visitedColumn n := by
  rw [visitedColumn, visitedColumn, Nat.mod_mod]

theorem columnClass_mod (n : Nat) : columnClass (n % 64) = columnClass n := by
  rw [columnClass, columnClass, Nat.mod_mod, Nat.mod_mod_of_dvd n (by decide)]

theorem columnClass_visitedColumn (n : Nat) : columnClass (visitedColumn n) = columnClass n := by
  have hall : ∀ k : Fin 64, columnClass (visitedColumn k) = columnClass k := by decide
  rw [← visitedColumn_mod, ← columnClass_mod n]
  exact hall ⟨n % 64, Nat.mod_lt _ (by decide)⟩

/-- Visiting twice leads to one column for each class. -/
theorem visitedColumn_visitedColumn {m n : Nat} (hclass : columnClass m = columnClass n) :
    visitedColumn (visitedColumn m) = visitedColumn (visitedColumn n) := by
  have hall : ∀ j k : Fin 64, columnClass j = columnClass k →
      visitedColumn (visitedColumn j) = visitedColumn (visitedColumn k) := by decide +kernel
  rw [← visitedColumn_mod m, ← visitedColumn_mod n]
  rw [← columnClass_mod m, ← columnClass_mod n] at hclass
  exact hall ⟨m % 64, Nat.mod_lt _ (by decide)⟩ ⟨n % 64, Nat.mod_lt _ (by decide)⟩ hclass

theorem visitedColumn_lt (n : Nat) : visitedColumn n < 256 := by
  unfold visitedColumn
  omega

/-- Every column has the parity of the one visited for it exactly when the columns of each
class have one parity. -/
theorem forall_visitedColumn_iff (buf : Bytes) :
    (∀ n < 256, Even (columnOnes buf (visitedColumn n)) ↔ Even (columnOnes buf n)) ↔
      ∀ m < 256, ∀ n < 256, columnClass m = columnClass n →
        (Even (columnOnes buf m) ↔ Even (columnOnes buf n)) := by
  constructor
  · intro hvisited m hm n hn hclass
    have htwice : ∀ k < 256, Even (columnOnes buf (visitedColumn (visitedColumn k))) ↔
        Even (columnOnes buf k) :=
      fun k hk => (hvisited _ (visitedColumn_lt k)).trans (hvisited k hk)
    rw [← htwice m hm, ← htwice n hn, visitedColumn_visitedColumn hclass]
  · intro hclasses n hn
    exact hclasses _ (visitedColumn_lt n) n hn (columnClass_visitedColumn n)

/-- Bit `n` of the result is the documented one exactly when column `n` has the parity of the
column that is visited for it; and all of them are exactly when the columns fall into five
classes of one parity each. -/
theorem computeVparity_documented_iff {buf : Bytes} {buflen : UInt64}
    (hlen : buflen.toNat = buf.length) :
    ∃ parity, computeVparity buf buflen = .ok parity ∧ parity.length = 4 ∧
      (∀ n < 256, ((parity.getD (n / 64) 0).toNat.testBit (n % 64) = true ↔
          Even (columnOnes buf n)) ↔
        (Even (columnOnes buf (visitedColumn n)) ↔ Even (columnOnes buf n))) ∧
      ((∀ n < 256, (parity.getD (n / 64) 0).toNat.testBit (n % 64) = true ↔
          Even (columnOnes buf n)) ↔
        ∀ m < 256, ∀ n < 256, columnClass m = columnClass n →
          (Even (columnOnes buf m) ↔ Even (columnOnes buf n))) := by
  obtain ⟨parity, hrun, hfour, hbits⟩ := computeVparity_visited hlen
  have hbit : ∀ n < 256, ((parity.getD (n / 64) 0).toNat.testBit (n % 64) = true ↔
      Even (columnOnes buf n)) ↔
        (Even (columnOnes buf (visitedColumn n)) ↔ Even (columnOnes buf n)) := by
    intro n hn
    rw [hbits n hn]
  refine ⟨parity, hrun, hfour, hbit, ?_⟩
  rw [← forall_visitedColumn_iff]
  exact forall₂_congr hbit

theorem computeVparity_documented_iff_byte :
    ∃ parity, computeVparity [0x02] 1 = .ok parity ∧ parity.length = 4 ∧
      (∀ n < 256, ((parity.getD (n / 64) 0).toNat.testBit (n % 64) = true ↔
          Even (columnOnes [0x02] n)) ↔
        (Even (columnOnes [0x02] (visitedColumn n)) ↔ Even (columnOnes [0x02] n))) ∧
      ((∀ n < 256, (parity.getD (n / 64) 0).toNat.testBit (n % 64) = true ↔
          Even (columnOnes [0x02] n)) ↔
        ∀ m < 256, ∀ n < 256, columnClass m = columnClass n →
          (Even (columnOnes [0x02] m) ↔ Even (columnOnes [0x02] n))) :=
  computeVparity_documented_iff rfl

/-- Bit 1 of the only byte is set, and bit 1 of the parity too. -/
theorem not_computeVparity_documented :
    ¬ ∀ (buf : Bytes) (buflen : UInt64), buflen.toNat = buf.length →
      ∃ parity, computeVparity buf buflen = .ok parity ∧
        ∀ n < 256, (parity.getD (n / 64) 0).toNat.testBit (n % 64) = true ↔
          Even (columnOnes buf n) := by
  intro hall
  obtain ⟨parity, hrun, hbits⟩ := hall [0x02] 1 rfl
  obtain ⟨parity', hrun', -, hvisited⟩ := @computeVparity_visited [0x02] 1 rfl
  rw [hrun, Except.ok.injEq] at hrun'
  have hbit := hbits 1 (by decide)
  rw [hrun', hvisited 1 (by decide)] at hbit
  revert hbit
  decide

end Hipft
