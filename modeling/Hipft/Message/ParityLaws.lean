import Mathlib.Algebra.BigOperators.Group.Finset.Basic
import Mathlib.Data.List.GetD
import Hipft.Foundation.BitString
import Hipft.Foundation.ParityCheck
import Hipft.Message.Parity

/-! # What the parity routines compute

A buffer is a string of bits. The columns that the code sums are the 32 given by
a byte index modulo 32 together with the bit of the same number modulo eight; a
row is a 4-byte word. Each routine is described by the sums of these checks.
-/

namespace Hipft

open CMemory BitString ParityCheck

/-- The bits that the loop of column `c` visits in a buffer of `len` bytes. -/
def column (len c : Nat) : Finset Nat :=
  (Finset.range (8 * len)).filter fun t => t / 8 % 32 = c ∧ t % 8 = c % 8

/-- The bits of the 4-byte word `w`. -/
def row (len w : Nat) : Finset Nat := (Finset.range (8 * len)).filter fun t => t / 32 = w

def columnSum (buf : Bytes) (c : Nat) : ZMod 2 := checkSum (column buf.length c) (bitAt buf)

def rowSum (buf : Bytes) (w : Nat) : ZMod 2 := checkSum (row buf.length w) (bitAt buf)

/-- The parity bit of column `c` in one of the stored words. -/
def storedColumn (word : UInt64) (c : Nat) : ZMod 2 := if word &&& parityMask c ≠ 0 then 1 else 0

/-! ## The sums of the loops -/

theorem foldl_count_cast (p : Nat → Bool) (l : List Nat) (start : Nat) :
    ((l.foldl (fun total j => if p j then total + 1 else total) start : Nat) : ZMod 2) =
      start + (l.map fun j => if p j then (1 : ZMod 2) else 0).sum := by
  induction l generalizing start with
  | nil => simp
  | cons j rest ih =>
      rw [List.foldl_cons, ih, List.map_cons, List.sum_cons]
      cases p j with
      | false => simp
      | true =>
          push_cast
          simp [add_assoc]

/-- The column loop ends inside the buffer with the sum of its column. -/
theorem columnTotal_eq {buf : Bytes} {buflen : UInt64} (hlen : buflen.toNat = buf.length)
    (i : Nat) : ∃ n, columnTotal buf buflen i = .ok n ∧ (n : ZMod 2) = columnSum buf (i % 32) := by
  have hbit : i % 8 < 8 := Nat.mod_lt _ (by decide)
  have hpass : ∀ j ∈ forIndices (i % 32) buflen.toNat 32, ∀ total : Nat,
      (do let byte ← readAt buf j
          pure (if byte &&& 1 <<< UInt8.ofNat (i % 8) ≠ 0 then total + 1 else total) : CRun Nat) =
        .ok (if decide (byteBit (buf.getD j 0) (i % 8) = 1) then total + 1 else total) := by
    intro j hj total
    obtain ⟨-, hstop, -⟩ := (mem_forIndices (by decide)).mp hj
    have hj : j < buf.length := hlen ▸ hstop
    rw [readAt_of_lt hj, ok_bind, pure_eq_ok, List.getD_eq_getElem _ _ hj]
    simp only [and_mask_ne_zero hbit, decide_eq_true_eq]
  refine ⟨_, foldlM_eq_ok hpass 0, ?_⟩
  rw [foldl_count_cast, Nat.cast_zero, zero_add,
    ← List.sum_toFinset _ (nodup_forIndices (by decide)), columnSum, checkSum]
  -- Byte index `j` of the loop is bit `8 * j + i % 8` of the buffer.
  apply Finset.sum_nbij' (fun j => 8 * j + i % 8) (fun t => t / 8)
  · intro j hj
    rw [List.mem_toFinset, mem_forIndices (by decide)] at hj
    have hbyte : (8 * j + i % 8) / 8 = j := by omega
    have hmod : (8 * j + i % 8) % 8 = i % 32 % 8 := by omega
    rw [column, Finset.mem_filter, Finset.mem_range, hbyte]
    exact ⟨by omega, by omega, hmod⟩
  · intro t ht
    rw [column, Finset.mem_filter, Finset.mem_range] at ht
    rw [List.mem_toFinset, mem_forIndices (by decide)]
    omega
  · intro j hj
    omega
  · intro t ht
    rw [column, Finset.mem_filter, Finset.mem_range] at ht
    omega
  · intro j hj
    rw [bitAt_of_byte hbit]
    generalize byteBit (buf.getD j 0) (i % 8) = bit
    rcases eq_zero_or_one bit with rfl | rfl
    · rfl
    · rfl

/-- Two look-ups in the nibble table count the bits of a byte. -/
theorem bitTable_byte (byte : UInt8) : ∃ high low,
    readAt bitTable (byte >>> 4).toNat = .ok high ∧
    readAt bitTable (byte &&& 0xF).toNat = .ok low ∧
    ((high + low : Nat) : ZMod 2) = ∑ k ∈ Finset.range 8, byteBit byte k := by
  have hhigh : ∀ n : Fin 256, (UInt8.ofNat n >>> 4).toNat < 16 := by decide +kernel
  have hlow : ∀ n : Fin 256, (UInt8.ofNat n &&& 0xF).toNat < 16 := by decide +kernel
  have hsum : ∀ n : Fin 256,
      ((bitTable.getD (UInt8.ofNat n >>> 4).toNat 0 +
        bitTable.getD (UInt8.ofNat n &&& 0xF).toNat 0 : Nat) : ZMod 2) =
      ∑ k ∈ Finset.range 8, byteBit (UInt8.ofNat n) k := by decide +kernel
  have hbyte : UInt8.ofNat byte.toNat = byte := UInt8.ofNat_toNat
  have hhigh := hhigh ⟨byte.toNat, byte.toNat_lt⟩
  have hlow := hlow ⟨byte.toNat, byte.toNat_lt⟩
  have hsum := hsum ⟨byte.toNat, byte.toNat_lt⟩
  rw [hbyte] at hhigh hlow hsum
  refine ⟨_, _, readAt_of_lt hhigh, readAt_of_lt hlow, ?_⟩
  rw [← hsum, List.getD_eq_getElem _ _ hhigh, List.getD_eq_getElem _ _ hlow]

theorem sum_range_bytes (f : Nat → ZMod 2) (n : Nat) :
    ∑ t ∈ Finset.range (8 * n), f t =
      ∑ j ∈ Finset.range n, ∑ k ∈ Finset.range 8, f (8 * j + k) := by
  induction n with
  | zero => rfl
  | succ n ih =>
      rw [Nat.mul_succ, Finset.sum_range_add, ih]
      exact (Finset.sum_range_succ _ n).symm

/-- A row is thirty-two consecutive bits; those past the end are zero. -/
theorem rowSum_eq (buf : Bytes) (w : Nat) :
    rowSum buf w =
      ∑ j ∈ Finset.range 4, ∑ k ∈ Finset.range 8, byteBit (buf.getD (w * 4 + j) 0) k := by
  have hwindow : rowSum buf w = ∑ t ∈ Finset.range 32, bitAt buf (32 * w + t) := by
    rw [rowSum, checkSum, row, ← Finset.sum_filter_add_sum_filter_not (Finset.range 32)
      (fun t => 32 * w + t < 8 * buf.length),
      Finset.sum_eq_zero (s := (Finset.range 32).filter fun t => ¬32 * w + t < 8 * buf.length),
      add_zero]
    · apply Finset.sum_nbij' (fun t => t - 32 * w) (fun t => 32 * w + t)
      · intro t ht
        rw [Finset.mem_filter, Finset.mem_range] at ht ⊢
        omega
      · intro t ht
        rw [Finset.mem_filter, Finset.mem_range] at ht ⊢
        omega
      · intro t ht
        rw [Finset.mem_filter, Finset.mem_range] at ht
        omega
      · intro t ht
        omega
      · intro t ht
        rw [Finset.mem_filter, Finset.mem_range] at ht
        have hplace : 32 * w + (t - 32 * w) = t := by omega
        rw [hplace]
    · intro t ht
      exact bitAt_eq_zero (Nat.le_of_not_lt (Finset.mem_filter.mp ht).2)
  have hbyte : ∀ j, ∑ k ∈ Finset.range 8, bitAt buf (32 * w + (8 * j + k)) =
      ∑ k ∈ Finset.range 8, byteBit (buf.getD (w * 4 + j) 0) k := by
    intro j
    apply Finset.sum_congr rfl
    intro k hk
    have hplace : 32 * w + (8 * j + k) = 8 * (w * 4 + j) + k := by omega
    rw [hplace, bitAt_of_byte (Finset.mem_range.mp hk)]
  have hbits : 32 = 8 * 4 := rfl
  rw [hwindow, hbits, sum_range_bytes]
  exact Finset.sum_congr rfl fun j _ => hbyte j

/-- What the word loop has added after the bytes `done` of word `i`. -/
def wordSum (buf : Bytes) (i : Nat) (done : List Nat) : ZMod 2 :=
  (done.map fun j => ∑ k ∈ Finset.range 8, byteBit (buf.getD (i * 4 + j) 0) k).sum

theorem wordPass_eq {buf : Bytes} {buflen : UInt64} (hlen : buflen.toNat = buf.length)
    {i j start total : Nat} {done : List Nat}
    (htotal : (total : ZMod 2) = start + wordSum buf i done) :
    ∃ total', wordPass buf buflen i total j = .ok total' ∧
      (total' : ZMod 2) = start + wordSum buf i (done ++ [j]) := by
  rw [wordSum, List.map_append, List.sum_append, List.map_singleton, List.sum_singleton,
    ← wordSum, ← add_assoc, ← htotal]
  by_cases hj : i * 4 + j < buflen.toNat
  · have hin : i * 4 + j < buf.length := hlen ▸ hj
    obtain ⟨high, low, hhigh, hlow, hsum⟩ := bitTable_byte buf[i * 4 + j]
    refine ⟨total + (high + low), ?_, ?_⟩
    · rw [wordPass, if_pos hj, readAt_of_lt hin, ok_bind, hhigh, ok_bind, hlow, ok_bind,
        pure_eq_ok]
    · rw [Nat.cast_add, hsum, List.getD_eq_getElem _ _ hin]
  · refine ⟨total, by rw [wordPass, if_neg hj]; rfl, ?_⟩
    have hzero : buf.getD (i * 4 + j) 0 = 0 := List.getD_eq_default _ _ (by omega)
    have hbits : ∀ k ∈ Finset.range 8, byteBit 0 k = 0 := by decide
    rw [hzero, Finset.sum_eq_zero hbits, add_zero]

/-- The word loop adds the row of the word to what it starts from. -/
theorem wordTotal_eq {buf : Bytes} {buflen : UInt64} (hlen : buflen.toNat = buf.length)
    (i start : Nat) :
    ∃ n, wordTotal buf buflen i start = .ok n ∧ (n : ZMod 2) = start + rowSum buf i := by
  rw [rowSum_eq]
  exact foldlM_invariant (fun done (total : Nat) => (total : ZMod 2) = start + wordSum buf i done)
    (fun _ _ _ _ htotal => wordPass_eq hlen htotal) (by simp [wordSum])

/-! ## Vertical parity -/

theorem parityMask_mod (i : Nat) : parityMask i = parityMask (i % 32) := by
  have hall : ∀ k : Fin 64, parityMask k = parityMask (k % 32) := by decide +kernel
  have hwrap : parityMask i = parityMask (i % 64) := by
    rw [parityMask, parityMask, Nat.mod_mod]
  rw [hwrap, hall ⟨i % 64, Nat.mod_lt _ (by decide)⟩]
  congr 1
  exact Nat.mod_mod_of_dvd i (by decide)

/-- Bit `i` of a word belongs to column `i`, and from bit 31 on to column 31,
whose mask is the sign extension of the topmost `int`. -/
theorem parityMask_testBit {c i : Nat} (hc : c < 32) (hi : i < 64) :
    (parityMask c).toNat.testBit i = decide (min i 31 = c) := by
  have hall : ∀ (c : Fin 32) (i : Fin 64),
      (parityMask c).toNat.testBit i = decide (min i.val 31 = c.val) := by decide +kernel
  exact hall ⟨c, hc⟩ ⟨i, hi⟩

theorem storedColumn_eq_one {word : UInt64} {c : Nat} (hc : c < 32) :
    storedColumn word c = 1 ↔ ∃ i < 64, word.toNat.testBit i = true ∧ min i 31 = c := by
  have hbit (i : Nat) : (word &&& parityMask c).toNat.testBit i = true ↔
      i < 64 ∧ word.toNat.testBit i = true ∧ min i 31 = c := by
    rw [UInt64.toNat_and, Nat.testBit_and, Bool.and_eq_true]
    by_cases hi : i < 64
    · rw [parityMask_testBit hc hi, decide_eq_true_eq]
      exact ⟨fun h => ⟨hi, h⟩, fun h => h.2⟩
    · have hpow : 2 ^ 64 ≤ 2 ^ i := Nat.pow_le_pow_right (by decide) (by omega)
      rw [Nat.testBit_lt_two_pow (Nat.lt_of_lt_of_le word.toNat_lt hpow)]
      simp [hi]
  have hzero : word &&& parityMask c = 0 ↔ (word &&& parityMask c).toNat = 0 := by
    rw [← UInt64.toNat_inj]
    rfl
  have hstored : storedColumn word c = 1 ↔ word &&& parityMask c ≠ 0 := by
    unfold storedColumn
    split <;> simp_all
  rw [hstored, Ne, hzero]
  constructor
  · intro hne
    obtain ⟨i, hi⟩ := Nat.exists_testBit_of_ne_zero hne
    exact ⟨i, (hbit i).mp hi⟩
  · rintro ⟨i, hi⟩ hnone
    have hset := (hbit i).mpr hi
    rw [hnone, Nat.zero_testBit] at hset
    cases hset

theorem cast_mod_two_eq_zero {n : Nat} : n % 2 = 0 ↔ (n : ZMod 2) = 0 := by
  rw [ZMod.natCast_eq_zero_iff_even, Nat.even_iff]

theorem ne_zero_iff_eq_one (a : ZMod 2) : ¬a = 0 ↔ a = 1 := by
  revert a
  decide

theorem add_one_eq_iff {a b : ZMod 2} : a + b = 1 ↔ (b = 1 ↔ a = 0) := by
  revert a b
  decide

/-- The stored words after the passes `done`: a bit is set in a word when one of
the word's passes over its column is done and the column is even. -/
def VparityInv (buf : Bytes) (done : List Nat) (parity : List UInt64) : Prop :=
  parity.length = 4 ∧ ∀ w < 4, ∀ i < 64, ((parity.getD w 0).toNat.testBit i = true ↔
    (∃ j ∈ done, j / 64 = w ∧ j % 32 = min i 31) ∧ columnSum buf (min i 31) = 0)

theorem vparityPass_inv {buf : Bytes} {buflen : UInt64} (hlen : buflen.toNat = buf.length)
    {j : Nat} (hj : j < 256) {done : List Nat} {parity : List UInt64}
    (hinv : VparityInv buf done parity) :
    ∃ parity', vparityPass buf buflen parity j = .ok parity' ∧
      VparityInv buf (done ++ [j]) parity' := by
  obtain ⟨hfour, hbits⟩ := hinv
  obtain ⟨total, htotal, hsum⟩ := columnTotal_eq hlen j
  have hdone : ∀ w c, (∃ k ∈ done ++ [j], k / 64 = w ∧ k % 32 = c) ↔
      (∃ k ∈ done, k / 64 = w ∧ k % 32 = c) ∨ (j / 64 = w ∧ j % 32 = c) := by
    intro w c
    simp only [List.mem_append, List.mem_singleton, or_and_right, exists_or, exists_eq_left]
  rw [vparityPass, htotal, ok_bind]
  by_cases heven : total % 2 = 0
  · have hzero : columnSum buf (j % 32) = 0 := by
      rw [← hsum, ← cast_mod_two_eq_zero]
      exact heven
    rw [if_pos heven, modifyAt_of_lt _ (by omega)]
    refine ⟨_, rfl, by rw [List.length_modify, hfour], ?_⟩
    intro w hw i hi
    rw [getD_modify _ (by omega), hdone]
    by_cases hword : j / 64 = w
    · rw [if_pos hword, parityMask_mod, UInt64.toNat_or, Nat.testBit_or, Bool.or_eq_true,
        parityMask_testBit (Nat.mod_lt _ (by decide)) hi, decide_eq_true_eq, hbits w hw i hi,
        or_and_right]
      apply or_congr Iff.rfl
      constructor
      · intro hcolumn
        exact ⟨⟨hword, hcolumn.symm⟩, hcolumn ▸ hzero⟩
      · exact fun h => h.1.2.symm
    · rw [if_neg hword, hbits w hw i hi]
      simp only [hword, false_and, or_false]
  · have hodd : columnSum buf (j % 32) ≠ 0 := by
      rw [← hsum, Ne, ← cast_mod_two_eq_zero]
      exact heven
    rw [if_neg heven]
    refine ⟨parity, rfl, hfour, ?_⟩
    intro w hw i hi
    rw [hbits w hw i hi, hdone, or_and_right]
    constructor
    · exact .inl
    · rintro (hprior | ⟨⟨-, hcolumn⟩, hzero⟩)
      · exact hprior
      · exact absurd (hcolumn ▸ hzero) hodd

/-- In each of the words that `compute_vparity` fills the bits of a column are
set exactly when the column is even: a word has one mask for two of its 64
passes, and both compute the parity of one column. -/
theorem computeVparity_eq {buf : Bytes} {buflen : UInt64} (hlen : buflen.toNat = buf.length) :
    ∃ parity, computeVparity buf buflen = .ok parity ∧ parity.length = 4 ∧
      ∀ w < 4, ∀ i < 64,
        ((parity.getD w 0).toNat.testBit i = true ↔ columnSum buf (min i 31) = 0) := by
  have hstart : VparityInv buf [] (List.replicate 4 0) := by
    refine ⟨rfl, ?_⟩
    intro w hw i hi
    rw [List.getD_replicate _ hw]
    simp
  obtain ⟨parity, hrun, hfour, hbits⟩ := foldlM_invariant (VparityInv buf)
    (fun _ _ hj _ hinv => vparityPass_inv hlen (List.mem_range.mp hj) hinv) hstart
  refine ⟨parity, hrun, hfour, ?_⟩
  intro w hw i hi
  rw [hbits w hw i hi]
  constructor
  · exact And.right
  · intro hzero
    exact ⟨⟨64 * w + min i 31, List.mem_range.mpr (by omega), by omega, by omega⟩, hzero⟩

/-- A word with these bits makes every column odd. -/
theorem column_odd_of_bits {buf : Bytes} {word : UInt64}
    (hbits : ∀ i < 64, (word.toNat.testBit i = true ↔ columnSum buf (min i 31) = 0)) {c : Nat}
    (hc : c < 32) : columnSum buf c + storedColumn word c = 1 := by
  rw [add_one_eq_iff, storedColumn_eq_one hc]
  constructor
  · rintro ⟨i, hi, hset, rfl⟩
    exact (hbits i hi).mp hset
  · intro hzero
    have hmin : min c 31 = c := by omega
    exact ⟨c, by omega, (hbits c (by omega)).mpr (hmin.symm ▸ hzero), hmin⟩

theorem vparityTest_eq {buf : Bytes} {buflen : UInt64} {parity : List UInt64}
    (hlen : buflen.toNat = buf.length) {i : Nat} (hword : i / 64 < parity.length) :
    vparityTest buf buflen parity i =
      .ok (columnSum buf (i % 32) + storedColumn (parity.getD (i / 64) 0) (i % 32) = 1) := by
  obtain ⟨total, htotal, hsum⟩ := columnTotal_eq hlen i
  have hcast : (total : ZMod 2) + storedColumn (parity.getD (i / 64) 0) (i % 32) =
      ((if parity.getD (i / 64) 0 &&& parityMask (i % 32) ≠ 0 then total + 1 else total : Nat) :
        ZMod 2) := by
    rw [storedColumn]
    split
    · push_cast
      rfl
    · rw [add_zero]
  rw [vparityTest, htotal, ok_bind, readAt_of_lt hword, ok_bind, pure_eq_ok,
    ← List.getD_eq_getElem _ 0 hword, parityMask_mod, ← hsum, hcast]
  congr 2
  rw [Ne, cast_mod_two_eq_zero, eq_iff_iff]
  exact ne_zero_iff_eq_one _

/-- `check_vparity` accepts exactly when every column is odd with its bit in
each word. -/
theorem checkVparity_eq {buf : Bytes} {buflen : UInt64} {parity : List UInt64}
    (hlen : buflen.toNat = buf.length) (hfour : parity.length = 4) :
    ∃ accepts, checkVparity buf buflen parity = .ok accepts ∧
      (accepts = true ↔
        ∀ w < 4, ∀ c < 32, columnSum buf c + storedColumn (parity.getD w 0) c = 1) := by
  refine ⟨_, allM_eq_ok fun i hi => vparityTest_eq hlen ?_, ?_⟩
  · have hi := List.mem_range.mp hi
    omega
  rw [List.all_eq_true]
  simp only [List.mem_range, decide_eq_true_eq]
  constructor
  · intro hall w hw c hc
    have hword : (64 * w + c) / 64 = w := by omega
    have hcolumn : (64 * w + c) % 32 = c := by omega
    have hi := hall (64 * w + c) (by omega)
    rwa [hword, hcolumn] at hi
  · intro hall i hi
    exact hall (i / 64) (by omega) (i % 32) (Nat.mod_lt _ (by decide))

/-! ## Horizontal parity -/

/-- The C idiom for a quotient rounded up. -/
theorem ceilDiv_toNat {n d : UInt64} (hd : 1 < d.toNat) :
    (n / d + if n % d ≠ 0 then 1 else 0).toNat = (n.toNat + (d.toNat - 1)) / d.toNat := by
  have hn := n.toNat_lt
  have hsmall : n.toNat / d.toNat ≤ n.toNat / 2 := Nat.div_le_div_left hd (by decide)
  have hsplit := Nat.div_add_mod n.toNat d.toNat
  have hzero : n % d = 0 ↔ n.toNat % d.toNat = 0 := by
    rw [← UInt64.toNat_inj, UInt64.toNat_mod]
    rfl
  by_cases hmod : n % d = 0
  · rw [if_neg (not_not.mpr hmod), UInt64.add_zero, UInt64.toNat_div]
    rw [hzero.mp hmod, Nat.add_zero] at hsplit
    rw [← hsplit, Nat.mul_add_div (by omega), Nat.div_eq_of_lt (a := d.toNat - 1) (by omega),
      Nat.mul_div_cancel_left _ (by omega), Nat.add_zero]
  · have hone : (1 : UInt64).toNat = 1 := rfl
    have hpos : 0 < n.toNat % d.toNat := Nat.pos_of_ne_zero (mt hzero.mpr hmod)
    have hlt : n.toNat % d.toNat < d.toNat := Nat.mod_lt _ (by omega)
    rw [if_pos hmod, UInt64.toNat_add, UInt64.toNat_div, hone, Nat.mod_eq_of_lt (by omega)]
    have hsum : n.toNat + (d.toNat - 1) =
        d.toNat * (n.toNat / d.toNat) + (d.toNat + (n.toNat % d.toNat - 1)) := by omega
    rw [hsum, Nat.mul_add_div (by omega), Nat.add_div_left _ (by omega),
      Nat.div_eq_of_lt (a := n.toNat % d.toNat - 1) (by omega)]

theorem computeHparityWords_toNat (buflen : UInt64) :
    (computeHparityWords buflen).toNat = (buflen.toNat + 3) / 4 :=
  ceilDiv_toNat (d := 4) (by decide)

theorem computeHparityLength_toNat (buflen : UInt64) :
    (computeHparityLength buflen).toNat = ((buflen.toNat + 3) / 4 + 7) / 8 := by
  rw [← computeHparityWords_toNat]
  exact ceilDiv_toNat (d := 8) (by decide)

/-- The parity bytes after the passes `done`: the bit of a row is set when its
pass is done and the row is even. -/
def HparityInv (buf : Bytes) (len : Nat) (done : List Nat) (parity : Bytes) : Prop :=
  parity.length = len ∧ ∀ w, bitAt parity w = 1 ↔ w ∈ done ∧ rowSum buf w = 0

theorem hparityPass_inv {buf : Bytes} {buflen : UInt64} (hlen : buflen.toNat = buf.length)
    {len i : Nat} (hi : i < 8 * len) {done : List Nat} {parity : Bytes}
    (hinv : HparityInv buf len done parity) :
    ∃ parity', hparityPass buf buflen parity i = .ok parity' ∧
      HparityInv buf len (done ++ [i]) parity' := by
  obtain ⟨hlength, hbits⟩ := hinv
  obtain ⟨total, htotal, hsum⟩ := wordTotal_eq hlen i 0
  rw [Nat.cast_zero, zero_add] at hsum
  have hbyte : i / 8 < parity.length := by omega
  rw [hparityPass, htotal, ok_bind]
  by_cases heven : total % 2 = 0
  · have hzero : rowSum buf i = 0 := by
      rw [← hsum, ← cast_mod_two_eq_zero]
      exact heven
    rw [if_pos heven, modifyAt_of_lt _ hbyte]
    refine ⟨_, rfl, by rw [List.length_modify, hlength], ?_⟩
    intro w
    rw [List.mem_append, List.mem_singleton, bitAt, getD_modify _ hbyte]
    by_cases hw : w = i
    · subst hw
      rw [if_pos rfl, byteBit_or_mask (Nat.mod_lt _ (by decide)), if_pos rfl]
      simp [hzero]
    · have hsame : (bitAt parity w = 1) ↔ (w ∈ done ∨ w = i) ∧ rowSum buf w = 0 := by
        rw [hbits]
        simp only [hw, or_false]
      rw [← hsame, bitAt]
      by_cases hsplit : i / 8 = w / 8
      · have hbit : i % 8 ≠ w % 8 := by omega
        rw [if_pos hsplit, byteBit_or_mask (Nat.mod_lt _ (by decide)), if_neg hbit]
      · rw [if_neg hsplit]
  · have hodd : rowSum buf i ≠ 0 := by
      rw [← hsum, Ne, ← cast_mod_two_eq_zero]
      exact heven
    rw [if_neg heven]
    refine ⟨parity, rfl, hlength, ?_⟩
    intro w
    rw [hbits, List.mem_append, List.mem_singleton, or_and_right]
    constructor
    · exact .inl
    · rintro (hprior | ⟨rfl, hzero⟩)
      · exact hprior
      · exact absurd hzero hodd

/-- The bytes that `compute_hparity` fills make every row odd. -/
theorem computeHparity_eq {buf : Bytes} {buflen : UInt64} (hlen : buflen.toNat = buf.length) :
    ∃ parity, computeHparity buf buflen = .ok parity ∧
      parity.length = (computeHparityLength buflen).toNat ∧
      ∀ w < (computeHparityWords buflen).toNat, rowSum buf w + bitAt parity w = 1 := by
  have hstart : HparityInv buf (computeHparityLength buflen).toNat []
      (List.replicate (computeHparityLength buflen).toNat 0) := by
    refine ⟨List.length_replicate, ?_⟩
    intro w
    have hbit : bitAt (List.replicate (computeHparityLength buflen).toNat 0) w = 0 := by
      rw [bitAt, List.getD_eq_getElem?_getD, List.getElem?_replicate]
      split <;> simp [byteBit]
    rw [hbit]
    simp
  have hwords := computeHparityWords_toNat buflen
  have hbytes := computeHparityLength_toNat buflen
  have hbound : ∀ i ∈ List.range (computeHparityWords buflen).toNat,
      i < 8 * (computeHparityLength buflen).toNat := by
    intro i hi
    have hi := List.mem_range.mp hi
    omega
  obtain ⟨parity, hrun, hlength, hbits⟩ := foldlM_invariant (HparityInv buf _)
    (fun _ i hi _ hinv => hparityPass_inv hlen (hbound i hi) hinv) hstart
  refine ⟨parity, hrun, hlength, ?_⟩
  intro w hw
  rw [add_one_eq_iff, hbits]
  exact ⟨And.right, fun hzero => ⟨List.mem_range.mpr hw, hzero⟩⟩

theorem hparityTest_eq {buf : Bytes} {buflen : UInt64} {parity : Bytes}
    (hlen : buflen.toNat = buf.length) {i : Nat} (hbyte : i / 8 < parity.length) :
    hparityTest buf buflen parity i = .ok (rowSum buf i + bitAt parity i = 1) := by
  have hmask := @and_mask_ne_zero parity[i / 8] _ (Nat.mod_lt i (show 0 < 8 by decide))
  rw [← List.getD_eq_getElem _ 0 hbyte] at hmask
  obtain ⟨total, htotal, hsum⟩ := wordTotal_eq hlen i
    (if parity.getD (i / 8) 0 &&& 1 <<< UInt8.ofNat (i % 8) ≠ 0 then 1 else 0)
  have hcast : (total : ZMod 2) = rowSum buf i + bitAt parity i := by
    rw [hsum, add_comm, bitAt]
    congr 1
    rcases eq_zero_or_one (byteBit (parity.getD (i / 8) 0) (i % 8)) with hzero | hone
    · rw [if_neg (by rw [hmask, hzero]; decide), hzero]
      rfl
    · rw [if_pos (hmask.mpr hone), hone]
      rfl
  rw [hparityTest, readAt_of_lt hbyte, ok_bind, ← List.getD_eq_getElem _ 0 hbyte, htotal, ok_bind,
    pure_eq_ok, ← hcast]
  congr 2
  rw [Ne, cast_mod_two_eq_zero, eq_iff_iff]
  exact ne_zero_iff_eq_one _

/-- `check_hparity` accepts exactly when every row is odd with its bit. -/
theorem checkHparity_eq {buf : Bytes} {buflen : UInt64} {parity : Bytes}
    (hlen : buflen.toNat = buf.length)
    (hparity : (computeHparityLength buflen).toNat ≤ parity.length) :
    ∃ accepts, checkHparity buf buflen parity = .ok accepts ∧
      (accepts = true ↔
        ∀ w < (computeHparityWords buflen).toNat, rowSum buf w + bitAt parity w = 1) := by
  have hwords := computeHparityWords_toNat buflen
  have hbytes := computeHparityLength_toNat buflen
  refine ⟨_, allM_eq_ok fun i hi => hparityTest_eq hlen ?_, ?_⟩
  · have hi := List.mem_range.mp hi
    omega
  rw [List.all_eq_true]
  simp only [List.mem_range, decide_eq_true_eq]

/-! ## Bytes past the length -/

section Prefix

variable (buf : Bytes) (buflen : UInt64)

theorem columnTotal_take (i : Nat) :
    columnTotal (buf.take buflen.toNat) buflen i = columnTotal buf buflen i := by
  apply foldlM_congr
  intro j hj total
  rw [readAt_take ((mem_forIndices (by omega)).mp hj).2.1]

theorem computeVparity_take :
    computeVparity (buf.take buflen.toNat) buflen = computeVparity buf buflen := by
  have hpass : vparityPass (buf.take buflen.toNat) buflen = vparityPass buf buflen := by
    funext parity i
    rw [vparityPass, columnTotal_take, vparityPass]
  rw [computeVparity, hpass, computeVparity]

theorem wordPass_take (i : Nat) :
    wordPass (buf.take buflen.toNat) buflen i = wordPass buf buflen i := by
  funext total j
  rw [wordPass, wordPass]
  split
  next hlt => rw [readAt_take hlt]
  next => rfl

theorem computeHparity_take :
    computeHparity (buf.take buflen.toNat) buflen = computeHparity buf buflen := by
  have hpass : hparityPass (buf.take buflen.toNat) buflen = hparityPass buf buflen := by
    funext parity i
    rw [hparityPass, wordTotal, wordPass_take, hparityPass, wordTotal]
  rw [computeHparity, hpass, computeHparity]

end Prefix

end Hipft
