import Mathlib.Algebra.Field.ZMod
import Mathlib.Data.Finset.Range
import Mathlib.Data.List.GetD
import Mathlib.Data.Nat.Bitwise
import Hipft.Foundation.ByteLayout

/-! # Byte strings as bit strings

Bit `t` of a byte string is bit `t % 8` of byte `t / 8`, as an element of the
integers modulo two, and zero past the end. `flipBit` changes one bit, and
`flipBits` every bit of a set.
-/

namespace BitString

open ByteLayout

/-- Bit `k` of a byte. -/
def byteBit (byte : UInt8) (k : Nat) : ZMod 2 := if byte.toNat.testBit k then 1 else 0

/-- Bit `t` of a byte string. -/
def bitAt (bytes : List UInt8) (t : Nat) : ZMod 2 := byteBit (bytes.getD (t / 8) 0) (t % 8)

def flipBit (bytes : List UInt8) (t : Nat) : List UInt8 :=
  bytes.modify (t / 8) (· ^^^ 1 <<< UInt8.ofNat (t % 8))

/-- Flip the bits of a set of positions, one after the other. -/
def flipBits (bytes : List UInt8) (flips : Finset Nat) : List UInt8 :=
  (List.range (8 * bytes.length)).foldl
    (fun bytes t => if t ∈ flips then flipBit bytes t else bytes) bytes

/-! ## Bits of one byte -/

theorem mask_toNat {k : Nat} (hk : k < 8) : ((1 : UInt8) <<< UInt8.ofNat k).toNat = 2 ^ k := by
  have hall : ∀ k : Fin 8, ((1 : UInt8) <<< UInt8.ofNat k).toNat = 2 ^ k.val := by decide
  exact hall ⟨k, hk⟩

theorem byteBit_eq_one {byte : UInt8} {k : Nat} :
    byteBit byte k = 1 ↔ byte.toNat.testBit k = true := by
  unfold byteBit
  split <;> simp_all

theorem byteBit_ext {byte other : UInt8} (hbits : ∀ k < 8, byteBit byte k = byteBit other k) :
    byte = other := by
  rw [← UInt8.toNat_inj]
  apply Nat.eq_of_testBit_eq
  intro k
  by_cases hk : k < 8
  · rw [Bool.eq_iff_iff, ← byteBit_eq_one, ← byteBit_eq_one, hbits k hk]
  · have hpow : 2 ^ 8 ≤ 2 ^ k := Nat.pow_le_pow_right (by decide) (by omega)
    rw [Nat.testBit_lt_two_pow (by have := byte.toNat_lt; omega),
      Nat.testBit_lt_two_pow (by have := other.toNat_lt; omega)]

/-- A byte masked by one bit is nonzero exactly when it has the bit. -/
theorem and_mask_ne_zero {byte : UInt8} {k : Nat} (hk : k < 8) :
    byte &&& 1 <<< UInt8.ofNat k ≠ 0 ↔ byteBit byte k = 1 := by
  have hmask : (byte &&& 1 <<< UInt8.ofNat k).toNat = 2 ^ k * (byte.toNat.testBit k).toNat := by
    rw [UInt8.toNat_and, mask_toNat hk, Nat.and_two_pow, Nat.mul_comm]
  have hzero : byte &&& 1 <<< UInt8.ofNat k = 0 ↔ (byte &&& 1 <<< UInt8.ofNat k).toNat = 0 := by
    rw [← UInt8.toNat_inj]
    rfl
  rw [byteBit_eq_one, Ne, hzero, hmask]
  cases byte.toNat.testBit k <;> simp

theorem byteBit_or_mask {byte : UInt8} {j k : Nat} (hk : k < 8) :
    byteBit (byte ||| 1 <<< UInt8.ofNat k) j = if k = j then 1 else byteBit byte j := by
  rw [byteBit, byteBit, UInt8.toNat_or, mask_toNat hk, Nat.testBit_or, Nat.testBit_two_pow]
  by_cases hkj : k = j
  · simp [hkj]
  · simp [hkj]

theorem byteBit_xor_mask {byte : UInt8} {j k : Nat} (hk : k < 8) :
    byteBit (byte ^^^ 1 <<< UInt8.ofNat k) j = byteBit byte j + if k = j then 1 else 0 := by
  rw [byteBit, byteBit, UInt8.toNat_xor, mask_toNat hk, Nat.testBit_xor, Nat.testBit_two_pow]
  by_cases hkj : k = j
  · cases byte.toNat.testBit j <;> simp [hkj]
    decide
  · simp [hkj]

/-! ## Bits of a string -/

theorem bitAt_eq_zero {bytes : List UInt8} {t : Nat} (ht : 8 * bytes.length ≤ t) :
    bitAt bytes t = 0 := by
  have hget : bytes.getD (t / 8) 0 = 0 := by
    rw [List.getD_eq_getElem?_getD, List.getElem?_eq_none (by omega)]
    rfl
  rw [bitAt, hget, byteBit]
  simp

theorem bitAt_of_byte {bytes : List UInt8} {j k : Nat} (hk : k < 8) :
    bitAt bytes (8 * j + k) = byteBit (bytes.getD j 0) k := by
  rw [bitAt, show (8 * j + k) / 8 = j by omega, show (8 * j + k) % 8 = k by omega]

/-- A byte string is determined by its length and its bits. -/
theorem ext_bitAt {bytes other : List UInt8} (hlength : bytes.length = other.length)
    (hbits : ∀ t < 8 * bytes.length, bitAt bytes t = bitAt other t) : bytes = other := by
  apply List.ext_getElem hlength
  intro j hj hj'
  apply byteBit_ext
  intro k hk
  have hbit := hbits (8 * j + k) (by omega)
  rw [bitAt_of_byte hk, bitAt_of_byte hk] at hbit
  rwa [List.getD_eq_getElem _ _ hj, List.getD_eq_getElem _ _ hj'] at hbit

@[simp] theorem flipBit_length (bytes : List UInt8) (t : Nat) :
    (flipBit bytes t).length = bytes.length := List.length_modify ..

theorem bitAt_flipBit {bytes : List UInt8} {t : Nat} (ht : t < 8 * bytes.length) (u : Nat) :
    bitAt (flipBit bytes t) u = bitAt bytes u + if t = u then 1 else 0 := by
  rw [bitAt, bitAt, flipBit, List.getD_eq_getElem?_getD, List.getElem?_modify]
  by_cases hbyte : t / 8 = u / 8
  · have hu : u / 8 < bytes.length := by omega
    have hiff : t % 8 = u % 8 ↔ t = u := by omega
    simp only [hbyte, if_true, List.getElem?_eq_getElem hu, Option.map_eq_map, Option.map_some,
      Option.getD_some, byteBit_xor_mask (Nat.mod_lt t (show 0 < 8 by decide)),
      List.getD_eq_getElem _ _ hu, hiff]
  · have htu : t ≠ u := by
      rintro rfl
      exact hbyte rfl
    simp [hbyte, htu, List.getD_eq_getElem?_getD]

theorem flipBit_ne {bytes : List UInt8} {t : Nat} (ht : t < 8 * bytes.length) :
    flipBit bytes t ≠ bytes := by
  intro hsame
  have hbit := bitAt_flipBit ht t
  rw [hsame, if_pos rfl] at hbit
  exact absurd hbit.symm (by simp)

theorem slice_flipBit_outside {bytes : List UInt8} {off w t : Nat}
    (ht : t / 8 < off ∨ off + w ≤ t / 8) : slice (flipBit bytes t) off w = slice bytes off w :=
  slice_modify_of_notMem _ ht

theorem slice_flipBit_inside {bytes : List UInt8} {off w t : Nat} (hlow : off ≤ t / 8)
    (hhigh : t / 8 < off + w) :
    slice (flipBit bytes t) off w = flipBit (slice bytes off w) (t - 8 * off) := by
  have hbyte : (t - 8 * off) / 8 = t / 8 - off := by omega
  have hbit : (t - 8 * off) % 8 = t % 8 := by omega
  rw [flipBit, flipBit, slice_modify_of_mem _ hlow hhigh, hbyte, hbit]

theorem drop_flipBit_ne {bytes : List UInt8} {n t : Nat} (ht : t < 8 * bytes.length)
    (hn : n ≤ t / 8) : (flipBit bytes t).drop n ≠ bytes.drop n := by
  intro hdrop
  have htake : (flipBit bytes t).take n = bytes.take n := by
    have hslice : slice (flipBit bytes t) 0 n = slice bytes 0 n :=
      slice_flipBit_outside (Or.inr (by omega))
    exact hslice
  apply flipBit_ne ht
  rw [← List.take_append_drop n (flipBit bytes t), htake, hdrop, List.take_append_drop]

theorem drop_flipBit_eq {bytes : List UInt8} {n t : Nat} (ht : t / 8 < n) :
    (flipBit bytes t).drop n = bytes.drop n := by
  apply List.ext_getElem?
  intro i
  rw [flipBit, List.getElem?_drop, List.getElem?_drop, List.getElem?_modify]
  have hne : t / 8 ≠ n + i := by omega
  simp [hne]

/-- The loop of `flipBits` changes exactly the positions it has passed. -/
theorem foldl_flipBits (flips : Finset Nat) (todo : List Nat) (hnodup : todo.Nodup)
    (bytes : List UInt8) (hbound : ∀ t ∈ todo, t < 8 * bytes.length) :
    (todo.foldl (fun bytes t => if t ∈ flips then flipBit bytes t else bytes) bytes).length =
        bytes.length ∧
      ∀ u, bitAt (todo.foldl (fun bytes t => if t ∈ flips then flipBit bytes t else bytes) bytes)
        u = bitAt bytes u + if u ∈ flips ∧ u ∈ todo then 1 else 0 := by
  induction todo generalizing bytes with
  | nil => simp
  | cons t rest ih =>
      obtain ⟨hfresh, hrest⟩ := List.nodup_cons.mp hnodup
      have ht : t < 8 * bytes.length := hbound t List.mem_cons_self
      rw [List.foldl_cons]
      by_cases hflip : t ∈ flips
      · rw [if_pos hflip]
        obtain ⟨hlength, hbits⟩ := ih hrest (flipBit bytes t) (by
          rw [flipBit_length]
          exact fun u hu => hbound u (List.mem_cons_of_mem _ hu))
        refine ⟨by rw [hlength, flipBit_length], ?_⟩
        intro u
        rw [hbits, bitAt_flipBit ht]
        by_cases hu : t = u
        · subst hu
          simp [hflip, hfresh]
        · simp [hu, Ne.symm hu]
      · rw [if_neg hflip]
        obtain ⟨hlength, hbits⟩ := ih hrest bytes fun u hu => hbound u (List.mem_cons_of_mem _ hu)
        refine ⟨hlength, ?_⟩
        intro u
        rw [hbits]
        by_cases hu : u = t
        · subst hu
          simp [hflip]
        · simp [hu]

@[simp] theorem flipBits_length (bytes : List UInt8) (flips : Finset Nat) :
    (flipBits bytes flips).length = bytes.length :=
  (foldl_flipBits flips _ List.nodup_range bytes fun _ ht => List.mem_range.mp ht).1

theorem bitAt_flipBits {bytes : List UInt8} {flips : Finset Nat}
    (hflips : ∀ t ∈ flips, t < 8 * bytes.length) (u : Nat) :
    bitAt (flipBits bytes flips) u = bitAt bytes u + if u ∈ flips then 1 else 0 := by
  rw [flipBits,
    (foldl_flipBits flips _ List.nodup_range bytes fun _ ht => List.mem_range.mp ht).2]
  congr 2
  exact propext ⟨And.left, fun hu => ⟨hu, List.mem_range.mpr (hflips u hu)⟩⟩

theorem flipBits_singleton {bytes : List UInt8} {t : Nat} (ht : t < 8 * bytes.length) :
    flipBits bytes {t} = flipBit bytes t := by
  apply ext_bitAt (by simp)
  intro u _
  rw [bitAt_flipBits (by simpa using ht), bitAt_flipBit ht]
  simp only [Finset.mem_singleton, eq_comm]

/-! ## Differences -/

/-- The places at which two byte strings differ. -/
def differing (bytes other : List UInt8) : Finset Nat :=
  (Finset.range (8 * max bytes.length other.length)).filter fun t => bitAt bytes t ≠ bitAt other t

theorem mem_differing {bytes other : List UInt8} {t : Nat} :
    t ∈ differing bytes other ↔ bitAt bytes t ≠ bitAt other t := by
  rw [differing, Finset.mem_filter, Finset.mem_range, and_iff_right_iff_imp]
  intro hne
  by_contra hpast
  have hbytes : bitAt bytes t = 0 := bitAt_eq_zero (by omega)
  have hother : bitAt other t = 0 := bitAt_eq_zero (by omega)
  exact hne (hbytes.trans hother.symm)

/-- Two strings of `n` bytes differ in as many places as their bytes do. -/
theorem card_differing {bytes other : List UInt8} {n : Nat} (hbytes : bytes.length = n)
    (hother : other.length = n) :
    (differing bytes other).card = ∑ j ∈ Finset.range n, ((Finset.range 8).filter fun k =>
      byteBit (bytes.getD j 0) k ≠ byteBit (other.getD j 0) k).card := by
  have hbyte : ∀ t ∈ differing bytes other, t / 8 ∈ Finset.range n := by
    intro t ht
    rw [differing, Finset.mem_filter, Finset.mem_range, hbytes, hother, Nat.max_self] at ht
    rw [Finset.mem_range]
    omega
  rw [Finset.card_eq_sum_card_fiberwise hbyte]
  apply Finset.sum_congr rfl
  intro j _
  apply Finset.card_nbij' (· % 8) (8 * j + ·)
  · intro t ht
    obtain ⟨hne, rfl⟩ := Finset.mem_filter.mp ht
    exact Finset.mem_filter.mpr
      ⟨Finset.mem_range.mpr (Nat.mod_lt t (by decide)), mem_differing.mp hne⟩
  · intro k hk
    obtain ⟨hlt, hne⟩ := Finset.mem_filter.mp hk
    have hk8 : k < 8 := Finset.mem_range.mp hlt
    rw [← bitAt_of_byte hk8, ← bitAt_of_byte hk8] at hne
    have hquotient : (8 * j + k) / 8 = j := by omega
    exact Finset.mem_filter.mpr ⟨mem_differing.mpr hne, hquotient⟩
  · intro t ht
    obtain ⟨-, rfl⟩ := Finset.mem_filter.mp ht
    exact Nat.div_add_mod t 8
  · intro k hk
    have hk8 : k < 8 := Finset.mem_range.mp (Finset.mem_filter.mp hk).1
    exact (Nat.mul_add_mod 8 j k).trans (Nat.mod_eq_of_lt hk8)

/-- The bits in which two bytes differ are those of their exclusive or. -/
theorem byteBit_ne_iff {byte other : UInt8} {k : Nat} :
    byteBit byte k ≠ byteBit other k ↔ (byte ^^^ other).toNat.testBit k = true := by
  rw [byteBit, byteBit, UInt8.toNat_xor, Nat.testBit_xor]
  cases byte.toNat.testBit k <;> cases other.toNat.testBit k <;> simp

/-! ## Bits of numbers -/

theorem ofLe_testBit (bytes : List UInt8) (t : Nat) :
    (ofLe bytes).testBit t = true ↔ bitAt bytes t = 1 := by
  induction bytes generalizing t with
  | nil => simp [ofLe, bitAt, byteBit]
  | cons byte rest ih =>
      have hbyte : byte.toNat < 2 ^ 8 := byte.toNat_lt
      rw [ofLe, Nat.add_comm, show 256 = 2 ^ 8 from rfl, Nat.testBit_two_pow_mul_add _ hbyte]
      by_cases ht : t < 8
      · have hzero : t / 8 = 0 := by omega
        have hmod : t % 8 = t := by omega
        rw [if_pos ht, bitAt, hzero, hmod, byteBit_eq_one]
        rfl
      · have hbyte : t / 8 = (t - 8) / 8 + 1 := by omega
        have hbit : t % 8 = (t - 8) % 8 := by omega
        rw [if_neg ht, ih, bitAt, bitAt, hbyte, hbit, List.getD_cons_succ]

/-- Where bit `t` of a string of `w` bytes is in the number it is written for
most significant byte first. -/
def beBit (w t : Nat) : Nat := 8 * (w - 1 - t / 8) + t % 8

theorem ofBe_testBit {bytes : List UInt8} {i : Nat} (hi : i < 8 * bytes.length) :
    (ofBe bytes).testBit i = true ↔ bitAt bytes (beBit bytes.length i) = 1 := by
  have hbyte : bytes.length - 1 - i / 8 < bytes.length := by omega
  rw [ofBe, ofLe_testBit, beBit, bitAt_of_byte (Nat.mod_lt _ (by decide)), bitAt,
    List.getD_eq_getElem?_getD, List.getD_eq_getElem?_getD, List.getElem?_reverse (by omega)]

/-- Flipping a bit of the string flips one bit of the number. -/
theorem ofBe_flipBit_testBit {bytes : List UInt8} {i t : Nat} (ht : t < 8 * bytes.length)
    (hi : i < 8 * bytes.length) :
    (ofBe (flipBit bytes t)).testBit i = true ↔
      ¬((ofBe bytes).testBit i = true ↔ i = beBit bytes.length t) := by
  have hplace : t = beBit bytes.length i ↔ i = beBit bytes.length t := by
    unfold beBit
    omega
  rw [ofBe_testBit (by rw [flipBit_length]; exact hi), ofBe_testBit hi, flipBit_length,
    bitAt_flipBit ht]
  generalize bitAt bytes (beBit bytes.length i) = bit
  by_cases heq : i = beBit bytes.length t
  · rw [if_pos (hplace.mpr heq)]
    revert bit
    simp only [heq, iff_true]
    decide
  · rw [if_neg (mt hplace.mp heq), add_zero]
    simp [heq]

end BitString
