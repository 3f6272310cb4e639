import Mathlib.Data.List.Basic
import Mathlib.Tactic.Ring

/-! # Numbers as bytes and records as byte strings

A number is laid out in a fixed number of bytes, least significant first
(`leBytes`); read backwards the same bytes are its big-endian form. A packed
record is the concatenation of its fields, and `slice` takes a field out.
-/

namespace ByteLayout

/-- The `w` low bytes of `n`, least significant first. -/
def leBytes : Nat → Nat → List UInt8
  | 0, _ => []
  | w + 1, n => UInt8.ofNat (n % 256) :: leBytes w (n / 256)

/-- The number with the given bytes, least significant first. -/
def ofLe : List UInt8 → Nat
  | [] => 0
  | byte :: rest => byte.toNat + 256 * ofLe rest

/-- The number with the given bytes, most significant first. -/
def ofBe (bytes : List UInt8) : Nat := ofLe bytes.reverse

@[simp] theorem leBytes_length (w n : Nat) : (leBytes w n).length = w := by
  induction w generalizing n with
  | zero => rfl
  | succ w ih => rw [leBytes, List.length_cons, ih]

theorem ofLe_lt (bytes : List UInt8) : ofLe bytes < 256 ^ bytes.length := by
  induction bytes with
  | nil => simp [ofLe]
  | cons byte rest ih =>
      have hbyte := byte.toNat_lt
      rw [ofLe, List.length_cons, Nat.pow_succ]
      omega

theorem ofBe_lt (bytes : List UInt8) : ofBe bytes < 256 ^ bytes.length := by
  simpa [ofBe] using ofLe_lt bytes.reverse

theorem ofLe_leBytes {w n : Nat} (hn : n < 256 ^ w) : ofLe (leBytes w n) = n := by
  induction w generalizing n with
  | zero =>
      rw [Nat.pow_zero] at hn
      simp [leBytes, ofLe]
      omega
  | succ w ih =>
      rw [Nat.pow_succ] at hn
      have hbyte : (UInt8.ofNat (n % 256)).toNat = n % 256 := by
        rw [UInt8.toNat_ofNat']
        omega
      rw [leBytes, ofLe, hbyte, ih (by omega)]
      omega

theorem leBytes_inj {w m n : Nat} (hm : m < 256 ^ w) (hn : n < 256 ^ w) :
    leBytes w m = leBytes w n ↔ m = n := by
  constructor
  · intro hsame
    rw [← ofLe_leBytes hm, hsame, ofLe_leBytes hn]
  · exact congrArg (leBytes w)

theorem leBytes_ofLe (bytes : List UInt8) : leBytes bytes.length (ofLe bytes) = bytes := by
  induction bytes with
  | nil => rfl
  | cons byte rest ih =>
      have hbyte := byte.toNat_lt
      have hlow : (byte.toNat + 256 * ofLe rest) % 256 = byte.toNat := by omega
      have hhigh : (byte.toNat + 256 * ofLe rest) / 256 = ofLe rest := by omega
      rw [List.length_cons, leBytes, ofLe, hlow, hhigh, ih, UInt8.ofNat_toNat]

theorem leBytes_ofLe_of_length {bytes : List UInt8} {w : Nat} (hw : bytes.length = w) :
    leBytes w (ofLe bytes) = bytes := hw ▸ leBytes_ofLe bytes

theorem ofLe_append (front back : List UInt8) :
    ofLe (front ++ back) = ofLe front + 256 ^ front.length * ofLe back := by
  induction front with
  | nil => simp [ofLe]
  | cons byte rest ih =>
      rw [List.cons_append, ofLe, ofLe, ih, List.length_cons, Nat.pow_succ]
      ring

/-- A number whose first byte is not zero is one of that many bytes. -/
theorem le_ofBe_cons {byte : UInt8} (hbyte : byte ≠ 0) (rest : List UInt8) :
    256 ^ rest.length ≤ ofBe (byte :: rest) := by
  have hpos : 0 < byte.toNat := Nat.pos_of_ne_zero fun hzero => hbyte (UInt8.toNat_inj.mp hzero)
  rw [ofBe, List.reverse_cons, ofLe_append, List.length_reverse]
  calc 256 ^ rest.length ≤ 256 ^ rest.length * ofLe [byte] := Nat.le_mul_of_pos_right _ hpos
    _ ≤ _ := Nat.le_add_left _ _

theorem ofBe_append_singleton (bytes : List UInt8) (byte : UInt8) :
    ofBe (bytes ++ [byte]) = ofBe bytes * 256 + byte.toNat := by
  simp only [ofBe, List.reverse_append, List.reverse_singleton, List.singleton_append, ofLe]
  omega

theorem ofBe_reverse (bytes : List UInt8) : ofBe bytes.reverse = ofLe bytes := by
  rw [ofBe, List.reverse_reverse]

/-! ## Slices -/

section Slices

variable {α : Type}

/-- The `w` cells from offset `off` on. -/
def slice (cells : List α) (off w : Nat) : List α := (cells.drop off).take w

theorem slice_length {cells : List α} {off w : Nat} (hfits : off + w ≤ cells.length) :
    (slice cells off w).length = w := by
  simp only [slice, List.length_take, List.length_drop]
  omega

theorem slice_append_slice {cells : List α} {off off' w w' : Nat} (hoff : off' = off + w) :
    slice cells off w ++ slice cells off' w' = slice cells off (w + w') := by
  rw [hoff, slice, slice, slice, List.take_add, List.drop_drop]

theorem slice_zero_of_length {cells : List α} {w : Nat} (hw : cells.length = w) :
    slice cells 0 w = cells := by
  rw [slice, List.drop_zero, ← hw, List.take_length]

theorem slice_append_left {front back : List α} {off w : Nat} (hfits : off + w ≤ front.length) :
    slice (front ++ back) off w = slice front off w := by
  rw [slice, slice, List.drop_append_of_le_length (by omega),
    List.take_append_of_le_length (by rw [List.length_drop]; omega)]

theorem slice_append_right {front back : List α} {off w : Nat} (hoff : front.length ≤ off) :
    slice (front ++ back) off w = slice back (off - front.length) w := by
  rw [slice, slice, List.drop_append, List.drop_eq_nil_of_le hoff, List.nil_append]

theorem slice_append_middle {front middle back : List α} {off w : Nat}
    (hoff : off = front.length) (hw : w = middle.length) :
    slice (front ++ (middle ++ back)) off w = middle := by
  rw [slice, hoff, hw, List.drop_left, List.take_left]

theorem slice_drop (cells : List α) (start off w : Nat) :
    slice (cells.drop start) off w = slice cells (start + off) w := by
  rw [slice, slice, List.drop_drop]

theorem slice_slice {cells : List α} {start len off w : Nat} (hfits : off + w ≤ len) :
    slice (slice cells start len) off w = slice cells (start + off) w := by
  rw [slice, slice, slice, List.drop_take, List.drop_drop, List.take_take]
  congr 1
  omega

/-- A change outside a slice leaves it alone. -/
theorem slice_modify_of_notMem {cells : List α} {off w index : Nat} (f : α → α)
    (hindex : index < off ∨ off + w ≤ index) :
    slice (cells.modify index f) off w = slice cells off w := by
  apply List.ext_getElem?
  intro i
  simp only [slice, List.getElem?_take, List.getElem?_drop, List.getElem?_modify]
  by_cases hi : i < w
  · have hne : index ≠ off + i := by omega
    simp [hi, hne]
  · simp [hi]

theorem slice_modify_of_mem {cells : List α} {off w index : Nat} (f : α → α)
    (hlow : off ≤ index) (hhigh : index < off + w) :
    slice (cells.modify index f) off w = (slice cells off w).modify (index - off) f := by
  apply List.ext_getElem?
  intro i
  simp only [slice, List.getElem?_take, List.getElem?_drop, List.getElem?_modify]
  by_cases hi : i < w
  · have hiff : (index = off + i) ↔ (index - off = i) := by omega
    simp [hi, hiff]
  · have hne : index - off ≠ i := by omega
    simp [hi, hne]

end Slices

/-! ## Fields of a packed record -/

theorem slice_leBytes_here (w n : Nat) (rest : List UInt8) :
    slice (leBytes w n ++ rest) 0 w = leBytes w n := by
  rw [slice_append_left (by simp), slice_zero_of_length (leBytes_length w n)]

theorem slice_leBytes_skip {w off : Nat} (n k : Nat) (rest : List UInt8) (hoff : w ≤ off) :
    slice (leBytes w n ++ rest) off k = slice rest (off - w) k := by
  rw [slice_append_right (by simpa using hoff), leBytes_length]

end ByteLayout
