import Mathlib.Data.List.Induction
import Hipft.Foundation.ByteLayout

/-! # Byte order on a little-endian host

`ntoh64` is the loop of `byte_order.c`. `ntohl` and `ntohs` are the system's,
which on a little-endian host read the bytes of a word in the other order.
-/

namespace Hipft

open ByteLayout

/-- `ntoh64`, with `tmp.byte` the bytes of `src` in memory. -/
def ntoh64 (src : UInt64) : UInt64 :=
  (leBytes 8 src.toNat).foldl (fun dst byte => (dst <<< 8) + byte.toUInt64) 0

def hton64 (src : UInt64) : UInt64 := ntoh64 src

def ntohl (src : UInt32) : UInt32 := UInt32.ofNat (ofBe (leBytes 4 src.toNat))

def htonl (src : UInt32) : UInt32 := ntohl src

def ntohs (src : UInt16) : UInt16 := UInt16.ofNat (ofBe (leBytes 2 src.toNat))

def htons (src : UInt16) : UInt16 := ntohs src

theorem foldl_shift_toNat (bytes : List UInt8) :
    (bytes.foldl (fun (dst : UInt64) byte => (dst <<< 8) + byte.toUInt64) 0).toNat =
      ofBe bytes % 2 ^ 64 := by
  induction bytes using List.reverseRecOn with
  | nil => rfl
  | append_singleton bytes byte ih =>
      have hbyte := byte.toNat_lt
      have height : (8 : UInt64).toNat % 64 = 8 := rfl
      rw [List.foldl_append, List.foldl_cons, List.foldl_nil, ofBe_append_singleton,
        UInt64.toNat_add, UInt64.toNat_shiftLeft, ih, height, Nat.shiftLeft_eq,
        UInt8.toNat_toUInt64]
      omega

/-- Swapping a word reads its bytes most significant first. -/
theorem ntoh64_toNat (src : UInt64) : (ntoh64 src).toNat = ofBe (leBytes 8 src.toNat) := by
  have hlt := ofBe_lt (leBytes 8 src.toNat)
  rw [leBytes_length] at hlt
  rw [ntoh64, foldl_shift_toNat, Nat.mod_eq_of_lt (by omega)]

theorem ntohl_toNat (src : UInt32) : (ntohl src).toNat = ofBe (leBytes 4 src.toNat) := by
  have hlt := ofBe_lt (leBytes 4 src.toNat)
  rw [leBytes_length] at hlt
  rw [ntohl, UInt32.toNat_ofNat', Nat.mod_eq_of_lt (by omega)]

theorem ntohs_toNat (src : UInt16) : (ntohs src).toNat = ofBe (leBytes 2 src.toNat) := by
  have hlt := ofBe_lt (leBytes 2 src.toNat)
  rw [leBytes_length] at hlt
  rw [ntohs, UInt16.toNat_ofNat', Nat.mod_eq_of_lt (by omega)]

theorem leBytes_ofBe_leBytes (w n : Nat) :
    leBytes w (ofBe (leBytes w n)) = (leBytes w n).reverse :=
  leBytes_ofLe_of_length (by simp)

theorem ntoh64_ntoh64 (src : UInt64) : ntoh64 (ntoh64 src) = src := by
  have hlt := src.toNat_lt
  rw [← UInt64.toNat_inj, ntoh64_toNat, ntoh64_toNat, leBytes_ofBe_leBytes, ofBe_reverse,
    ofLe_leBytes (by omega)]

theorem ntohl_ntohl (src : UInt32) : ntohl (ntohl src) = src := by
  have hlt := src.toNat_lt
  rw [← UInt32.toNat_inj, ntohl_toNat, ntohl_toNat, leBytes_ofBe_leBytes, ofBe_reverse,
    ofLe_leBytes (by omega)]

theorem ntohs_ntohs (src : UInt16) : ntohs (ntohs src) = src := by
  have hlt := src.toNat_lt
  rw [← UInt16.toNat_inj, ntohs_toNat, ntohs_toNat, leBytes_ofBe_leBytes, ofBe_reverse,
    ofLe_leBytes (by omega)]

/-- Words read from memory and swapped have the big-endian value of the bytes. -/
theorem ntoh64_ofLe {bytes : List UInt8} (hlength : bytes.length = 8) :
    (ntoh64 (UInt64.ofNat (ofLe bytes))).toNat = ofBe bytes := by
  have hlt := ofLe_lt bytes
  rw [hlength] at hlt
  rw [ntoh64_toNat, UInt64.toNat_ofNat', Nat.mod_eq_of_lt (by omega),
    leBytes_ofLe_of_length hlength]

theorem ntohl_ofLe {bytes : List UInt8} (hlength : bytes.length = 4) :
    (ntohl (UInt32.ofNat (ofLe bytes))).toNat = ofBe bytes := by
  have hlt := ofLe_lt bytes
  rw [hlength] at hlt
  rw [ntohl_toNat, UInt32.toNat_ofNat', Nat.mod_eq_of_lt (by omega),
    leBytes_ofLe_of_length hlength]

theorem ntohs_ofLe {bytes : List UInt8} (hlength : bytes.length = 2) :
    (ntohs (UInt16.ofNat (ofLe bytes))).toNat = ofBe bytes := by
  have hlt := ofLe_lt bytes
  rw [hlength] at hlt
  rw [ntohs_toNat, UInt16.toNat_ofNat', Nat.mod_eq_of_lt (by omega),
    leBytes_ofLe_of_length hlength]

end Hipft
