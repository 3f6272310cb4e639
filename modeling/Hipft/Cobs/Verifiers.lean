import Hipft.Cobs.RoundTrip

/-! # The two verifiers

`alt_cobs_verify` jumps from code to code and then looks for delimiters,
`cobs_verify` counts a marker down byte by byte. Both accept the strings that
are made of blocks, so they agree on every string.
-/

namespace Hipft

open CMemory Stuffing

/-- The grammar of encoded strings: blocks of a code byte and as many bytes other
than the delimiter as it tells, one after the other. -/
inductive Framed : Bytes → Prop
  | nil : Framed []
  | block {code : UInt8} {data rest : Bytes} (hcode : code.toNat = data.length + 1)
      (hdata : specialChar ∉ data) (hrest : Framed rest) : Framed (code :: data ++ rest)

theorem framed_frame (blocks : List Block) : Framed (frame blocks) := by
  induction blocks with
  | nil => exact .nil
  | cons b rest ih => exact .block (blockCode_toNat b.short) b.nonzero ih

theorem framed_iff (e : Bytes) : Framed e ↔ ∃ blocks, e = frame blocks := by
  constructor
  · intro hframed
    induction hframed with
    | nil => exact ⟨[], rfl⟩
    | @block code data rest hcode hdata hrest ih =>
        obtain ⟨blocks, rfl⟩ := ih
        have hbyte := code.toNat_lt
        have hsame : blockCode data.length = code := by
          rw [blockCode, ← hcode, UInt8.ofNat_toNat]
        refine ⟨⟨data, hdata, by omega⟩ :: blocks, ?_⟩
        rw [frame_cons, Block.wire, hsame]
  · rintro ⟨blocks, rfl⟩
    exact framed_frame blocks

/-! ## Counting down -/

theorem toNat_predecessor {byte : UInt8} (hbyte : byte ≠ 0x00) :
    (byte - 1).toNat = byte.toNat - 1 :=
  UInt8.toNat_sub_of_le byte 1
    (UInt8.le_iff_toNat_le.mpr (Nat.pos_of_ne_zero (toNat_ne_zero hbyte)))

/-- What may follow in a string of blocks when `missing` bytes of a block are left:
these bytes, and more blocks. -/
def Continues (missing : Nat) (rest : Bytes) : Prop :=
  ∃ data blocks, rest = data ++ frame blocks ∧ data.length = missing ∧ specialChar ∉ data

theorem continues_zero {rest : Bytes} : Continues 0 rest ↔ ∃ blocks, rest = frame blocks := by
  constructor
  · rintro ⟨data, blocks, rfl, hlength, -⟩
    rw [List.length_eq_zero_iff.mp hlength]
    exact ⟨blocks, rfl⟩
  · rintro ⟨blocks, rfl⟩
    exact ⟨[], blocks, rfl, rfl, by simp⟩

theorem continues_nil {missing : Nat} : Continues missing [] ↔ missing = 0 := by
  constructor
  · rintro ⟨data, blocks, hrest, hlength, -⟩
    rw [(List.append_eq_nil_iff.mp hrest.symm).1] at hlength
    exact hlength.symm
  · rintro rfl
    exact continues_zero.mpr ⟨[], rfl⟩

theorem specialChar_notMem_of_continues {missing : Nat} {rest : Bytes}
    (hrest : Continues missing rest) : specialChar ∉ rest := by
  obtain ⟨data, blocks, rfl, -, hdata⟩ := hrest
  rw [List.mem_append, not_or]
  exact ⟨hdata, specialChar_notMem_frame blocks⟩

/-- Inside a block any byte but the delimiter goes on. -/
theorem continues_cons {missing : Nat} {byte : UInt8} {rest : Bytes} (hbyte : byte ≠ specialChar) :
    Continues (missing + 1) (byte :: rest) ↔ Continues missing rest := by
  constructor
  · rintro ⟨data, blocks, hrest, hlength, hdata⟩
    cases data with
    | nil => cases hlength
    | cons first data =>
        rw [List.cons_append, List.cons.injEq] at hrest
        exact ⟨data, blocks, hrest.2, Nat.succ.inj hlength,
          fun hmem => hdata (List.mem_cons_of_mem _ hmem)⟩
  · rintro ⟨data, blocks, rfl, hlength, hdata⟩
    refine ⟨byte :: data, blocks, rfl, by rw [List.length_cons, hlength], ?_⟩
    rw [List.mem_cons, not_or]
    exact ⟨hbyte.symm, hdata⟩

/-- Between blocks the byte is a code. -/
theorem continues_code {code : UInt8} {rest : Bytes} (hcode : code ≠ specialChar) :
    Continues 0 (code :: rest) ↔ Continues (code.toNat - 1) rest := by
  have hpos := toNat_ne_zero hcode
  rw [continues_zero]
  constructor
  · rintro ⟨blocks, hblocks⟩
    cases blocks with
    | nil => cases hblocks
    | cons b blocks =>
        rw [frame_cons, Block.wire, List.cons_append, List.cons.injEq] at hblocks
        refine ⟨b.data, blocks, hblocks.2, ?_, b.nonzero⟩
        rw [hblocks.1, blockCode_toNat b.short, Nat.add_sub_cancel]
  · rintro ⟨data, blocks, rfl, hlength, hdata⟩
    have hframed : Framed (code :: data ++ frame blocks) :=
      .block (by omega) hdata (framed_frame blocks)
    exact (framed_iff _).mp hframed

/-- The marker never wraps: it is set to a code where it is 0, and it ends at 0 where
the string ends with a block. -/
theorem cobsVerifyFrom_eq (before rest after : Bytes) (marker : UInt8) :
    ∃ r, cobsVerifyFrom (before ++ (rest ++ after)) (before.length + rest.length) before.length
        marker = .ok r ∧
      (r = some 0x00 ↔ Continues marker.toNat rest) := by
  induction rest generalizing before marker with
  | nil =>
      refine ⟨some marker, by rw [cobsVerifyFrom, if_neg (by simp)], ?_⟩
      rw [continues_nil, Option.some.injEq, ← UInt8.toNat_inj]
      rfl
  | cons byte rest ih =>
      have hlt : before.length < before.length + (byte :: rest).length := by simp
      rw [cobsVerifyFrom, if_pos hlt, List.cons_append, readAt_append_length, ok_bind]
      by_cases hbyte : byte = specialChar
      · rw [if_pos hbyte]
        refine ⟨none, rfl, iff_of_false (by simp) ?_⟩
        intro hrest
        exact specialChar_notMem_of_continues hrest (hbyte ▸ List.mem_cons_self)
      have hnext (marker : UInt8) := ih (before ++ [byte]) marker
      simp only [List.length_append, List.length_singleton, List.append_assoc,
        List.cons_append, List.nil_append] at hnext
      have hlength : before.length + (byte :: rest).length = before.length + 1 + rest.length := by
        rw [List.length_cons]
        omega
      rw [if_neg hbyte, hlength]
      by_cases hmarker : marker = 0x00
      · obtain ⟨r, hr, hiff⟩ := hnext (byte - 1)
        have hcode : (if byte = 0x00 then specialChar else byte) = byte := if_neg hbyte
        simp only [if_pos hmarker, hcode]
        refine ⟨r, hr, hiff.trans ?_⟩
        rw [toNat_predecessor hbyte, ← continues_code hbyte, hmarker]
        rfl
      · obtain ⟨r, hr, hiff⟩ := hnext (marker - 1)
        have hpos := toNat_ne_zero hmarker
        have hsucc : marker.toNat = marker.toNat - 1 + 1 := by omega
        simp only [if_neg hmarker]
        refine ⟨r, hr, hiff.trans ?_⟩
        rw [toNat_predecessor hmarker, hsucc, continues_cons hbyte]
        rfl

/-- The counting verifier never leaves the string, and accepts the strings of blocks. -/
theorem cobsVerify_eq (src : Bytes) (len : Nat) (hlen : len ≤ src.length) :
    ∃ r, cobsVerify src len = .ok r ∧ (r = true ↔ ∃ blocks, src.take len = frame blocks) := by
  obtain ⟨r, hr, hiff⟩ := cobsVerifyFrom_eq [] (src.take len) (src.drop len) 0x00
  rw [List.nil_append, List.take_append_drop, List.length_nil, Nat.zero_add,
    List.length_take_of_le hlen] at hr
  have hzero : (0x00 : UInt8).toNat = 0 := rfl
  rw [hzero, continues_zero] at hiff
  rw [← hiff, cobsVerify, hr, ok_bind]
  cases r with
  | none => exact ⟨false, rfl, by simp⟩
  | some marker => exact ⟨decide (marker = 0x00), rfl, by simp⟩

/-- The verifiers agree on every string, and accept the grammar. -/
theorem altCobsVerify_eq_cobsVerify (e : Bytes) :
    ∃ r, altCobsVerify e e.length = .ok r ∧ cobsVerify e e.length = .ok r ∧
      (r = true ↔ Framed e) := by
  obtain ⟨alt, halt, haltIff⟩ := altCobsVerify_eq e e.length (Nat.le_refl _)
  obtain ⟨r, hr, hiff⟩ := cobsVerify_eq e e.length (Nat.le_refl _)
  rw [List.take_length, ← framed_iff] at haltIff hiff
  have hsame : alt = r := Bool.eq_iff_iff.mpr (haltIff.trans hiff.symm)
  exact ⟨r, hsame ▸ halt, hr, hiff⟩

end Hipft
