import Hipft.Cobs.Codec
import Hipft.Foundation.Stuffing

/-! # What the COBS routines do, block by block

The encoder writes the blocks of its input followed by the delimiter. The
verifier accepts exactly the strings of blocks, and on these the decoder and
the length routine never leave the string.
-/

namespace Hipft

open CMemory Stuffing

/-- A COBS block: a code byte `n + 1` for `n` bytes other than the delimiter. -/
abbrev Block := Stuffing.Block specialChar 254

def blockCode (n : Nat) : UInt8 := UInt8.ofNat (n + 1)

/-- The bytes of a sequence of blocks, without a delimiter. -/
def frame (blocks : List Block) : Bytes := wire blockCode blocks

@[simp] theorem frame_nil : frame [] = [] := rfl

@[simp] theorem frame_cons (b : Block) (rest : List Block) :
    frame (b :: rest) = b.wire blockCode ++ frame rest := rfl

@[simp] theorem frame_append (front back : List Block) :
    frame (front ++ back) = frame front ++ frame back := wire_append blockCode front back

theorem toNat_ne_zero {byte : UInt8} (hbyte : byte ≠ 0x00) : byte.toNat ≠ 0 := fun hzero =>
  hbyte (UInt8.toNat_inj.mp (hzero.trans UInt8.toNat_zero.symm))

theorem blockCode_toNat {n : Nat} (hn : n ≤ 254) : (blockCode n).toNat = n + 1 := by
  rw [blockCode, UInt8.toNat_ofNat']
  omega

theorem blockCode_ne {n : Nat} (hn : n ≤ 254) : blockCode n ≠ specialChar := by
  intro heq
  have hnat := congrArg UInt8.toNat heq
  rw [blockCode_toNat hn] at hnat
  exact Nat.succ_ne_zero n hnat

theorem blockCode_inj : ∀ m ≤ 254, ∀ n ≤ 254, blockCode m = blockCode n → m = n := by
  intro m hm n hn heq
  have hnat := congrArg UInt8.toNat heq
  rw [blockCode_toNat hm, blockCode_toNat hn] at hnat
  omega

theorem blockCode_eq_full {n : Nat} (hn : n ≤ 254) : blockCode n = 0xFF ↔ n = 254 := by
  rw [← UInt8.toNat_inj, blockCode_toNat hn]
  change n + 1 = 255 ↔ n = 254
  omega

theorem specialChar_notMem_frame (blocks : List Block) : specialChar ∉ frame blocks :=
  zero_notMem_wire (fun _ hn => blockCode_ne hn) blocks

theorem frame_injective : Function.Injective frame := wire_injective blockCode_inj

/-! ## Encoding -/

/-- The blocks `cobs_encode` cuts a byte string into. -/
abbrev cobsBlocks (x : Bytes) : List Block := split (by decide) x

namespace EncodeState

/-- The encoder after the blocks `done`, with `data` written behind the slot. -/
def pending (done : List Block) (data : Bytes) : EncodeState where
  dst := frame done ++ 0x00 :: data
  currDst := (frame done).length
  marker := blockCode data.length

theorem placeMarker_pending (done : List Block) (b : Block) :
    (pending done b.data).placeMarker = pending (done ++ [b]) [] := by
  have hcode := blockCode_ne b.short
  have hempty : blockCode 0 = 0x01 := rfl
  simp [placeMarker, pending, hcode, hempty, Block.wire]

theorem copyByte_pending (done : List Block) (data : Bytes) (byte : UInt8) :
    (pending done data).copyByte byte = pending done (data ++ [byte]) := by
  simp [copyByte, pending, blockCode, UInt8.ofNat_add]

/-- One input byte makes the step the splitter makes. -/
theorem step_pending (done : List Block) (open_ : Run specialChar 254) (byte : UInt8) :
    (pending done open_.data).step byte =
      if hbyte : byte = specialChar then pending (done ++ [open_.close]) []
      else if open_.data.length + 1 < 254 then pending done (open_.data ++ [byte])
      else pending (done ++ [open_.push byte hbyte]) [] := by
  have hopen := open_.short
  unfold step
  split
  next hbyte => exact placeMarker_pending done open_.close
  next hbyte =>
    rw [copyByte_pending]
    have hmarker : (pending done (open_.data ++ [byte])).marker = 0xFF ↔
        open_.data.length + 1 = 254 := by
      rw [pending, blockCode_eq_full (by simp; omega)]
      simp
    by_cases hfull : open_.data.length + 1 = 254
    · rw [if_pos (hmarker.mpr hfull), if_neg (by omega)]
      exact placeMarker_pending done (open_.push byte hbyte)
    · rw [if_neg (hmarker.not.mpr hfull), if_pos (by omega)]

theorem delimit_pending (done : List Block) :
    (pending done []).delimit = frame done ++ [specialChar] := by
  simp [delimit, pending]

theorem finish_pending (done : List Block) (open_ : Run specialChar 254) :
    (pending done open_.data).finish =
      frame (done ++ if open_.data = [] then [] else [open_.close]) ++ [specialChar] := by
  have hmarker : (pending done open_.data).marker = 0x01 ↔ open_.data = [] := by
    rw [← UInt8.toNat_inj, pending, blockCode_toNat (Nat.le_of_lt open_.short)]
    change open_.data.length + 1 = 1 ↔ open_.data = []
    rw [← List.length_eq_zero_iff]
    omega
  unfold finish
  by_cases hempty : open_.data = []
  · rw [if_neg (not_not.mpr (hmarker.mpr hempty)), if_pos hempty, hempty, delimit_pending,
      List.append_nil]
  · rw [if_pos (hmarker.not.mpr hempty), if_neg hempty, ← delimit_pending]
    exact congrArg delimit (placeMarker_pending done open_.close)

theorem foldl_step_finish (done : List Block) (open_ : Run specialChar 254) (x : Bytes) :
    (x.foldl step (pending done open_.data)).finish =
      frame (done ++ splitFrom (by decide) open_ x) ++ [specialChar] := by
  induction x generalizing done open_ with
  | nil => exact finish_pending done open_
  | cons byte rest ih =>
      rw [List.foldl_cons, step_pending, splitFrom]
      split
      next hbyte =>
        have hrest := ih (done ++ [open_.close]) (.empty (by decide))
        rwa [List.append_assoc] at hrest
      next hbyte =>
        split
        next hopen => exact ih done (open_.extend byte hbyte hopen)
        next hfull =>
          have hrest := ih (done ++ [open_.push byte hbyte]) (.empty (by decide))
          rwa [List.append_assoc] at hrest

end EncodeState

/-- The encoder writes the blocks of its input and the delimiter. -/
theorem cobsEncode_eq (x : Bytes) : cobsEncode x = frame (cobsBlocks x) ++ [specialChar] :=
  EncodeState.foldl_step_finish [] (.empty (by decide)) x

/-! ## Decoding -/

/-- The text of a string of blocks that ends without a delimiter: the last
block gets no zero. -/
def openText : List Block → Bytes
  | [] => []
  | [b] => b.data
  | b :: c :: rest => b.text ++ openText (c :: rest)

theorem openText_append_singleton (front : List Block) (last : Block) :
    openText (front ++ [last]) = text front ++ last.data := by
  induction front with
  | nil => rfl
  | cons b front ih =>
      cases front with
      | nil => simp [openText]
      | cons c front =>
          rw [text_cons, List.append_assoc, ← ih]
          rfl

theorem readAt_wire (before after : Bytes) (b : Block) :
    readAt (before ++ (b.wire blockCode ++ after)) before.length =
      .ok (blockCode b.data.length) := readAt_append_length before (b.data ++ after) _

theorem readRange_wire (before after : Bytes) (b : Block) {count : Nat}
    (hcount : count ≤ b.data.length) :
    readRange (before ++ (b.wire blockCode ++ after)) (before.length + 1) count =
      .ok (b.data.take count) := by
  have hdrop : (before ++ (b.wire blockCode ++ after)).drop (before.length + 1) =
      b.data ++ after := by
    rw [← List.drop_drop, List.drop_left]
    rfl
  rw [readRange_of_le (by simp; omega), hdrop, List.take_append_of_le_length hcount]

/-- One block: its bytes, and a zero unless the block is full or the last. -/
theorem cobsDecodeFrom_block (before after : Bytes) (b : Block) (len : Nat) (dst : Bytes)
    (hcur : before.length < len) :
    cobsDecodeFrom (before ++ (b.wire blockCode ++ after)) len before.length dst =
      cobsDecodeFrom (before ++ (b.wire blockCode ++ after)) len
        (before.length + (b.data.length + 1))
        (dst ++ if before.length + (b.data.length + 1) < len then b.text else b.data) := by
  have hcode := blockCode_toNat b.short
  have hrun := readRange_wire before after b (Nat.le_refl _)
  rw [List.take_length] at hrun
  rw [cobsDecodeFrom, if_pos hcur, readAt_wire, ok_bind]
  have hmarker : (if blockCode b.data.length = 0x00 then specialChar
      else blockCode b.data.length).toNat = b.data.length + 1 := by
    have hne : blockCode b.data.length ≠ 0x00 := blockCode_ne b.short
    rw [if_neg hne, hcode]
  simp only [hmarker, Nat.add_sub_cancel, hrun, ok_bind]
  have hnext : before.length + 1 + b.data.length = before.length + (b.data.length + 1) := by
    omega
  rw [hnext]
  congr 1
  rw [List.append_assoc]
  congr 1
  by_cases hfull : b.Full
  · have hlength : b.data.length = 254 := hfull
    simp [Block.text_full hfull, hlength]
  · have hlength : b.data.length < 254 := Nat.lt_of_le_of_ne b.short hfull
    by_cases hlast : before.length + (b.data.length + 1) < len
    · rw [if_pos ⟨by omega, hlast⟩, if_pos hlast, Block.text_open hfull]
    · rw [if_neg (fun h => hlast h.2), if_neg hlast, List.append_nil]

theorem cobsDecodeFrom_frame (before after : Bytes) (blocks : List Block) (dst : Bytes) :
    cobsDecodeFrom (before ++ (frame blocks ++ specialChar :: after))
      (before.length + ((frame blocks).length + 1)) before.length dst =
        .ok (dst ++ text blocks) := by
  induction blocks generalizing before dst with
  | nil =>
      -- the delimiter is read as a code of its own and stands for nothing
      have hzero : (if specialChar = 0x00 then specialChar else specialChar).toNat = 0 := by
        decide
      rw [cobsDecodeFrom, if_pos (by simp), frame_nil, List.nil_append, readAt_append_length,
        ok_bind]
      simp only [hzero, Nat.zero_sub, readRange, ok_bind]
      rw [cobsDecodeFrom, if_neg (by simp)]
      simp
  | cons b rest ih =>
      have hrest := ih (before ++ b.wire blockCode) (dst ++ b.text)
      rw [frame_cons, List.append_assoc, cobsDecodeFrom_block _ _ _ _ _ (by omega)]
      simp only [List.length_append, Block.wire_length, List.append_assoc] at hrest ⊢
      rw [if_pos (by omega), text_cons, ← hrest]
      congr 1
      omega

/-- Decoding a string of blocks with the delimiter counted in. -/
theorem cobsDecode_frame (blocks : List Block) :
    cobsDecode (frame blocks ++ [specialChar]) ((frame blocks).length + 1) =
      .ok (text blocks) := by
  simpa [cobsDecode] using cobsDecodeFrom_frame [] [] blocks []

theorem cobsDecodeFrom_openFrame (before after : Bytes) (blocks : List Block) (dst : Bytes) :
    cobsDecodeFrom (before ++ (frame blocks ++ after))
      (before.length + (frame blocks).length) before.length dst =
        .ok (dst ++ openText blocks) := by
  induction blocks generalizing before dst with
  | nil =>
      rw [cobsDecodeFrom]
      simp [openText]
  | cons b rest ih =>
      have hrest := ih (before ++ b.wire blockCode)
      have hcur : before.length < before.length + (b.wire blockCode ++ frame rest).length := by
        rw [List.length_append, Block.wire_length]
        omega
      rw [frame_cons, List.append_assoc, cobsDecodeFrom_block _ _ _ _ _ hcur]
      simp only [List.length_append, Block.wire_length, List.append_assoc] at hrest ⊢
      rw [Nat.add_assoc] at hrest
      cases rest with
      | nil =>
          rw [frame_nil, List.length_nil, Nat.add_zero, if_neg (Nat.lt_irrefl _)]
          simpa [openText] using hrest (dst ++ b.data)
      | cons c rest =>
          have hpos : 0 < (frame (c :: rest)).length := by
            simp only [frame_cons, List.length_append, Block.wire_length]
            omega
          rw [if_pos (by omega), hrest, openText, List.append_assoc]

/-- Decoding a string of blocks alone, as the client calls the decoder. -/
theorem cobsDecode_openFrame (blocks : List Block) (after : Bytes) :
    cobsDecode (frame blocks ++ after) (frame blocks).length = .ok (openText blocks) := by
  simpa [cobsDecode] using cobsDecodeFrom_openFrame [] after blocks []

theorem cobsDecode_undelimited (blocks : List Block) :
    cobsDecode (frame blocks) (frame blocks).length = .ok (openText blocks) := by
  simpa using cobsDecode_openFrame blocks []

/-- Leaving the delimiter out costs at most one last zero. -/
theorem openText_eq (blocks : List Block) :
    openText blocks = text blocks ∨ text blocks = openText blocks ++ [specialChar] := by
  induction blocks with
  | nil => exact Or.inl rfl
  | cons b rest ih =>
      cases rest with
      | nil =>
          by_cases hfull : b.Full
          · exact Or.inl (by simp [openText, Block.text_full hfull])
          · exact Or.inr (by simp [openText, Block.text_open hfull])
      | cons c rest =>
          rw [openText, text_cons]
          rcases ih with ih | ih
          · exact Or.inl (by rw [ih])
          · exact Or.inr (by rw [ih, List.append_assoc])

/-! ## Verifying -/

theorem code_le_of_frame {code : UInt8} {tail : Bytes} {blocks : List Block}
    (hblocks : code :: tail = frame blocks) : code.toNat ≤ tail.length + 1 := by
  cases blocks with
  | nil => cases hblocks
  | cons b rest =>
      rw [frame_cons, Block.wire, List.cons_append, List.cons.injEq] at hblocks
      rw [hblocks.1, blockCode_toNat b.short, hblocks.2, List.length_append]
      omega

/-- A code that stays inside a string without delimiters is the start of blocks exactly
when blocks start where it points. -/
theorem exists_frame_cons_iff {code : UInt8} {tail : Bytes} (hclean : specialChar ∉ tail)
    (hpos : code.toNat ≠ 0) (hfits : code.toNat ≤ tail.length + 1) :
    (∃ blocks, code :: tail = frame blocks) ↔
      ∃ blocks, tail.drop (code.toNat - 1) = frame blocks := by
  constructor
  · rintro ⟨blocks, hblocks⟩
    cases blocks with
    | nil => cases hblocks
    | cons b rest =>
        rw [frame_cons, Block.wire, List.cons_append, List.cons.injEq] at hblocks
        refine ⟨rest, ?_⟩
        rw [hblocks.1, blockCode_toNat b.short, Nat.add_sub_cancel, hblocks.2, List.drop_left]
  · rintro ⟨rest, hrest⟩
    have hbyte := code.toNat_lt
    have hdata : (tail.take (code.toNat - 1)).length = code.toNat - 1 :=
      List.length_take_of_le (by omega)
    have hcons : blockCode (tail.take (code.toNat - 1)).length = code := by
      rw [blockCode, hdata, Nat.sub_add_cancel (by omega), UInt8.ofNat_toNat]
    refine ⟨⟨tail.take (code.toNat - 1), mt List.mem_of_mem_take hclean, by omega⟩ :: rest, ?_⟩
    rw [frame_cons, Block.wire, hcons, ← hrest, List.cons_append, List.take_append_drop]

/-- The chain of codes ends at the end of a string without delimiters exactly
when the rest of the string is a sequence of blocks. -/
theorem altCobsChain_eq (src : Bytes) (len cur : Nat) (hlen : len ≤ src.length)
    (hcur : cur ≤ len) (hnonzero : specialChar ∉ src.take len) :
    ∃ r, altCobsChain src len cur = .ok r ∧
      (r = some len ↔ ∃ blocks, (src.take len).drop cur = frame blocks) := by
  induction cur using altCobsChain.induct len with
  | case2 cur hstop =>
      have heq : cur = len := by omega
      subst heq
      refine ⟨some cur, by rw [altCobsChain, if_neg hstop], ?_⟩
      exact ⟨fun _ => ⟨[], by simp⟩, fun _ => rfl⟩
  | case1 cur hlt ih =>
      have hread : readAt src cur = .ok src[cur] := readAt_of_lt (by omega)
      have htake : cur < (src.take len).length := by
        rw [List.length_take]
        omega
      have hdrop : (src.take len).drop cur = src[cur] :: (src.take len).drop (cur + 1) := by
        rw [List.drop_eq_getElem_cons htake, List.getElem_take]
      have htail : ((src.take len).drop (cur + 1)).length = len - (cur + 1) := by
        rw [List.length_drop, List.length_take, Nat.min_eq_left hlen]
      have hpos : src[cur].toNat ≠ 0 := by
        apply toNat_ne_zero
        intro hzero
        apply hnonzero
        have hmem := List.getElem_mem htake
        rwa [List.getElem_take, hzero] at hmem
      rw [altCobsChain, if_pos hlt, hread, ok_bind, if_neg hpos, hdrop]
      by_cases hfits : cur + src[cur].toNat ≤ len
      · obtain ⟨r, hchain, hiff⟩ := ih src[cur] hpos hfits
        have hnext : cur + 1 + (src[cur].toNat - 1) = cur + src[cur].toNat := by omega
        refine ⟨r, hchain, hiff.trans ?_⟩
        rw [exists_frame_cons_iff (mt List.mem_of_mem_drop hnonzero) hpos (by omega),
          List.drop_drop, hnext]
      · -- the code points past the end, so the chain misses it and no block starts here
        refine ⟨some (cur + src[cur].toNat), by rw [altCobsChain, if_neg (by omega)], ?_⟩
        constructor
        · intro heq
          have hend := Option.some.inj heq
          omega
        · rintro ⟨blocks, hblocks⟩
          have hcode := code_le_of_frame hblocks
          omega

theorem altCobsChain_total (src : Bytes) (len cur : Nat) (hlen : len ≤ src.length) :
    ∃ r, altCobsChain src len cur = .ok r := by
  induction cur using altCobsChain.induct len with
  | case2 cur hstop => exact ⟨some cur, by rw [altCobsChain, if_neg hstop]⟩
  | case1 cur hlt ih =>
      rw [altCobsChain, if_pos hlt, readAt_of_lt (by omega), ok_bind]
      by_cases hzero : src[cur].toNat = 0
      · exact ⟨none, if_pos hzero⟩
      · rw [if_neg hzero]
        exact ih src[cur] hzero

/-- The second loop of the verifier looks for a delimiter. -/
theorem allM_ne_specialChar {src : Bytes} {len : Nat} (hlen : len ≤ src.length) :
    ((List.range len).allM fun i => do
        let byte ← readAt src i
        pure (decide (byte ≠ specialChar))) = .ok (decide (specialChar ∉ src.take len)) := by
  have hread : ∀ i ∈ List.range len, (do
      let byte ← readAt src i
      pure (decide (byte ≠ specialChar))) = (.ok (decide (src[i]? ≠ some specialChar)) :
        CRun Bool) := by
    intro i hi
    have hlt : i < src.length := Nat.lt_of_lt_of_le (List.mem_range.mp hi) hlen
    rw [readAt_of_lt hlt, ok_bind, List.getElem?_eq_getElem hlt]
    simp
  rw [allM_eq_ok hread, Except.ok.injEq, Bool.eq_iff_iff, List.all_eq_true, decide_eq_true_eq,
    List.mem_iff_getElem?]
  constructor
  · rintro hnone ⟨i, hi⟩
    rw [List.getElem?_take] at hi
    split at hi
    next hlt => exact absurd hi (of_decide_eq_true (hnone i (List.mem_range.mpr hlt)))
    next => cases hi
  · intro hnone i hi
    refine decide_eq_true fun heq => hnone ⟨i, ?_⟩
    rw [List.getElem?_take, if_pos (List.mem_range.mp hi), heq]

/-- The verifier never leaves the string, and accepts the strings of blocks. -/
theorem altCobsVerify_eq (src : Bytes) (len : Nat) (hlen : len ≤ src.length) :
    ∃ r, altCobsVerify src len = .ok r ∧
      (r = true ↔ ∃ blocks, src.take len = frame blocks) := by
  have hclean : (∃ blocks, src.take len = frame blocks) → specialChar ∉ src.take len := by
    rintro ⟨blocks, hblocks⟩
    rw [hblocks]
    exact specialChar_notMem_frame blocks
  have hchain (hnonzero : specialChar ∉ src.take len) :=
    altCobsChain_eq src len 0 hlen (Nat.zero_le _) hnonzero
  simp only [List.drop_zero] at hchain
  obtain ⟨stop, hstop⟩ := altCobsChain_total src len 0 hlen
  have hmiss (hne : stop ≠ some len) : ¬ ∃ blocks, src.take len = frame blocks := by
    intro hblocks
    obtain ⟨r, hr, hiff⟩ := hchain (hclean hblocks)
    rw [hstop, Except.ok.injEq] at hr
    exact hne (hr.trans (hiff.mpr hblocks))
  unfold altCobsVerify
  rw [hstop, ok_bind]
  cases stop with
  | none => exact ⟨false, rfl, by simpa using hmiss (by simp)⟩
  | some cur =>
      by_cases hcur : cur = len
      · subst hcur
        refine ⟨_, (if_neg (not_not.mpr rfl)).trans (allM_ne_specialChar hlen), ?_⟩
        rw [decide_eq_true_eq]
        constructor
        · intro hnonzero
          obtain ⟨r, hr, hiff⟩ := hchain hnonzero
          rw [hstop, Except.ok.injEq] at hr
          exact hiff.mp hr.symm
        · exact hclean
      · refine ⟨false, by simp [hcur], ?_⟩
        simpa using hmiss (by simpa using hcur)

/-! ## Lengths -/

theorem scanSpecialChar_eq (before front after : Bytes) (hfront : specialChar ∉ front) :
    scanSpecialChar (before ++ (front ++ specialChar :: after)) before.length =
      .ok (before.length + front.length) := by
  induction front generalizing before with
  | nil =>
      rw [scanSpecialChar]
      simp
  | cons byte rest ih =>
      have hbyte : byte ≠ specialChar := fun heq => hfront (heq ▸ List.mem_cons_self)
      have hrest := ih (before ++ [byte]) fun hmem => hfront (List.mem_cons_of_mem _ hmem)
      rw [scanSpecialChar]
      simp only [List.length_append, List.length_singleton, List.append_assoc,
        List.cons_append, List.nil_append] at hrest ⊢
      rw [dif_pos (by simp), if_neg (by simpa using hbyte), hrest, List.length_cons]
      congr 1
      omega

theorem scanSpecialChar_frame (blocks : List Block) (after : Bytes) :
    scanSpecialChar (frame blocks ++ specialChar :: after) 0 = .ok (frame blocks).length := by
  simpa using scanSpecialChar_eq [] (frame blocks) after (specialChar_notMem_frame blocks)

/-- The length an encoded string reports is its own, delimiter included. -/
theorem cobsEncodedLengthFromEncoded_cobsEncode (x : Bytes) :
    cobsEncodedLengthFromEncoded (cobsEncode x) = .ok (cobsEncode x).length := by
  rw [cobsEncodedLengthFromEncoded, cobsEncode_eq, scanSpecialChar_frame]
  simp

theorem countDecoded_frame (before after : Bytes) (blocks : List Block) (sum : Nat) :
    countDecoded (before ++ (frame blocks ++ after)) (before.length + (frame blocks).length)
      before.length sum = .ok (sum + (text blocks).length) := by
  induction blocks generalizing before sum with
  | nil =>
      rw [countDecoded]
      simp
  | cons b rest ih =>
      have hcode := blockCode_toNat b.short
      have hrest := ih (before ++ b.wire blockCode)
      have hstep : (if blockCode b.data.length = 0xFF then 0xFE
          else (blockCode b.data.length).toNat) = b.text.length := by
        by_cases hfull : b.Full
        · have hlength : b.data.length = 254 := hfull
          rw [if_pos ((blockCode_eq_full b.short).mpr hlength), Block.text_full hfull, hlength]
        · rw [if_neg ((blockCode_eq_full b.short).not.mpr hfull), hcode, Block.text_open hfull]
          simp
      have hcur : before.length < before.length + (frame (b :: rest)).length := by
        rw [frame_cons, List.length_append, Block.wire_length]
        omega
      rw [countDecoded, if_pos hcur, frame_cons, List.append_assoc, readAt_wire, ok_bind,
        if_neg (by omega)]
      simp only [List.length_append, Block.wire_length, List.append_assoc, hstep] at hrest ⊢
      rw [hcode, text_cons, List.length_append, ← Nat.add_assoc, ← Nat.add_assoc sum, ← hrest]

/-- On a string of blocks the length routine counts the whole text. -/
theorem cobsDecodedLength_frame (blocks : List Block) (after : Bytes) :
    cobsDecodedLengthFromEncoded (frame blocks ++ specialChar :: after) =
      .ok (text blocks).length := by
  rw [cobsDecodedLengthFromEncoded, scanSpecialChar_frame, ok_bind]
  simpa using countDecoded_frame [] (specialChar :: after) blocks 0

end Hipft
