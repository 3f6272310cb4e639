import Hipft.Client.HeadTrail

/-! # Accounting for a stream

Every chunk that a delimiter ends is counted or has its line in the log, under its number.
Damage to a part of the stream shows in as many chunks as it touches.
-/

namespace Hipft

open CMemory ByteLayout Stuffing

/-! ## The line of a chunk -/

/-- Header and trailer of the message in the chunk are not the same in front. -/
def FrontsDiffer (chunk : Bytes) : Prop :=
  ∃ blocks, chunk = frame blocks ∧
    ¬ SameFront (parsedMsg (text blocks)).head (parsedMsg (text blocks)).trail

/-- What a line of the log says about the chunk that it is for. -/
structure Describes (chunkcount : Nat) (chunk : Bytes) (entry : LogEntry) : Prop where
  number : entry.blockcount = chunkcount
  headTrail : entry.subtype = .headTrail ↔ ValidBlock chunk
  differ : entry.subtype = .headTrail → FrontsDiffer chunk
  nullPacket : entry.subtype = .nullPacket ↔ chunk = []
  cobs : entry.type = .cobs ↔ chunk = [] ∨ ∀ blocks, chunk ≠ frame blocks

/-- What is logged for a chunk. One that counts has a line where header and trailer differ. -/
structure Logged (chunkcount : Nat) (chunk : Bytes) (entries : List LogEntry) : Prop where
  single : entries.length ≤ 1
  logged : entries ≠ [] ↔ (ValidBlock chunk → FrontsDiffer chunk)
  describes : ∀ entry ∈ entries, Describes chunkcount chunk entry

theorem handleCobsErrors_entry {chunkcount len : Nat} {buffer : Bytes} {entry : LogEntry}
    (hrun : handleCobsErrors chunkcount buffer len = .ok entry) :
    entry.blockcount = chunkcount ∧ entry.type = .cobs ∧ entry.subtype ≠ .headTrail ∧
      entry.subtype ≠ .nullPacket := by
  obtain ⟨found, htry, hrun⟩ := bind_eq_ok.mp hrun
  cases found with
  | none =>
      cases hrun
      exact ⟨rfl, rfl, nofun, nofun⟩
  | some found =>
      cases hrun
      obtain ⟨⟨decoded, mh⟩, -, htry⟩ := bind_eq_ok.mp htry
      simp only at htry
      split at htry
      next => cases htry
      next =>
        split at htry
        next =>
          cases htry
          exact ⟨rfl, rfl, nofun, nofun⟩
        next =>
          cases htry
          exact ⟨rfl, rfl, nofun, nofun⟩

theorem handleBustedMsg1_entry {chunkcount : Nat} {buffer : Bytes} {len : UInt64}
    {entry : LogEntry} (hrun : handleBustedMsg1 chunkcount buffer len = .ok entry) :
    entry.blockcount = chunkcount ∧ entry.type = .msg ∧ entry.subtype = .parse := by
  obtain ⟨found, -, hrun⟩ := bind_eq_ok.mp hrun
  simp only at hrun
  split at hrun
  next =>
    split at hrun
    next =>
      obtain ⟨packet, -, hrun⟩ := bind_eq_ok.mp hrun
      cases hrun
      exact ⟨rfl, rfl, rfl⟩
    next =>
      cases hrun
      exact ⟨rfl, rfl, rfl⟩
  next =>
    repeat' split at hrun
    all_goals
      cases hrun
      exact ⟨rfl, rfl, rfl⟩

theorem validateMessage_entries {m : Msg} {chunkcount len : Nat} {valid : Bool}
    {entries : List LogEntry} (hrun : validateMessage m chunkcount len = .ok (valid, entries)) :
    entries.length ≤ 1 ∧ (entries ≠ [] ↔ (valid = true → ¬ SameFront m.head m.trail)) ∧
      ∀ entry ∈ entries, entry.blockcount = chunkcount ∧ entry.type = .msg ∧
        entry.subtype = if valid then .headTrail else .parse := by
  unfold validateMessage at hrun
  rw [← sameFront_iff]
  split at hrun
  next specific _ =>
    cases hrun
    simp
  next =>
    split at hrun
    next hdiffer =>
      obtain ⟨⟨hd, xorbuf⟩, -, hrun⟩ := bind_eq_ok.mp hrun
      cases hrun
      simpa using hdiffer
    next hsame =>
      cases hrun
      simpa using hsame

/-- Fresh memory, which can be the last byte of the trailer, does not show in front. -/
theorem sameFront_decoded (heap : Heap) (chunkcount : Nat) {blocks : List Block}
    (hfits : Fits (MsgHeader.ofBytes (slice (text blocks) 0 56)) (text blocks).length) :
    SameFront (parsedMsg (decoded heap chunkcount blocks)).head
        (parsedMsg (decoded heap chunkcount blocks)).trail ↔
      SameFront (parsedMsg (text blocks)).head (parsedMsg (text blocks)).trail := by
  have htotal := hfits.total
  have hhead := slice_decoded heap chunkcount blocks (show 0 + 56 < (text blocks).length by omega)
  rw [← sameFront_iff, ← sameFront_iff]
  simp only [parsedMsg, hhead]
  refine Eq.congr_right (MsgHeader.memory_take_ofBytes ?_)
  rw [slice_slice (by omega), slice_slice (by omega),
    slice_decoded heap chunkcount blocks (by omega)]

/-- A chunk that is a string of blocks and not empty. -/
theorem describes_msg {chunkcount : Nat} {chunk : Bytes} {valid : Bool} {entry : LogEntry}
    (hvalid : valid = true ↔ ValidBlock chunk) (hsome : chunk ≠ [])
    (hblocks : ∃ blocks, chunk = frame blocks)
    (hentry : entry.blockcount = chunkcount ∧ entry.type = .msg ∧
      entry.subtype = if valid then .headTrail else .parse)
    (hdiffer : valid = true → FrontsDiffer chunk) : Describes chunkcount chunk entry where
  number := hentry.1
  headTrail := by
    rw [← hvalid, hentry.2.2]
    cases valid <;> simp
  differ := by
    rw [hentry.2.2]
    cases valid with
    | true => exact fun _ => hdiffer rfl
    | false => exact nofun
  nullPacket := by
    rw [hentry.2.2]
    cases valid <;> simp [hsome]
  cobs := by
    rw [hentry.2.1]
    refine iff_of_false nofun ?_
    rintro (hempty | hnot)
    · exact hsome hempty
    · obtain ⟨blocks, hchunk⟩ := hblocks
      exact hnot blocks hchunk

/-- A chunk that does not count has its line. -/
theorem Describes.logged {chunkcount : Nat} {chunk : Bytes} {entry : LogEntry}
    (hdescribes : Describes chunkcount chunk entry) (hbad : ¬ ValidBlock chunk) :
    Logged chunkcount chunk [entry] where
  single := Nat.le_refl 1
  logged := iff_of_true (List.cons_ne_nil _ _) fun hgood => absurd hgood hbad
  describes := List.forall_mem_singleton.mpr hdescribes

/-- A short chunk is counted or logged for what it is. -/
theorem handleChunk_logged (heap : Heap) (chunkcount : Nat) {chunk : Bytes}
    (hshort : chunk.length < blockInitialSize) :
    ∃ valid entries, handleChunk heap chunkcount (chunkBuffer chunk) chunk.length =
        .ok (valid, entries) ∧ (valid = true ↔ ValidBlock chunk) ∧
      Logged chunkcount chunk entries := by
  obtain ⟨valid, entries, hrun, hvalid⟩ := handleChunk_eq heap chunkcount hshort
  refine ⟨valid, entries, hrun, hvalid, ?_⟩
  by_cases hempty : chunk.length = 0
  · have hnil := List.length_eq_zero_iff.mp hempty
    simp only [handleChunk, if_pos hempty] at hrun
    cases hrun
    have hbad : ¬ ValidBlock chunk := fun hgood => Bool.false_ne_true (hvalid.mpr hgood)
    have hdescribes : Describes chunkcount chunk (handleNullPacket chunkcount) :=
      ⟨rfl, iff_of_false LogSubtype.noConfusion hbad, fun hsame => LogSubtype.noConfusion hsame,
        iff_of_true rfl hnil, iff_of_true rfl (.inl hnil)⟩
    exact hdescribes.logged hbad
  have hsome : chunk ≠ [] := mt List.length_eq_zero_iff.mpr hempty
  have hbuffer := chunkBuffer_length hshort
  obtain ⟨verified, hverify, hiff⟩ := altCobsVerify_eq (chunkBuffer chunk) chunk.length (by omega)
  rw [chunkBuffer_take] at hiff
  cases verified with
  | false =>
      simp only [handleChunk, if_neg hempty, hverify, ok_bind] at hrun
      obtain ⟨entry, hentry, hrun⟩ := bind_eq_ok.mp hrun
      cases hrun
      obtain ⟨hnumber, htype, hheadTrail, hnullPacket⟩ := handleCobsErrors_entry hentry
      have hbad : ¬ ValidBlock chunk := fun hgood => Bool.false_ne_true (hvalid.mpr hgood)
      have hblocks : ∀ blocks, chunk ≠ frame blocks :=
        fun blocks hchunk => Bool.false_ne_true (hiff.mpr ⟨blocks, hchunk⟩)
      have hdescribes : Describes chunkcount chunk entry :=
        ⟨hnumber, iff_of_false hheadTrail hbad, fun hsame => absurd hsame hheadTrail,
          iff_of_false hnullPacket hsome, iff_of_true htype (.inr hblocks)⟩
      exact hdescribes.logged hbad
  | true =>
      obtain ⟨blocks, rfl⟩ := hiff.mp rfl
      rw [handleChunk_frame heap chunkcount blocks hshort hempty] at hrun
      split at hrun
      next hfits =>
        obtain ⟨hsingle, hlogged, hentries⟩ := validateMessage_entries hrun
        have hfronts : FrontsDiffer (frame blocks) ↔
            ¬ SameFront (parsedMsg (text blocks)).head (parsedMsg (text blocks)).trail := by
          constructor
          · rintro ⟨blocks', hsame, hdiffer⟩
            rwa [frame_injective hsame]
          · exact fun hdiffer => ⟨blocks, rfl, hdiffer⟩
        rw [sameFront_decoded heap chunkcount hfits, ← hfronts, hvalid] at hlogged
        refine ⟨hsingle, hlogged, fun entry hentry =>
          describes_msg hvalid hsome ⟨blocks, rfl⟩ (hentries entry hentry) fun hgood => ?_⟩
        exact hlogged.mp (List.ne_nil_of_mem hentry) (hvalid.mp hgood)
      next =>
        obtain ⟨entry, hentry, hrun⟩ := bind_eq_ok.mp hrun
        cases hrun
        have hbad : ¬ ValidBlock (frame blocks) :=
          fun hgood => Bool.false_ne_true (hvalid.mpr hgood)
        have hdescribes : Describes chunkcount (frame blocks) entry :=
          describes_msg hvalid hsome ⟨blocks, rfl⟩ (handleBustedMsg1_entry hentry)
            fun hgood => absurd hgood Bool.false_ne_true
        exact hdescribes.logged hbad

/-! ## The whole stream -/

/-- What is logged for the chunks of a stream, one after the other. -/
structure LoggedFrom (chunkcount : Nat) (chunks : List Bytes) (log : List LogEntry) : Prop where
  increasing : (log.map LogEntry.blockcount).Pairwise (· < ·)
  describes : ∀ entry ∈ log, ∃ k chunk, chunks[k]? = some chunk ∧
    Describes (chunkcount + k + 1) chunk entry
  complete : ∀ k chunk, chunks[k]? = some chunk → (ValidBlock chunk → FrontsDiffer chunk) →
    ∃ entry ∈ log, entry.blockcount = chunkcount + k + 1

theorem LoggedFrom.cons {chunkcount : Nat} {chunk : Bytes} {chunks : List Bytes}
    {entries more : List LogEntry} (hfirst : Logged (chunkcount + 1) chunk entries)
    (hrest : LoggedFrom (chunkcount + 1) chunks more) :
    LoggedFrom chunkcount (chunk :: chunks) (entries ++ more) where
  increasing := by
    rw [List.map_append, List.pairwise_append]
    refine ⟨?_, hrest.increasing, ?_⟩
    · match entries, hfirst.single with
      | [], _ => exact .nil
      | [entry], _ => exact List.pairwise_singleton _ _
    · intro n hn later hlater
      obtain ⟨entry, hentry, rfl⟩ := List.mem_map.mp hn
      obtain ⟨other, hother, rfl⟩ := List.mem_map.mp hlater
      obtain ⟨k, chunk', -, hdescribes⟩ := hrest.describes other hother
      rw [(hfirst.describes entry hentry).number, hdescribes.number]
      omega
  describes := by
    intro entry hentry
    rcases List.mem_append.mp hentry with hentry | hentry
    · exact ⟨0, chunk, rfl, hfirst.describes entry hentry⟩
    · obtain ⟨k, chunk', hchunk, hdescribes⟩ := hrest.describes entry hentry
      refine ⟨k + 1, chunk', hchunk, ?_⟩
      rwa [Nat.add_right_comm chunkcount 1 k] at hdescribes
  complete := by
    intro k chunk' hchunk hlogged
    cases k with
    | zero =>
        cases hchunk
        obtain ⟨entry, hentry⟩ := List.exists_mem_of_ne_nil _ (hfirst.logged.mpr hlogged)
        exact ⟨entry, List.mem_append_left _ hentry, (hfirst.describes entry hentry).number⟩
    | succ k =>
        obtain ⟨entry, hentry, hnumber⟩ := hrest.complete k chunk' hchunk hlogged
        refine ⟨entry, List.mem_append_right _ hentry, ?_⟩
        rw [hnumber, Nat.add_right_comm chunkcount 1 k]
        rfl

/-- A chunk that counts and whose trailer starts as its header has no line. -/
theorem LoggedFrom.line_iff {chunkcount : Nat} {chunks : List Bytes} {log : List LogEntry}
    (hlogged : LoggedFrom chunkcount chunks log) {k : Nat} {chunk : Bytes}
    (hchunk : chunks[k]? = some chunk) :
    (∃ entry ∈ log, entry.blockcount = chunkcount + k + 1) ↔
      (ValidBlock chunk → FrontsDiffer chunk) := by
  constructor
  · rintro ⟨entry, hentry, hnumber⟩ hgood
    obtain ⟨k', chunk', hchunk', hdescribes⟩ := hlogged.describes entry hentry
    obtain rfl : k' = k := by
      have hsame := hdescribes.number.symm.trans hnumber
      omega
    obtain rfl := Option.some.inj (hchunk'.symm.trans hchunk)
    exact hdescribes.differ (hdescribes.headTrail.mpr hgood)
  · exact hlogged.complete k chunk hchunk

/-- A chunk is counted or has a line that says why not. -/
theorem Logged.rejects {chunkcount : Nat} {chunk : Bytes} {entries : List LogEntry} {valid : Bool}
    (hlogged : Logged chunkcount chunk entries) (hvalid : valid = true ↔ ValidBlock chunk) :
    (if valid then 1 else 0) + entries.countP (fun entry => entry.subtype ≠ .headTrail) = 1 := by
  cases valid with
  | true =>
      have hgood := hvalid.mp rfl
      have hnone : entries.countP (fun entry => entry.subtype ≠ .headTrail) = 0 := by
        rw [List.countP_eq_zero]
        intro entry hentry
        simpa using (hlogged.describes entry hentry).headTrail.mpr hgood
      rw [hnone]
      rfl
  | false =>
      have hbad : ¬ ValidBlock chunk := fun hgood => Bool.false_ne_true (hvalid.mpr hgood)
      obtain ⟨entry, rfl⟩ : ∃ entry, entries = [entry] := by
        have hpos := List.length_pos_iff.mpr
          (hlogged.logged.mpr fun hgood => absurd hgood hbad)
        have hsingle := hlogged.single
        exact List.length_eq_one_iff.mp (by omega)
      have hsubtype : entry.subtype ≠ .headTrail :=
        fun hsame => hbad ((hlogged.describes entry List.mem_cons_self).headTrail.mp hsame)
      simp [hsubtype]

/-- The reader's count and log behind a stream of short chunks. -/
theorem foldlM_readByte_logged (heap : Heap) (stream : Bytes)
    (hshort : ∀ chunk ∈ stream.splitOn specialChar, chunk.length < blockInitialSize)
    (chunkcount blockcount : Nat) (log : List LogEntry) :
    ∃ r more, stream.foldlM (readByte heap) (Reader.fresh chunkcount blockcount log) = .ok r ∧
      r.log = log ++ more ∧ LoggedFrom chunkcount (Delimited.frames specialChar stream) more ∧
      r.blockcount + more.countP (fun entry => entry.subtype ≠ .headTrail) =
        blockcount + stream.count specialChar := by
  induction stream using Delimited.chunk_induction specialChar
    generalizing chunkcount blockcount log with
  | last chunk hchunk =>
      rw [List.splitOn_eq_singleton hchunk, List.forall_mem_singleton] at hshort
      have hrun := foldlM_readByte_chunk heap chunkcount blockcount log [] hchunk
        (by simpa using hshort)
      refine ⟨_, [], hrun, (List.append_nil _).symm, ⟨.nil, List.forall_mem_nil _, ?_⟩, ?_⟩
      · rw [Delimited.frames_of_notMem hchunk]
        exact nofun
      rw [List.count_eq_zero_of_not_mem hchunk]
      rfl
  | delimited chunk rest hchunk ih =>
      rw [Delimited.splitOn_append_cons_of_notMem hchunk, List.forall_mem_cons] at hshort
      obtain ⟨valid, entries, hrun, hvalid, hlogged⟩ :=
        handleChunk_logged heap (chunkcount + 1) hshort.1
      obtain ⟨r, more, hr, hlog, hmore, hcount⟩ := ih hshort.2 (chunkcount + 1)
        (if valid then blockcount + 1 else blockcount) (log ++ entries)
      rw [foldlM_readByte_frame heap chunkcount blockcount log hchunk hshort.1, hrun, ok_bind,
        Delimited.frames_cons hchunk]
      refine ⟨r, entries ++ more, hr, by rw [hlog, List.append_assoc], hmore.cons hlogged, ?_⟩
      have hrejects := hlogged.rejects hvalid
      rw [List.countP_append, List.count_append, List.count_eq_zero_of_not_mem hchunk,
        List.count_cons_self]
      cases valid with
      | true =>
          simp only [if_true] at hcount hrejects
          omega
      | false =>
          simp only [Bool.false_eq_true, if_false] at hcount hrejects
          omega

/-- Every delimiter of a stream is accounted for: a chunk that it ends is counted, or it has
one line under its own number that says what it is instead. The lines are in the order of
the chunks, and a chunk that counts has a line exactly if its trailer starts otherwise than
its header. -/
theorem readBlocks_account (heap : Heap) {stream : Bytes}
    (hshort : ∀ chunk ∈ stream.splitOn specialChar, chunk.length < blockInitialSize) :
    ∃ count log, readBlocks heap stream = .ok (count, log) ∧
      count + log.countP (fun entry => entry.subtype ≠ .headTrail) = stream.count specialChar ∧
      (log.map LogEntry.blockcount).Pairwise (· < ·) ∧
      (∀ entry ∈ log, ∃ k chunk, (Delimited.frames specialChar stream)[k]? = some chunk ∧
        Describes (k + 1) chunk entry) ∧
      ∀ k chunk, (Delimited.frames specialChar stream)[k]? = some chunk →
        ((∃ entry ∈ log, entry.blockcount = k + 1) ↔ (ValidBlock chunk → FrontsDiffer chunk)) := by
  obtain ⟨r, log, hr, hlog, hlogged, hcount⟩ := foldlM_readByte_logged heap stream hshort 0 0 []
  refine ⟨r.blockcount, log, ?_, by rw [hcount, Nat.zero_add], hlogged.increasing, ?_, ?_⟩
  · rw [readBlocks, hr, ok_bind, hlog]
    rfl
  · simpa using hlogged.describes
  · intro k chunk hchunk
    simpa using hlogged.line_iff hchunk

/-- An empty chunk, one that is no string of blocks, and bytes that nothing ends. -/
theorem readBlocks_account_three :
    ∃ count log, readBlocks ⟨fun _ _ => 0, fun _ _ => 0⟩ [0, 5, 1, 0, 7] = .ok (count, log) ∧
      count + log.countP (fun entry => entry.subtype ≠ .headTrail) =
        ([0, 5, 1, 0, 7] : Bytes).count specialChar ∧
      (log.map LogEntry.blockcount).Pairwise (· < ·) ∧
      (∀ entry ∈ log, ∃ k chunk,
        (Delimited.frames specialChar [0, 5, 1, 0, 7])[k]? = some chunk ∧
          Describes (k + 1) chunk entry) ∧
      ∀ k chunk, (Delimited.frames specialChar [0, 5, 1, 0, 7])[k]? = some chunk →
        ((∃ entry ∈ log, entry.blockcount = k + 1) ↔ (ValidBlock chunk → FrontsDiffer chunk)) :=
  readBlocks_account _ (by decide)

/-! ## Damage -/

/-- Another middle of a stream changes the count by no more than the chunks that it touches:
one more than it has delimiters. -/
theorem counts_middle {front middle middle' back : Bytes}
    (hshort : ∀ chunk ∈ (front ++ (middle ++ back)).splitOn specialChar,
      chunk.length < blockInitialSize)
    (hshort' : ∀ chunk ∈ (front ++ (middle' ++ back)).splitOn specialChar,
      chunk.length < blockInitialSize) :
    ∃ n n', Counts (front ++ (middle ++ back)) n ∧ Counts (front ++ (middle' ++ back)) n' ∧
      n ≤ n' + middle.count specialChar + 1 ∧ n' ≤ n + middle'.count specialChar + 1 := by
  classical
  have hcount : ∀ stream, validCount stream =
      (Delimited.frames specialChar stream).countP fun chunk => decide (ValidBlock chunk) :=
    fun _ => rfl
  obtain ⟨base, hbase⟩ := Delimited.countP_frames_middle specialChar
    (fun chunk => decide (ValidBlock chunk)) front back
  obtain ⟨hlow, hhigh⟩ := hbase middle
  obtain ⟨hlow', hhigh'⟩ := hbase middle'
  rw [← hcount] at hlow hhigh hlow' hhigh'
  exact ⟨_, _, counts_validCount hshort, counts_validCount hshort', by omega, by omega⟩

/-- A delimiter in the place of a byte. -/
theorem counts_middle_byte :
    ∃ n n', Counts ([5, 0] ++ ([1] ++ [2, 0])) n ∧ Counts ([5, 0] ++ ([0] ++ [2, 0])) n' ∧
      n ≤ n' + ([1] : Bytes).count specialChar + 1 ∧
      n' ≤ n + ([0] : Bytes).count specialChar + 1 :=
  counts_middle (by decide) (by decide)

end Hipft
