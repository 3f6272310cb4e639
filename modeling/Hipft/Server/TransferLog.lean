import Hipft.Server.FileTransfer

/-! # The transfer log

The totals are sums of counts that `shipfile` stores only for a file it opens.
After every other regular entry the counts of the file before are added again.
-/

namespace Hipft

open CMemory

/-! ## Entries -/

/-- The server calls `shipfile` on the entry. -/
def DirEntry.Regular (e : DirEntry) : Prop := e.dType &&& dtReg ≠ 0

/-- `shipfile` does not try to open the entry. -/
def DirEntry.Hidden (e : DirEntry) : Prop :=
  e.dName.headD 0 = 0 ∨ e.dName.headD 0 = '.'.toUInt8

instance (e : DirEntry) : Decidable e.Regular := inferInstanceAs (Decidable (_ ≠ _))

instance (e : DirEntry) : Decidable e.Hidden := inferInstanceAs (Decidable (_ ∨ _))

/-- `shipfile` tries to open the entry and cannot. -/
def DirEntry.Fails (e : DirEntry) : Prop := e.Regular ∧ ¬ e.Hidden ∧ e.file = none

instance (e : DirEntry) : Decidable e.Fails := inferInstanceAs (Decidable (_ ∧ _ ∧ _))

/-- The file that the entry makes the server ship. -/
def DirEntry.shipped (e : DirEntry) : Option Bytes :=
  if e.Regular ∧ ¬ e.Hidden then e.file else none

theorem DirEntry.shipped_eq_some {e : DirEntry} {file : Bytes} :
    e.shipped = some file ↔ e.Regular ∧ ¬ e.Hidden ∧ e.file = some file := by
  unfold DirEntry.shipped
  by_cases hships : e.Regular ∧ ¬ e.Hidden
  · rw [if_pos hships]
    exact ⟨fun hfile => ⟨hships.1, hships.2, hfile⟩, fun hfile => hfile.2.2⟩
  · rw [if_neg hships]
    exact iff_of_false (by simp) fun hfile => hships ⟨hfile.1, hfile.2.1⟩

/-- The number of content bytes of the messages. -/
def contentBytes (sent : List Msg) : Nat := (sent.map fun m => m.body.content.length).sum

theorem contentBytes_append (sent more : List Msg) :
    contentBytes (sent ++ more) = contentBytes sent + contentBytes more := by
  simp [contentBytes]

/-- What the log says is what was done. -/
structure LogExact (entries : List DirEntry) (readdirFails : Bool) (t : Transfer) : Prop where
  blocks : t.blocktotal = t.out.sent.length
  bytes : t.bytetotal = contentBytes t.out.sent
  errors : t.errors = entries.countP (fun e => e.Fails) + if readdirFails then 1 else 0

/-! ## One file -/

theorem shipfilePass_eq (draw : Nat → UInt32) {databuf : Bytes} (hsize : databuf.length < 65536)
    (counts : ShipCounts) (out : Outgoing) :
    ∃ m wire, shipfilePass draw databuf counts out =
        .ok (⟨counts.blockcount + 1, counts.bytecount + databuf.length⟩, ⟨out.sent ++ [m], wire⟩) ∧
      m.body.content.length = databuf.length := by
  obtain ⟨m, hform, hformed, hstored, hconsistent⟩ :=
    formMsg_consistent (draw out.sent.length) 0 0 0 0 0 hsize
  have hcrc : m.trail.crc = 0 := by
    rw [hformed.trail]
    rfl
  refine ⟨m, out.wire ++ cobsEncode m.bytes, ?_, by rw [hformed.content]⟩
  rw [shipfilePass, hform, ok_bind, sendMsg_eq (hstored.sized hconsistent.lengths.parity) hcrc,
    ok_bind]
  rfl

/-- The loop ends with one message for every full block. -/
theorem shipfileLoop_eq (draw : Nat → UInt32) {blocksize : Nat} (hpos : 0 < blocksize)
    (hsize : blocksize < 65536) {fuel : Nat} {fp : Bytes} (hfuel : fp.length < fuel)
    (counts : ShipCounts) (out : Outgoing) :
    ∃ msgs wire, shipfileLoop draw blocksize fuel fp counts out =
        .ok (⟨counts.blockcount + (fp.length / blocksize : Nat),
          counts.bytecount + (blocksize * (fp.length / blocksize) : Nat)⟩,
          ⟨out.sent ++ msgs, wire⟩) ∧
      msgs.length = fp.length / blocksize ∧
      contentBytes msgs = blocksize * (fp.length / blocksize) := by
  induction fuel generalizing fp counts out with
  | zero => omega
  | succ fuel ih =>
      rw [shipfileLoop]
      by_cases hshort : fp.length < blocksize
      · rw [if_pos hshort, Nat.div_eq_of_lt hshort]
        exact ⟨[], out.wire, by simp, rfl, rfl⟩
      have hblock : (fp.take blocksize).length = blocksize := by
        rw [List.length_take]
        omega
      have hdiv : fp.length / blocksize = (fp.drop blocksize).length / blocksize + 1 := by
        rw [List.length_drop, ← Nat.div_eq_sub_div hpos (by omega)]
      obtain ⟨m, wire, hpass, hcontent⟩ :=
        shipfilePass_eq draw (show (fp.take blocksize).length < 65536 by omega) counts out
      have hrest : (fp.drop blocksize).length < fuel := by
        rw [List.length_drop]
        omega
      obtain ⟨msgs, wire', hloop, hcount, hbytes⟩ :=
        ih hrest ⟨counts.blockcount + 1, counts.bytecount + (fp.take blocksize).length⟩
          ⟨out.sent ++ [m], wire⟩
      refine ⟨m :: msgs, wire', ?_, by rw [List.length_cons, hcount, hdiv], ?_⟩
      · rw [if_neg hshort, hpass, ok_bind]
        simp only
        rw [hloop, hdiv, hblock]
        simp only [List.append_assoc, List.singleton_append, Nat.mul_add, Nat.mul_one,
          Nat.cast_add, Nat.cast_one, add_assoc, add_comm (1 : Int), add_comm (blocksize : Int)]
      · rw [hdiv, Nat.mul_add, Nat.mul_one, ← hbytes, ← hblock, ← hcontent, Nat.add_comm]
        rfl

/-! ## What is added twice -/

/-- What an accumulator adds that was not sent: `stale` is in the count at the start, and
a file of `size` leaves that much in it. -/
def drift (size : Bytes → Int) : Int → List DirEntry → Int
  | _, [] => 0
  | stale, e :: rest =>
      match e.shipped with
      | some file => drift size (size file) rest
      | none => if e.Regular then stale + drift size stale rest else drift size stale rest

/-- Every regular entry that ships nothing has a shipped file before it, and the last of
these is shorter than a block. -/
def Settled (blocksize : Nat) (last : Option Bytes) (entries : List DirEntry) : Prop :=
  ∀ front e back, entries = front ++ e :: back → e.Regular → e.shipped = none →
    ∃ file, (last.toList ++ front.filterMap DirEntry.shipped).getLast? = some file ∧
      file.length < blocksize

theorem settled_cons {blocksize : Nat} {last : Option Bytes} {e : DirEntry}
    {rest : List DirEntry} :
    Settled blocksize last (e :: rest) ↔
      (e.Regular → e.shipped = none → ∃ file, last = some file ∧ file.length < blocksize) ∧
      Settled blocksize (e.shipped <|> last) rest := by
  have hlast (front : List DirEntry) :
      (last.toList ++ (e :: front).filterMap DirEntry.shipped).getLast? =
        ((e.shipped <|> last).toList ++ front.filterMap DirEntry.shipped).getLast? := by
    rw [List.filterMap_cons]
    cases hshipped : e.shipped with
    | none => rfl
    | some file => cases last <;> simp
  constructor
  · intro hsettled
    refine ⟨fun hregular hnone => ?_, fun front e' back hrest hregular hnone => ?_⟩
    · obtain ⟨file, hfile, hshort⟩ := hsettled [] e rest rfl hregular hnone
      refine ⟨file, ?_, hshort⟩
      cases last with
      | none => cases hfile
      | some found => simpa using hfile
    · rw [← hlast]
      exact hsettled (e :: front) e' back (by rw [hrest, List.cons_append]) hregular hnone
  · rintro ⟨hhead, hrest⟩ front e' back hentries hregular hnone
    cases front with
    | nil =>
        rw [List.nil_append, List.cons.injEq] at hentries
        obtain ⟨rfl, rfl⟩ := hentries
        obtain ⟨file, rfl, hshort⟩ := hhead hregular hnone
        exact ⟨file, rfl, hshort⟩
    | cons first front =>
        rw [List.cons_append, List.cons.injEq] at hentries
        obtain ⟨rfl, rfl⟩ := hentries
        rw [hlast]
        exact hrest front e' back rfl hregular hnone

section Drift

variable {size : Bytes → Int} {blocksize : Nat}

theorem drift_nonneg (hsize : ∀ file, 0 ≤ size file) {stale : Int} (hstale : 0 ≤ stale)
    (entries : List DirEntry) : 0 ≤ drift size stale entries := by
  induction entries generalizing stale with
  | nil => rfl
  | cons e rest ih =>
      rw [drift]
      cases e.shipped with
      | some file => exact ih (hsize file)
      | none =>
          have hrest := ih hstale
          by_cases hregular : e.Regular
          · simp only [if_pos hregular]
            omega
          · simp only [if_neg hregular]
            exact hrest

/-- After a file of known size. -/
theorem drift_eq_zero_iff (hsize : ∀ file, 0 ≤ size file)
    (hzero : ∀ file, size file = 0 ↔ file.length < blocksize) (last : Bytes)
    (entries : List DirEntry) :
    drift size (size last) entries = 0 ↔ Settled blocksize (some last) entries := by
  induction entries generalizing last with
  | nil => exact iff_of_true rfl (by simp [Settled])
  | cons e rest ih =>
      rw [drift, settled_cons]
      cases hshipped : e.shipped with
      | some file =>
          simp only [reduceCtorEq, false_implies, implies_true, true_and]
          exact ih file
      | none =>
          have hrest := drift_nonneg hsize (hsize last) rest
          by_cases hregular : e.Regular
          · have hhead : (∃ file, some last = some file ∧ file.length < blocksize) ↔
                size last = 0 := by
              rw [hzero]
              simp
            simp only [hregular, if_true, true_implies, hhead]
            rw [show (none <|> some last) = some last from rfl, ← ih last]
            have hlast := hsize last
            omega
          · simp only [hregular, if_false, false_implies, true_and]
            exact ih last

/-- Before the first file, when the count can be anything. -/
theorem drift_uninitialised (hsize : ∀ file, 0 ≤ size file)
    (hzero : ∀ file, size file = 0 ↔ file.length < blocksize) (entries : List DirEntry) :
    (∀ stale, drift size stale entries = 0) ↔ Settled blocksize none entries := by
  induction entries with
  | nil => exact iff_of_true (fun _ => rfl) (by simp [Settled])
  | cons e rest ih =>
      simp only [drift]
      rw [settled_cons]
      cases hshipped : e.shipped with
      | some file =>
          simp only [reduceCtorEq, false_implies, implies_true, true_and, forall_const]
          exact drift_eq_zero_iff hsize hzero file rest
      | none =>
          by_cases hregular : e.Regular
          · simp only [hregular, if_true, true_implies]
            refine iff_of_false (fun hall => ?_) (by simp)
            have hone := hall 1
            have hrest := drift_nonneg hsize (show (0 : Int) ≤ 1 by omega) rest
            omega
          · simp only [hregular, if_false, false_implies, true_and]
            exact ih

end Drift

/-! ## The whole directory -/

/-- What a shipped file leaves in `blockcount`. -/
def fileBlocks (blocksize : Nat) (file : Bytes) : Int := (file.length / blocksize : Nat)

/-- What a shipped file leaves in `bytecount`. -/
def fileBytes (blocksize : Nat) (file : Bytes) : Int :=
  (blocksize * (file.length / blocksize) : Nat)

/-- By how much the totals are above what was sent. -/
def Transfer.blockExcess (t : Transfer) : Int := t.blocktotal - t.out.sent.length

def Transfer.byteExcess (t : Transfer) : Int := t.bytetotal - contentBytes t.out.sent

/-- What an entry does to the excesses, together with what the later ones will do, and to
the errors. -/
structure Entered (blocksize : Nat) (e : DirEntry) (t t' : Transfer) : Prop where
  blocks : ∀ rest, t'.blockExcess + drift (fileBlocks blocksize) t'.counts.blockcount rest =
    t.blockExcess + drift (fileBlocks blocksize) t.counts.blockcount (e :: rest)
  bytes : ∀ rest, t'.byteExcess + drift (fileBytes blocksize) t'.counts.bytecount rest =
    t.byteExcess + drift (fileBytes blocksize) t.counts.bytecount (e :: rest)
  errors : t'.errors = t.errors + if e.Fails then 1 else 0

section Entry

variable {blocksize : Nat} {e : DirEntry} (draw : Nat → UInt32) (t : Transfer)

/-- Other entries are passed over. -/
theorem transferEntry_irregular (hregular : ¬ e.Regular) :
    ∃ t', transferEntry draw blocksize t e = .ok t' ∧ Entered blocksize e t t' := by
  have hnone : e.shipped = none := if_neg fun hships => hregular hships.1
  have hfails : ¬ e.Fails := fun hfails => hregular hfails.1
  refine ⟨t, if_neg hregular, fun rest => ?_, fun rest => ?_, by rw [if_neg hfails, Nat.add_zero]⟩
  · rw [drift, hnone]
    simp only [hregular, if_false]
  · rw [drift, hnone]
    simp only [hregular, if_false]

/-- A hidden file, or one that does not open, adds the counts of the file before it. -/
theorem transferEntry_stale (hregular : e.Regular) (hopens : ¬ (¬ e.Hidden ∧ e.file.isSome)) :
    ∃ t', transferEntry draw blocksize t e = .ok t' ∧ Entered blocksize e t t' := by
  have hrun : transferEntry draw blocksize t e = _ := if_pos hregular
  have hnone : e.shipped = none := by
    rw [Option.eq_none_iff_forall_ne_some]
    intro file hfile
    obtain ⟨-, hvisible, hfile⟩ := DirEntry.shipped_eq_some.mp hfile
    exact hopens ⟨hvisible, by rw [hfile]; rfl⟩
  have hship : shipfile draw e blocksize t.counts t.out =
      .ok (if e.Fails then 1 else 0, t.counts, t.out) := by
    by_cases hhidden : e.Hidden
    · rw [if_neg fun hfails : e.Fails => hfails.2.1 hhidden]
      exact if_pos hhidden
    · have hfile : e.file = none := by simpa [hhidden] using hopens
      have hfails : e.Fails := ⟨hregular, hhidden, hfile⟩
      rw [if_pos hfails, shipfile, hfile]
      exact if_neg hhidden
  rw [hrun, hship, ok_bind]
  refine ⟨_, rfl, fun rest => ?_, fun rest => ?_, ?_⟩
  · rw [drift, hnone]
    simp only [Transfer.blockExcess, hregular, if_true]
    omega
  · rw [drift, hnone]
    simp only [Transfer.byteExcess, hregular, if_true]
    omega
  · by_cases hfails : e.Fails
    · simp [hfails]
    · simp [hfails]

/-- A file that opens is sent block by block and counted as it is sent. -/
theorem transferEntry_shipped (hpos : 0 < blocksize) (hsize : blocksize < 65536)
    (hregular : e.Regular) (hvisible : ¬ e.Hidden) {file : Bytes} (hfile : e.file = some file) :
    ∃ t', transferEntry draw blocksize t e = .ok t' ∧ Entered blocksize e t t' := by
  have hrun : transferEntry draw blocksize t e = _ := if_pos hregular
  have hshipped : e.shipped = some file := DirEntry.shipped_eq_some.mpr ⟨hregular, hvisible, hfile⟩
  have hfails : ¬ e.Fails := fun hfails => by
    rw [hfails.2.2] at hfile
    cases hfile
  obtain ⟨msgs, wire, hloop, hcount, hbytes⟩ :=
    shipfileLoop_eq draw hpos hsize (Nat.lt_add_one file.length) ⟨0, 0⟩ t.out
  have hship : shipfile draw e blocksize t.counts t.out =
      .ok (0, ⟨fileBlocks blocksize file, fileBytes blocksize file⟩,
        ⟨t.out.sent ++ msgs, wire⟩) := by
    simp only [zero_add] at hloop
    rw [shipfile, hfile]
    refine (if_neg hvisible).trans ?_
    simp only
    rw [hloop]
    rfl
  rw [hrun, hship, ok_bind]
  refine ⟨_, rfl, fun rest => ?_, fun rest => ?_, by simp [hfails]⟩
  · rw [drift, hshipped]
    simp only [Transfer.blockExcess, List.length_append, hcount, fileBlocks]
    omega
  · rw [drift, hshipped]
    simp only [Transfer.byteExcess, contentBytes_append, hbytes, fileBytes]
    omega

theorem transferEntry_eq (hpos : 0 < blocksize) (hsize : blocksize < 65536) (e : DirEntry) :
    ∃ t', transferEntry draw blocksize t e = .ok t' ∧ Entered blocksize e t t' := by
  by_cases hregular : e.Regular
  · by_cases hopens : ¬ e.Hidden ∧ e.file.isSome
    · obtain ⟨hvisible, hopens⟩ := hopens
      obtain ⟨file, hfile⟩ := Option.isSome_iff_exists.mp hopens
      exact transferEntry_shipped draw t hpos hsize hregular hvisible hfile
    · exact transferEntry_stale draw t hregular hopens
  · exact transferEntry_irregular draw t hregular

end Entry

theorem foldlM_transferEntry (draw : Nat → UInt32) {blocksize : Nat} (hpos : 0 < blocksize)
    (hsize : blocksize < 65536) (entries : List DirEntry) (t : Transfer) :
    ∃ t', entries.foldlM (transferEntry draw blocksize) t = .ok t' ∧
      t'.blockExcess = t.blockExcess + drift (fileBlocks blocksize) t.counts.blockcount entries ∧
      t'.byteExcess = t.byteExcess + drift (fileBytes blocksize) t.counts.bytecount entries ∧
      t'.errors = t.errors + entries.countP fun e => e.Fails := by
  induction entries generalizing t with
  | nil => exact ⟨t, rfl, by simp [drift], by simp [drift], rfl⟩
  | cons e rest ih =>
      obtain ⟨next, hstep, hentered⟩ := transferEntry_eq draw t hpos hsize e
      obtain ⟨t', hrun, hblocks, hbytes, herrors⟩ := ih next
      refine ⟨t', ?_, hblocks.trans (hentered.blocks rest),
        hbytes.trans (hentered.bytes rest), ?_⟩
      · rw [List.foldlM_cons, hstep, ok_bind, hrun]
      · rw [herrors, hentered.errors, List.countP_cons]
        simp only [decide_eq_true_eq]
        omega

/-- What `run_file_transfer` has in its totals when it calls `hipftlog`. -/
theorem runFileTransfer_eq (draw : Nat → UInt32) {blocksize : Nat} (hpos : 0 < blocksize)
    (hsize : blocksize < 65536) (uninitialised : ShipCounts) (entries : List DirEntry)
    (readdirFails : Bool) :
    ∃ t, runFileTransfer draw blocksize uninitialised entries readdirFails = .ok t ∧
      (LogExact entries readdirFails t ↔
        drift (fileBlocks blocksize) uninitialised.blockcount entries = 0 ∧
          drift (fileBytes blocksize) uninitialised.bytecount entries = 0) := by
  obtain ⟨t, hrun, hblocks, hbytes, herrors⟩ :=
    foldlM_transferEntry draw hpos hsize entries ⟨0, 0, 0, uninitialised, ⟨[], []⟩⟩
  refine ⟨{ t with errors := if readdirFails then t.errors + 1 else t.errors }, ?_, ?_⟩
  · rw [runFileTransfer, hrun, ok_bind]
    rfl
  have hcount : (if readdirFails then t.errors + 1 else t.errors) =
      entries.countP (fun e => e.Fails) + if readdirFails then 1 else 0 := by
    rw [herrors]
    cases readdirFails with
    | false => simp
    | true => simp
  simp only [Transfer.blockExcess, Transfer.byteExcess, contentBytes, List.map_nil, List.sum_nil,
    List.length_nil] at hblocks hbytes
  constructor
  · intro hexact
    have hblocktotal := hexact.blocks
    have hbytetotal := hexact.bytes
    simp only [contentBytes] at hblocktotal hbytetotal
    exact ⟨by omega, by omega⟩
  · rintro ⟨hnoblocks, hnobytes⟩
    refine ⟨?_, ?_, hcount⟩
    · simp only
      omega
    · simp only [contentBytes]
      omega

theorem fileBlocks_eq_zero {blocksize : Nat} (hpos : 0 < blocksize) (file : Bytes) :
    fileBlocks blocksize file = 0 ↔ file.length < blocksize := by
  rw [fileBlocks, Int.natCast_eq_zero, Nat.div_eq_zero_iff]
  omega

theorem fileBytes_eq_zero {blocksize : Nat} (hpos : 0 < blocksize) (file : Bytes) :
    fileBytes blocksize file = 0 ↔ file.length < blocksize := by
  rw [fileBytes, Int.natCast_eq_zero, Nat.mul_eq_zero, Nat.div_eq_zero_iff]
  omega

/-- The log is exact, whatever is in the counts at the start, exactly when no regular
entry adds the counts of an earlier one. -/
theorem runFileTransfer_exact (draw : Nat → UInt32) (entries : List DirEntry)
    (readdirFails : Bool) :
    (∀ uninitialised, ∃ t,
      runFileTransfer draw hipftBlockSize uninitialised entries readdirFails = .ok t ∧
        LogExact entries readdirFails t) ↔
      Settled hipftBlockSize none entries := by
  have hpos : 0 < hipftBlockSize := by decide
  have hsize : hipftBlockSize < 65536 := by decide
  have hblocks := drift_uninitialised (fun _ => Int.natCast_nonneg _) (fileBlocks_eq_zero hpos)
    entries
  have hbytes := drift_uninitialised (fun _ => Int.natCast_nonneg _) (fileBytes_eq_zero hpos)
    entries
  constructor
  · intro hexact
    apply hblocks.mp
    intro stale
    obtain ⟨t, hrun, hlog⟩ := hexact ⟨stale, 0⟩
    obtain ⟨t', hrun', hiff⟩ := runFileTransfer_eq draw hpos hsize ⟨stale, 0⟩ entries readdirFails
    rw [hrun, Except.ok.injEq] at hrun'
    subst hrun'
    exact (hiff.mp hlog).1
  · intro hsettled uninitialised
    obtain ⟨t, hrun, hiff⟩ := runFileTransfer_eq draw hpos hsize uninitialised entries readdirFails
    exact ⟨t, hrun, hiff.mpr ⟨hblocks.mpr hsettled _, hbytes.mpr hsettled _⟩⟩

/-- A file of one block, and then a hidden file: the block is logged twice. -/
theorem runFileTransfer_exact_hidden :
    ¬ ∃ t, runFileTransfer (fun _ => 7) hipftBlockSize ⟨0, 0⟩
        [⟨8, [97], some (List.replicate 4096 0)⟩, ⟨8, [46, 98], some [1]⟩] false = .ok t ∧
      LogExact [⟨8, [97], some (List.replicate 4096 0)⟩, ⟨8, [46, 98], some [1]⟩] false t := by
  rintro ⟨t, hrun, hlog⟩
  obtain ⟨t', hrun', hiff⟩ := runFileTransfer_eq (fun _ => 7)
    (show 0 < hipftBlockSize by decide) (by decide) ⟨0, 0⟩
    [⟨8, [97], some (List.replicate 4096 0)⟩, ⟨8, [46, 98], some [1]⟩] false
  rw [hrun, Except.ok.injEq] at hrun'
  subst hrun'
  have hdrift := (hiff.mp hlog).1
  revert hdrift
  decide +kernel

end Hipft
