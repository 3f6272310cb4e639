import Hipft.Client.Gather
import Hipft.Section.Canonical

/-! # Rebuilding the file

The packets of the first pass are written one behind the other, so a damaged one
shifts all that follow it, and what is asked for again is written over it. The
file is whole exactly when nothing of it was damaged in the first pass.
-/

namespace Hipft

open CMemory Intervals

/-- The packet verifies. -/
def Passes (pck : Msg) : Prop := verifyMsg pck = .ok true

instance decidablePasses : DecidablePred Passes := fun pck =>
  inferInstanceAs (Decidable (verifyMsg pck = .ok true))

/-- The packet carries these bytes, or is damaged and does not verify. -/
structure Arrives (pck : Msg) (bytes : Bytes) : Prop where
  decided : Passes pck ∨ verifyMsg pck = .ok false
  content : Passes pck → pck.body.content = bytes
  length : Passes pck → pck.head.contentLength.toNat = bytes.length

/-- What the packets of the first pass write. -/
def written (pcks : List Msg) : Bytes := (pcks.filter Passes).flatMap fun pck => pck.body.content

theorem written_cons_of_pos {pck : Msg} (hpasses : Passes pck) (pcks : List Msg) :
    written (pck :: pcks) = pck.body.content ++ written pcks := by
  simp [written, hpasses]

theorem written_cons_of_neg {pck : Msg} (hfails : ¬ Passes pck) (pcks : List Msg) :
    written (pck :: pcks) = written pcks := by
  simp [written, hfails]

/-! ## The output file -/

section Stream

variable {f : OutFile} {bytes : Bytes} {pck : Msg}

/-- Writing at the end appends. -/
theorem OutFile.fwrite_end (hend : f.pos = f.content.length) (bytes : Bytes) :
    f.fwrite bytes = ⟨f.content ++ bytes, (f.content ++ bytes).length⟩ := by
  rw [OutFile.fwrite]
  split
  next hempty =>
    subst hempty
    rw [List.append_nil, ← hend]
  next =>
    rw [hend, List.take_length, Nat.sub_self, List.replicate_zero, List.append_nil,
      List.drop_of_length_le (Nat.le_add_right _ _), List.append_nil, List.length_append]

/-- Writing reaches no further than the end of what is written. -/
theorem OutFile.fwrite_length_lt (f : OutFile) {bytes : Bytes} {bound : Nat}
    (hlength : f.content.length < bound) (hbytes : f.pos + bytes.length < bound) :
    (f.fwrite bytes).content.length < bound := by
  rw [OutFile.fwrite]
  split
  next => exact hlength
  next =>
    simp only [List.length_append, List.length_take, List.length_replicate, List.length_drop]
    omega

theorem OutFile.writePacket_eq (f : OutFile) (harrives : Arrives pck bytes)
    (hpasses : Passes pck) : f.writePacket pck = .ok (f.fwrite bytes) := by
  have hcontent := harrives.content hpasses
  have hlength := harrives.length hpasses
  rw [OutFile.writePacket, hcontent, hlength, readRange_of_le (by omega), List.drop_zero,
    List.take_length]
  rfl

/-- A segment that starts below 2^31 is where the cast position says. -/
theorem segmentOffset_eq {num maxSize : UInt64} (hnum : num ≠ 0)
    (hbelow : (num.toNat - 1) * maxSize.toNat < 2 ^ 31) :
    segmentOffset num maxSize = ((num.toNat - 1) * maxSize.toNat : Nat) := by
  have hproduct : ((num - 1) * maxSize).toNat = (num.toNat - 1) * maxSize.toNat := by
    rw [UInt64.toNat_mul, toNat_previous hnum, Nat.mod_eq_of_lt (by omega)]
  have hcut : (((num - 1) * maxSize).toBitVec.setWidth 32).toNat =
      (num.toNat - 1) * maxSize.toNat := by
    rw [BitVec.toNat_setWidth, UInt64.toNat_toBitVec, hproduct, Nat.mod_eq_of_lt (by omega)]
  rw [segmentOffset, BitVec.toInt_eq_toNat_of_lt (by rw [hcut]; omega), hcut]

end Stream

/-! ## The first pass -/

theorem gatherPacket_eq {numpcks : UInt64} {pck : Msg} {bytes : Bytes} {g : Gather}
    (harrives : Arrives pck bytes) (hend : g.file.pos = g.file.content.length) :
    gatherPacket numpcks pck g = .ok (if Passes pck then
        { g with file := ⟨g.file.content ++ bytes, (g.file.content ++ bytes).length⟩ }
      else { g with retransSec := addToSection g.retransSec (numpcks + 1) }) := by
  rw [gatherPacket]
  by_cases hpasses : Passes pck
  · have hvalid : verifyMsg pck = .ok true := hpasses
    rw [hvalid, ok_bind, if_pos rfl, g.file.writePacket_eq harrives hpasses, ok_bind,
      OutFile.fwrite_end hend, if_pos hpasses]
    rfl
  · rw [harrives.decided.resolve_left hpasses, ok_bind, if_neg Bool.false_ne_true,
      if_neg hpasses]
    rfl

/-- The number is that of a packet that does not pass, with the packets counted from `base`
on. -/
def Missing (pcks : List Msg) (base : Nat) (v : UInt64) : Prop :=
  ∃ j pck, pcks[j]? = some pck ∧ ¬ Passes pck ∧ v.toNat = base + j + 1

theorem missing_cons {pck : Msg} {pcks : List Msg} {base : Nat} {v : UInt64} :
    Missing (pck :: pcks) base v ↔
      ¬ Passes pck ∧ v.toNat = base + 1 ∨ Missing pcks (base + 1) v := by
  constructor
  · rintro ⟨j, other, hother, hfails, hv⟩
    cases j with
    | zero =>
        cases hother
        exact .inl ⟨hfails, hv⟩
    | succ j => exact .inr ⟨j, other, hother, hfails, by omega⟩
  · rintro (⟨hfails, hv⟩ | ⟨j, other, hother, hfails, hv⟩)
    · exact ⟨0, pck, rfl, hfails, hv⟩
    · exact ⟨j + 1, other, hother, hfails, by omega⟩

/-- The packets that pass are written one behind the other, and the numbers of the others
are in the section. -/
theorem gatherFirst_eq {numfilepcks : UInt64} (hlast : numfilepcks.toNat + 1 < 2 ^ 64)
    (rest : List (Option Msg)) {pcks : List Msg} {numpcks : UInt64} {g : Gather}
    (hcount : numpcks.toNat + pcks.length = numfilepcks.toNat + 1)
    (harrive : ∀ pck ∈ pcks, ∃ bytes, Arrives pck bytes)
    (hend : g.file.pos = g.file.content.length) (hcanonical : Canonical g.retransSec) :
    ∃ g', gatherFirst numfilepcks numpcks g (pcks.map some ++ rest) = .ok (some (g', rest)) ∧
      g'.file.content = g.file.content ++ written pcks ∧ Canonical g'.retransSec ∧
      ∀ v, Covers g'.retransSec v ↔ Covers g.retransSec v ∨ Missing pcks numpcks.toNat v := by
  induction pcks generalizing numpcks g with
  | nil =>
      have hover : ¬ numpcks ≤ numfilepcks := by
        rw [UInt64.le_iff_toNat_le]
        simp only [List.length_nil] at hcount
        omega
      refine ⟨g, ?_, (List.append_nil _).symm, hcanonical, by simp [Missing]⟩
      cases rest with
      | nil => exact if_neg hover
      | cons pck rest => exact if_neg hover
  | cons pck pcks ih =>
      obtain ⟨⟨bytes, harrives⟩, harrive⟩ := List.forall_mem_cons.mp harrive
      rw [List.length_cons] at hcount
      have hwithin : numpcks ≤ numfilepcks := by
        rw [UInt64.le_iff_toNat_le]
        omega
      have hnext : (numpcks + 1).toNat = numpcks.toNat + 1 := toNat_add_one (by omega)
      have hcount' : (numpcks + 1).toNat + pcks.length = numfilepcks.toNat + 1 := by omega
      have hstep : gatherFirst numfilepcks numpcks g ((pck :: pcks).map some ++ rest) =
          gatherFirst numfilepcks (numpcks + 1) (if Passes pck then
            { g with file := ⟨g.file.content ++ bytes, (g.file.content ++ bytes).length⟩ }
          else { g with retransSec := addToSection g.retransSec (numpcks + 1) })
            (pcks.map some ++ rest) := by
        rw [List.map_cons, List.cons_append, gatherFirst, if_pos hwithin,
          gatherPacket_eq harrives hend, ok_bind]
      rw [hstep]
      by_cases hpasses : Passes pck
      · obtain ⟨g', hrun, hcontent, hcanonical', hcovers⟩ :=
          ih (g := { g with file := ⟨g.file.content ++ bytes, (g.file.content ++ bytes).length⟩ })
            hcount' harrive rfl hcanonical
        rw [if_pos hpasses]
        refine ⟨g', hrun, ?_, hcanonical', fun v => ?_⟩
        · rw [hcontent, written_cons_of_pos hpasses, harrives.content hpasses, List.append_assoc]
        · have hlater : Missing (pck :: pcks) numpcks.toNat v ↔
              Missing pcks (numpcks.toNat + 1) v :=
            missing_cons.trans (or_iff_right fun hmissing => hmissing.1 hpasses)
          rw [hcovers, hnext, hlater]
      · -- Numbers start at 1, so that none is 0 and the section stays canonical.
        have hwrap : ¬ Wraps g.retransSec (numpcks + 1) := by
          intro hwraps
          rw [hwraps.zero] at hnext
          exact Nat.succ_ne_zero _ hnext.symm
        obtain ⟨hadded, hvalues⟩ := addToSection_spec hcanonical hwrap
        obtain ⟨g', hrun, hcontent, hcanonical', hcovers⟩ :=
          ih (g := { g with retransSec := addToSection g.retransSec (numpcks + 1) })
            hcount' harrive hend hadded
        rw [if_neg hpasses]
        refine ⟨g', hrun, ?_, hcanonical', fun v => ?_⟩
        · rw [hcontent, written_cons_of_neg hpasses]
        · rw [hcovers, hvalues, hnext, missing_cons, and_iff_right hpasses, ← hnext,
            UInt64.toNat_inj, or_comm (a := v = numpcks + 1), or_assoc]

/-! ## What is written, and the file -/

section Segments

variable {fhandle : FileHandle} {size : Nat} {base : Nat} {pcks : List Msg}

/-- The packets are those of the segments behind the first `base`. -/
def Carry (fhandle : FileHandle) (size base : Nat) (pcks : List Msg) : Prop :=
  ∀ j pck, pcks[j]? = some pck → Arrives pck (fhandle.segment size (base + j + 1))

theorem Carry.head {pck : Msg} (hcarry : Carry fhandle size base (pck :: pcks)) :
    Arrives pck (fhandle.segment size (base + 1)) :=
  hcarry 0 pck rfl

theorem Carry.tail {pck : Msg} (hcarry : Carry fhandle size base (pck :: pcks)) :
    Carry fhandle size (base + 1) pcks := by
  intro j other hother
  have hlater := hcarry (j + 1) other hother
  rwa [Nat.add_comm j 1, ← Nat.add_assoc] at hlater

theorem Carry.nil : Carry fhandle size base [] := by
  intro j pck hpck
  cases hpck

theorem Carry.cons {pck : Msg} (harrives : Arrives pck (fhandle.segment size (base + 1)))
    (hcarry : Carry fhandle size (base + 1) pcks) : Carry fhandle size base (pck :: pcks) := by
  intro j other hother
  cases j with
  | zero =>
      cases hother
      exact harrives
  | succ j =>
      have hlater := hcarry j other hother
      rwa [Nat.add_assoc base 1, Nat.add_comm 1 j] at hlater

/-- Where only packets behind the end of the file are damaged, the file is written. -/
theorem Carry.written_eq (hcarry : Carry fhandle size base pcks)
    (hwhole : ∀ j pck, pcks[j]? = some pck → (base + j) * size < fhandle.content.length →
      Passes pck) :
    fhandle.content.take (base * size) ++ written pcks =
      fhandle.content.take ((base + pcks.length) * size) := by
  induction pcks generalizing base with
  | nil => exact List.append_nil _
  | cons pck pcks ih =>
      have hlater := ih hcarry.tail fun j other hother hinside =>
        hwhole (j + 1) other hother (by rwa [Nat.add_comm j 1, ← Nat.add_assoc])
      rw [List.length_cons, Nat.add_comm pcks.length 1, ← Nat.add_assoc, ← hlater]
      by_cases hpasses : Passes pck
      · rw [written_cons_of_pos hpasses, hcarry.head.content hpasses, ← List.append_assoc,
          fhandle.take_append_segment]
      · -- Only a packet behind the end may be damaged, and there both sides are the file.
        have houtside := Nat.not_lt.mp (mt (hwhole 0 pck rfl) hpasses)
        rw [Nat.add_zero] at houtside
        have hnext : base * size ≤ (base + 1) * size := Nat.mul_le_mul_right _ (Nat.le_succ _)
        rw [written_cons_of_neg hpasses, List.take_of_length_le houtside,
          List.take_of_length_le (houtside.trans hnext)]

/-- No more is written than the segments have. -/
theorem Carry.length_le (hcarry : Carry fhandle size base pcks) :
    min (base * size) fhandle.content.length + (written pcks).length ≤
      min ((base + pcks.length) * size) fhandle.content.length := by
  induction pcks generalizing base with
  | nil => exact le_rfl
  | cons pck pcks ih =>
      have hlater := ih hcarry.tail
      have hhere := fhandle.segment_length size base
      rw [List.length_cons, Nat.add_comm pcks.length 1, ← Nat.add_assoc]
      by_cases hpasses : Passes pck
      · rw [written_cons_of_pos hpasses, hcarry.head.content hpasses, List.length_append]
        omega
      · rw [written_cons_of_neg hpasses]
        omega

/-- A damaged packet of the file is missing from what is written. -/
theorem Carry.length_lt (hcarry : Carry fhandle size base pcks) (hsize : 0 < size) {j : Nat}
    {pck : Msg} (hpck : pcks[j]? = some pck) (hfails : ¬ Passes pck)
    (hinside : (base + j) * size < fhandle.content.length) :
    min (base * size) fhandle.content.length + (written pcks).length <
      min ((base + pcks.length) * size) fhandle.content.length := by
  induction pcks generalizing base j with
  | nil => cases hpck
  | cons first pcks ih =>
      have hhere := fhandle.segment_length size base
      rw [List.length_cons, Nat.add_comm pcks.length 1, ← Nat.add_assoc]
      cases j with
      | zero =>
          -- Nothing stands for this segment, and the later ones cannot make up for it.
          cases hpck
          have hlater := hcarry.tail.length_le
          have hnext : (base + 1) * size = base * size + size := Nat.succ_mul ..
          rw [Nat.add_zero] at hinside
          rw [written_cons_of_neg hfails]
          omega
      | succ j =>
          have hlater := ih hcarry.tail hpck (by rwa [Nat.add_assoc, Nat.add_comm 1 j])
          by_cases hpasses : Passes first
          · rw [written_cons_of_pos hpasses, hcarry.head.content hpasses, List.length_append]
            omega
          · rw [written_cons_of_neg hpasses]
            omega

end Segments

/-! ## Asking again -/

section Again

variable {maxSize numfilepcks : UInt64} {pck : Msg} {bytes : Bytes} {g g' : Gather}

theorem gatherAnswer_eq (harrives : Arrives pck bytes) :
    gatherAnswer maxSize numfilepcks pck g = .ok (if Passes pck then
        { g with
          file := if firstLowInSection g.retransSec < numfilepcks then
              (g.file.fseek (segmentOffset (firstLowInSection g.retransSec) maxSize)).fwrite bytes
            else g.file
          retransSec := deleteFromSection (firstLowInSection g.retransSec) g.retransSec }
      else g) := by
  rw [gatherAnswer]
  by_cases hpasses : Passes pck
  · have hvalid : verifyMsg pck = .ok true := hpasses
    rw [hvalid, ok_bind, if_pos rfl, if_pos hpasses]
    split
    next => rw [OutFile.writePacket_eq _ harrives hpasses, ok_bind]; rfl
    next => rfl
  · rw [harrives.decided.resolve_left hpasses, ok_bind, if_neg Bool.false_ne_true,
      if_neg hpasses]
    rfl

/-- What holds of the numbers that are missing, and what every write of such a number keeps
of the file. -/
theorem gatherAgain_keeps {draw : Nat → UInt32} {answer : Nat → UInt64 → Option Msg}
    {selfID otherID : UInt64} {segment : UInt64 → Bytes} (Asked : UInt64 → Prop)
    (Kept : OutFile → Prop)
    (hanswer : ∀ k num pck, answer k num = some pck → Arrives pck (segment num))
    (hwrite : ∀ num f, Asked num → num < numfilepcks → Kept f →
      Kept ((f.fseek (segmentOffset num maxSize)).fwrite (segment num)))
    (hcanonical : Canonical g.retransSec) (hasked : ∀ v, Covers g.retransSec v → Asked v)
    (hkept : Kept g.file) {fuel : Nat}
    (hrun : gatherAgain draw answer selfID otherID maxSize numfilepcks fuel g = .ok (some g')) :
    Kept g'.file := by
  induction fuel generalizing g with
  | zero => cases hrun
  | succ fuel ih =>
      rw [gatherAgain] at hrun
      rcases hsec : g.retransSec with _ | ⟨piece, rest⟩
      · rw [hsec] at hrun
        cases hrun
        exact hkept
      have hlow : firstLowInSection g.retransSec = piece.lowBound := by rw [hsec]; rfl
      have hfirst : Asked piece.lowBound := by
        refine hasked _ ?_
        rw [hsec]
        exact ⟨piece, List.mem_cons_self, le_rfl,
          hcanonical.proper piece (hsec ▸ List.mem_cons_self)⟩
      have hpiece : getPieceInSection g.retransSec 0 = some piece := by rw [hsec]; rfl
      rw [hpiece] at hrun
      obtain ⟨sent, -, hrun⟩ := bind_eq_ok.mp hrun
      rcases hreply : answer g.sent.length (firstLowInSection g.retransSec) with _ | pck
      · rw [hreply] at hrun
        cases hrun
      rw [hreply] at hrun
      have harrives := hanswer _ _ _ hreply
      simp only [gatherAnswer_eq harrives, ok_bind] at hrun
      by_cases hpasses : Passes pck
      · obtain ⟨hcanonical', hvalues⟩ := deleteFromSection_spec hcanonical piece.lowBound
        rw [if_pos hpasses, hlow] at hrun
        refine ih hcanonical' (fun v hv => hasked v ((hvalues v).mp hv).2) ?_ hrun
        simp only
        split
        next hwithin => exact hwrite _ _ hfirst hwithin hkept
        next => exact hkept
      · -- The same number is asked for again.
        rw [if_neg hpasses] at hrun
        exact ih (g := { g with sent }) hcanonical hasked hkept hrun

/-- Where only packets behind the last but one are missing, nothing more is written. -/
theorem gatherAgain_whole {draw : Nat → UInt32} {answer : Nat → UInt64 → Option Msg}
    {selfID otherID : UInt64} {segment : UInt64 → Bytes}
    (hanswer : ∀ k num pck, answer k num = some pck → Arrives pck (segment num))
    (hcanonical : Canonical g.retransSec)
    (hbehind : ∀ v, Covers g.retransSec v → numfilepcks ≤ v) {fuel : Nat}
    (hrun : gatherAgain draw answer selfID otherID maxSize numfilepcks fuel g = .ok (some g')) :
    g'.file = g.file := by
  apply gatherAgain_keeps (fun v => numfilepcks ≤ v) (fun f => f = g.file) hanswer _ hcanonical
    hbehind rfl hrun
  intro num f hnum hwithin
  exact absurd hwithin (not_lt.mpr hnum)

/-- The last segment is never written again, so a short file stays short. -/
theorem gatherAgain_short {draw : Nat → UInt32} {answer : Nat → UInt64 → Option Msg}
    {selfID otherID : UInt64} {fhandle : FileHandle}
    (hanswer : ∀ k num pck, answer k num = some pck →
      Arrives pck (fhandle.segment maxSize.toNat num.toNat))
    (hoffsets : (numfilepcks.toNat - 1) * maxSize.toNat < 2 ^ 31)
    (hlast : (numfilepcks.toNat - 1) * maxSize.toNat < fhandle.content.length)
    (hcanonical : Canonical g.retransSec) (hnumbered : ∀ v, Covers g.retransSec v → v ≠ 0)
    (hshort : g.file.content.length < fhandle.content.length) {fuel : Nat}
    (hrun : gatherAgain draw answer selfID otherID maxSize numfilepcks fuel g = .ok (some g')) :
    g'.file.content.length < fhandle.content.length := by
  apply gatherAgain_keeps (fun v => v ≠ 0) (fun f => f.content.length < fhandle.content.length)
    hanswer _ hcanonical hnumbered hshort hrun
  intro num f hnum hwithin hlength
  have hpos := toNat_pos hnum
  rw [UInt64.lt_iff_toNat_lt] at hwithin
  -- The guard is strict: a segment before the last ends where the last one starts.
  have hend : (num.toNat - 1) * maxSize.toNat + maxSize.toNat ≤
      (numfilepcks.toNat - 1) * maxSize.toNat := by
    rw [← Nat.succ_mul]
    exact Nat.mul_le_mul_right _ (by omega)
  have hbytes : (fhandle.segment maxSize.toNat num.toNat).length ≤ maxSize.toNat :=
    List.length_take_le ..
  rw [segmentOffset_eq hnum (by omega), OutFile.fseek,
    if_neg (Int.not_lt.mpr (Int.natCast_nonneg _)), Int.toNat_natCast]
  apply OutFile.fwrite_length_lt
  · exact hlength
  · simp only
    omega

end Again

/-! ## The file -/

/-- The file is rebuilt exactly when no packet of it is damaged in the first pass. -/
theorem gatherFile_rebuilt_iff {draw : Nat → UInt32} {answer : Nat → UInt64 → Option Msg}
    {selfID otherID maxSize numfilepcks : UInt64} {fuel : Nat} {g : Gather}
    (fhandle : FileHandle) {pcks : List Msg} {rest : List (Option Msg)} (hsize : maxSize ≠ 0)
    (hsegments : numfilepcks.toNat = fhandle.segments maxSize.toNat)
    (hoffsets : (numfilepcks.toNat - 1) * maxSize.toNat < 2 ^ 31)
    (hcount : pcks.length = numfilepcks.toNat + 1)
    (hcarry : Carry fhandle maxSize.toNat 0 pcks)
    (hanswer : ∀ k num pck, answer k num = some pck →
      Arrives pck (fhandle.segment maxSize.toNat num.toNat))
    (hrun : gatherFile draw (pcks.map some ++ rest) answer selfID otherID maxSize numfilepcks
      fuel = .ok (some g)) :
    g.file.content = fhandle.content ↔
      ∀ j pck, pcks[j]? = some pck → j < numfilepcks.toNat → Passes pck := by
  have hpos := toNat_pos hsize
  have hinside : ∀ j, j * maxSize.toNat < fhandle.content.length ↔ j < numfilepcks.toNat := by
    intro j
    have hstart := fhandle.start_lt_iff hpos j.succ_pos
    rwa [Nat.succ_sub_one, Nat.succ_le_iff, ← hsegments] at hstart
  rw [gatherFile, gatherPass] at hrun
  split at hrun
  next => cases hrun
  next hnonzero =>
    have hlast : numfilepcks.toNat + 1 < 2 ^ 64 := by
      have hmul := Nat.le_mul_of_pos_right (numfilepcks.toNat - 1) hpos
      omega
    have harrive : ∀ pck ∈ pcks, ∃ bytes, Arrives pck bytes := by
      intro pck hpck
      obtain ⟨j, hj⟩ := List.mem_iff_getElem?.mp hpck
      exact ⟨_, hcarry j pck hj⟩
    have hstart : (0 : UInt64).toNat + pcks.length = numfilepcks.toNat + 1 :=
      (Nat.zero_add _).trans hcount
    obtain ⟨first, hfirst, hcontent, hcanonical, hcovers⟩ :=
      gatherFirst_eq hlast rest hstart harrive (g := .start) rfl canonical_nil
    have hcontent : first.file.content = written pcks := hcontent
    have hcovers : ∀ v, Covers first.retransSec v ↔ Missing pcks 0 v := by
      intro v
      rw [hcovers, Gather.start, createSection, covers_nil, false_or]
      rfl
    rw [hfirst, ok_bind] at hrun
    constructor
    · intro hrebuilt j pck hpck hj
      by_contra hfails
      have hmissing := hcarry.length_lt hpos hpck hfails (by rwa [Nat.zero_add, hinside])
      have hshort := gatherAgain_short hanswer hoffsets
        ((hinside _).mpr (Nat.sub_one_lt (toNat_pos hnonzero).ne')) hcanonical ?_ ?_ hrun
      · rw [hrebuilt] at hshort
        exact Nat.lt_irrefl _ hshort
      · intro v hv hzero
        obtain ⟨k, other, -, -, hk⟩ := (hcovers v).mp hv
        rw [hzero] at hk
        exact Nat.succ_ne_zero (0 + k) hk.symm
      · rw [hcontent]
        omega
    · intro hpasses
      have hall := hcarry.written_eq fun j pck hpck hj => hpasses j pck hpck (by
        rwa [Nat.zero_add, hinside] at hj)
      have hwhole : fhandle.content.length ≤ (0 + pcks.length) * maxSize.toNat := by
        rw [← Nat.not_lt, hinside]
        omega
      rw [Nat.zero_mul, List.take_zero, List.nil_append, List.take_of_length_le hwhole] at hall
      rw [gatherAgain_whole hanswer hcanonical ?_ hrun, hcontent, hall]
      intro v hv
      obtain ⟨j, pck, hpck, hfails, hj⟩ := (hcovers v).mp hv
      have hbehind := mt (hpasses j pck hpck) hfails
      rw [UInt64.le_iff_toNat_le]
      omega

/-- The only segment of a file of three bytes, as `form_msg` makes its packet. -/
def segmentMsg : Msg where
  head := formHeader 7 300 100 ChannelType.data.code DataType.syn.code 1 3
  body := { content := [1, 2, 3], vparityData := List.replicate 4 18446744073709551612
            hparityData := [1] }
  trail := formHeader 7 300 100 ChannelType.data.code DataType.syn.code 1 3

/-- The packet behind the last segment. -/
def endMsg : Msg where
  head := formHeader 7 300 100 ChannelType.data.code DataType.syn.code 2 0
  body := { content := [], vparityData := List.replicate 4 uint64Max, hparityData := [] }
  trail := formHeader 7 300 100 ChannelType.data.code DataType.syn.code 2 0

/-- The packet with a number of its trailer changed on the way. -/
def damaged (pck : Msg) : Msg := { pck with trail := { pck.trail with segmentNum := 9 } }

theorem segmentMsg_arrives : Arrives segmentMsg [1, 2, 3] :=
  ⟨.inl (by decide +kernel), fun _ => rfl, fun _ => rfl⟩

theorem endMsg_arrives : Arrives endMsg [] :=
  ⟨.inl (by decide +kernel), fun _ => rfl, fun _ => rfl⟩

theorem damaged_arrives {pck : Msg} (hdamaged : verifyMsg (damaged pck) = .ok false)
    (bytes : Bytes) : Arrives (damaged pck) bytes := by
  have hfails : ¬ Passes (damaged pck) := by
    intro hpasses
    cases hpasses.symm.trans hdamaged
  exact ⟨.inr hdamaged, fun hpasses => absurd hpasses hfails, fun hpasses => absurd hpasses hfails⟩

theorem gatherFile_rebuilt_iff_three :
    ∃ g, gatherFile (fun _ => 9) [some segmentMsg, some (damaged endMsg)]
        (fun _ num => if num = 2 then some endMsg else none) 100 300 8 1 2 = .ok (some g) ∧
      (g.file.content = [1, 2, 3] ↔
        ∀ j pck, [segmentMsg, damaged endMsg][j]? = some pck → j < 1 → Passes pck) := by
  have hrun : ∃ r, gatherFile (fun _ => 9) [some segmentMsg, some (damaged endMsg)]
      (fun _ num => if num = 2 then some endMsg else none) 100 300 8 1 2 = .ok r ∧
        r.isSome := by decide +kernel
  have hcarry : Carry ⟨[97], [1, 2, 3], by decide⟩ (8 : UInt64).toNat 0
      [segmentMsg, damaged endMsg] :=
    .cons segmentMsg_arrives (.cons (damaged_arrives (by decide +kernel) _) .nil)
  obtain ⟨r, hrun, hsome⟩ := hrun
  obtain ⟨g, rfl⟩ := Option.isSome_iff_exists.mp hsome
  refine ⟨g, hrun, gatherFile_rebuilt_iff ⟨[97], [1, 2, 3], by decide⟩ (by decide) rfl (by decide)
    rfl hcarry ?_ hrun⟩
  intro k num pck hpck
  split at hpck
  next hnum =>
    cases hpck
    rw [hnum]
    exact endMsg_arrives
  next => cases hpck

/-- The packet of the only segment is damaged, and is asked for once. -/
theorem gatherFile_damaged :
    Carry ⟨[97], [1, 2, 3], by decide⟩ 8 0 [damaged segmentMsg, endMsg] ∧
      Arrives segmentMsg [1, 2, 3] ∧
      ∃ g, gatherFile (fun _ => 9) [some (damaged segmentMsg), some endMsg]
          (fun _ num => if num = 1 then some segmentMsg else none) 100 300 8 1 2 = .ok (some g) ∧
        g.file.content ≠ [1, 2, 3] := by
  have hrun : ∃ r, gatherFile (fun _ => 9) [some (damaged segmentMsg), some endMsg]
      (fun _ num => if num = 1 then some segmentMsg else none) 100 300 8 1 2 = .ok r ∧
        r.map (fun g => g.file.content) = some [] := by decide +kernel
  obtain ⟨r, hrun, hcontent⟩ := hrun
  obtain ⟨g, rfl, hempty⟩ := Option.map_eq_some_iff.mp hcontent
  refine ⟨.cons (damaged_arrives (by decide +kernel) _) (.cons endMsg_arrives .nil),
    segmentMsg_arrives, g, hrun, ?_⟩
  rw [hempty]
  exact (List.cons_ne_nil 1 [2, 3]).symm

end Hipft
