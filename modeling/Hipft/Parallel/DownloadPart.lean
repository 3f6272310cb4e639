import Hipft.Cobs.Codec
import Hipft.Foundation.Interleavings
import Mathlib.Data.Set.Lattice
import Mathlib.Order.CompletePartialOrder
import Mathlib.Order.Interval.Set.Basic

/-! # Parallel downloads

Each process downloads one part of a file over a connection of its own and writes what it
receives into the common file, from the offset of its part on.
-/

namespace Hipft

open CMemory SharedFile

/-- An entry of `FILE_PARTS`, but for its address and its name. -/
structure FilePart where
  startByte : Nat
  endByte : Nat
  deriving DecidableEq

/-- `FILE_PARTS`. -/
def fileParts : List FilePart := [⟨0, 999⟩, ⟨1000, 1999⟩, ⟨2000, 2999⟩, ⟨3000, 3999⟩]

/-- `NUM_PROCESSES`. -/
def numProcesses : Nat := 4

/-- `BUFFER_SIZE`. -/
def bufferSize : Nat := 1024 * 1024

/-- The parts that the main program starts a process for: `FILE_PARTS[i::n][0]`, for each
`i` below `n`. -/
def processParts (n : Nat) (parts : List FilePart) : Option (List FilePart) :=
  (List.range n).mapM fun i => parts[i]?

/-- The response of a server, in the pieces in which it arrives. -/
structure Response where
  pieces : List Bytes
  nonempty : ∀ piece ∈ pieces, piece ≠ []

/-- All bytes of the response, with its status line and header. -/
def Response.bytes (response : Response) : Bytes := response.pieces.flatten

/-- `sock.recv(size)`, and what is still to arrive: at most `size` bytes of what arrived
first, and nothing behind the end. -/
def recv (size : Nat) : List Bytes → Bytes × List Bytes
  | [] => ([], [])
  | piece :: rest =>
      (piece.take size, if piece.length ≤ size then rest else piece.drop size :: rest)

/-- What `_download_part` works on: what the socket has still to receive, the position in
the file, and the writes to the file. -/
structure Download where
  arrivals : List Bytes
  position : Nat
  writes : List (Write UInt8)

/-- `file.write(data)`. -/
def Download.write (data : Bytes) (d : Download) : Download :=
  { d with position := d.position + data.length, writes := d.writes ++ [⟨d.position, data⟩] }

/-- `end_byte - start_byte + 1`. -/
def FilePart.length (part : FilePart) : Int := part.endByte - part.startByte + 1

/-- The inner loop: until all data has been received. -/
def receiveRest (part : FilePart) : Nat → Nat → Download → CRun Download
  | 0, _, _ => .error .hang
  | fuel + 1, bytesReceived, d =>
      if bytesReceived < bufferSize ∧ bytesReceived < part.length then
        let remainingBytes := part.length - bytesReceived
        let (data, arrivals) := recv (min (bufferSize : Int) remainingBytes).toNat d.arrivals
        if data = [] then pure { d with arrivals }
        else receiveRest part fuel (bytesReceived + data.length)
          (Download.write data { d with arrivals })
      else pure d

/-- The outer loop. -/
def receiveAll (part : FilePart) : Nat → Download → CRun Download
  | 0, _ => .error .hang
  | fuel + 1, d =>
      let (data, arrivals) := recv bufferSize d.arrivals
      if data = [] then pure { d with arrivals }
      else do
        let d ← receiveRest part fuel data.length (Download.write data { d with arrivals })
        receiveAll part fuel d

/-- `_download_part(address, start_byte, end_byte, part_index)`, for the response that the
server gives: the writes to the file. -/
def downloadPart (part : FilePart) (response : Response) : CRun (List (Write UInt8)) := do
  let d ← receiveAll part (response.bytes.length + 1)
    { arrivals := response.pieces, position := part.startByte, writes := [] }
  pure d.writes

/-! ## What is written -/

section Receive

variable {size : Nat} {arrivals : List Bytes}

theorem recv_flatten (size : Nat) (arrivals : List Bytes) :
    (recv size arrivals).1 ++ (recv size arrivals).2.flatten = arrivals.flatten := by
  cases arrivals with
  | nil => rfl
  | cons piece rest =>
      rw [recv]
      split
      next hall => rw [List.take_of_length_le hall, List.flatten_cons]
      next =>
        rw [List.flatten_cons, List.flatten_cons, ← List.append_assoc, List.take_append_drop]

theorem recv_nonempty (hpieces : ∀ piece ∈ arrivals, piece ≠ []) :
    ∀ piece ∈ (recv size arrivals).2, piece ≠ [] := by
  cases arrivals with
  | nil => exact hpieces
  | cons piece rest =>
      rw [List.forall_mem_cons] at hpieces
      rw [recv]
      split
      next => exact hpieces.2
      next hmore =>
        refine List.forall_mem_cons.mpr ⟨?_, hpieces.2⟩
        rw [Ne, List.drop_eq_nil_iff]
        exact hmore

/-- Nothing is received only behind the end. -/
theorem recv_eq_nil (hsize : 0 < size) (hpieces : ∀ piece ∈ arrivals, piece ≠ [])
    (hnone : (recv size arrivals).1 = []) : arrivals = [] := by
  cases arrivals with
  | nil => rfl
  | cons piece rest =>
      rcases List.take_eq_nil_iff.mp hnone with hzero | hempty
      · exact absurd hzero (Nat.ne_of_gt hsize)
      · exact absurd hempty (hpieces piece List.mem_cons_self)

end Receive

/-- What has been written, and behind it what is still to arrive. -/
def Download.cells (d : Download) : List (UInt8 × Nat) :=
  d.writes.flatMap Write.cells ++ Write.cells ⟨d.position, d.arrivals.flatten⟩

/-- The later state puts the same bytes to the same places. -/
structure Download.Follows (d d' : Download) : Prop where
  cells : d'.cells = d.cells
  nonempty : ∀ piece ∈ d'.arrivals, piece ≠ []
  le : d'.arrivals.flatten.length ≤ d.arrivals.flatten.length

section Loops

variable {d d' : Download} {part : FilePart}

theorem Download.follows_refl (hpieces : ∀ piece ∈ d.arrivals, piece ≠ []) : d.Follows d :=
  ⟨rfl, hpieces, Nat.le_refl _⟩

theorem Download.Follows.trans {d'' : Download} (hfirst : d.Follows d')
    (hsecond : d'.Follows d'') : d.Follows d'' :=
  ⟨hsecond.cells.trans hfirst.cells, hsecond.nonempty, hsecond.le.trans hfirst.le⟩

/-- Data that is received goes from what is still to arrive to what has been written. -/
theorem Download.follows_receive (hpieces : ∀ piece ∈ d.arrivals, piece ≠ []) {size : Nat}
    (hdata : (recv size d.arrivals).1 ≠ []) :
    d.Follows (.write (recv size d.arrivals).1 { d with arrivals := (recv size d.arrivals).2 }) ∧
      (recv size d.arrivals).2.flatten.length < d.arrivals.flatten.length := by
  have hflatten := recv_flatten size d.arrivals
  have hless : (recv size d.arrivals).2.flatten.length < d.arrivals.flatten.length := by
    have hpos := List.length_pos_iff.mpr hdata
    rw [← hflatten, List.length_append]
    omega
  refine ⟨⟨?_, recv_nonempty hpieces, Nat.le_of_lt hless⟩, hless⟩
  rw [Download.cells, Download.cells, Download.write, ← hflatten, Write.cells_append,
    List.flatMap_append, List.append_assoc]
  congr 1
  rw [List.flatMap_singleton]

/-- Behind the end nothing changes. -/
theorem Download.receive_nothing (hpieces : ∀ piece ∈ d.arrivals, piece ≠ []) {size : Nat}
    (hsize : 0 < size) (hnone : (recv size d.arrivals).1 = []) :
    d.arrivals = [] ∧ { d with arrivals := (recv size d.arrivals).2 } = d := by
  obtain ⟨arrivals, position, writes⟩ := d
  have hclosed : arrivals = [] := recv_eq_nil hsize hpieces hnone
  subst hclosed
  exact ⟨rfl, rfl⟩

theorem receiveRest_follows {fuel bytesReceived : Nat}
    (hpieces : ∀ piece ∈ d.arrivals, piece ≠ []) (hfuel : d.arrivals.flatten.length < fuel) :
    ∃ d', receiveRest part fuel bytesReceived d = .ok d' ∧ d.Follows d' := by
  induction fuel generalizing bytesReceived d with
  | zero => exact absurd hfuel (Nat.not_lt_zero _)
  | succ fuel ih =>
      unfold receiveRest
      split
      next hmore =>
        obtain ⟨-, hmore⟩ := hmore
        have hsize : 0 < (min (bufferSize : Int) (part.length - bytesReceived)).toNat := by
          rw [bufferSize]
          omega
        dsimp only
        split
        next hnone =>
          obtain ⟨-, hsame⟩ := Download.receive_nothing hpieces hsize hnone
          rw [hsame]
          exact ⟨d, rfl, d.follows_refl hpieces⟩
        next hdata =>
          obtain ⟨hfollows, hless⟩ := Download.follows_receive hpieces hdata
          obtain ⟨d', hrun, hrest⟩ :=
            ih hfollows.nonempty (Nat.lt_of_lt_of_le hless (Nat.le_of_lt_succ hfuel))
          exact ⟨d', hrun, hfollows.trans hrest⟩
      next => exact ⟨d, rfl, d.follows_refl hpieces⟩

/-- All that arrives is received, whatever the inner loop leaves to the outer one. -/
theorem receiveAll_follows {fuel : Nat} (hpieces : ∀ piece ∈ d.arrivals, piece ≠ [])
    (hfuel : d.arrivals.flatten.length < fuel) :
    ∃ d', receiveAll part fuel d = .ok d' ∧ d.Follows d' ∧ d'.arrivals = [] := by
  induction fuel generalizing d with
  | zero => exact absurd hfuel (Nat.not_lt_zero _)
  | succ fuel ih =>
      unfold receiveAll
      dsimp only
      split
      next hnone =>
        obtain ⟨hclosed, hsame⟩ := Download.receive_nothing hpieces (by decide) hnone
        rw [hsame]
        exact ⟨d, rfl, d.follows_refl hpieces, hclosed⟩
      next hdata =>
        obtain ⟨hfollows, hless⟩ := Download.follows_receive hpieces hdata
        have hroom := Nat.lt_of_lt_of_le hless (Nat.le_of_lt_succ hfuel)
        obtain ⟨next, hinner, hrest⟩ := receiveRest_follows hfollows.nonempty hroom
        rw [hinner, ok_bind]
        obtain ⟨d', hrun, hlast, hclosed⟩ := ih hrest.nonempty (Nat.lt_of_le_of_lt hrest.le hroom)
        exact ⟨d', hrun, (hfollows.trans hrest).trans hlast, hclosed⟩

end Loops

/-- A part's writes put the whole response behind the start of the part. -/
theorem downloadPart_recut (part : FilePart) (response : Response) :
    ∃ ws, downloadPart part response = .ok ws ∧
      Write.Recut ws [⟨part.startByte, response.bytes⟩] := by
  obtain ⟨d, hrun, hfollows, hclosed⟩ :=
    receiveAll_follows (d := ⟨response.pieces, part.startByte, []⟩)
      response.nonempty (Nat.lt_succ_self _)
  refine ⟨d.writes, ?_, ?_⟩
  · rw [downloadPart, Response.bytes, hrun]
    rfl
  · have hcells := hfollows.cells
    rw [Download.cells, hclosed] at hcells
    rw [Write.Recut, List.flatMap_singleton, Response.bytes]
    exact (List.append_nil _).symm.trans hcells

/-! ## The parts of a file -/

/-- The offsets from `start_byte` to `end_byte`. -/
def FilePart.offsets (part : FilePart) : Set Nat := Set.Icc part.startByte part.endByte

/-- The writes stay within the part. -/
def FilePart.Keeps (part : FilePart) (ws : List (Write UInt8)) : Prop :=
  ∀ w ∈ ws, ∀ cell ∈ w.cells, cell.2 ∈ part.offsets

/-- Every process writes within its part, and the file that they leave is the same, however
their writes are interleaved and cut by the file objects. -/
structure Isolated (parts : List FilePart) (writes : List (List (Write UInt8))) : Prop where
  keeps : List.Forall₂ FilePart.Keeps parts writes
  agree : ∀ {flushes flushes' : List (List (Write UInt8))} {l l' : List (Write UInt8)}
    (file : Bytes), List.Forall₂ Write.Recut writes flushes → Interleaves flushes l →
    List.Forall₂ Write.Recut writes flushes' → Interleaves flushes' l' →
    l.foldl (Write.apply 0) file = l'.foldl (Write.apply 0) file

theorem FilePart.keeps_iff_places {part : FilePart} {ws : List (Write UInt8)} :
    part.Keeps ws ↔ ∀ o ∈ (ws.flatMap Write.cells).map Prod.snd, o ∈ part.offsets := by
  simp only [FilePart.Keeps, List.forall_mem_map, List.forall_mem_flatMap]

/-- What is written lies in one of the parts. -/
theorem exists_part_of_keeps {parts : List FilePart} {writes : List (List (Write UInt8))}
    (hkeeps : List.Forall₂ FilePart.Keeps parts writes) {o : Nat}
    (ho : o ∈ (writes.flatten.flatMap Write.cells).map Prod.snd) :
    ∃ part ∈ parts, o ∈ part.offsets := by
  induction hkeeps with
  | nil => exact absurd ho List.not_mem_nil
  | cons hfirst _ ih =>
      rw [List.flatten_cons, List.flatMap_append, List.map_append, List.mem_append] at ho
      rcases ho with ho | ho
      · exact ⟨_, List.mem_cons_self, FilePart.keeps_iff_places.mp hfirst o ho⟩
      · obtain ⟨part, hpart, hin⟩ := ih ho
        exact ⟨part, List.mem_cons_of_mem _ hpart, hin⟩

theorem FilePart.keeps_iff {part : FilePart} {bytes : Bytes} {ws : List (Write UInt8)}
    (hrecut : Write.Recut ws [⟨part.startByte, bytes⟩]) :
    part.Keeps ws ↔ bytes.length ≤ part.endByte + 1 - part.startByte := by
  have hplaces : (ws.flatMap Write.cells).map Prod.snd =
      List.range' part.startByte bytes.length := by
    rw [hrecut, List.flatMap_singleton, Write.map_snd_cells]
  rw [FilePart.keeps_iff_places, hplaces]
  constructor
  · intro hall
    by_cases hempty : bytes.length = 0
    · omega
    · have hlast := hall (part.startByte + (bytes.length - 1)) (by
        rw [List.mem_range'_1]
        omega)
      have hend := hlast.2
      omega
  · intro hlength o ho
    rw [List.mem_range'_1] at ho
    exact ⟨ho.1, by omega⟩

section Jobs

variable {jobs : List (FilePart × Response)} {writes : List (List (Write UInt8))}

/-- The writes of the jobs, as far as their cells go. -/
abbrev Downloads (jobs : List (FilePart × Response)) (writes : List (List (Write UInt8))) : Prop :=
  List.Forall₂ (fun job ws => Write.Recut ws [⟨job.1.startByte, job.2.bytes⟩]) jobs writes

theorem downloads_exist (jobs : List (FilePart × Response)) :
    ∃ writes, jobs.mapM (fun job => downloadPart job.1 job.2) = .ok writes ∧
      Downloads jobs writes := by
  induction jobs with
  | nil => exact ⟨[], rfl, .nil⟩
  | cons job jobs ih =>
      obtain ⟨ws, hdownload, hrecut⟩ := downloadPart_recut job.1 job.2
      obtain ⟨writes, hrest, hdownloads⟩ := ih
      refine ⟨ws :: writes, ?_, .cons hrecut hdownloads⟩
      rw [List.mapM_cons, hdownload, ok_bind, hrest, ok_bind]
      rfl

theorem Downloads.keeps_iff (hdownloads : Downloads jobs writes) :
    List.Forall₂ FilePart.Keeps (jobs.map Prod.fst) writes ↔
      ∀ job ∈ jobs, job.2.bytes.length ≤ job.1.endByte + 1 - job.1.startByte := by
  induction hdownloads with
  | nil => exact iff_of_true .nil (List.forall_mem_nil _)
  | cons hrecut _ ih =>
      rw [List.map_cons, List.forall₂_cons, List.forall_mem_cons, FilePart.keeps_iff hrecut, ih]

/-- Within disjoint parts no place is written twice. -/
theorem Downloads.nodup (hdownloads : Downloads jobs writes)
    (hdisjoint : jobs.Pairwise fun p q => Disjoint p.1.offsets q.1.offsets)
    (hkeeps : List.Forall₂ FilePart.Keeps (jobs.map Prod.fst) writes) :
    ((writes.flatten.flatMap Write.cells).map Prod.snd).Nodup := by
  induction hdownloads with
  | nil => exact List.nodup_nil
  | @cons job ws jobs writes hrecut hrest ih =>
      rw [List.map_cons, List.forall₂_cons] at hkeeps
      obtain ⟨hapart, hdisjoint⟩ := List.pairwise_cons.mp hdisjoint
      rw [List.flatten_cons, List.flatMap_append, List.map_append, List.nodup_append']
      refine ⟨?_, ih hdisjoint hkeeps.2, ?_⟩
      · rw [hrecut, List.flatMap_singleton, Write.map_snd_cells]
        exact List.nodup_range'
      · intro o ho hother
        obtain ⟨part, hpart, hin⟩ := exists_part_of_keeps hkeeps.2 hother
        obtain ⟨later, hlater, rfl⟩ := List.mem_map.mp hpart
        exact Set.disjoint_left.mp (hapart later hlater)
          (FilePart.keeps_iff_places.mp hkeeps.1 o ho) hin

end Jobs

/-! ## The parts of the program -/

theorem mapM_range'_getElem? (front parts : List FilePart) :
    (List.range' front.length parts.length).mapM (fun i => (front ++ parts)[i]?) =
      some parts := by
  induction parts generalizing front with
  | nil => rfl
  | cons part parts ih =>
      have hrest := ih (front ++ [part])
      rw [List.length_append, List.length_singleton, List.append_assoc, List.singleton_append]
        at hrest
      rw [List.length_cons, List.range'_succ, List.mapM_cons, hrest]
      simp

/-- As many processes as there are parts download them all. -/
theorem processParts_length (parts : List FilePart) :
    processParts parts.length parts = some parts := by
  rw [processParts, List.range_eq_range']
  exact mapM_range'_getElem? [] parts

theorem FilePart.disjoint_of_lt {p q : FilePart} (hlt : p.endByte < q.startByte) :
    Disjoint p.offsets q.offsets := by
  rw [Set.disjoint_left]
  intro o hp hq
  exact Nat.lt_irrefl _ (Nat.lt_of_le_of_lt hp.2 (Nat.lt_of_lt_of_le hlt hq.1))

theorem fileParts_disjoint : fileParts.Pairwise fun p q => Disjoint p.offsets q.offsets := by
  have hlt : fileParts.Pairwise fun p q => p.endByte < q.startByte := by decide
  exact hlt.imp FilePart.disjoint_of_lt

def ascii (text : String) : Bytes := text.toList.map fun c => UInt8.ofNat c.toNat

def digits (n : Nat) : Bytes := (Nat.toDigits 10 n).map fun c => UInt8.ofNat c.toNat

/-- The status line and the header that come before the bytes of a part. -/
def partialHeader (part : FilePart) : Bytes :=
  ascii "HTTP/1.1 206 Partial Content\r\nContent-Range: bytes " ++ digits part.startByte ++
    ascii "-" ++ digits part.endByte ++ ascii "/4000\r\n\r\n"

/-- The answer for one of the parts of a file of 4000 times the same byte. -/
def partialContent (part : FilePart) : Response where
  pieces := [partialHeader part ++ List.replicate 1000 97]
  nonempty := by
    rw [List.forall_mem_singleton]
    exact List.append_ne_nil_of_right_ne_nil _ nofun

def fileJobs : List (FilePart × Response) := fileParts.map fun part => (part, partialContent part)

theorem fileJobs_disjoint : fileJobs.Pairwise fun p q => Disjoint p.1.offsets q.1.offsets :=
  List.pairwise_map.mpr fileParts_disjoint

/-- The answer as one write. -/
def partialWrite (part : FilePart) : Write UInt8 := ⟨part.startByte, (partialContent part).bytes⟩

theorem partialWrite_data (part : FilePart) :
    (partialWrite part).data = partialHeader part ++ List.replicate 1000 97 :=
  List.flatten_singleton

theorem partialWrite_length (part : FilePart) :
    (partialWrite part).data.length = (partialHeader part).length + 1000 := by
  rw [partialWrite_data, List.length_append, List.length_replicate]

/-- A part leaves what comes before it as it is. -/
theorem partialWrite_low {file : Bytes} {a : UInt8} {part : FilePart} {i : Nat}
    (hfile : file[i]? = some a) (hlow : i < part.startByte) :
    (Write.apply 0 file (partialWrite part))[i]? = some a :=
  Write.getElem?_apply_outside hfile (.inl hlow)

theorem partialWrite_inside (file : Bytes) {part : FilePart} {i : Nat}
    (hlow : part.startByte ≤ i)
    (hhigh : i < part.startByte + (partialHeader part).length + 1000) :
    (Write.apply 0 file (partialWrite part))[i]? =
      (partialHeader part ++ List.replicate 1000 97)[i - part.startByte]? := by
  have hoffset : (partialWrite part).offset = part.startByte := rfl
  have hreach : i < (partialWrite part).offset + (partialWrite part).data.length := by
    rw [hoffset, partialWrite_length, ← Nat.add_assoc]
    exact hhigh
  rw [Write.getElem?_apply_inside hlow hreach, partialWrite_data, hoffset]

/-- The second part begins with its header, whatever was there before. -/
theorem partialWrite_head (file : Bytes) :
    (Write.apply 0 file (partialWrite ⟨1000, 1999⟩))[1000]? = some 72 := by
  have hfirst : (partialHeader ⟨1000, 1999⟩)[0]? = some 72 := by decide +kernel
  rw [partialWrite_inside file (Nat.le_refl 1000) (by dsimp only; omega), Nat.sub_self,
    List.getElem?_append_left (List.getElem?_eq_some_iff.mp hfirst).1]
  exact hfirst

/-- The first part reaches into the second one. -/
theorem partialWrite_tail (file : Bytes) :
    (Write.apply 0 file (partialWrite ⟨0, 999⟩))[1000]? = some 97 := by
  have hheader : 0 < (partialHeader ⟨0, 999⟩).length ∧
      (partialHeader ⟨0, 999⟩).length ≤ 1000 := by decide +kernel
  rw [partialWrite_inside file (Nat.zero_le 1000) (by dsimp only; omega), Nat.sub_zero,
    List.getElem?_append_right hheader.2, List.getElem?_replicate, if_pos (by omega)]

/-- The third and the fourth part leave the second one as it is. -/
theorem partialWrites_rest {file : Bytes} {a : UInt8} (hfile : file[1000]? = some a) :
    ([partialWrite ⟨2000, 2999⟩, partialWrite ⟨3000, 3999⟩].foldl (Write.apply 0) file)[1000]? =
      some a := by
  rw [List.foldl_cons, List.foldl_cons, List.foldl_nil]
  exact partialWrite_low (partialWrite_low hfile (by decide)) (by decide)

/-- The first answer is longer than its part. -/
theorem partialContent_long : 1000 < (partialContent ⟨0, 999⟩).bytes.length := by
  have hlength : (partialContent ⟨0, 999⟩).bytes.length = (partialHeader ⟨0, 999⟩).length + 1000 :=
    partialWrite_length ⟨0, 999⟩
  have hheader : 0 < (partialHeader ⟨0, 999⟩).length := by decide +kernel
  omega

/-- The byte at 1000 tells which of the first two parts was written last. -/
theorem partialWrites_order :
    [partialWrite ⟨0, 999⟩, partialWrite ⟨1000, 1999⟩, partialWrite ⟨2000, 2999⟩,
        partialWrite ⟨3000, 3999⟩].foldl (Write.apply 0) [] ≠
      [partialWrite ⟨1000, 1999⟩, partialWrite ⟨0, 999⟩, partialWrite ⟨2000, 2999⟩,
        partialWrite ⟨3000, 3999⟩].foldl (Write.apply 0) [] := by
  intro hsame
  have hbyte := congrArg (fun file => file[1000]?) hsame
  rw [List.foldl_cons, List.foldl_cons, partialWrites_rest (partialWrite_head _),
    List.foldl_cons, List.foldl_cons, partialWrites_rest (partialWrite_tail _)] at hbyte
  exact absurd hbyte (by decide)

theorem interleaves_four {α : Type} (a b c d : α) :
    Interleaves [[a], [b], [c], [d]] [a, b, c, d] ∧
      Interleaves [[a], [b], [c], [d]] [b, a, c, d] := by
  have hrest : Interleaves [[], [], [c], [d]] [c, d] :=
    @Interleaves.cons _ [[], []] [[d]] [] _ c
      (@Interleaves.cons _ [[], [], []] [] [] _ d (.nil (by simp)))
  exact ⟨@Interleaves.cons _ [] [[b], [c], [d]] [] _ a
      (@Interleaves.cons _ [[]] [[c], [d]] [] _ b hrest),
    @Interleaves.cons _ [[a]] [[c], [d]] [] _ b
      (@Interleaves.cons _ [] [[], [c], [d]] [] _ a hrest)⟩

/-! ## Interference -/

/-- Processes for disjoint parts do not interfere exactly when every response, with its
status line and header, is no longer than its part. -/
theorem downloads_isolated_iff {jobs : List (FilePart × Response)}
    (hdisjoint : jobs.Pairwise fun p q => Disjoint p.1.offsets q.1.offsets) :
    ∃ writes, jobs.mapM (fun job => downloadPart job.1 job.2) = .ok writes ∧
      (Isolated (jobs.map Prod.fst) writes ↔
        ∀ job ∈ jobs, job.2.bytes.length ≤ job.1.endByte + 1 - job.1.startByte) := by
  obtain ⟨writes, hrun, hdownloads⟩ := downloads_exist jobs
  refine ⟨writes, hrun, ?_⟩
  rw [← hdownloads.keeps_iff]
  refine ⟨fun hisolated => hisolated.keeps, fun hkeeps => ⟨hkeeps, ?_⟩⟩
  intro flushes flushes' l l' file hcut hl hcut' hl'
  have hnodup := hdownloads.nodup hdisjoint hkeeps
  have hsame : flushes.flatten.flatMap Write.cells = writes.flatten.flatMap Write.cells :=
    (Write.recut_flatten hcut).symm
  have hrecut : Write.Recut flushes.flatten flushes'.flatten :=
    hsame.trans (Write.recut_flatten hcut')
  exact Write.foldl_apply_interleaved (hsame ▸ hnodup) hrecut hl hl' file

theorem downloads_isolated_iff_file :
    ∃ writes, fileJobs.mapM (fun job => downloadPart job.1 job.2) = .ok writes ∧
      (Isolated (fileJobs.map Prod.fst) writes ↔
        ∀ job ∈ fileJobs, job.2.bytes.length ≤ job.1.endByte + 1 - job.1.startByte) :=
  downloads_isolated_iff fileJobs_disjoint

/-- The parts of the program are disjoint, and a server that answers for each with its 1000
bytes makes the processes write behind their parts: the byte at 1000 is of the first or
of the second process, whichever writes it later. -/
theorem downloads_interfere :
    processParts numProcesses fileParts = some fileParts ∧
    (fileJobs.Pairwise fun p q => Disjoint p.1.offsets q.1.offsets) ∧
    ∃ writes, fileJobs.mapM (fun job => downloadPart job.1 job.2) = .ok writes ∧
      ¬ List.Forall₂ FilePart.Keeps (fileJobs.map Prod.fst) writes ∧
      ∃ flushes l l', List.Forall₂ Write.Recut writes flushes ∧ Interleaves flushes l ∧
        Interleaves flushes l' ∧ l.foldl (Write.apply 0) [] ≠ l'.foldl (Write.apply 0) [] := by
  obtain ⟨writes, hrun, hdownloads⟩ := downloads_exist fileJobs
  refine ⟨processParts_length fileParts, fileJobs_disjoint, writes, hrun, ?_, ?_⟩
  · rw [hdownloads.keeps_iff]
    intro hlengths
    have hroom := hlengths (⟨0, 999⟩, partialContent ⟨0, 999⟩) List.mem_cons_self
    exact absurd partialContent_long (Nat.not_lt.mpr hroom)
  · obtain ⟨hl, hl'⟩ := interleaves_four (partialWrite ⟨0, 999⟩) (partialWrite ⟨1000, 1999⟩)
      (partialWrite ⟨2000, 2999⟩) (partialWrite ⟨3000, 3999⟩)
    let wholeWrite (job : FilePart × Response) : List (Write UInt8) :=
      [⟨job.1.startByte, job.2.bytes⟩]
    exact ⟨fileJobs.map wholeWrite, _, _, List.forall₂_map_right_iff.mpr hdownloads.flip,
      hl, hl', partialWrites_order⟩

end Hipft
