import Hipft.Server.FileHandle

/-! # The directory of the server

`open_dir_handle` goes through the directory twice, once to count its entries and once to
make a handle of each, and then opens every file. A client names a file by its last
component.
-/

namespace Hipft

open CMemory

/-- `/`. -/
def slash : UInt8 := 47

/-- A `struct dirent`, with its name up to the zero that ends it. A name has no slash. -/
structure Dirent where
  dType : UInt8
  dName : Bytes
  terminated : 0 ∉ dName
  plain : slash ∉ dName

/-- The part of the file system that the server uses: what `readdir` gives in the `k`-th
directory stream that it opens, and what reading an opened file gives. -/
structure FileSystem where
  opendir : Nat → Bytes → Option (List Dirent)
  fopen : Bytes → Option { content : Bytes // content.length < 2 ^ 63 }

/-- A `file_handle_t` that is not ready yet. -/
structure NamedFile where
  path : Bytes
  fileName : Bytes
  deriving DecidableEq, Repr

/-- A `dir_handle_t` with its handles ready. -/
structure DirHandle where
  dir : Bytes
  handles : List FileHandle
  deriving DecidableEq

/-- The string that a C function reads from these bytes with a zero behind them. -/
def cString (bytes : Bytes) : Bytes := bytes.takeWhile (· ≠ 0)

/-- The loop of `getFileNameFromPath`, for the first `i` bytes. -/
def fileNameFrom (p : Bytes) : Nat → CRun Bytes
  | 0 => pure p
  | i + 1 => do
      let c ← readAt p i
      if c = slash then pure (p.drop (i + 1)) else fileNameFrom p i

/-- `getFileNameFromPath(plength, p, &flength, &f)`. -/
def getFileNameFromPath (p : Bytes) : CRun Bytes := fileNameFrom p p.length

/-- `open_file_handle(plength, p)`. -/
def openFileHandle (p : Bytes) : CRun NamedFile := do
  let fileName ← getFileNameFromPath p
  pure ⟨p, fileName⟩

/-- `ready_file_handle(fhandle)`. A file that does not open leaves a null pointer to
`fseek`. -/
def readyFileHandle (sys : FileSystem) (fhandle : NamedFile) : CRun FileHandle :=
  match sys.fopen (cString fhandle.path) with
  | none => .error .outOfBounds
  | some ⟨content, fits⟩ => pure ⟨fhandle.fileName, content, fits⟩

/-- `dirp->d_type!=4`: not a directory. -/
def Dirent.Listed (dirp : Dirent) : Prop := dirp.dType ≠ 4

instance : DecidablePred Dirent.Listed := fun dirp => inferInstanceAs (Decidable (dirp.dType ≠ 4))

/-- The second loop over the directory. -/
def fillHandles (dir : Bytes) :
    List Dirent → Nat → List (Option NamedFile) → CRun (List (Option NamedFile))
  | [], _, handles => pure handles
  | dirp :: entries, tempInt, handles =>
      if dirp.Listed then do
        let fhandle ← openFileHandle (dir ++ dirp.dName)
        let handles ← modifyAt handles tempInt fun _ => some fhandle
        fillHandles dir entries (tempInt + 1) handles
      else fillHandles dir entries tempInt handles

/-- What a pointer from `malloc` has to give that was not written to. -/
def allocated : Option NamedFile → CRun NamedFile
  | some fhandle => pure fhandle
  | none => .error .outOfBounds

/-- The pass of the last loop of `open_dir_handle`. -/
def openHandle (sys : FileSystem) (handle : Option NamedFile) : CRun FileHandle := do
  let fhandle ← allocated handle
  readyFileHandle sys fhandle

/-- What `readdir` gives; a null stream ends the process. -/
def listing (sys : FileSystem) (k : Nat) (dir : Bytes) : CRun (List Dirent) :=
  match sys.opendir k (cString dir) with
  | none => .error .outOfBounds
  | some entries => pure entries

/-- `open_dir_handle(dlength, d)`. -/
def openDirHandle (sys : FileSystem) (d : Bytes) : CRun DirHandle := do
  let dir := d ++ [slash]
  let counted ← listing sys 0 dir
  let numHandles := counted.countP (·.Listed)
  let entries ← listing sys 1 dir
  let handles ← fillHandles dir entries 0 (List.replicate numHandles none)
  let handles ← handles.mapM (openHandle sys)
  pure ⟨dir, handles⟩

/-! ## Names -/

theorem fileNameFrom_append {front name : Bytes} (hname : slash ∉ name) :
    fileNameFrom (front ++ slash :: name) (front ++ slash :: name).length = .ok name := by
  have hback : ∀ k ≤ name.length, fileNameFrom (front ++ slash :: name) (front.length + 1 + k) =
      .ok name := by
    intro k
    induction k with
    | zero =>
        intro _
        rw [Nat.add_zero, fileNameFrom, readAt_append_length, ok_bind, if_pos rfl]
        simp
    | succ k ih =>
        intro hk
        have hread : readAt (front ++ slash :: name) (front.length + 1 + k) = .ok name[k] := by
          rw [readAt_eq_ok, List.getElem?_append_right (by omega)]
          simp [Nat.add_right_comm, Nat.add_assoc]
        have hother : name[k] ≠ slash := fun hsame => hname (hsame ▸ List.getElem_mem hk)
        rw [← Nat.add_assoc, fileNameFrom, hread, ok_bind, if_neg hother, ih (by omega)]
  have hlength : (front ++ slash :: name).length = front.length + 1 + name.length := by
    simp
    omega
  rw [hlength]
  exact hback name.length (Nat.le_refl _)

/-- The file name of an entry is its name again. -/
theorem openFileHandle_entry (d : Bytes) (dirp : Dirent) :
    openFileHandle (d ++ [slash] ++ dirp.dName) =
      .ok ⟨d ++ [slash] ++ dirp.dName, dirp.dName⟩ := by
  have hname : getFileNameFromPath (d ++ [slash] ++ dirp.dName) = .ok dirp.dName := by
    rw [List.append_assoc, List.singleton_append]
    exact fileNameFrom_append dirp.plain
  rw [openFileHandle, hname, ok_bind]
  rfl

theorem allM_eq_ok {α : Type} {f : α → CRun Bool} {g : α → Bool} {l : List α}
    (hf : ∀ a ∈ l, f a = .ok (g a)) : l.allM f = .ok (l.all g) := by
  induction l with
  | nil => rfl
  | cons a l ih =>
      obtain ⟨hfirst, hrest⟩ := List.forall_mem_cons.mp hf
      rw [List.allM, hfirst, ok_bind, List.all_cons]
      cases g a with
      | true => exact ih hrest
      | false => rfl

/-- Comparing byte strings of any lengths. -/
theorem compareBytes_eq (b1 b2 : Bytes) :
    compareBytes b1 b1.length b2 b2.length = .ok (decide (b1 = b2)) := by
  rw [compareBytes]
  by_cases hlength : b1.length = b2.length
  · have hbytes : ∀ i ∈ List.range b1.length,
        (do let x ← readAt b1 i; let y ← readAt b2 i; pure (decide (x = y)) : CRun Bool) =
          .ok (decide (b1[i]? = b2[i]?)) := by
      intro i hi
      have hi := List.mem_range.mp hi
      have hi' : i < b2.length := hlength ▸ hi
      simp [readAt_of_lt hi, readAt_of_lt hi', List.getElem?_eq_getElem hi,
        List.getElem?_eq_getElem hi']
    rw [if_neg (not_not.mpr hlength), allM_eq_ok hbytes, Except.ok.injEq, Bool.eq_iff_iff,
      List.all_eq_true, decide_eq_true_eq, List.ext_getElem?_iff]
    constructor
    · intro hsame i
      by_cases hi : i < b1.length
      · simpa using hsame i (List.mem_range.mpr hi)
      · rw [List.getElem?_eq_none (Nat.not_lt.mp hi),
          List.getElem?_eq_none (hlength ▸ Nat.not_lt.mp hi)]
    · intro hsame i _
      simpa using hsame i
  · have hne : b1 ≠ b2 := fun hsame => hlength (congrArg List.length hsame)
    rw [if_pos hlength, decide_eq_false hne]
    rfl

/-- The first handle with the name, or none if there is no such handle. -/
theorem fileHandleForFile_eq (file : Bytes) (handles : List FileHandle) :
    fileHandleForFile file file.length handles =
      .ok (handles.find? fun fhandle => file = fhandle.fileName) := by
  induction handles with
  | nil => rfl
  | cons fhandle handles ih =>
      rw [fileHandleForFile, compareBytes_eq, ok_bind, List.find?_cons]
      by_cases hsame : file = fhandle.fileName
      · simp [hsame]
      · simp [hsame, ih]

/-! ## Filling the handles -/

/-- The entries that get a handle. -/
def listed (entries : List Dirent) : List Dirent := entries.filter (·.Listed)

/-- The handle of an entry before it is ready. -/
def Dirent.named (d : Bytes) (dirp : Dirent) : NamedFile :=
  ⟨d ++ [slash] ++ dirp.dName, dirp.dName⟩

/-- Handles that are made behind those that are there. There is a fault where the second
pass finds more entries than were counted, and null pointers are left where it finds
less. -/
theorem fillHandles_eq (d : Bytes) (entries : List Dirent) (made : List (Option NamedFile))
    (spare : Nat) :
    fillHandles (d ++ [slash]) entries made.length (made ++ List.replicate spare none) =
      if (listed entries).length ≤ spare then
        .ok (made ++ (listed entries).map (some ∘ Dirent.named d) ++
          List.replicate (spare - (listed entries).length) none)
      else .error .outOfBounds := by
  induction entries generalizing made spare with
  | nil => simp [fillHandles, listed]
  | cons dirp entries ih =>
      rw [fillHandles]
      by_cases hlisted : dirp.Listed
      · have hmore : listed (dirp :: entries) = dirp :: listed entries :=
          List.filter_cons_of_pos (decide_eq_true hlisted)
        rw [if_pos hlisted, openFileHandle_entry, ok_bind, hmore, List.length_cons]
        cases spare with
        | zero =>
            rw [List.replicate_zero, List.append_nil, modifyAt, if_neg (Nat.lt_irrefl _)]
            rfl
        | succ spare =>
            have hnext := ih (made ++ [some (dirp.named d)]) spare
            rw [List.length_append, List.length_singleton, List.append_assoc,
              List.singleton_append] at hnext
            rw [List.replicate_succ, modifyAt_append_length, ok_bind]
            refine hnext.trans ?_
            simp
      · have hsame : listed (dirp :: entries) = listed entries :=
          List.filter_cons_of_neg (by simpa using hlisted)
        rw [if_neg hlisted, ih, hsame]

/-! ## Opening the files -/

/-- The path of an entry, as `fopen` reads it. -/
def Dirent.path (d : Bytes) (dirp : Dirent) : Bytes := cString (d ++ [slash] ++ dirp.dName)

/-- The handle of an entry that opens. -/
def Dirent.handle? (sys : FileSystem) (d : Bytes) (dirp : Dirent) : Option FileHandle :=
  (sys.fopen (dirp.path d)).map fun file => ⟨dirp.dName, file.1, file.2⟩

section Opening

variable (sys : FileSystem) (d : Bytes)

theorem openHandle_named (dirp : Dirent) :
    openHandle sys (some (dirp.named d)) =
      match dirp.handle? sys d with
      | none => .error .outOfBounds
      | some fhandle => .ok fhandle := by
  change readyFileHandle sys (dirp.named d) = _
  rw [readyFileHandle, Dirent.handle?]
  change (match sys.fopen (dirp.path d) with
    | none => _
    | some ⟨content, fits⟩ => _) = _
  cases sys.fopen (dirp.path d) with
  | none => rfl
  | some file => rfl

/-- The last loop comes to its end when there is a handle for every pointer and every file
opens. -/
theorem mapM_openHandle (entries : List Dirent) (left : Nat) {handles : List FileHandle} :
    (entries.map (some ∘ Dirent.named d) ++ List.replicate left none).mapM (openHandle sys) =
        .ok handles ↔
      left = 0 ∧ entries.map (Dirent.handle? sys d) = handles.map some := by
  induction entries generalizing handles with
  | nil =>
      cases left with
      | zero =>
          rw [List.replicate_zero]
          constructor
          · rintro ⟨⟩
            exact ⟨rfl, rfl⟩
          · rintro ⟨-, hnone⟩
            rw [List.map_eq_nil_iff.mp hnone.symm]
            rfl
      | succ left =>
          rw [List.replicate_succ, List.map_nil, List.nil_append, List.mapM_cons]
          exact iff_of_false nofun fun h => Nat.succ_ne_zero left h.1
  | cons dirp entries ih =>
      rw [List.map_cons, List.cons_append, List.mapM_cons, Function.comp_apply, openHandle_named,
        List.map_cons]
      cases dirp.handle? sys d with
      | none =>
          refine iff_of_false nofun ?_
          rintro ⟨-, hsome⟩
          cases handles <;> cases hsome
      | some fhandle =>
          rw [ok_bind, bind_eq_ok]
          constructor
          · rintro ⟨rest, hrest, ⟨⟩⟩
            obtain ⟨hleft, hall⟩ := ih.mp hrest
            exact ⟨hleft, by rw [hall, List.map_cons]⟩
          · rintro ⟨hleft, hall⟩
            cases handles with
            | nil => cases hall
            | cons first rest =>
                rw [List.map_cons, List.cons.injEq, Option.some.injEq] at hall
                obtain ⟨rfl, hall⟩ := hall
                exact ⟨rest, ih.mpr ⟨hleft, hall⟩, rfl⟩

/-- What `open_dir_handle` ends in, when it ends. -/
theorem openDirHandle_eq_ok {dh : DirHandle} :
    openDirHandle sys d = .ok dh ↔
      ∃ counted entries, sys.opendir 0 (cString (d ++ [slash])) = some counted ∧
        sys.opendir 1 (cString (d ++ [slash])) = some entries ∧
        (listed entries).length = (listed counted).length ∧ dh.dir = d ++ [slash] ∧
        (listed entries).map (Dirent.handle? sys d) = dh.handles.map some := by
  rw [openDirHandle, listing, listing]
  cases hcounted : sys.opendir 0 (cString (d ++ [slash])) with
  | none => exact iff_of_false nofun (by simp)
  | some counted =>
      simp only [pure_eq_ok, ok_bind]
      cases hentries : sys.opendir 1 (cString (d ++ [slash])) with
      | none => exact iff_of_false nofun (by simp)
      | some entries =>
          have hfill := fillHandles_eq d entries [] (listed counted).length
          rw [List.length_nil, List.nil_append, List.nil_append] at hfill
          have hcount : counted.countP (·.Listed) = (listed counted).length :=
            List.countP_eq_length_filter
          simp only [ok_bind, hcount, hfill, Option.some.injEq]
          constructor
          · intro hrun
            split at hrun
            next hfits =>
              rw [ok_bind] at hrun
              obtain ⟨handles, hready, ⟨⟩⟩ := bind_eq_ok.mp hrun
              obtain ⟨hleft, hall⟩ := (mapM_openHandle sys d _ _).mp hready
              exact ⟨counted, entries, rfl, rfl, by omega, rfl, hall⟩
            next => cases hrun
          · rintro ⟨_, _, rfl, rfl, hsame, hdir, hall⟩
            rw [if_pos (Nat.le_of_eq hsame), ok_bind,
              (mapM_openHandle sys d _ _).mpr ⟨by omega, hall⟩, ok_bind]
            obtain ⟨dir, handles⟩ := dh
            cases hdir
            rfl

theorem openHandle_error {handle : Option NamedFile} {fault : Fault}
    (hrun : openHandle sys handle = .error fault) : fault = .outOfBounds := by
  cases handle with
  | none =>
      cases hrun
      rfl
  | some fhandle =>
      rw [openHandle, allocated, pure_eq_ok, ok_bind, readyFileHandle] at hrun
      split at hrun
      next =>
        cases hrun
        rfl
      next => cases hrun

theorem mapM_openHandle_error {handles : List (Option NamedFile)} {fault : Fault}
    (hrun : handles.mapM (openHandle sys) = .error fault) : fault = .outOfBounds := by
  induction handles with
  | nil => cases hrun
  | cons handle handles ih =>
      rw [List.mapM_cons] at hrun
      rcases bind_eq_error.mp hrun with hfirst | ⟨fhandle, -, hrun⟩
      · exact openHandle_error sys hfirst
      rcases bind_eq_error.mp hrun with hrest | ⟨rest, -, hrun⟩
      · exact ih hrest
      · cases hrun

/-- Where `open_dir_handle` does not end well, it has used a pointer that it must not use. -/
theorem openDirHandle_error {fault : Fault} (hrun : openDirHandle sys d = .error fault) :
    fault = .outOfBounds := by
  rw [openDirHandle, listing, listing] at hrun
  cases hcounted : sys.opendir 0 (cString (d ++ [slash])) with
  | none =>
      rw [hcounted] at hrun
      cases hrun
      rfl
  | some counted =>
      cases hentries : sys.opendir 1 (cString (d ++ [slash])) with
      | none =>
          rw [hcounted, hentries] at hrun
          cases hrun
          rfl
      | some entries =>
          have hfill := fillHandles_eq d entries [] (counted.countP (·.Listed))
          rw [List.length_nil, List.nil_append, List.nil_append] at hfill
          simp only [hcounted, hentries, pure_eq_ok, ok_bind, hfill] at hrun
          split at hrun
          next =>
            rw [ok_bind] at hrun
            rcases bind_eq_error.mp hrun with hready | ⟨handles, -, hrun⟩
            · exact mapM_openHandle_error sys hready
            · cases hrun
          next =>
            cases hrun
            rfl

section Handles

variable {sys d} {entries : List Dirent} {handles : List FileHandle}

theorem mem_handles (hall : (listed entries).map (Dirent.handle? sys d) = handles.map some)
    (fhandle : FileHandle) : fhandle ∈ handles ↔
      ∃ dirp ∈ entries, dirp.Listed ∧ dirp.handle? sys d = some fhandle := by
  have hmem : fhandle ∈ handles ↔ some fhandle ∈ (listed entries).map (Dirent.handle? sys d) := by
    rw [hall]
    simp
  rw [hmem, List.mem_map]
  simp [listed, and_assoc]

theorem exists_handle (hall : (listed entries).map (Dirent.handle? sys d) = handles.map some)
    {dirp : Dirent} (hdirp : dirp ∈ entries) (hlisted : dirp.Listed) :
    ∃ fhandle, dirp.handle? sys d = some fhandle := by
  have hmem : dirp.handle? sys d ∈ (listed entries).map (Dirent.handle? sys d) :=
    List.mem_map_of_mem (List.mem_filter.mpr ⟨hdirp, decide_eq_true hlisted⟩)
  rw [hall] at hmem
  obtain ⟨fhandle, -, hfhandle⟩ := List.mem_map.mp hmem
  exact ⟨fhandle, hfhandle.symm⟩

theorem map_handle? (hopens : ∀ dirp ∈ entries, (dirp.handle? sys d).isSome) :
    entries.map (Dirent.handle? sys d) = (entries.filterMap (Dirent.handle? sys d)).map some := by
  induction entries with
  | nil => rfl
  | cons dirp entries ih =>
      obtain ⟨hfirst, hrest⟩ := List.forall_mem_cons.mp hopens
      obtain ⟨fhandle, hfhandle⟩ := Option.isSome_iff_exists.mp hfirst
      simp [hfhandle, ih hrest]

end Handles

/-- The server comes up exactly if the directory can be listed twice, the two passes find
equally many entries that are not directories, and every one of them opens. It then has a
handle for each of them in their order, with its name and its content. Otherwise it uses a
pointer that it must not use. -/
theorem openDirHandle_iff :
    ((∃ dh, openDirHandle sys d = .ok dh) ↔
      ∃ counted entries, sys.opendir 0 (cString (d ++ [slash])) = some counted ∧
        sys.opendir 1 (cString (d ++ [slash])) = some entries ∧
        (listed entries).length = (listed counted).length ∧
        ∀ dirp ∈ entries, dirp.Listed → (sys.fopen (dirp.path d)).isSome) ∧
    (∀ dh, openDirHandle sys d = .ok dh →
      ∃ entries, sys.opendir 1 (cString (d ++ [slash])) = some entries ∧
        dh.dir = d ++ [slash] ∧
        (listed entries).map (Dirent.handle? sys d) = dh.handles.map some) ∧
    ∀ fault, openDirHandle sys d = .error fault → fault = .outOfBounds := by
  refine ⟨?_, ?_, fun fault hrun => openDirHandle_error sys d hrun⟩
  · constructor
    · rintro ⟨dh, hopen⟩
      obtain ⟨counted, entries, hcounted, hentries, hsame, -, hall⟩ :=
        (openDirHandle_eq_ok sys d).mp hopen
      refine ⟨counted, entries, hcounted, hentries, hsame, fun dirp hdirp hlisted => ?_⟩
      obtain ⟨fhandle, hfhandle⟩ := exists_handle hall hdirp hlisted
      obtain ⟨file, hfile, -⟩ := Option.map_eq_some_iff.mp hfhandle
      rw [hfile]
      rfl
    · rintro ⟨counted, entries, hcounted, hentries, hsame, hopens⟩
      refine ⟨⟨d ++ [slash], (listed entries).filterMap (Dirent.handle? sys d)⟩,
        (openDirHandle_eq_ok sys d).mpr ⟨counted, entries, hcounted, hentries, hsame, rfl, ?_⟩⟩
      have hall : ∀ dirp ∈ listed entries, (dirp.handle? sys d).isSome := by
        intro dirp hdirp
        obtain ⟨hdirp, hlisted⟩ := List.mem_filter.mp hdirp
        rw [Dirent.handle?, Option.isSome_map]
        exact hopens dirp hdirp (of_decide_eq_true hlisted)
      exact map_handle? hall
  · intro dh hopen
    obtain ⟨-, entries, -, hentries, -, hdir, hall⟩ := (openDirHandle_eq_ok sys d).mp hopen
    exact ⟨entries, hentries, hdir, hall⟩

/-- Whatever bytes a client sends for a name, the file that it gets is the entry of the
directory with that name, and there is none exactly if no entry has it. -/
theorem fileHandleForFile_entry {dh : DirHandle} (hopen : openDirHandle sys d = .ok dh)
    (file : Bytes) :
    ∃ entries r, sys.opendir 1 (cString (d ++ [slash])) = some entries ∧
      fileHandleForFile file file.length dh.handles = .ok r ∧
      (∀ fhandle, r = some fhandle → fhandle.fileName = file ∧
        ∃ dirp ∈ entries, dirp.Listed ∧ dirp.dName = file ∧
          sys.fopen (cString (d ++ [slash] ++ file)) = some ⟨fhandle.content, fhandle.fits⟩) ∧
      (r = none ↔ ∀ dirp ∈ entries, dirp.Listed → dirp.dName ≠ file) := by
  obtain ⟨-, entries, -, hentries, -, -, hall⟩ := (openDirHandle_eq_ok sys d).mp hopen
  refine ⟨entries, _, hentries, fileHandleForFile_eq file dh.handles, ?_, ?_⟩
  · intro fhandle hfound
    have hname : fhandle.fileName = file := by
      have hsame := List.find?_some hfound
      exact (of_decide_eq_true hsame).symm
    obtain ⟨dirp, hdirp, hlisted, hfhandle⟩ :=
      (mem_handles hall fhandle).mp (List.mem_of_find?_eq_some hfound)
    obtain ⟨content, hfile, rfl⟩ := Option.map_eq_some_iff.mp hfhandle
    subst hname
    exact ⟨rfl, dirp, hdirp, hlisted, rfl, hfile⟩
  · simp only [List.find?_eq_none, decide_eq_true_eq]
    constructor
    · intro hnone dirp hdirp hlisted hname
      obtain ⟨fhandle, hfhandle⟩ := exists_handle hall hdirp hlisted
      apply hnone fhandle ((mem_handles hall fhandle).mpr ⟨dirp, hdirp, hlisted, hfhandle⟩)
      obtain ⟨content, -, rfl⟩ := Option.map_eq_some_iff.mp hfhandle
      exact hname.symm
    · intro hnone fhandle hmem hname
      obtain ⟨dirp, hdirp, hlisted, hfhandle⟩ := (mem_handles hall fhandle).mp hmem
      obtain ⟨content, -, rfl⟩ := Option.map_eq_some_iff.mp hfhandle
      exact hnone dirp hdirp hlisted hname.symm

end Opening

/-- A directory with a file and a directory in it. -/
def inputFiles : FileSystem where
  opendir _ path :=
    if path = [46, slash] then
      some [⟨8, [97], by decide, by decide⟩, ⟨4, [98], by decide, by decide⟩]
    else none
  fopen path :=
    if path = [46, slash, 97] then some ⟨threeBytes.content, threeBytes.fits⟩ else none

/-- The name of the directory gives no file. -/
theorem fileHandleForFile_entry_directory :
    ∃ dh, openDirHandle inputFiles [46] = .ok dh ∧
      ∃ entries r, inputFiles.opendir 1 (cString ([46] ++ [slash])) = some entries ∧
        fileHandleForFile [98] ([98] : Bytes).length dh.handles = .ok r ∧
        (∀ fhandle, r = some fhandle → fhandle.fileName = [98] ∧
          ∃ dirp ∈ entries, dirp.Listed ∧ dirp.dName = [98] ∧
            inputFiles.fopen (cString ([46] ++ [slash] ++ [98])) =
              some ⟨fhandle.content, fhandle.fits⟩) ∧
        (r = none ↔ ∀ dirp ∈ entries, dirp.Listed → dirp.dName ≠ [98]) := by
  have hopen : openDirHandle inputFiles [46] =
      .ok ⟨[46, slash], [threeBytes]⟩ := by decide
  exact ⟨_, hopen, fileHandleForFile_entry _ _ hopen _⟩

end Hipft
