import Hipft.Foundation.Slots
import Hipft.Section.Requests

/-! # Sections as arrays

The source keeps the pieces in an array of pointers with a counter, and changes it by
loops over its indices. These functions follow the source; what they do to an array that
has the pieces of a list is what the functions of sections do to the list.
-/

namespace Hipft

open CMemory Intervals

/-- `section_t`. The array of a section whose last piece is deleted is `freed`, and `pieces`
goes on pointing to it until a piece is added. -/
structure SectionArray where
  numPieces : UInt64
  pieces : List (Option Piece)
  freed : Bool
  deriving DecidableEq

namespace SectionArray

/-- `create_section`. -/
def create : SectionArray := ⟨0, [], false⟩

/-- Write to the bounds of the piece at `i`. -/
def setPiece (arr : SectionArray) (i : Nat) (piece : Piece) : CRun SectionArray := do
  let pieces ← modifyAt arr.pieces i (Option.map fun _ => piece)
  pure { arr with pieces }

/-- The loops that copy all pieces but that at `i`. -/
def removePiece (arr : SectionArray) (i : Nat) : CRun SectionArray := do
  let pieces ← removeSlot arr.pieces arr.numPieces.toNat i
  pure { numPieces := arr.numPieces - 1, pieces, freed := false }

/-- The loops that copy all pieces and put one more at `index`. -/
def insertPiece (arr : SectionArray) (index : Nat) (piece : Piece) : CRun SectionArray := do
  let pieces ← insertSlot arr.pieces arr.numPieces.toNat index piece
  pure { numPieces := arr.numPieces + 1, pieces, freed := false }

/-- The end of `add_to_section`: the piece needs to be added. -/
def addPiece (arr : SectionArray) (index : Nat) (num : UInt64) : CRun SectionArray :=
  if arr.numPieces = 0 then
    pure { numPieces := arr.numPieces + 1, pieces := [some ⟨num, num⟩], freed := false }
  else arr.insertPiece index ⟨num, num⟩

/-- The piece at `i` grew upwards: see if it can be merged with the next. -/
def mergeNext (arr : SectionArray) (i : Nat) : CRun SectionArray :=
  if i + 1 < arr.numPieces.toNat then do
    let piece ← slotAt arr.pieces i
    let next ← slotAt arr.pieces (i + 1)
    if next.lowBound = piece.highBound + 1 then do
      let arr ← arr.setPiece (i + 1) { next with lowBound := piece.lowBound }
      arr.removePiece i
    else pure arr
  else pure arr

/-- The piece at `i` grew downwards: see if it can be merged with the last. -/
def mergeLast (arr : SectionArray) (i : Nat) : CRun SectionArray :=
  if i > 0 then do
    let piece ← slotAt arr.pieces i
    let last ← slotAt arr.pieces (i - 1)
    if last.highBound = piece.lowBound - 1 then do
      let arr ← arr.setPiece (i - 1) { last with highBound := piece.highBound }
      arr.removePiece i
    else pure arr
  else pure arr

/-- The loop of `add_to_section` over the indices that are left. -/
def addLoop (num : UInt64) (arr : SectionArray) (index : Nat) : List Nat → CRun SectionArray
  | [] => arr.addPiece index num
  | i :: rest => do
      let piece ← slotAt arr.pieces i
      let index := if piece.highBound < num then index + 1 else index
      if piece.lowBound ≤ num ∧ piece.highBound ≥ num then pure arr
      else if piece.highBound + 1 = num then do
        let arr ← arr.setPiece i { piece with highBound := num }
        arr.mergeNext i
      else if piece.lowBound ≠ 0 ∧ piece.lowBound - 1 = num then do
        let arr ← arr.setPiece i { piece with lowBound := num }
        arr.mergeLast i
      else addLoop num arr index rest

/-- `add_to_section(sec, num)`. -/
def addToSection (arr : SectionArray) (num : UInt64) : CRun SectionArray :=
  arr.addLoop num 0 (List.range' 0 arr.numPieces.toNat)

/-- The loop of `delete_from_section` over the indices that are left. -/
def deleteLoop (num : UInt64) (arr : SectionArray) : List Nat → CRun SectionArray
  | [] => pure arr
  | i :: rest => do
      let piece ← slotAt arr.pieces i
      if piece.lowBound ≤ num ∧ piece.highBound ≥ num then
        if piece.lowBound < num ∧ piece.highBound > num then do
          let arr ← arr.setPiece i { piece with highBound := num - 1 }
          arr.insertPiece (i + 1) ⟨num + 1, piece.highBound⟩
        else if piece.lowBound = num ∧ piece.highBound > num then
          arr.setPiece i { piece with lowBound := num + 1 }
        else if piece.lowBound < num ∧ piece.highBound = num then
          arr.setPiece i { piece with highBound := num - 1 }
        else if arr.numPieces - 1 > 0 then
          -- Each pass also clears the slot that the copies leave out.
          arr.removePiece i
        else pure { numPieces := arr.numPieces - 1, pieces := [], freed := true }
      else deleteLoop num arr rest

/-- `delete_from_section(sec, num)`. -/
def deleteFromSection (arr : SectionArray) (num : UInt64) : CRun SectionArray :=
  arr.deleteLoop num (List.range' 0 arr.numPieces.toNat)

/-- `last_continual_high_in_section(sec)`. -/
def lastContinualHighInSection (arr : SectionArray) : CRun UInt64 :=
  if arr.numPieces = 0 then pure 0
  else do
    let piece ← slotAt arr.pieces 0
    pure piece.highBound

/-- `first_low_in_section(sec)`. -/
def firstLowInSection (arr : SectionArray) : CRun UInt64 :=
  if arr.numPieces = 0 then pure 0
  else do
    let piece ← slotAt arr.pieces 0
    pure piece.lowBound

/-- `get_piece_in_section(sec, index)`. -/
def getPieceInSection (arr : SectionArray) (index : UInt64) : CRun (Option Piece) :=
  if arr.numPieces ≤ index then pure none
  else do
    let piece ← slotAt arr.pieces index.toNat
    pure (some piece)

/-- `free_section(sec)`: the pieces, and then the array. -/
def freeSection (arr : SectionArray) : CRun Unit := do
  (List.range arr.numPieces.toNat).forM fun i => do
    let _ ← slotAt arr.pieces i
  if arr.freed then .error .doubleFree else pure ()

/-! ## Arrays that have a list of pieces -/

/-- The array has these pieces, its counter counts them, and it is not freed where it has
any. -/
structure Has (arr : SectionArray) (sec : Section) : Prop where
  pieces : arr.pieces = sec.map some
  numPieces : arr.numPieces.toNat = sec.length
  freed : arr.freed = true → sec = []

theorem create_has : create.Has createSection := ⟨rfl, rfl, fun _ => rfl⟩

section Operations

variable {arr : SectionArray} {sec front back : Section} {piece : Piece} {i : Nat}

theorem Has.holds (hhas : arr.Has sec) : Holds arr.pieces sec := hhas.pieces ▸ holds_map sec

/-- An array is determined by what it has and whether it is freed. -/
theorem Has.eq {other : SectionArray} (hhas : arr.Has sec) (hother : other.Has sec)
    (hfreed : arr.freed = other.freed) : arr = other := by
  obtain ⟨numPieces, pieces, freed⟩ := arr
  obtain ⟨numPieces', pieces', freed'⟩ := other
  have hpieces : pieces = pieces' := hhas.pieces.trans hother.pieces.symm
  have hcount : numPieces = numPieces' :=
    UInt64.toNat_inj.mp (hhas.numPieces.trans hother.numPieces.symm)
  rw [hpieces, hcount, show freed = freed' from hfreed]

/-- An array with a piece is not freed. -/
theorem Has.freed_eq_false (hhas : arr.Has sec) (hsec : sec ≠ []) : arr.freed = false :=
  Bool.eq_false_iff.mpr fun hfreed => hsec (hhas.freed hfreed)

theorem Has.slotAt (hhas : arr.Has (front ++ piece :: back)) (hi : i = front.length) :
    slotAt arr.pieces i = .ok piece := by
  have hindex : i < (front ++ piece :: back).length := by simp [hi]
  rw [hhas.holds.slotAt hindex]
  simp [hi]

theorem Has.setPiece (hhas : arr.Has (front ++ piece :: back)) (hi : i = front.length)
    (new : Piece) :
    ∃ arr', arr.setPiece i new = .ok arr' ∧ arr'.Has (front ++ new :: back) := by
  have hwrite := modifyAt_append_length (front.map some) (back.map some) (some piece)
    (Option.map fun _ => new)
  rw [List.length_map, ← hi, ← List.map_cons, ← List.map_append] at hwrite
  have hfreed := hhas.freed_eq_false (by simp)
  refine ⟨{ arr with pieces := (front ++ new :: back).map some }, ?_, rfl, ?_, ?_⟩
  · rw [SectionArray.setPiece, hhas.pieces, hwrite, ok_bind, List.map_append]
    rfl
  · rw [hhas.numPieces]
    simp
  · simp [hfreed]

theorem Has.removePiece (hhas : arr.Has (front ++ piece :: back)) (hi : i = front.length) :
    ∃ arr', arr.removePiece i = .ok arr' ∧ arr'.Has (front ++ back) := by
  have hindex : i < (front ++ piece :: back).length := by simp [hi]
  have herase : (front ++ piece :: back).eraseIdx i = front ++ back := by
    rw [hi, List.eraseIdx_append_of_length_le (Nat.le_refl _), Nat.sub_self]
    rfl
  have hremove := hhas.holds.removeSlot hindex
  rw [herase] at hremove
  refine ⟨{ numPieces := arr.numPieces - 1, pieces := (front ++ back).map some, freed := false },
    ?_, rfl, ?_, nofun⟩
  · rw [SectionArray.removePiece, hhas.numPieces, hremove]
    rfl
  · apply toNat_sub_one
    rw [hhas.numPieces, List.length_append, List.length_append, List.length_cons, Nat.add_assoc]

theorem insertIdx_append (front back : Section) (piece : Piece) :
    (front ++ back).insertIdx front.length piece = front ++ piece :: back := by
  induction front with
  | nil => rfl
  | cons p front ih =>
      rw [List.cons_append, List.length_cons, List.insertIdx_succ_cons, ih, List.cons_append]

theorem Has.insertPiece (hhas : arr.Has (front ++ back)) (hi : i = front.length)
    (hroom : (front ++ back).length + 1 < 2 ^ 64) (piece : Piece) :
    ∃ arr', arr.insertPiece i piece = .ok arr' ∧ arr'.Has (front ++ piece :: back) := by
  have hindex : i ≤ (front ++ back).length := by
    rw [List.length_append, hi]
    exact Nat.le_add_right _ _
  have hinsert := hhas.holds.insertSlot hindex piece
  rw [hi, insertIdx_append] at hinsert
  refine ⟨{ numPieces := arr.numPieces + 1, pieces := (front ++ piece :: back).map some
            freed := false }, ?_, rfl, ?_, nofun⟩
  · rw [SectionArray.insertPiece, hhas.numPieces, hi, hinsert]
    rfl
  · rw [toNat_add_one (hhas.numPieces ▸ hroom), hhas.numPieces, List.length_append,
      List.length_append, List.length_cons, Nat.add_assoc]

theorem Has.addPiece (hhas : arr.Has sec) {index : Nat} (hindex : index ≤ sec.length)
    (hroom : sec.length + 1 < 2 ^ 64) (num : UInt64) :
    ∃ arr', arr.addPiece index num = .ok arr' ∧
      arr'.Has (sec.take index ++ ⟨num, num⟩ :: sec.drop index) := by
  by_cases hempty : arr.numPieces = 0
  · have hnil : sec = [] := by
      apply List.eq_nil_of_length_eq_zero
      rw [← hhas.numPieces, hempty]
      rfl
    subst hnil
    refine ⟨_, if_pos hempty, ?_, ?_, nofun⟩
    · rw [List.take_nil, List.drop_nil]
      rfl
    · rw [hempty, List.take_nil, List.drop_nil]
      rfl
  · rw [← List.take_append_drop index sec] at hhas hroom
    rw [SectionArray.addPiece, if_neg hempty]
    exact hhas.insertPiece (List.length_take_of_le hindex).symm hroom _

end Operations

/-! ## Adding -/

section Adding

variable {arr : SectionArray} {front back : Section} {piece : Piece} {i : Nat}

theorem Has.mergeNext (hhas : arr.Has (front ++ piece :: back)) (hi : i = front.length) :
    ∃ arr', arr.mergeNext i = .ok arr' ∧ arr'.Has (front ++ Hipft.mergeNext piece back) := by
  have hcount := hhas.numPieces
  rw [List.length_append, List.length_cons, ← hi] at hcount
  cases back with
  | nil =>
      refine ⟨arr, ?_, hhas⟩
      rw [SectionArray.mergeNext, hcount, List.length_nil, if_neg (Nat.lt_irrefl _)]
      rfl
  | cons next back =>
      have hnext : i + 1 = (front ++ [piece]).length := by simp [hi]
      have hmore : i + 1 < arr.numPieces.toNat := by
        rw [hcount, List.length_cons]
        omega
      have hpiece := hhas
      rw [List.append_cons] at hhas
      rw [SectionArray.mergeNext, if_pos hmore, hpiece.slotAt hi, ok_bind, hhas.slotAt hnext,
        ok_bind, Hipft.mergeNext]
      by_cases htouch : next.lowBound = piece.highBound + 1
      · rw [if_pos htouch, if_pos htouch]
        obtain ⟨grown, hset, hgrown⟩ :=
          hhas.setPiece hnext { next with lowBound := piece.lowBound }
        rw [List.append_assoc] at hgrown
        obtain ⟨arr', hremove, hhas'⟩ := hgrown.removePiece hi
        exact ⟨arr', by rw [hset, ok_bind, hremove], hhas'⟩
      · rw [if_neg htouch, if_neg htouch]
        exact ⟨arr, rfl, hpiece⟩

theorem Has.mergeLast (hhas : arr.Has (front ++ piece :: back)) (hi : i = front.length) :
    ∃ arr', arr.mergeLast i = .ok arr' ∧ arr'.Has (Hipft.mergeLast front piece ++ back) := by
  rcases List.eq_nil_or_concat front with rfl | ⟨init, last, rfl⟩
  · refine ⟨arr, ?_, hhas⟩
    rw [SectionArray.mergeLast, hi, List.length_nil, if_neg (Nat.lt_irrefl 0)]
    rfl
  · rw [List.concat_eq_append] at hhas hi ⊢
    have hlast : i - 1 = init.length := by simp [hi]
    have hpos : i > 0 := by simp [hi]
    have hbefore := hhas
    rw [List.append_assoc, List.singleton_append] at hbefore
    rw [SectionArray.mergeLast, if_pos hpos, hhas.slotAt hi, ok_bind, hbefore.slotAt hlast,
      ok_bind, Hipft.mergeLast, List.getLast?_concat]
    dsimp only
    by_cases htouch : last.highBound = piece.lowBound - 1
    · rw [if_pos htouch, if_pos htouch, List.dropLast_concat]
      obtain ⟨grown, hset, hgrown⟩ :=
        hbefore.setPiece hlast { last with highBound := piece.highBound }
      rw [List.append_cons] at hgrown
      have hplace : i = (init ++ [{ last with highBound := piece.highBound }]).length := by
        rw [hi, List.length_append, List.length_append, List.length_singleton,
          List.length_singleton]
      obtain ⟨arr', hremove, hhas'⟩ := hgrown.removePiece hplace
      exact ⟨arr', by rw [hset, ok_bind, hremove], hhas'⟩
    · rw [if_neg htouch, if_neg htouch, List.append_assoc]
      exact ⟨arr, rfl, hhas⟩

/-- The loop over the indices is the loop over the pieces. -/
theorem Has.addLoop {before rest : Section} (hhas : arr.Has (before ++ rest)) {index : Nat}
    (hindex : index ≤ before.length) (hroom : (before ++ rest).length + 1 < 2 ^ 64)
    (num : UInt64) :
    ∃ arr', arr.addLoop num index (List.range' before.length rest.length) = .ok arr' ∧
      arr'.Has (Hipft.addLoop num index before rest) := by
  induction rest generalizing before index with
  | nil =>
      rw [List.append_nil] at hhas hroom
      exact hhas.addPiece hindex hroom num
  | cons piece rest ih =>
      rw [List.length_cons, List.range'_succ, SectionArray.addLoop, hhas.slotAt rfl, ok_bind,
        Hipft.addLoop]
      dsimp only
      split
      next => exact ⟨arr, rfl, hhas⟩
      next =>
        split
        next =>
          obtain ⟨grown, hset, hgrown⟩ := hhas.setPiece rfl { piece with highBound := num }
          rw [hset, ok_bind]
          exact hgrown.mergeNext rfl
        next =>
          split
          next =>
            obtain ⟨grown, hset, hgrown⟩ := hhas.setPiece rfl { piece with lowBound := num }
            rw [hset, ok_bind]
            exact hgrown.mergeLast rfl
          next =>
            rw [List.append_cons] at hhas hroom
            have hlength : (before ++ [piece]).length = before.length + 1 := by simp
            have hnext : (if piece.highBound < num then index + 1 else index) ≤
                (before ++ [piece]).length := by
              rw [hlength]
              split
              next => exact Nat.succ_le_succ hindex
              next => exact Nat.le_succ_of_le hindex
            have hloop := ih hhas hnext hroom
            rwa [hlength] at hloop

theorem Has.addToSection {sec : Section} (hhas : arr.Has sec) (hroom : sec.length + 1 < 2 ^ 64)
    (num : UInt64) :
    ∃ arr', arr.addToSection num = .ok arr' ∧ arr'.Has (Hipft.addToSection sec num) := by
  have hstart : arr.Has ([] ++ sec) := hhas
  rw [SectionArray.addToSection, hhas.numPieces]
  exact hstart.addLoop (Nat.le_refl 0) hroom num

end Adding

/-! ## Deleting -/

/-- The loop over the indices is the recursion over the pieces. Where it deletes the last of
them it frees the array. -/
theorem Has.deleteLoop {arr : SectionArray} {before rest : Section}
    (hhas : arr.Has (before ++ rest)) (hroom : (before ++ rest).length + 1 < 2 ^ 64)
    (num : UInt64) :
    ∃ arr', arr.deleteLoop num (List.range' before.length rest.length) = .ok arr' ∧
      arr'.Has (before ++ Hipft.deleteFromSection num rest) ∧
      (before ++ rest ≠ [] → before ++ Hipft.deleteFromSection num rest = [] →
        arr'.freed = true) := by
  induction rest generalizing before with
  | nil => exact ⟨arr, rfl, hhas, fun hsome hnone => absurd hnone hsome⟩
  | cons piece rest ih =>
      rw [List.length_cons, List.range'_succ, SectionArray.deleteLoop, hhas.slotAt rfl, ok_bind,
        Hipft.deleteFromSection]
      split
      next =>
        split
        next =>
          -- The piece is split into two.
          obtain ⟨cut, hset, hcut⟩ := hhas.setPiece rfl { piece with highBound := num - 1 }
          rw [List.append_cons] at hcut
          rw [hset, ok_bind, List.append_cons]
          obtain ⟨arr', hinsert, hhas'⟩ :=
            hcut.insertPiece (i := before.length + 1) (by simp) (by simpa using hroom)
              ⟨num + 1, piece.highBound⟩
          exact ⟨arr', hinsert, hhas', by simp⟩
        next =>
          split
          next =>
            obtain ⟨arr', hset, hhas'⟩ := hhas.setPiece rfl { piece with lowBound := num + 1 }
            exact ⟨arr', hset, hhas', by simp⟩
          next =>
            split
            next =>
              obtain ⟨arr', hset, hhas'⟩ := hhas.setPiece rfl { piece with highBound := num - 1 }
              exact ⟨arr', hset, hhas', by simp⟩
            next =>
              have hcount := hhas.numPieces
              rw [List.length_append, List.length_cons, ← Nat.add_assoc] at hcount
              have hleft := toNat_sub_one hcount
              split
              next hmore =>
                obtain ⟨arr', hremove, hhas'⟩ := hhas.removePiece rfl
                refine ⟨arr', hremove, hhas', fun _ hnone => ?_⟩
                rw [← List.length_append, hnone] at hleft
                exact absurd (UInt64.toNat_inj.mp hleft) (UInt64.pos_iff_ne_zero.mp hmore)
              next hlast =>
                -- The counter was one, so the piece is the only one.
                have hzero : arr.numPieces - 1 = 0 :=
                  not_not.mp (mt UInt64.pos_iff_ne_zero.mpr hlast)
                rw [hzero] at hleft
                obtain ⟨hbefore, hrest⟩ := Nat.eq_zero_of_add_eq_zero hleft.symm
                rw [List.eq_nil_of_length_eq_zero hbefore, List.eq_nil_of_length_eq_zero hrest,
                  hzero]
                exact ⟨_, rfl, ⟨rfl, rfl, fun _ => rfl⟩, fun _ _ => rfl⟩
      next =>
        rw [List.append_cons] at hhas hroom
        have hloop := ih hhas hroom
        rw [List.append_assoc, List.append_assoc, List.length_append,
          List.length_singleton] at hloop
        exact hloop

theorem Has.deleteFromSection {arr : SectionArray} {sec : Section} (hhas : arr.Has sec)
    (hroom : sec.length + 1 < 2 ^ 64) (num : UInt64) :
    ∃ arr', arr.deleteFromSection num = .ok arr' ∧
      arr'.Has (Hipft.deleteFromSection num sec) ∧
      (sec ≠ [] → Hipft.deleteFromSection num sec = [] → arr'.freed = true) := by
  have hstart : arr.Has ([] ++ sec) := hhas
  rw [SectionArray.deleteFromSection, hhas.numPieces]
  exact hstart.deleteLoop hroom num

/-! ## Freeing -/

/-- The array of a section is freed once more, which it survives if it was not freed before. -/
theorem Has.freeSection {arr : SectionArray} {sec : Section} (hhas : arr.Has sec) :
    arr.freeSection = if arr.freed then .error .doubleFree else .ok () := by
  have hpieces : ∀ indices : List Nat, (∀ i ∈ indices, i < sec.length) →
      (indices.forM fun i => do let _ ← CMemory.slotAt arr.pieces i) = (.ok () : CRun Unit) := by
    intro indices hindices
    induction indices with
    | nil => rfl
    | cons i indices ih =>
        obtain ⟨hi, hrest⟩ := List.forall_mem_cons.mp hindices
        rw [List.forM_eq_forM, List.forM_cons, hhas.holds.slotAt hi]
        exact ih hrest
  rw [SectionArray.freeSection, hpieces _ fun i hi => hhas.numPieces ▸ List.mem_range.mp hi]
  rfl

/-! ## Asking -/

section Asking

variable {arr : SectionArray} {sec : Section} {piece : Piece} {rest : Section}

/-- What the functions that ask give for an array with a first piece. -/
theorem Has.first (hhas : arr.Has (piece :: rest)) :
    arr.firstLowInSection = .ok piece.lowBound ∧
      arr.lastContinualHighInSection = .ok piece.highBound ∧
      arr.getPieceInSection 0 = .ok (some piece) := by
  have hstart : arr.Has ([] ++ piece :: rest) := hhas
  have hslot : CMemory.slotAt arr.pieces 0 = .ok piece := hstart.slotAt rfl
  have hcount := hhas.numPieces
  have hpos : arr.numPieces ≠ 0 := by
    intro hzero
    rw [hzero] at hcount
    exact Nat.succ_ne_zero _ hcount.symm
  have hmore : ¬ arr.numPieces ≤ 0 := fun hle => hpos (UInt64.le_zero_iff.mp hle)
  have hindex : CMemory.slotAt arr.pieces (0 : UInt64).toNat = .ok piece := hslot
  rw [SectionArray.firstLowInSection, SectionArray.lastContinualHighInSection,
    SectionArray.getPieceInSection, if_neg hpos, if_neg hpos, if_neg hmore, hindex, hslot]
  exact ⟨rfl, rfl, rfl⟩

theorem Has.nothing (hhas : arr.Has []) : arr.getPieceInSection 0 = .ok none := by
  have hzero : arr.numPieces ≤ 0 := UInt64.le_iff_toNat_le.mpr (Nat.le_of_eq hhas.numPieces)
  rw [SectionArray.getPieceInSection, if_pos hzero]
  rfl

end Asking

end SectionArray

end Hipft
