import Hipft.Foundation.Intervals
import Mathlib.Data.UInt

/-! # Sections

A section is an array of pieces, each with a low and a high bound. It keeps
the segments that a thread has sent, or that were asked for again.
-/

namespace Hipft

open Intervals

/-- `piece_t`. -/
abbrev Piece := Span UInt64

/-- `section_t`: the array of its pieces. -/
abbrev Section := List Piece

/-- `create_section`. -/
def createSection : Section := []

/-- The piece that grew upwards, merged with the next if they touch. -/
def mergeNext (piece : Piece) : Section → Section
  | [] => [piece]
  | next :: rest =>
      if next.lowBound = piece.highBound + 1 then { next with lowBound := piece.lowBound } :: rest
      else piece :: next :: rest

/-- The piece that grew downwards behind `before`, merged with the last of these if
they touch. -/
def mergeLast (before : Section) (piece : Piece) : Section :=
  match before.getLast? with
  | none => [piece]
  | some last =>
      if last.highBound = piece.lowBound - 1 then
        before.dropLast ++ [{ last with highBound := piece.highBound }]
      else before ++ [piece]

/-- The loop of `add_to_section` from the piece behind `before` on, and the insertion at
`index` that comes after it. -/
def addLoop (num : UInt64) (index : Nat) (before : Section) : Section → Section
  | [] => before.take index ++ ⟨num, num⟩ :: before.drop index
  | piece :: rest =>
      let index := if piece.highBound < num then index + 1 else index
      if piece.lowBound ≤ num ∧ piece.highBound ≥ num then before ++ piece :: rest
      else if piece.highBound + 1 = num then
        before ++ mergeNext { piece with highBound := num } rest
      else if piece.lowBound ≠ 0 ∧ piece.lowBound - 1 = num then
        mergeLast before { piece with lowBound := num } ++ rest
      else addLoop num index (before ++ [piece]) rest

/-- `add_to_section(sec, num)`. -/
def addToSection (sec : Section) (num : UInt64) : Section := addLoop num 0 [] sec

/-- `delete_from_section(sec, num)`. -/
def deleteFromSection (num : UInt64) : Section → Section
  | [] => []
  | piece :: rest =>
      if piece.lowBound ≤ num ∧ piece.highBound ≥ num then
        if piece.lowBound < num ∧ piece.highBound > num then
          { piece with highBound := num - 1 } :: ⟨num + 1, piece.highBound⟩ :: rest
        else if piece.lowBound = num ∧ piece.highBound > num then
          { piece with lowBound := num + 1 } :: rest
        else if piece.lowBound < num ∧ piece.highBound = num then
          { piece with highBound := num - 1 } :: rest
        else rest
      else piece :: deleteFromSection num rest

/-- `last_continual_high_in_section(sec)`. -/
def lastContinualHighInSection : Section → UInt64
  | [] => 0
  | piece :: _ => piece.highBound

/-- `first_low_in_section(sec)`. -/
def firstLowInSection : Section → UInt64
  | [] => 0
  | piece :: _ => piece.lowBound

/-- `get_piece_in_section(sec, index)`. -/
def getPieceInSection (sec : Section) (index : UInt64) : Option Piece := sec[index.toNat]?

/-! ## How long sections are -/

theorem mergeNext_length (piece : Piece) (rest : Section) :
    (mergeNext piece rest).length ≤ rest.length + 1 ∧ mergeNext piece rest ≠ [] := by
  cases rest with
  | nil => exact ⟨Nat.le_refl _, nofun⟩
  | cons next rest =>
      rw [mergeNext]
      split
      next => exact ⟨Nat.le_succ _, nofun⟩
      next => exact ⟨Nat.le_refl _, nofun⟩

theorem mergeLast_length (before : Section) (piece : Piece) :
    (mergeLast before piece).length ≤ before.length + 1 ∧ mergeLast before piece ≠ [] := by
  rw [mergeLast]
  split
  next => exact ⟨Nat.le_add_left _ _, nofun⟩
  next =>
    split
    next => exact ⟨by simp, by simp⟩
    next => exact ⟨by simp, by simp⟩

/-- A number that is added makes one piece more at most, and there is one then. -/
theorem addLoop_length (num : UInt64) (index : Nat) (before rest : Section) :
    (addLoop num index before rest).length ≤ (before ++ rest).length + 1 ∧
      addLoop num index before rest ≠ [] := by
  induction rest generalizing index before with
  | nil => exact ⟨by simp [addLoop]; omega, by simp [addLoop]⟩
  | cons piece rest ih =>
      rw [addLoop]
      split
      next => exact ⟨Nat.le_succ _, by simp⟩
      next =>
        split
        next =>
          obtain ⟨hshort, hsome⟩ := mergeNext_length { piece with highBound := num } rest
          refine ⟨?_, by simp [hsome]⟩
          rw [List.length_append, List.length_append, List.length_cons]
          omega
        next =>
          split
          next =>
            obtain ⟨hshort, hsome⟩ := mergeLast_length before { piece with lowBound := num }
            refine ⟨?_, by simp [hsome]⟩
            rw [List.length_append, List.length_append, List.length_cons]
            omega
          next =>
            have hloop := ih (if piece.highBound < num then index + 1 else index)
              (before ++ [piece])
            rwa [List.append_assoc, List.singleton_append] at hloop

theorem addToSection_length (sec : Section) (num : UInt64) :
    (addToSection sec num).length ≤ sec.length + 1 := (addLoop_length num 0 [] sec).1

theorem addToSection_ne_nil (sec : Section) (num : UInt64) : addToSection sec num ≠ [] :=
  (addLoop_length num 0 [] sec).2

theorem deleteFromSection_length (num : UInt64) (sec : Section) :
    (deleteFromSection num sec).length ≤ sec.length + 1 := by
  induction sec with
  | nil => exact Nat.zero_le _
  | cons piece rest ih =>
      rw [deleteFromSection]
      repeat' split
      next => exact Nat.le_refl _
      next => exact Nat.le_succ _
      next => exact Nat.le_succ _
      next => exact (Nat.le_succ _).trans (Nat.le_succ _)
      next => exact Nat.succ_le_succ ih

end Hipft
