import Mathlib.Data.List.Forall2
import Mathlib.Data.List.Nodup
import Mathlib.Data.List.Perm.Basic

/-! # Writers of one file

Several writers share a file. Each gives its writes in an order of its own, and these are
interleaved in any way. Where no two of them write to the same place, the file that is
left does not depend on the interleaving, nor on how a writer cuts what it writes.
-/

namespace SharedFile

/-! ## Interleavings -/

section Interleavings

variable {α : Type}

/-- The list runs through all the sequences, each in its own order. -/
inductive Interleaves : List (List α) → List α → Prop
  | nil {seqs : List (List α)} : (∀ seq ∈ seqs, seq = []) → Interleaves seqs []
  | cons {front back : List (List α)} {seq l : List α} {a : α} :
      Interleaves (front ++ seq :: back) l → Interleaves (front ++ (a :: seq) :: back) (a :: l)

theorem Interleaves.perm {seqs : List (List α)} {l : List α} (hl : Interleaves seqs l) :
    l.Perm seqs.flatten := by
  induction hl with
  | nil hempty => rw [List.flatten_eq_nil_iff.mpr hempty]
  | @cons front back seq l a _ ih =>
      rw [List.flatten_append, List.flatten_cons] at ih ⊢
      rw [List.cons_append]
      exact (ih.cons a).trans List.perm_middle.symm

end Interleavings

/-! ## Cells -/

section Cells

variable {α : Type} (hole : α)

/-- The file with one cell written; a gap in front of it is filled with holes. -/
def putCell (file : List α) (cell : α × Nat) : List α :=
  (file ++ List.replicate (cell.2 + 1 - file.length) hole).set cell.2 cell.1

theorem getElem?_putCell (file : List α) (cell : α × Nat) (i : Nat) :
    (putCell hole file cell)[i]? = if i = cell.2 then some cell.1
      else if i < file.length then file[i]? else if i < cell.2 then some hole else none := by
  have hroom : cell.2 < (file ++ List.replicate (cell.2 + 1 - file.length) hole).length := by
    rw [List.length_append, List.length_replicate]
    omega
  rw [putCell, List.getElem?_set]
  by_cases hcell : cell.2 = i
  · rw [if_pos hcell, if_pos hroom, if_pos hcell.symm]
  rw [if_neg hcell, if_neg (Ne.symm hcell), List.getElem?_append, List.getElem?_replicate]
  by_cases hi : i < file.length
  · rw [if_pos hi, if_pos hi]
  rw [if_neg hi, if_neg hi]
  by_cases hgap : i < cell.2
  · rw [if_pos hgap, if_pos (by omega)]
  · rw [if_neg hgap, if_neg (by omega)]

theorem length_putCell (file : List α) (cell : α × Nat) :
    (putCell hole file cell).length = max file.length (cell.2 + 1) := by
  rw [putCell, List.length_set, List.length_append, List.length_replicate]
  omega

/-- Cells at different places can be written in either order. -/
theorem putCell_comm {c d : α × Nat} (hne : c.2 ≠ d.2) (file : List α) :
    putCell hole (putCell hole file c) d = putCell hole (putCell hole file d) c := by
  apply List.ext_getElem?
  intro i
  simp only [getElem?_putCell, length_putCell]
  grind

/-- Cells at places of their own can be written in any order. -/
theorem foldl_putCell_perm {cells cells' : List (α × Nat)} (hperm : cells.Perm cells')
    (hnodup : (cells.map Prod.snd).Nodup) (file : List α) :
    cells.foldl (putCell hole) file = cells'.foldl (putCell hole) file := by
  apply hperm.foldl_eq'
  intro c hc d hd file
  by_cases hplace : c.2 = d.2
  · rw [List.inj_on_of_nodup_map hnodup hc hd hplace]
  · exact putCell_comm hole hplace file

end Cells

/-! ## Writes -/

/-- Data that is written from an offset on. -/
structure Write (α : Type) where
  offset : Nat
  data : List α
  deriving DecidableEq

namespace Write

variable {α : Type}

/-- The cells of the write, each with its place. -/
def cells (w : Write α) : List (α × Nat) := w.data.zipIdx w.offset

/-- The file after the write. -/
def apply (hole : α) (file : List α) (w : Write α) : List α := w.cells.foldl (putCell hole) file

/-- The writes put the same cells to the same places in the same order, in other pieces. -/
def Recut (ws ws' : List (Write α)) : Prop := ws.flatMap cells = ws'.flatMap cells

theorem cells_append (offset : Nat) (front back : List α) :
    cells ⟨offset, front ++ back⟩ =
      cells ⟨offset, front⟩ ++ cells ⟨offset + front.length, back⟩ := List.zipIdx_append

theorem map_snd_cells (w : Write α) :
    w.cells.map Prod.snd = List.range' w.offset w.data.length := List.zipIdx_map_snd ..

/-- A place that is not written to keeps what it has. -/
theorem getElem?_apply_outside {hole a : α} {file : List α} {w : Write α} {i : Nat}
    (hfile : file[i]? = some a) (hout : i < w.offset ∨ w.offset + w.data.length ≤ i) :
    (apply hole file w)[i]? = some a := by
  obtain ⟨offset, data⟩ := w
  induction data generalizing file offset with
  | nil => exact hfile
  | cons b data ih =>
      obtain ⟨hi, -⟩ := List.getElem?_eq_some_iff.mp hfile
      simp only [List.length_cons] at hout
      have hkept : (putCell hole file (b, offset))[i]? = some a := by
        rw [getElem?_putCell, if_neg (by simp only; omega), if_pos hi, hfile]
      exact ih hkept (offset + 1) (by simp only; omega)

/-- A place that is written to has what was written there. -/
theorem getElem?_apply_inside {hole : α} {file : List α} {w : Write α} {i : Nat}
    (hlow : w.offset ≤ i) (hhigh : i < w.offset + w.data.length) :
    (apply hole file w)[i]? = w.data[i - w.offset]? := by
  obtain ⟨offset, data⟩ := w
  induction data generalizing file offset with
  | nil => exact absurd hhigh (Nat.not_lt.mpr hlow)
  | cons b data ih =>
      simp only [List.length_cons] at hlow hhigh ⊢
      by_cases hfirst : i = offset
      · subst hfirst
        have hput : (putCell hole file (b, i))[i]? = some b := by
          rw [getElem?_putCell, if_pos rfl]
        rw [Nat.sub_self]
        exact getElem?_apply_outside (w := ⟨i + 1, data⟩) hput (.inl (Nat.lt_succ_self i))
      · have hsucc : i - offset = i - (offset + 1) + 1 := by omega
        rw [hsucc, List.getElem?_cons_succ]
        exact ih (offset + 1) (by simp only; omega) (by simp only; omega)

theorem foldl_apply (hole : α) (ws : List (Write α)) (file : List α) :
    ws.foldl (apply hole) file = (ws.flatMap cells).foldl (putCell hole) file :=
  List.foldl_flatMap.symm

theorem recut_flatten {seqs seqs' : List (List (Write α))}
    (hrecut : List.Forall₂ Recut seqs seqs') : Recut seqs.flatten seqs'.flatten := by
  induction hrecut with
  | nil => rfl
  | cons hfirst _ ih =>
      rw [Recut, List.flatten_cons, List.flatten_cons, List.flatMap_append, List.flatMap_append,
        hfirst, ih]

/-- Writers with places of their own leave one file, however they are interleaved and cut. -/
theorem foldl_apply_interleaved {hole : α} {seqs seqs' : List (List (Write α))}
    {l l' : List (Write α)} (hnodup : ((seqs.flatten.flatMap cells).map Prod.snd).Nodup)
    (hrecut : Recut seqs.flatten seqs'.flatten) (hl : Interleaves seqs l)
    (hl' : Interleaves seqs' l') (file : List α) :
    l.foldl (apply hole) file = l'.foldl (apply hole) file := by
  have hcells : (l.flatMap cells).Perm (seqs.flatten.flatMap cells) := hl.perm.flatMap_right cells
  have hcells' : (l'.flatMap cells).Perm (seqs.flatten.flatMap cells) :=
    hrecut ▸ hl'.perm.flatMap_right cells
  rw [foldl_apply, foldl_apply, foldl_putCell_perm hole (hcells.trans hcells'.symm)]
  exact (hcells.map Prod.snd).nodup_iff.mpr hnodup

end Write

end SharedFile
