import Mathlib.Algebra.Group.Nat.Defs
import Mathlib.Data.List.Basic

/-! # Checked memory for shallow embeddings of C

A C function is embedded as a computation that ends in a value or in a fault.
Reading or writing outside a block is a fault, so a run that ends in a value
has kept every access inside the memory it was given. A loop that would make
no progress is a fault of its own, and so are a failed assertion and a block that is
freed twice.
-/

namespace CMemory

/-- How a run can fail to produce a value. -/
inductive Fault
  | outOfBounds
  | assertion
  | hang
  | doubleFree
  deriving DecidableEq, Repr

/-- A run of a C function: its value, or the fault that ended it. -/
abbrev CRun := Except Fault

section Laws

variable {α β : Type}

@[simp] theorem ok_bind (a : α) (next : α → CRun β) :
    (Except.ok a >>= next : CRun β) = next a := rfl

@[simp] theorem error_bind (fault : Fault) (next : α → CRun β) :
    (Except.error fault >>= next : CRun β) = .error fault := rfl

@[simp] theorem pure_eq_ok (a : α) : (pure a : CRun α) = .ok a := rfl

theorem bind_eq_ok {run : CRun α} {next : α → CRun β} {b : β} :
    run >>= next = .ok b ↔ ∃ a, run = .ok a ∧ next a = .ok b := by
  cases run with
  | error fault => simp
  | ok a => simp

theorem bind_eq_error {run : CRun α} {next : α → CRun β} {fault : Fault} :
    run >>= next = .error fault ↔
      run = .error fault ∨ ∃ a, run = .ok a ∧ next a = .error fault := by
  cases run with
  | error fault' => simp
  | ok a => simp

/-- A chain of checks finds nothing wrong when none of them does. -/
theorem check_eq_none {p : Prop} [Decidable p] {found : α} {rest : Option α} :
    (if p then some found else rest) = none ↔ ¬p ∧ rest = none := by
  by_cases hp : p
  · simp [hp]
  · simp [hp]

end Laws

/-! ## Access to one block -/

section Access

variable {α : Type}

/-- Read the cell at `index`. -/
def readAt (mem : List α) (index : Nat) : CRun α :=
  match mem[index]? with
  | some cell => .ok cell
  | none => .error .outOfBounds

/-- Read `count` cells from `start` on, one after the other. -/
def readRange (mem : List α) (start : Nat) : Nat → CRun (List α)
  | 0 => .ok []
  | count + 1 => do
      let cell ← readAt mem start
      let rest ← readRange mem (start + 1) count
      pure (cell :: rest)

/-- Replace the cell at `index` by a function of its value. -/
def modifyAt (mem : List α) (index : Nat) (f : α → α) : CRun (List α) :=
  if index < mem.length then .ok (mem.modify index f) else .error .outOfBounds

/-- Write `cells` over the front of a block. -/
def writeFront (mem cells : List α) : CRun (List α) :=
  if cells.length ≤ mem.length then .ok (cells ++ mem.drop cells.length)
  else .error .outOfBounds

/-- A block that is filled from the front, one piece after the other. -/
structure Cursor (α : Type) where
  block : List α
  filled : Nat

/-- Copy `cells` behind what is filled. -/
def Cursor.put (dst : Cursor α) (cells : List α) : CRun (Cursor α) :=
  if dst.filled + cells.length ≤ dst.block.length then
    .ok ⟨dst.block.take dst.filled ++ cells ++ dst.block.drop (dst.filled + cells.length),
      dst.filled + cells.length⟩
  else .error .outOfBounds

theorem readAt_eq_ok {mem : List α} {index : Nat} {cell : α} :
    readAt mem index = .ok cell ↔ mem[index]? = some cell := by
  unfold readAt
  cases mem[index]? with
  | none => simp
  | some found => simp

theorem readAt_of_lt {mem : List α} {index : Nat} (hindex : index < mem.length) :
    readAt mem index = .ok mem[index] := by
  rw [readAt_eq_ok, List.getElem?_eq_getElem hindex]

@[simp] theorem readAt_append_length (front back : List α) (cell : α) :
    readAt (front ++ cell :: back) front.length = .ok cell := by
  simp [readAt]

theorem readAt_take {mem : List α} {count index : Nat} (hindex : index < count) :
    readAt (mem.take count) index = readAt mem index := by
  rw [readAt, readAt, List.getElem?_take_of_lt hindex]

/-- A read inside the block gives the consecutive cells. -/
theorem readRange_of_le {mem : List α} {start count : Nat}
    (hrange : start + count ≤ mem.length) :
    readRange mem start count = .ok ((mem.drop start).take count) := by
  induction count generalizing start with
  | zero => simp [readRange]
  | succ count ih =>
      have hstart : start < mem.length := by omega
      rw [readRange, readAt_of_lt hstart, ih (by omega), List.drop_eq_getElem_cons hstart]
      rfl

/-- A range that is read lies in the block. -/
theorem readRange_eq_ok {mem cells : List α} {start count : Nat}
    (hread : readRange mem start count = .ok cells) (hcount : count ≠ 0) :
    start + count ≤ mem.length := by
  induction count generalizing start cells with
  | zero => exact absurd rfl hcount
  | succ count ih =>
      rw [readRange, bind_eq_ok] at hread
      obtain ⟨cell, hcell, hread⟩ := hread
      obtain ⟨rest, hrest, -⟩ := bind_eq_ok.mp hread
      obtain ⟨hstart, -⟩ := List.getElem?_eq_some_iff.mp (readAt_eq_ok.mp hcell)
      by_cases hlast : count = 0
      · omega
      · have hend := ih hrest hlast
        omega

theorem modifyAt_of_lt {mem : List α} {index : Nat} (f : α → α) (hindex : index < mem.length) :
    modifyAt mem index f = .ok (mem.modify index f) := if_pos hindex

/-- Writing the first cell behind a known part. -/
theorem modifyAt_append_length (front back : List α) (cell : α) (f : α → α) :
    modifyAt (front ++ cell :: back) front.length f = .ok (front ++ f cell :: back) := by
  rw [modifyAt_of_lt f (by simp)]
  induction front with
  | nil => rfl
  | cons a front ih =>
      rw [Except.ok.injEq] at ih ⊢
      rw [List.cons_append, List.length_cons, List.modify_succ_cons, ih, List.cons_append]

theorem getD_modify {mem : List α} {index : Nat} (f : α → α) (hindex : index < mem.length)
    (other : Nat) (default : α) :
    (mem.modify index f).getD other default =
      if index = other then f (mem.getD other default) else mem.getD other default := by
  rw [List.getD_eq_getElem?_getD, List.getD_eq_getElem?_getD, List.getElem?_modify]
  by_cases heq : index = other
  · subst heq
    simp [hindex]
  · simp [heq]

theorem writeFront_of_le {mem cells : List α} (hfits : cells.length ≤ mem.length) :
    writeFront mem cells = .ok (cells ++ mem.drop cells.length) := if_pos hfits

theorem writeFront_length {mem cells written : List α}
    (hwrite : writeFront mem cells = .ok written) : written.length = mem.length := by
  unfold writeFront at hwrite
  split at hwrite
  next hfits =>
    cases hwrite
    rw [List.length_append, List.length_drop]
    omega
  next => cases hwrite

/-- The cursor of a block whose part `done` is filled and whose part `room` is not. -/
def Cursor.over (done room : List α) : Cursor α := ⟨done ++ room, done.length⟩

theorem Cursor.put_over {done room cells : List α} (hfits : cells.length ≤ room.length) :
    (Cursor.over done room).put cells =
      .ok (Cursor.over (done ++ cells) (room.drop cells.length)) := by
  have hroom : done.length + cells.length ≤ done.length + room.length := by omega
  have hrest : (done ++ room).drop (done.length + cells.length) = room.drop cells.length := by
    rw [← List.drop_drop, List.drop_left]
  simp only [Cursor.put, Cursor.over, List.take_left, hrest, List.length_append, if_pos hroom]

end Access

/-! ## Loops -/

section Loops

variable {α β : Type}

/-- A loop whose states are known one pass after the other. -/
theorem foldlM_range_eq_ok {step : β → Nat → CRun β} (state : Nat → β) {count : Nat}
    (hstep : ∀ n < count, step (state n) n = .ok (state (n + 1))) :
    (List.range count).foldlM step (state 0) = .ok (state count) := by
  induction count with
  | zero => rfl
  | succ count ih =>
      have hfront := ih fun n hn => hstep n (Nat.lt_succ_of_lt hn)
      rw [List.range_succ, List.foldlM_append, hfront, ok_bind, List.foldlM_cons,
        hstep count (Nat.lt_succ_self count), ok_bind, List.foldlM_nil, pure_eq_ok]

theorem foldlM_congr {step step' : β → α → CRun β} {l : List α}
    (hstep : ∀ a ∈ l, ∀ b, step b a = step' b a) (b : β) : l.foldlM step b = l.foldlM step' b := by
  induction l generalizing b with
  | nil => rfl
  | cons a rest ih =>
      have hrest : ∀ b, rest.foldlM step b = rest.foldlM step' b :=
        ih fun a ha => hstep a (List.mem_cons_of_mem _ ha)
      rw [List.foldlM_cons, List.foldlM_cons, hstep a List.mem_cons_self b, funext hrest]

/-- A loop whose every pass ends in a value is the pure fold of those values. -/
theorem foldlM_eq_ok {step : β → α → CRun β} {next : β → α → β} {l : List α}
    (hstep : ∀ a ∈ l, ∀ b, step b a = .ok (next b a)) (b : β) :
    l.foldlM step b = .ok (l.foldl next b) := by
  induction l generalizing b with
  | nil => rfl
  | cons a rest ih =>
      rw [List.foldlM_cons, hstep a List.mem_cons_self b, ok_bind, List.foldl_cons]
      exact ih (fun a ha => hstep a (List.mem_cons_of_mem _ ha)) _

/-- A loop that keeps an invariant and ends every pass in a value under it. -/
theorem foldlM_invariant {step : β → α → CRun β} {l : List α} (Inv : List α → β → Prop)
    (hstep : ∀ done, ∀ a ∈ l, ∀ b, Inv done b → ∃ b', step b a = .ok b' ∧ Inv (done ++ [a]) b')
    {b : β} (hstart : Inv [] b) : ∃ b', l.foldlM step b = .ok b' ∧ Inv l b' := by
  suffices h : ∀ rest done b, l = done ++ rest → Inv done b →
      ∃ b', rest.foldlM step b = .ok b' ∧ Inv l b' from h l [] b rfl hstart
  intro rest
  induction rest with
  | nil =>
      intro done b hl hinv
      rw [List.append_nil] at hl
      exact ⟨b, rfl, hl ▸ hinv⟩
  | cons a rest ih =>
      intro done b hl hinv
      obtain ⟨b', hpass, hinv'⟩ := hstep done a (hl ▸ by simp) b hinv
      rw [List.foldlM_cons, hpass, ok_bind]
      exact ih (done ++ [a]) b' (by rw [hl, List.append_assoc]; rfl) hinv'

/-- A search loop whose tests end in values is the pure search. -/
theorem allM_eq_ok {test : α → CRun Bool} {p : α → Bool} {l : List α}
    (htest : ∀ a ∈ l, test a = .ok (p a)) : l.allM test = .ok (l.all p) := by
  induction l with
  | nil => rfl
  | cons a rest ih =>
      rw [List.allM_cons, htest a List.mem_cons_self, ok_bind, List.all_cons]
      cases p a with
      | false => rfl
      | true => exact ih fun a ha => htest a (List.mem_cons_of_mem _ ha)

/-- The values of `for (j = start; j < stop; j += stride)`. -/
def forIndices (start stop stride : Nat) : List Nat :=
  List.range' start ((stop - start + (stride - 1)) / stride) stride

theorem mem_forIndices {start stop stride j : Nat} (hstride : 0 < stride) :
    j ∈ forIndices start stop stride ↔ start ≤ j ∧ j < stop ∧ (j - start) % stride = 0 := by
  unfold forIndices
  rw [List.mem_range']
  constructor
  · rintro ⟨i, hi, rfl⟩
    have hlt : (i + 1) * stride ≤ stop - start + (stride - 1) :=
      (Nat.le_div_iff_mul_le hstride).mp hi
    have hmul : (i + 1) * stride = stride * i + stride := by
      rw [Nat.add_mul, Nat.mul_comm, Nat.one_mul]
    exact ⟨by omega, by omega, by rw [Nat.add_sub_cancel_left]; exact Nat.mul_mod_right _ _⟩
  · rintro ⟨hstart, hstop, hmod⟩
    have hdiv : stride * ((j - start) / stride) = j - start :=
      Nat.mul_div_cancel' (Nat.dvd_of_mod_eq_zero hmod)
    refine ⟨(j - start) / stride, ?_, by omega⟩
    apply (Nat.le_div_iff_mul_le hstride).mpr
    rw [Nat.succ_mul, Nat.mul_comm, hdiv]
    omega

theorem nodup_forIndices {start stop stride : Nat} (hstride : 0 < stride) :
    (forIndices start stop stride).Nodup :=
  List.nodup_range' _ hstride

end Loops

/-! ## Counters -/

theorem toNat_pos {n : UInt64} (hn : n ≠ 0) : 0 < n.toNat :=
  Nat.pos_of_ne_zero fun hzero => hn (UInt64.toNat_inj.mp hzero)

theorem toNat_add_one_sub_one (n : UInt64) : (n + 1 - 1).toNat = n.toNat := by
  rw [UInt64.add_sub_cancel]

theorem toNat_add_one {n : UInt64} (hn : n.toNat + 1 < 2 ^ 64) : (n + 1).toNat = n.toNat + 1 := by
  have hone : (1 : UInt64).toNat = 1 := rfl
  rw [UInt64.toNat_add, hone, Nat.mod_eq_of_lt hn]

theorem toNat_previous {n : UInt64} (hn : n ≠ 0) : (n - 1).toNat = n.toNat - 1 := by
  have hle : (1 : UInt64) ≤ n := UInt64.le_iff_toNat_le.mpr (toNat_pos hn)
  rw [UInt64.toNat_sub_of_le _ _ hle]
  rfl

theorem toNat_sub_one {n : UInt64} {k : Nat} (hn : n.toNat = k + 1) : (n - 1).toNat = k := by
  have hne : n ≠ 0 := by
    rintro rfl
    exact Nat.succ_ne_zero k hn.symm
  rw [toNat_previous hne, hn, Nat.add_sub_cancel]

end CMemory
