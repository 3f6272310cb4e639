import Hipft.Foundation.Memory
import Mathlib.Data.List.InsertIdx

/-! # Arrays of pointers

An array of pointers is a block of slots; a slot that was not written, or that
holds a null pointer, has nothing. Arrays grow by a new allocation into which
the old slots are copied, and shrink in the same way. `Holds` relates such an
array to the list of what its first slots point to.
-/

namespace CMemory

section Slots

variable {α : Type}

/-- `malloc` for `count` pointers, with `spare` slots more than it is asked for. A request
for 2^63 bytes or more gets nothing. -/
def allocSlots (count spare : Nat) : CRun (List (Option α)) :=
  if count < 2 ^ 60 then .ok (List.replicate (count + spare) none) else .error .outOfBounds

/-- What the pointer in the slot points to. -/
def slotAt (slots : List (Option α)) (index : Nat) : CRun α := do
  match ← readAt slots index with
  | some a => pure a
  | none => .error .outOfBounds

def copySlot (slots temp : List (Option α)) (src dst : Nat) : CRun (List (Option α)) := do
  let pointer ← readAt slots src
  modifyAt temp dst fun _ => pointer

/-- The array with one more pointer behind the first `count`. -/
def growSlots (spare : Nat) (slots : List (Option α)) (count : Nat) (new : α) :
    CRun (List (Option α)) :=
  if count = 0 then do
    let fresh ← allocSlots 1 0
    modifyAt fresh 0 fun _ => some new
  else do
    let temp ← allocSlots count spare
    let temp ← (List.range count).foldlM (fun temp i => copySlot slots temp i i) temp
    modifyAt temp count fun _ => some new

/-- The array without the pointer at `index`, when `count` are left. -/
def shrinkSlots (slots : List (Option α)) (count index : Nat) : CRun (List (Option α)) :=
  if count = 0 then pure []
  else do
    let temp ← allocSlots count 0
    (List.range (count + 1)).foldlM (fun temp i =>
      if i < index then copySlot slots temp i i
      else if i > index then copySlot slots temp i (i - 1)
      else pure temp) temp

/-- A new array of `count + 1` slots: the `count` old pointers, with one more at `index`. -/
def insertSlot (slots : List (Option α)) (count index : Nat) (new : α) : CRun (List (Option α)) :=
  (List.range (count + 1)).foldlM (fun temp j =>
    if j < index then copySlot slots temp j j
    else if index < j then copySlot slots temp (j - 1) j
    else modifyAt temp j fun _ => some new) (List.replicate (count + 1) none)

/-- A new array of `count - 1` slots: the `count` old pointers but for that at `index`. -/
def removeSlot (slots : List (Option α)) (count index : Nat) : CRun (List (Option α)) :=
  (List.range count).foldlM (fun temp j =>
    if j < index then copySlot slots temp j j
    else if j > index then copySlot slots temp j (j - 1)
    else pure temp) (List.replicate (count - 1) none)

/-- The first slot of a list of indices whose pointer meets the test. -/
def findSlot (test : α → Bool) (slots : List (Option α)) : List Nat → CRun (Option Nat)
  | [] => pure none
  | index :: rest => do
      let a ← slotAt slots index
      if test a then pure (some index) else findSlot test slots rest

/-- The first slots point to these items. -/
def Holds (slots : List (Option α)) (items : List α) : Prop :=
  ∃ junk, slots = items.map some ++ junk

theorem allocSlots_of_lt {count : Nat} (hcount : count < 2 ^ 60) (spare : Nat) :
    allocSlots (α := α) count spare = .ok (List.replicate (count + spare) none) := if_pos hcount

/-! ## Copying -/

/-- Copying the next slot behind what was copied. -/
theorem copySlot_next {slots front back : List (Option α)} {src dst : Nat} {pointer : Option α}
    (hsrc : slots[src]? = some pointer) (hdst : dst = front.length) (cell : Option α) :
    copySlot slots (front ++ cell :: back) src dst = .ok (front ++ pointer :: back) := by
  rw [copySlot, readAt_eq_ok.mpr hsrc, ok_bind, hdst, modifyAt_append_length]

theorem foldlM_copySlot {slots temp : List (Option α)} {count : Nat}
    (hslots : count ≤ slots.length) (htemp : count ≤ temp.length) :
    (List.range count).foldlM (fun temp i => copySlot slots temp i i) temp =
      .ok (slots.take count ++ temp.drop count) := by
  apply foldlM_range_eq_ok fun n => slots.take n ++ temp.drop n
  intro n hn
  have hsource : n < slots.length := Nat.lt_of_lt_of_le hn hslots
  have hdone : n = (slots.take n).length := (List.length_take_of_le (Nat.le_of_lt hsource)).symm
  rw [List.drop_eq_getElem_cons (Nat.lt_of_lt_of_le hn htemp),
    copySlot_next (List.getElem?_eq_getElem hsource) hdone,
    List.take_succ_eq_append_getElem hsource, List.append_assoc, List.singleton_append]

/-- What one more slot adds to the copies that leave out the slot at `index`. -/
theorem eraseIdx_take_succ {slots : List (Option α)} {index n : Nat} (hn : n < slots.length) :
    (slots.take (n + 1)).eraseIdx index =
      (slots.take n).eraseIdx index ++ if n = index then [] else [slots[n]] := by
  have hlength : (slots.take n).length = n := List.length_take_of_le (Nat.le_of_lt hn)
  rw [List.take_succ_eq_append_getElem hn]
  rcases Nat.lt_trichotomy n index with hbelow | rfl | habove
  · rw [if_neg (Nat.ne_of_lt hbelow), List.eraseIdx_of_length_le (by simp; omega),
      List.eraseIdx_of_length_le (by omega)]
  · rw [if_pos rfl, List.eraseIdx_append_of_length_le (Nat.le_of_eq hlength), hlength,
      Nat.sub_self, List.eraseIdx_of_length_le (Nat.le_of_eq hlength)]
    rfl
  · rw [if_neg (Nat.ne_of_gt habove)]
    exact List.eraseIdx_append_of_lt_length (hlength.symm ▸ habove) _

/-- The copies of the shrinking loop leave out the slot at `index`. -/
theorem foldlM_copySlot_skip {slots temp : List (Option α)} {index count : Nat}
    (hslots : count ≤ slots.length)
    (htemp : (slots.take count |>.eraseIdx index).length ≤ temp.length) :
    (List.range count).foldlM (fun temp i =>
      if i < index then copySlot slots temp i i
      else if i > index then copySlot slots temp i (i - 1)
      else pure temp) temp =
      .ok ((slots.take count).eraseIdx index ++
        temp.drop ((slots.take count).eraseIdx index).length) := by
  apply foldlM_range_eq_ok fun n =>
    (slots.take n).eraseIdx index ++ temp.drop ((slots.take n).eraseIdx index).length
  intro n hn
  have hsource : n < slots.length := Nat.lt_of_lt_of_le hn hslots
  have hlength : (slots.take n).length = n := List.length_take_of_le (Nat.le_of_lt hsource)
  have hsrc := List.getElem?_eq_getElem hsource
  rw [eraseIdx_take_succ hsource]
  by_cases hskip : n = index
  · -- The slot that is left out.
    subst hskip
    rw [if_neg (Nat.lt_irrefl n), if_neg (Nat.lt_irrefl n), if_pos rfl, List.append_nil]
    rfl
  · have hroom : ((slots.take n).eraseIdx index).length < temp.length := by
      rw [List.length_eraseIdx, List.length_take_of_le hslots] at htemp
      rw [List.length_eraseIdx, hlength]
      split at htemp <;> split <;> omega
    rw [if_neg hskip, List.length_append, List.length_singleton, List.append_assoc,
      List.singleton_append, List.drop_eq_getElem_cons hroom]
    rcases Nat.lt_or_gt_of_ne hskip with hbelow | habove
    · have hdst : n = ((slots.take n).eraseIdx index).length := by
        rw [List.eraseIdx_of_length_le (by omega), hlength]
      rw [if_pos hbelow, copySlot_next hsrc hdst]
    · have hdst : n - 1 = ((slots.take n).eraseIdx index).length := by
        rw [List.length_eraseIdx_of_lt (hlength.symm ▸ habove), hlength]
      rw [if_neg (Nat.lt_asymm habove), if_pos habove, copySlot_next hsrc hdst]

/-- The inserting loop writes the slots of the longer array one after the other. -/
theorem foldlM_insertSlot {slots temp : List (Option α)} {count index : Nat} {new : α}
    (hslots : count ≤ slots.length) (hindex : index ≤ count) (htemp : temp.length = count + 1) :
    (List.range (count + 1)).foldlM (fun temp j =>
      if j < index then copySlot slots temp j j
      else if index < j then copySlot slots temp (j - 1) j
      else modifyAt temp j fun _ => some new) temp =
      .ok ((slots.take count).insertIdx index (some new)) := by
  have hlength : (slots.take count).length = count := List.length_take_of_le hslots
  have htarget : ((slots.take count).insertIdx index (some new)).length = count + 1 := by
    rw [List.length_insertIdx_of_le_length (hlength.symm ▸ hindex), hlength]
  have hend : ((slots.take count).insertIdx index (some new)).take (count + 1) ++
      temp.drop (count + 1) = (slots.take count).insertIdx index (some new) := by
    rw [List.take_of_length_le (Nat.le_of_eq htarget), List.drop_of_length_le (Nat.le_of_eq htemp),
      List.append_nil]
  rw [← hend]
  apply foldlM_range_eq_ok fun n =>
    ((slots.take count).insertIdx index (some new)).take n ++ temp.drop n
  intro n hn
  have hhere : n < ((slots.take count).insertIdx index (some new)).length := htarget ▸ hn
  have hdone : n = (((slots.take count).insertIdx index (some new)).take n).length :=
    (List.length_take_of_le (Nat.le_of_lt hhere)).symm
  rw [List.drop_eq_getElem_cons (htemp ▸ hn), List.take_succ_eq_append_getElem hhere,
    List.append_assoc, List.singleton_append]
  rcases Nat.lt_trichotomy n index with hbelow | rfl | habove
  · have hsrc : slots[n]? = some ((slots.take count).insertIdx index (some new))[n] := by
      rw [List.getElem_insertIdx_of_lt hbelow, List.getElem_take, List.getElem?_eq_getElem]
    rw [if_pos hbelow, copySlot_next hsrc hdone]
  · have hwrite := modifyAt_append_length
      (((slots.take count).insertIdx n (some new)).take n) (temp.drop (n + 1)) temp[n]
      fun _ => some new
    rw [← hdone] at hwrite
    rw [if_neg (Nat.lt_irrefl n), if_neg (Nat.lt_irrefl n), hwrite, List.getElem_insertIdx_self]
  · have hsrc : slots[n - 1]? = some ((slots.take count).insertIdx index (some new))[n] := by
      rw [List.getElem_insertIdx_of_gt habove, List.getElem_take, List.getElem?_eq_getElem]
    rw [if_neg (Nat.lt_asymm habove), if_pos habove, copySlot_next hsrc hdone]

/-! ## Arrays that hold a list -/

section Holds

variable {slots : List (Option α)} {items : List α}

theorem Holds.length_le (hholds : Holds slots items) : items.length ≤ slots.length := by
  obtain ⟨junk, rfl⟩ := hholds
  simp

theorem Holds.take_eq (hholds : Holds slots items) :
    slots.take items.length = items.map some := by
  obtain ⟨junk, rfl⟩ := hholds
  exact List.take_left' (List.length_map _)

theorem holds_map (items : List α) : Holds (items.map some) items :=
  ⟨[], (List.append_nil _).symm⟩

/-- What the first slots point to. -/
theorem Holds.filterMap_take (hholds : Holds slots items) :
    (slots.take items.length).filterMap id = items := by
  rw [hholds.take_eq, List.filterMap_map]
  exact List.filterMap_some

theorem Holds.getElem? (hholds : Holds slots items) {index : Nat} (hindex : index < items.length) :
    slots[index]? = some (some items[index]) := by
  obtain ⟨junk, rfl⟩ := hholds
  rw [List.getElem?_append_left (by simpa using hindex), List.getElem?_map,
    List.getElem?_eq_getElem hindex]
  rfl

theorem Holds.slotAt (hholds : Holds slots items) {index : Nat} (hindex : index < items.length) :
    slotAt slots index = .ok items[index] := by
  rw [CMemory.slotAt, readAt_eq_ok.mpr (hholds.getElem? hindex)]
  rfl

theorem map_some_modify (items : List α) (index : Nat) (f : α → α) :
    (items.map some).modify index (Option.map f) = (items.modify index f).map some := by
  induction items generalizing index with
  | nil => simp
  | cons a items ih =>
      cases index with
      | zero => rfl
      | succ index => exact congrArg (some a :: ·) (ih index)

/-- Writing to what a slot points to. -/
theorem Holds.modifyAt (hholds : Holds slots items) {index : Nat} (hindex : index < items.length)
    (f : α → α) :
    ∃ slots', modifyAt slots index (Option.map f) = .ok slots' ∧
      Holds slots' (items.modify index f) := by
  obtain ⟨junk, rfl⟩ := hholds
  have hfront : index < (items.map some).length := by rwa [List.length_map]
  refine ⟨_, modifyAt_of_lt _ (List.length_append ▸ Nat.lt_add_right _ hfront), junk, ?_⟩
  have hle := Nat.le_of_lt hfront
  rw [List.modify_eq_take_drop, List.take_append_of_le_length hle,
    List.drop_append_of_le_length hle, List.drop_eq_getElem_cons hfront, List.cons_append,
    List.modifyHead_cons, ← map_some_modify, List.modify_eq_take_drop,
    List.drop_eq_getElem_cons hfront, List.modifyHead_cons, List.append_assoc, List.cons_append]

theorem Holds.set (hholds : Holds slots items) {index : Nat} (hindex : index < items.length)
    (a : α) :
    ∃ slots', CMemory.modifyAt slots index (Option.map fun _ => a) = .ok slots' ∧
      Holds slots' (items.set index a) := by
  rw [List.set_eq_modify]
  exact hholds.modifyAt hindex fun _ => a

theorem findSlot_eq {indices : List Nat} {test : α → Bool}
    (hslots : ∀ i ∈ indices, ∃ a, CMemory.slotAt slots i = .ok a ∧ items[i]? = some a) :
    CMemory.findSlot test slots indices =
      .ok (indices.find? fun i => (items[i]?.map test).getD false) := by
  induction indices with
  | nil => rfl
  | cons i rest ih =>
      obtain ⟨⟨a, hslot, hitem⟩, hrest⟩ := List.forall_mem_cons.mp hslots
      rw [CMemory.findSlot, hslot, ok_bind, List.find?_cons, hitem, Option.map_some,
        Option.getD_some]
      cases test a with
      | true => rfl
      | false => exact ih hrest

/-- Looking through the array is looking through the list. -/
theorem Holds.findSlot (hholds : Holds slots items) (test : α → Bool) :
    ∃ found, CMemory.findSlot test slots (List.range items.length) = .ok found ∧
      (∀ i, found = some i → ∃ a, items[i]? = some a ∧ test a = true) ∧
      (found = none → ∀ a ∈ items, test a = false) := by
  have hslots : ∀ i ∈ List.range items.length,
      ∃ a, CMemory.slotAt slots i = .ok a ∧ items[i]? = some a := by
    intro i hi
    have hindex := List.mem_range.mp hi
    exact ⟨_, hholds.slotAt hindex, List.getElem?_eq_getElem hindex⟩
  refine ⟨_, findSlot_eq hslots, fun i hfound => ?_, fun hfound a ha => ?_⟩
  · have hindex := List.mem_range.mp (List.mem_of_find?_eq_some hfound)
    have htest := List.find?_some hfound
    rw [List.getElem?_eq_getElem hindex] at htest ⊢
    exact ⟨_, rfl, htest⟩
  · obtain ⟨i, hindex, rfl⟩ := List.getElem_of_mem ha
    have htest := List.find?_eq_none.mp hfound i (List.mem_range.mpr hindex)
    rw [List.getElem?_eq_getElem hindex] at htest
    exact Bool.eq_false_iff.mpr htest

/-- What growing does after the copies. -/
theorem Holds.growSlots_eq (hholds : Holds slots items) (hitems : items ≠ [])
    (hsmall : items.length < 2 ^ 60) (spare : Nat) (new : α) :
    CMemory.growSlots spare slots items.length new =
      CMemory.modifyAt (items.map some ++ List.replicate spare none) items.length
        fun _ => some new := by
  have hpos : items.length ≠ 0 := fun hzero => hitems (List.eq_nil_of_length_eq_zero hzero)
  have hroom : items.length ≤ (List.replicate (items.length + spare) (none : Option α)).length :=
    List.length_replicate ▸ Nat.le_add_right _ _
  rw [CMemory.growSlots, if_neg hpos, allocSlots_of_lt hsmall, ok_bind,
    foldlM_copySlot hholds.length_le hroom, ok_bind, hholds.take_eq, List.drop_replicate,
    Nat.add_sub_cancel_left]

/-- Growing needs a slot that was not asked for, unless the array has none. -/
theorem Holds.growSlots_isOk (hholds : Holds slots items) (spare : Nat) (new : α) :
    (∃ slots', CMemory.growSlots spare slots items.length new = .ok slots') ↔
      items = [] ∨ 0 < spare ∧ items.length < 2 ^ 60 := by
  by_cases hitems : items = []
  · subst hitems
    exact iff_of_true ⟨_, rfl⟩ (.inl rfl)
  by_cases hsmall : items.length < 2 ^ 60
  · rw [hholds.growSlots_eq hitems hsmall]
    cases spare with
    | zero =>
        refine iff_of_false ?_ fun hroom =>
          hroom.elim hitems fun hspare => Nat.lt_irrefl 0 hspare.1
        rintro ⟨slots', hmodify⟩
        rw [CMemory.modifyAt, if_neg (by simp)] at hmodify
        cases hmodify
    | succ spare =>
        exact iff_of_true ⟨_, modifyAt_of_lt _ (by simp)⟩ (.inr ⟨spare.succ_pos, hsmall⟩)
  · have hpos : items.length ≠ 0 := fun hzero => hitems (List.eq_nil_of_length_eq_zero hzero)
    refine iff_of_false ?_ fun hroom => hroom.elim hitems fun hspare => hsmall hspare.2
    rintro ⟨slots', hgrow⟩
    rw [CMemory.growSlots, if_neg hpos, allocSlots, if_neg hsmall] at hgrow
    cases hgrow

theorem Holds.growSlots (hholds : Holds slots items) {spare : Nat} {new : α}
    {slots' : List (Option α)}
    (hgrow : CMemory.growSlots spare slots items.length new = .ok slots') :
    Holds slots' (items ++ [new]) ∧ items.length < 2 ^ 60 := by
  rcases (hholds.growSlots_isOk spare new).mp ⟨slots', hgrow⟩ with rfl | ⟨hspare, hsmall⟩
  · cases hgrow
    exact ⟨holds_map [new], Nat.two_pow_pos 60⟩
  by_cases hitems : items = []
  · subst hitems
    cases hgrow
    exact ⟨holds_map [new], hsmall⟩
  obtain ⟨spare, rfl⟩ := Nat.exists_eq_succ_of_ne_zero (Nat.ne_of_gt hspare)
  have hwrite := modifyAt_append_length (items.map some) (List.replicate spare none) none
    fun _ => some new
  rw [List.length_map] at hwrite
  rw [hholds.growSlots_eq hitems hsmall, List.replicate_succ, hwrite, Except.ok.injEq] at hgrow
  refine ⟨⟨List.replicate spare none, ?_⟩, hsmall⟩
  rw [← hgrow, List.map_append, List.append_assoc]
  rfl

theorem Holds.shrinkSlots (hholds : Holds slots items) {index : Nat} (hindex : index < items.length)
    {count : Nat} (hcount : items.length = count + 1) (hsmall : count < 2 ^ 60) :
    ∃ slots', CMemory.shrinkSlots slots count index = .ok slots' ∧
      Holds slots' (items.eraseIdx index) := by
  have hlength := List.length_eraseIdx_of_lt hindex
  rw [hcount, Nat.add_sub_cancel] at hlength
  rw [CMemory.shrinkSlots]
  split
  next hzero =>
    rw [List.eq_nil_of_length_eq_zero (hlength.trans hzero)]
    exact ⟨[], rfl, holds_map []⟩
  next =>
    have hcopied : (slots.take (count + 1)).eraseIdx index = (items.eraseIdx index).map some := by
      rw [← hcount, hholds.take_eq, List.eraseIdx_map]
    have hroom : ((slots.take (count + 1)).eraseIdx index).length ≤
        (List.replicate (count + 0) (none : Option α)).length := by
      rw [hcopied, List.length_map, hlength, List.length_replicate]
      exact Nat.le_refl _
    rw [allocSlots_of_lt hsmall, ok_bind,
      foldlM_copySlot_skip (hcount ▸ hholds.length_le) hroom, hcopied]
    exact ⟨_, rfl, _, rfl⟩

theorem Holds.insertSlot (hholds : Holds slots items) {index : Nat}
    (hindex : index ≤ items.length) (new : α) :
    CMemory.insertSlot slots items.length index new =
      .ok ((items.insertIdx index new).map some) := by
  have htemp : (List.replicate (items.length + 1) (none : Option α)).length = items.length + 1 :=
    List.length_replicate
  rw [CMemory.insertSlot, foldlM_insertSlot hholds.length_le hindex htemp, hholds.take_eq,
    List.map_insertIdx]

theorem Holds.removeSlot (hholds : Holds slots items) {index : Nat}
    (hindex : index < items.length) :
    CMemory.removeSlot slots items.length index = .ok ((items.eraseIdx index).map some) := by
  have hcopied : (slots.take items.length).eraseIdx index = (items.eraseIdx index).map some := by
    rw [hholds.take_eq, List.eraseIdx_map]
  have hlength : ((items.eraseIdx index).map some).length = items.length - 1 := by
    rw [List.length_map, List.length_eraseIdx_of_lt hindex]
  have hroom : ((slots.take items.length).eraseIdx index).length ≤
      (List.replicate (items.length - 1) (none : Option α)).length := by
    apply Nat.le_of_eq
    rw [hcopied, hlength, List.length_replicate]
  rw [CMemory.removeSlot, foldlM_copySlot_skip hholds.length_le hroom, hcopied, hlength,
    List.drop_replicate, Nat.sub_self, List.replicate_zero, List.append_nil]

end Holds

end Slots

end CMemory
