import Hipft.Foundation.Transitions
import Hipft.Section.SetLaws

/-! # A section over whole runs

Whatever is added and deleted, in any order, the arrays have the maximal runs of the set of
numbers, until adding 0 wraps around.
-/

namespace Hipft

open CMemory Intervals Transitions

/-- What is done to a section. -/
inductive SectionCall
  | add (num : UInt64)
  | delete (num : UInt64)

def SectionArray.call : SectionCall → SectionArray → CRun SectionArray
  | .add num, arr => arr.addToSection num
  | .delete num, arr => arr.deleteFromSection num

namespace SectionCall

/-- What is done to the set. -/
def act : SectionCall → Set UInt64 → Set UInt64
  | .add num, values => insert num values
  | .delete num, values => values \ {num}

/-- The set after the calls. -/
def values (calls : List SectionCall) : Set UInt64 :=
  calls.foldl (fun values call => call.act values) ∅

theorem values_concat (calls : List SectionCall) (call : SectionCall) :
    values (calls ++ [call]) = call.act (values calls) := by
  rw [values, List.foldl_append]
  rfl

/-- 0 is added where the largest number is, 0 is not, and 1 only if all the others are. -/
structure Overflows (call : SectionCall) (values : Set UInt64) : Prop where
  zero : call = .add 0
  max : uint64Max ∈ values
  absent : 0 ∉ values
  whole : 1 ∈ values → ∀ v, v ≠ 0 → v ∈ values

end SectionCall

namespace SectionArray

/-- The pieces are those of the set. -/
def Represents (arr : SectionArray) (values : Set UInt64) : Prop :=
  ∃ sec, arr.Has sec ∧ Canonical sec ∧ ∀ v, Covers sec v ↔ v ∈ values

/-- What the functions that ask give for the set: its runs in their order, its least number,
and the end of the run that this begins. -/
structure Answers (arr : SectionArray) (values : Set UInt64) : Prop where
  total : ∀ index, ∃ piece, arr.getPieceInSection index = .ok piece
  runs : ∀ p, (∃ index, arr.getPieceInSection index = .ok (some p)) ↔ IsRun (· ∈ values) p
  sorted : ∀ i j p q, i < j → arr.getPieceInSection i = .ok (some p) →
    arr.getPieceInSection j = .ok (some q) → p.highBound < q.lowBound
  low : ∃ low, arr.firstLowInSection = .ok low ∧ (values = ∅ → low = 0) ∧
    (values ≠ ∅ → IsLeast values low)
  high : ∃ high, arr.lastContinualHighInSection = .ok high ∧ (values = ∅ → high = 0) ∧
    ∀ low, IsLeast values low →
      IsGreatest {k | low ≤ k ∧ ∀ num, low ≤ num → num ≤ k → num ∈ values} high

/-! ## Asking -/

section Asking

variable {arr : SectionArray} {sec : Section} {values : Set UInt64}

theorem Has.getPiece (hhas : arr.Has sec) (index : UInt64) :
    arr.getPieceInSection index = .ok sec[index.toNat]? := by
  rw [getPieceInSection]
  split
  next hle =>
    have hpast := UInt64.le_iff_toNat_le.mp hle
    rw [hhas.numPieces] at hpast
    rw [List.getElem?_eq_none hpast]
    rfl
  next hlt =>
    have hindex := UInt64.lt_iff_toNat_lt.mp (not_le.mp hlt)
    rw [hhas.numPieces] at hindex
    rw [hhas.holds.slotAt hindex, List.getElem?_eq_getElem hindex]
    rfl

theorem Has.mem_iff (hhas : arr.Has sec) (p : Piece) :
    (∃ index, arr.getPieceInSection index = .ok (some p)) ↔ p ∈ sec := by
  constructor
  · rintro ⟨index, hpiece⟩
    rw [hhas.getPiece, Except.ok.injEq] at hpiece
    exact List.mem_of_getElem? hpiece
  · intro hp
    obtain ⟨i, hi, rfl⟩ := List.mem_iff_getElem.mp hp
    have hsmall : i < 2 ^ 64 := hi.trans (hhas.numPieces ▸ arr.numPieces.toNat_lt)
    refine ⟨UInt64.ofNat i, ?_⟩
    rw [hhas.getPiece, UInt64.toNat_ofNat', Nat.mod_eq_of_lt hsmall, List.getElem?_eq_getElem hi]

theorem Has.nothing_found (hhas : arr.Has []) :
    arr.firstLowInSection = .ok 0 ∧ arr.lastContinualHighInSection = .ok 0 := by
  have hzero : arr.numPieces = 0 := UInt64.toNat_inj.mp hhas.numPieces
  rw [firstLowInSection, lastContinualHighInSection, if_pos hzero, if_pos hzero]
  exact ⟨rfl, rfl⟩

/-- An array that has the pieces of a set answers for it. -/
theorem Represents.answers (hrepresents : arr.Represents values) : arr.Answers values := by
  obtain ⟨sec, hhas, hcanonical, hvalues⟩ := hrepresents
  have hcovers : Covers sec = (· ∈ values) := by
    funext v
    exact propext (hvalues v)
  have hruns : ∀ p, (∃ index, arr.getPieceInSection index = .ok (some p)) ↔
      IsRun (· ∈ values) p := by
    intro p
    rw [hhas.mem_iff, hcanonical.mem_iff_isRun, hcovers]
  have hsorted : ∀ i j p q, i < j → arr.getPieceInSection i = .ok (some p) →
      arr.getPieceInSection j = .ok (some q) → p.highBound < q.lowBound := by
    intro i j p q hij hp hq
    rw [hhas.getPiece, Except.ok.injEq] at hp hq
    obtain ⟨hi, rfl⟩ := List.getElem?_eq_some_iff.mp hp
    obtain ⟨hj, rfl⟩ := List.getElem?_eq_some_iff.mp hq
    have hij := UInt64.lt_iff_toNat_lt.mp hij
    exact (List.pairwise_iff_getElem.mp hcanonical.apart _ _ hi hj hij).lt
  have hlow : ∀ v, v ∈ values → values ≠ ∅ := fun v hv hempty =>
    Set.notMem_empty v (hempty ▸ hv)
  cases sec with
  | nil =>
      have hempty : values = ∅ := by
        ext v
        rw [← hvalues, covers_nil, Set.mem_empty_iff_false]
      obtain ⟨hfirst, hlast⟩ := hhas.nothing_found
      refine ⟨fun index => ⟨_, hhas.getPiece index⟩, hruns, hsorted, ⟨0, hfirst, fun _ => rfl, ?_⟩,
        ⟨0, hlast, fun _ => rfl, ?_⟩⟩
      · exact fun hne => absurd hempty hne
      · exact fun low hleast => absurd hempty (hlow low hleast.1)
  | cons p rest =>
      obtain ⟨hfirst, hlast, -⟩ := hhas.first
      have hproper := hcanonical.proper p List.mem_cons_self
      have hmem : p.lowBound ∈ values :=
        (hvalues _).mp ⟨p, List.mem_cons_self, le_rfl, hproper⟩
      have hleast : IsLeast values p.lowBound :=
        ⟨hmem, fun v hv => hcanonical.low_le ((hvalues v).mpr hv)⟩
      refine ⟨fun index => ⟨_, hhas.getPiece index⟩, hruns, hsorted,
        ⟨p.lowBound, hfirst, ?_, fun _ => hleast⟩, ⟨p.highBound, hlast, ?_, ?_⟩⟩
      · exact fun hempty => absurd hempty (hlow _ hmem)
      · exact fun hempty => absurd hempty (hlow _ hmem)
      · intro low hlow
        obtain rfl : low = p.lowBound := hlow.unique hleast
        refine ⟨⟨hproper, fun v hv hle => ?_⟩, fun k hk => ?_⟩
        · exact (hvalues v).mp ⟨p, List.mem_cons_self, hv, hle⟩
        · exact hcanonical.le_high fun v hv hle => (hvalues v).mpr (hk.2 v hv hle)

end Asking

/-! ## Calling -/

section Calling

variable {arr : SectionArray} {sec sec' : Section} {values : Set UInt64}

theorem Has.unique (hhas : arr.Has sec) (hhas' : arr.Has sec') : sec = sec' :=
  List.map_injective_iff.mpr (Option.some_injective _) (hhas.pieces.symm.trans hhas'.pieces)

theorem create_represents : create.Represents ∅ := by
  refine ⟨createSection, create_has, canonical_nil, fun v => ?_⟩
  rw [createSection, covers_nil, Set.mem_empty_iff_false]

theorem wraps_iff (hvalues : ∀ v, Covers sec v ↔ v ∈ values) (num : UInt64) :
    Wraps sec num ↔ (SectionCall.add num).Overflows values := by
  constructor
  · rintro ⟨rfl, hmax, habsent, hwhole⟩
    simp only [hvalues] at hmax habsent hwhole
    exact ⟨rfl, hmax, habsent, hwhole⟩
  · rintro ⟨hzero, hmax, habsent, hwhole⟩
    simp only [← hvalues] at hmax habsent hwhole
    exact ⟨SectionCall.add.inj hzero, hmax, habsent, hwhole⟩

/-- A call leaves the pieces of the set that it leaves, unless it is the one that overflows. -/
theorem Represents.call (hrepresents : arr.Represents values) (c : SectionCall) :
    ∃ arr', arr.call c = .ok arr' ∧
      (arr'.Represents (c.act values) ↔ ¬ c.Overflows values) := by
  obtain ⟨sec, hhas, hcanonical, hvalues⟩ := hrepresents
  have hroom := canonical_room hcanonical
  cases c with
  | add num =>
      obtain ⟨arr', hadd, hhas'⟩ := hhas.addToSection hroom num
      refine ⟨arr', hadd, ?_⟩
      rw [← wraps_iff hvalues]
      constructor
      · rintro ⟨sec', hother, hcanonical', -⟩ hwraps
        rw [hother.unique hhas'] at hcanonical'
        exact not_canonical_of_wraps hcanonical hwraps hcanonical'
      · intro hwraps
        obtain ⟨hcanonical', hvalues'⟩ := addToSection_spec hcanonical hwraps
        refine ⟨_, hhas', hcanonical', fun v => ?_⟩
        rw [hvalues', hvalues]
        exact Set.mem_insert_iff.symm
  | delete num =>
      obtain ⟨arr', hdelete, hhas', -⟩ := hhas.deleteFromSection hroom num
      obtain ⟨hcanonical', hvalues'⟩ := deleteFromSection_spec hcanonical num
      refine ⟨arr', hdelete, iff_of_true ⟨_, hhas', hcanonical', fun v => ?_⟩ ?_⟩
      · rw [hvalues', hvalues, and_comm]
        exact Set.mem_sdiff_singleton.symm
      · exact fun hoverflows => nomatch hoverflows.zero

end Calling

end SectionArray

/-- In every run of calls the arrays are those of the set, and the functions that ask answer
for it, exactly as long as no call overflows. -/
theorem run_section_iff (calls : List SectionCall) :
    (∀ front back, calls = front ++ back → ∃ arr, run SectionArray.call front .create = .ok arr ∧
      arr.Represents (SectionCall.values front) ∧ arr.Answers (SectionCall.values front)) ↔
      ∀ front c back, calls = front ++ c :: back →
        ¬ c.Overflows (SectionCall.values front) := by
  constructor
  · rintro hall front c back rfl
    obtain ⟨arr, hfront, hrepresents, -⟩ := hall front (c :: back) rfl
    obtain ⟨arr', hcall, hexact⟩ := hrepresents.call c
    obtain ⟨last, hrun, hlast, -⟩ := hall (front ++ [c]) back (by simp)
    rw [run_append hfront, run_cons_of_ok hcall, run_nil, Except.ok.injEq] at hrun
    rw [SectionCall.values_concat, ← hrun] at hlast
    exact hexact.mp hlast
  · rintro hnone front back rfl
    suffices hrun : ∃ arr, run SectionArray.call front .create = .ok arr ∧
        arr.Represents (SectionCall.values front) by
      obtain ⟨arr, hrun, hrepresents⟩ := hrun
      exact ⟨arr, hrun, hrepresents, hrepresents.answers⟩
    induction front using List.reverseRecOn generalizing back with
    | nil => exact ⟨.create, rfl, SectionArray.create_represents⟩
    | append_singleton front c ih =>
        obtain ⟨arr, hrun, hrepresents⟩ := ih (c :: back) (by simpa using hnone)
        obtain ⟨arr', hcall, hexact⟩ := hrepresents.call c
        refine ⟨arr', ?_, ?_⟩
        · rw [run_append hrun, run_cons_of_ok hcall, run_nil]
        · rw [SectionCall.values_concat]
          exact hexact.mpr (hnone front c back (by simp))

example : run SectionArray.call [.add 5, .add 7, .add 6, .add 2, .delete 6] .create =
    .ok ⟨3, [some ⟨2, 2⟩, some ⟨5, 5⟩, some ⟨7, 7⟩], false⟩ := by decide

end Hipft
