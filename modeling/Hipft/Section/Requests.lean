import Hipft.Section.Canonical

/-! # Sections of requested numbers

The numbers of a list are added one after the other to an empty section. Where 0
comes after the largest number and its piece, the section stays damaged for as long
as one number is missing: seen from the missing number, pieces only grow, and the
piece that ends where it should begin is one of them.
-/

namespace Hipft

open Intervals

/-- The section that has the numbers, in the order in which they came. -/
def addAll (rs : List UInt64) : Section := rs.foldl addToSection createSection

/-- When 0 comes for the first time, either the largest number has not come, or 1 has and
some other number has not. -/
def NoWrap (rs : List UInt64) : Prop :=
  ∀ front back, rs = front ++ 0 :: back → 0 ∉ front → uint64Max ∈ front →
    1 ∈ front ∧ ∃ v, v ≠ 0 ∧ v ∉ front

theorem addAll_concat (rs : List UInt64) (num : UInt64) :
    addAll (rs ++ [num]) = addToSection (addAll rs) num := List.foldl_concat ..

/-! ## Without the exception -/

theorem NoWrap.of_append {front back : List UInt64} (hnowrap : NoWrap (front ++ back)) :
    NoWrap front := by
  intro first rest hfront hzero hmax
  exact hnowrap first (rest ++ back) (by rw [hfront, List.append_assoc, List.cons_append]) hzero
    hmax

theorem NoWrap.not_wraps {rs : List UInt64} {num : UInt64} (hnowrap : NoWrap (rs ++ [num]))
    (hvalues : ∀ v, Covers (addAll rs) v ↔ v ∈ rs) : ¬ Wraps (addAll rs) num := by
  rintro ⟨rfl, hmax, habsent, hwhole⟩
  rw [hvalues] at hmax habsent hwhole
  obtain ⟨hone, v, hv, hmissing⟩ := hnowrap rs [] rfl habsent hmax
  exact hmissing ((hvalues v).mp (hwhole hone v hv))

theorem addAll_spec {rs : List UInt64} (hnowrap : NoWrap rs) :
    Canonical (addAll rs) ∧ ∀ v, Covers (addAll rs) v ↔ v ∈ rs := by
  induction rs using List.reverseRecOn with
  | nil => exact ⟨canonical_nil, fun v => by simp [addAll, createSection]⟩
  | append_singleton rs num ih =>
      obtain ⟨hcanonical, hvalues⟩ := ih hnowrap.of_append
      obtain ⟨hcanonical', hvalues'⟩ :=
        addToSection_spec hcanonical (hnowrap.not_wraps hvalues)
      rw [addAll_concat]
      refine ⟨hcanonical', fun v => ?_⟩
      rw [hvalues', hvalues, List.mem_append, List.mem_singleton, or_comm]

/-! ## Seen from a missing number -/

/-- How far `x` is above `hole`, going on from the largest number to 0. -/
def above (hole x : UInt64) : Nat := (x - hole).toNat

/-- Going up from its low bound a piece comes to its high bound before `hole`. -/
structure Clear (hole : UInt64) (p : Piece) : Prop where
  pos : 0 < above hole p.lowBound
  le : above hole p.lowBound ≤ above hole p.highBound

/-- `p'` begins no later and ends no earlier than `p`. -/
structure Absorbs (hole : UInt64) (p' p : Piece) : Prop where
  low : above hole p'.lowBound ≤ above hole p.lowBound
  high : above hole p.highBound ≤ above hole p'.highBound

/-- The pieces of `new` are clear of `hole` and have all those of `old`. -/
structure Grows (hole : UInt64) (old new : Section) : Prop where
  clear : ∀ p ∈ new, Clear hole p
  absorbs : ∀ p ∈ old, ∃ p' ∈ new, Absorbs hole p' p

theorem above_eq (hole x : UInt64) : above hole x = (2 ^ 64 - hole.toNat + x.toNat) % 2 ^ 64 :=
  UInt64.toNat_sub ..

theorem above_pos {hole x : UInt64} : 0 < above hole x ↔ x ≠ hole := by
  have hhole := hole.toNat_lt
  have hx := x.toNat_lt
  rw [above_eq, ne_eq, ← UInt64.toNat_inj]
  omega

theorem above_add_one {hole x : UInt64} (hne : x + 1 ≠ hole) :
    above hole (x + 1) = above hole x + 1 := by
  have hhole := hole.toNat_lt
  have hx := x.toNat_lt
  have hone : (1 : UInt64).toNat = 1 := rfl
  rw [ne_eq, ← UInt64.toNat_inj, UInt64.toNat_add, hone] at hne
  rw [above_eq, above_eq, UInt64.toNat_add, hone]
  omega

theorem Absorbs.refl (hole : UInt64) (p : Piece) : Absorbs hole p p := ⟨le_rfl, le_rfl⟩

theorem Absorbs.trans {hole : UInt64} {p q r : Piece} (hpq : Absorbs hole p q)
    (hqr : Absorbs hole q r) : Absorbs hole p r :=
  ⟨hpq.low.trans hqr.low, hqr.high.trans hpq.high⟩

section Grows

variable {hole : UInt64} {old new rest front : Section} {piece : Piece}

theorem Grows.refl (hclear : ∀ p ∈ old, Clear hole p) : Grows hole old old :=
  ⟨hclear, fun p hp => ⟨p, hp, .refl hole p⟩⟩

theorem Grows.trans {middle : Section} (hfirst : Grows hole old middle)
    (hsecond : Grows hole middle new) : Grows hole old new := by
  refine ⟨hsecond.clear, fun p hp => ?_⟩
  obtain ⟨q, hq, hpq⟩ := hfirst.absorbs p hp
  obtain ⟨r, hr, hqr⟩ := hsecond.absorbs q hq
  exact ⟨r, hr, hqr.trans hpq⟩

theorem Grows.append {old' new' : Section} (hfront : Grows hole old new)
    (hback : Grows hole old' new') : Grows hole (old ++ old') (new ++ new') := by
  refine ⟨List.forall_mem_append.mpr ⟨hfront.clear, hback.clear⟩, fun p hp => ?_⟩
  rcases List.mem_append.mp hp with hp | hp
  · obtain ⟨q, hq, hpq⟩ := hfront.absorbs p hp
    exact ⟨q, List.mem_append_left _ hq, hpq⟩
  · obtain ⟨q, hq, hpq⟩ := hback.absorbs p hp
    exact ⟨q, List.mem_append_right _ hq, hpq⟩

/-- One piece takes the place of one that it absorbs. -/
theorem Grows.single {p' : Piece} (hclear : Clear hole p') (habsorbs : Absorbs hole p' piece) :
    Grows hole [piece] [p'] :=
  ⟨List.forall_mem_singleton.mpr hclear,
    List.forall_mem_singleton.mpr ⟨p', List.mem_singleton_self p', habsorbs⟩⟩

/-- Two pieces that touch become one. -/
theorem Grows.merge {p q : Piece} (hp : Clear hole p) (hq : Clear hole q)
    (htouch : q.lowBound = p.highBound + 1) : Grows hole [p, q] [⟨p.lowBound, q.highBound⟩] := by
  have hne : p.highBound + 1 ≠ hole := htouch ▸ above_pos.mp hq.pos
  have hstep := above_add_one hne
  rw [← htouch] at hstep
  have hle : above hole p.lowBound ≤ above hole q.lowBound := by
    have hple := hp.le
    omega
  have hhigh : above hole p.highBound ≤ above hole q.highBound := by
    have hqle := hq.le
    omega
  refine ⟨List.forall_mem_singleton.mpr ⟨hp.pos, hle.trans hq.le⟩, ?_⟩
  refine List.forall_mem_cons.mpr ⟨⟨_, List.mem_singleton_self _, le_rfl, hhigh⟩, ?_⟩
  exact List.forall_mem_singleton.mpr ⟨_, List.mem_singleton_self _, hle, le_rfl⟩

theorem mergeNext_grows (hpiece : Clear hole piece) (hrest : ∀ p ∈ rest, Clear hole p) :
    Grows hole (piece :: rest) (mergeNext piece rest) := by
  cases rest with
  | nil => exact .refl (List.forall_mem_singleton.mpr hpiece)
  | cons next rest =>
      rw [mergeNext]
      split
      next htouch =>
        obtain ⟨hnext, hrest⟩ := List.forall_mem_cons.mp hrest
        exact (Grows.merge hpiece hnext htouch).append (.refl hrest)
      next => exact .refl (List.forall_mem_cons.mpr ⟨hpiece, hrest⟩)

theorem mergeLast_grows (hpiece : Clear hole piece) (hfront : ∀ p ∈ front, Clear hole p) :
    Grows hole (front ++ [piece]) (mergeLast front piece) := by
  rcases List.eq_nil_or_concat front with rfl | ⟨init, last, rfl⟩
  · exact .refl (List.forall_mem_singleton.mpr hpiece)
  rw [List.concat_eq_append] at hfront ⊢
  rw [mergeLast, List.getLast?_concat]
  simp only
  split
  next htouch =>
    obtain ⟨hinit, hlast⟩ := List.forall_mem_append.mp hfront
    have hnext : piece.lowBound = last.highBound + 1 := by rw [htouch, UInt64.sub_add_cancel]
    rw [List.dropLast_concat, List.append_assoc]
    exact (Grows.refl hinit).append (.merge (List.forall_mem_singleton.mp hlast) hpiece hnext)
  next => exact .refl (List.forall_mem_append.mpr ⟨hfront, List.forall_mem_singleton.mpr hpiece⟩)

/-- Adding any number but the missing one lets pieces grow only. -/
theorem addLoop_grows {num : UInt64} (hnum : num ≠ hole) (index : Nat)
    (hfront : ∀ p ∈ front, Clear hole p) (hrest : ∀ p ∈ rest, Clear hole p) :
    Grows hole (front ++ rest) (addLoop num index front rest) := by
  induction rest generalizing front index with
  | nil =>
      have hnew : Clear hole ⟨num, num⟩ := ⟨above_pos.mpr hnum, le_rfl⟩
      rw [addLoop, List.append_nil]
      refine ⟨?_, fun p hp => ⟨p, ?_, .refl hole p⟩⟩
      · intro p hp
        rcases List.mem_append.mp hp with hp | hp
        · exact hfront p (List.mem_of_mem_take hp)
        · rcases List.mem_cons.mp hp with rfl | hp
          · exact hnew
          · exact hfront p (List.mem_of_mem_drop hp)
      · rw [← List.take_append_drop index front] at hp
        exact (List.mem_append.mp hp).elim (List.mem_append_left _)
          fun hp => List.mem_append_right _ (List.mem_cons_of_mem _ hp)
  | cons piece rest ih =>
      obtain ⟨hpiece, hrest⟩ := List.forall_mem_cons.mp hrest
      have hclear : ∀ p ∈ piece :: rest, Clear hole p := List.forall_mem_cons.mpr ⟨hpiece, hrest⟩
      have hle := hpiece.le
      rw [addLoop]
      split
      next => exact .refl (List.forall_mem_append.mpr ⟨hfront, hclear⟩)
      next =>
        split
        next hnext =>
          -- The piece grows upwards.
          have hstep := above_add_one (hnext ▸ hnum)
          rw [hnext] at hstep
          have hgrown : Clear hole { piece with highBound := num } :=
            ⟨hpiece.pos, hle.trans (hstep ▸ Nat.le_succ _)⟩
          have hsingle : Grows hole [piece] [{ piece with highBound := num }] :=
            .single hgrown ⟨le_rfl, hstep ▸ Nat.le_succ _⟩
          have hmerge := (hsingle.append (.refl hrest)).trans (mergeNext_grows hgrown hrest)
          exact (Grows.refl hfront).append hmerge
        next =>
          split
          next hlast =>
            -- The piece grows downwards.
            have hnext : num + 1 = piece.lowBound := by rw [← hlast.2, UInt64.sub_add_cancel]
            have hstep := above_add_one (hnext ▸ above_pos.mp hpiece.pos)
            rw [hnext] at hstep
            have hlow : above hole num ≤ above hole piece.lowBound := hstep ▸ Nat.le_succ _
            have hgrown : Clear hole { piece with lowBound := num } :=
              ⟨above_pos.mpr hnum, hlow.trans hle⟩
            have hsingle : Grows hole [piece] [{ piece with lowBound := num }] :=
              .single hgrown ⟨hlow, le_rfl⟩
            have hmerge := ((Grows.refl hfront).append hsingle).trans
              (mergeLast_grows hgrown hfront)
            rw [← List.singleton_append, ← List.append_assoc]
            exact hmerge.append (.refl hrest)
          next =>
            have hfront' : ∀ p ∈ front ++ [piece], Clear hole p :=
              List.forall_mem_append.mpr ⟨hfront, List.forall_mem_singleton.mpr hpiece⟩
            have hloop := ih (if piece.highBound < num then index + 1 else index) hfront' hrest
            rwa [List.append_assoc, List.singleton_append] at hloop

end Grows

/-! ## The damage -/

/-- Seen from `hole`, the piece has the largest number and 0. -/
structure Broken (hole : UInt64) (p : Piece) : Prop where
  low : above hole p.lowBound ≤ above hole uint64Max
  high : above hole 0 ≤ above hole p.highBound

theorem Absorbs.broken {hole : UInt64} {p' p : Piece} (habsorbs : Absorbs hole p' p)
    (hbroken : Broken hole p) : Broken hole p' :=
  ⟨habsorbs.low.trans hbroken.low, hbroken.high.trans habsorbs.high⟩

/-- A broken piece ends below where it begins. -/
theorem Broken.lt {hole : UInt64} {p : Piece} (hbroken : Broken hole p) (hhole : hole ≠ 0) :
    p.highBound < p.lowBound := by
  have hpos := UInt64.toNat_inj.not.mpr hhole
  have hlt := hole.toNat_lt
  have hlowLt := p.lowBound.toNat_lt
  have hhighLt := p.highBound.toNat_lt
  have hmax : uint64Max.toNat = 2 ^ 64 - 1 := rfl
  have hzero : (0 : UInt64).toNat = 0 := rfl
  have hlow := hbroken.low
  have hhigh := hbroken.high
  rw [above_eq, above_eq, hmax] at hlow
  rw [above_eq, above_eq, hzero] at hhigh
  rw [hzero] at hpos
  rw [UInt64.lt_iff_toNat_lt]
  omega

/-- Adding 0 behind a piece with the largest number, when 1 is not there. -/
theorem addToSection_wraps {sec : Section} (hcanonical : Canonical sec)
    (hmax : Covers sec uint64Max) (hzero : ¬ Covers sec 0) (hone : ¬ Covers sec 1) :
    ∃ front q, sec = front ++ [q] ∧ q.highBound = uint64Max ∧
      addToSection sec 0 = front ++ [{ q with highBound := 0 }] := by
  obtain ⟨front, q, back, rfl, -, hq⟩ := covers_split hmax
  have hqmax : q.highBound = uint64Max := le_antisymm (le_uint64Max _) hq
  obtain ⟨-, hrest, hcross⟩ := canonical_append.mp hcanonical
  obtain rfl : back = [] := by
    rw [List.eq_nil_iff_forall_not_mem]
    intro r hr
    obtain ⟨c, hqc, -⟩ := (canonical_cons.mp hrest).2.1 r hr
    exact absurd (le_uint64Max c) (not_le.mpr (hqmax ▸ hqc))
  have hone' : (0 : UInt64) ⋖ 1 := covBy_iff_toNat.mpr rfl
  have hskip : ∀ p ∈ front, Skipped 0 p := by
    intro p hp
    have hproper := hcanonical.proper p (List.mem_append_left _ hp)
    have hmem : p ∈ front ++ [q] := List.mem_append_left _ hp
    have hlow : 1 < p.lowBound := by
      rw [← not_le, le_iff_of_covBy hone']
      rintro (hlow | hlow)
      · exact hzero ⟨p, hmem, hlow, UInt64.zero_le⟩
      · exact hone ⟨p, hmem, hlow.le, hlow ▸ hproper⟩
    obtain ⟨c, hpc, -⟩ := hcross p hp q List.mem_cons_self
    refine skipped_of_above hproper ⟨1, hone'.1, hlow⟩ fun hends => ?_
    exact absurd (le_uint64Max c) (not_le.mpr (hends.2 ▸ hpc))
  refine ⟨front, q, rfl, hqmax, ?_⟩
  have hout : ¬ (q.lowBound ≤ 0 ∧ q.highBound ≥ 0) := fun h =>
    hzero ⟨q, by simp, h.1, h.2⟩
  have hnext : q.highBound + 1 = 0 := by rw [hqmax]; rfl
  rw [addToSection, addLoop_skip hskip, List.nil_append, addLoop]
  exact (if_neg hout).trans (if_pos hnext)

theorem clear_of_not_covers {hole : UInt64} {sec : Section} (hcanonical : Canonical sec)
    (hhole : ¬ Covers sec hole) {p : Piece} (hp : p ∈ sec) : Clear hole p := by
  have hproper := UInt64.le_iff_toNat_le.mp (hcanonical.proper p hp)
  have hout : ¬ (p.lowBound ≤ hole ∧ hole ≤ p.highBound) := fun h => hhole ⟨p, hp, h⟩
  have hlt := hole.toNat_lt
  have hhighLt := p.highBound.toNat_lt
  rw [UInt64.le_iff_toNat_le, UInt64.le_iff_toNat_le] at hout
  constructor
  · rw [above_eq]
    omega
  · rw [above_eq, above_eq]
    omega

/-- The section is broken from then on, whatever comes but the missing number. -/
theorem foldl_addToSection_grows {hole : UInt64} {sec : Section}
    (hclear : ∀ p ∈ sec, Clear hole p) {rs : List UInt64} (hrs : hole ∉ rs) :
    Grows hole sec (rs.foldl addToSection sec) := by
  induction rs generalizing sec with
  | nil => exact .refl hclear
  | cons num rs ih =>
      rw [List.mem_cons, not_or] at hrs
      have hgrows : Grows hole ([] ++ sec) (addToSection sec num) :=
        addLoop_grows (Ne.symm hrs.1) 0 (List.forall_mem_nil _) hclear
      exact hgrows.trans (ih hgrows.clear hrs.2)

/-- Where the exception is met and some number is missing, a broken piece stays. -/
theorem addAll_broken {rs : List UInt64} (hwrap : ¬ NoWrap rs) {hole : UInt64} (hrs : hole ∉ rs) :
    ∃ p ∈ addAll rs, p.highBound < p.lowBound := by
  simp only [NoWrap, not_forall, exists_prop] at hwrap
  obtain ⟨front, back, rfl, hzero, hmax, hmet⟩ := hwrap
  rw [List.mem_append, List.mem_cons, not_or, not_or] at hrs
  obtain ⟨hfront, hhole, hback⟩ := hrs
  have hone : 1 ∉ front := fun hone => hmet ⟨hone, hole, hhole, hfront⟩
  have hnowrap : NoWrap front := by
    rintro first rest rfl
    exact absurd (List.mem_append_right _ List.mem_cons_self) hzero
  obtain ⟨hcanonical, hvalues⟩ := addAll_spec hnowrap
  obtain ⟨init, q, hsplit, hqmax, hadd⟩ := addToSection_wraps hcanonical ((hvalues _).mpr hmax)
    (mt (hvalues _).mp hzero) (mt (hvalues _).mp hone)
  have hclear : ∀ p ∈ init ++ [q], Clear hole p := fun p hp =>
    clear_of_not_covers hcanonical (mt (hvalues _).mp hfront) (hsplit ▸ hp)
  obtain ⟨hinit, hq⟩ := List.forall_mem_append.mp hclear
  rw [List.forall_mem_singleton] at hq
  have hsum : uint64Max + 1 = 0 := by decide
  have hne : uint64Max + 1 ≠ hole := by
    rw [hsum]
    exact Ne.symm hhole
  have hstep := above_add_one hne
  rw [hsum] at hstep
  have hlow : above hole q.lowBound ≤ above hole uint64Max := hqmax ▸ hq.le
  have hbroken : Broken hole { q with highBound := 0 } := ⟨hlow, le_rfl⟩
  have hdamaged : ∀ p ∈ init ++ [{ q with highBound := 0 }], Clear hole p := by
    refine List.forall_mem_append.mpr ⟨hinit, List.forall_mem_singleton.mpr ⟨hq.pos, ?_⟩⟩
    refine hlow.trans ?_
    simp only [hstep]
    exact Nat.le_succ _
  obtain ⟨p, hp, habsorbs⟩ := (foldl_addToSection_grows hdamaged hback).absorbs
    { q with highBound := 0 } (by simp)
  refine ⟨p, ?_, (habsorbs.broken hbroken).lt hhole⟩
  rw [addAll, List.foldl_append, List.foldl_cons, ← addAll, hadd]
  exact hp

end Hipft
