import Mathlib.Order.Cover
import Mathlib.Data.List.Pairwise

/-! # Sets as lists of intervals

A set of values of a linear order is kept as a list of spans. The list is
canonical when no span is empty and between each span and the later ones there
is a value that neither has: then it is in order, and the set determines it.
-/

namespace Intervals

/-- The values from `lowBound` to `highBound`: none if these are the wrong way round. -/
@[ext] structure Span (α : Type) where
  lowBound : α
  highBound : α
  deriving DecidableEq, Repr

variable {α : Type} [LinearOrder α]

/-- The values of the spans. -/
def Covers (spans : List (Span α)) (v : α) : Prop :=
  ∃ p ∈ spans, p.lowBound ≤ v ∧ v ≤ p.highBound

/-- There is a value between `p` and `q`. -/
def Apart (p q : Span α) : Prop := ∃ c, p.highBound < c ∧ c < q.lowBound

structure Canonical (spans : List (Span α)) : Prop where
  proper : ∀ p ∈ spans, p.lowBound ≤ p.highBound
  apart : spans.Pairwise Apart

/-! ## Members -/

@[simp] theorem covers_nil (v : α) : Covers ([] : List (Span α)) v ↔ False := by
  simp [Covers]

@[simp] theorem covers_cons (p : Span α) (rest : List (Span α)) (v : α) :
    Covers (p :: rest) v ↔ (p.lowBound ≤ v ∧ v ≤ p.highBound) ∨ Covers rest v := by
  simp [Covers]

@[simp] theorem covers_append (front back : List (Span α)) (v : α) :
    Covers (front ++ back) v ↔ Covers front v ∨ Covers back v := by
  simp [Covers, or_and_right, exists_or]

/-! ## Canonical lists -/

theorem Apart.lt {p q : Span α} (hapart : Apart p q) : p.highBound < q.lowBound := by
  obtain ⟨c, hp, hq⟩ := hapart
  exact hp.trans hq

/-- A span may start later and end earlier. -/
theorem Apart.mono {p p' q q' : Span α} (hapart : Apart p q) (hp : p'.highBound ≤ p.highBound)
    (hq : q.lowBound ≤ q'.lowBound) : Apart p' q' := by
  obtain ⟨c, hpc, hcq⟩ := hapart
  exact ⟨c, hp.trans_lt hpc, hcq.trans_le hq⟩

theorem canonical_nil : Canonical ([] : List (Span α)) :=
  ⟨by simp, List.Pairwise.nil⟩

theorem canonical_append {front back : List (Span α)} :
    Canonical (front ++ back) ↔
      Canonical front ∧ Canonical back ∧ ∀ p ∈ front, ∀ q ∈ back, Apart p q := by
  constructor
  · rintro ⟨hproper, hapart⟩
    rw [List.pairwise_append] at hapart
    exact ⟨⟨fun p hp => hproper p (List.mem_append_left _ hp), hapart.1⟩,
      ⟨fun p hp => hproper p (List.mem_append_right _ hp), hapart.2.1⟩, hapart.2.2⟩
  · rintro ⟨hfront, hback, hcross⟩
    refine ⟨?_, List.pairwise_append.mpr ⟨hfront.apart, hback.apart, hcross⟩⟩
    intro p hp
    exact (List.mem_append.mp hp).elim (hfront.proper p) (hback.proper p)

theorem canonical_cons {p : Span α} {rest : List (Span α)} :
    Canonical (p :: rest) ↔
      p.lowBound ≤ p.highBound ∧ (∀ q ∈ rest, Apart p q) ∧ Canonical rest := by
  constructor
  · rintro ⟨hproper, hapart⟩
    rw [List.pairwise_cons] at hapart
    exact ⟨hproper p List.mem_cons_self, hapart.1,
      fun q hq => hproper q (List.mem_cons_of_mem p hq), hapart.2⟩
  · rintro ⟨hp, hapart, hrest⟩
    exact ⟨List.forall_mem_cons.mpr ⟨hp, hrest.proper⟩,
      List.pairwise_cons.mpr ⟨hapart, hrest.apart⟩⟩

/-- In a canonical list every value of a later span is above the earlier ones. -/
theorem Canonical.lt_of_covers {p : Span α} {rest : List (Span α)}
    (hcanonical : Canonical (p :: rest)) {v : α} (hv : Covers rest v) : p.highBound < v := by
  obtain ⟨q, hq, hlow, -⟩ := hv
  exact ((canonical_cons.mp hcanonical).2.1 q hq).lt.trans_le hlow

/-- The first bound of a canonical list is its least value. -/
theorem Canonical.low_le {p : Span α} {rest : List (Span α)} (hcanonical : Canonical (p :: rest))
    {v : α} (hv : Covers (p :: rest) v) : p.lowBound ≤ v := by
  rcases (covers_cons p rest v).mp hv with hhere | hlater
  · exact hhere.1
  · exact (canonical_cons.mp hcanonical).1.trans (hcanonical.lt_of_covers hlater).le

/-- What the later spans have is what lies above the first. -/
theorem Canonical.covers_rest {p : Span α} {rest : List (Span α)}
    (hcanonical : Canonical (p :: rest)) {v : α} :
    Covers rest v ↔ p.highBound < v ∧ Covers (p :: rest) v := by
  rw [covers_cons]
  constructor
  · intro hv
    exact ⟨hcanonical.lt_of_covers hv, .inr hv⟩
  · rintro ⟨hlt, hhere | hlater⟩
    · exact absurd hhere.2 (not_le.mpr hlt)
    · exact hlater

/-- The first span of a canonical list ends no earlier than an interval that begins with it
and is in the list. -/
theorem Canonical.le_high {p : Span α} {rest : List (Span α)} (hcanonical : Canonical (p :: rest))
    {high : α} (hall : ∀ v, p.lowBound ≤ v → v ≤ high → Covers (p :: rest) v) :
    high ≤ p.highBound := by
  by_contra hlonger
  have hlt : p.highBound < high := not_le.mp hlonger
  obtain ⟨hproper, hapart, hrest⟩ := canonical_cons.mp hcanonical
  have habove := hcanonical.covers_rest.mpr ⟨hlt, hall high (hproper.trans hlt.le) le_rfl⟩
  cases rest with
  | nil => exact absurd habove (covers_nil high).mp
  | cons q rest =>
      -- A value behind the first span, and not behind the interval, that the list does not have.
      obtain ⟨c, hpc, hcq⟩ := hapart q List.mem_cons_self
      have hbetween : p.highBound < min c high := lt_min hpc hlt
      have hcovers := hall (min c high) (hproper.trans hbetween.le) (min_le_right c high)
      have hq := hrest.low_le (hcanonical.covers_rest.mpr ⟨hbetween, hcovers⟩)
      exact absurd (hq.trans (min_le_left c high)) (not_le.mpr hcq)

/-- The values of a canonical list determine it. -/
theorem Canonical.eq_of_covers {spans other : List (Span α)} (hspans : Canonical spans)
    (hother : Canonical other) (hsame : ∀ v, Covers spans v ↔ Covers other v) :
    spans = other := by
  induction spans generalizing other with
  | nil =>
      cases other with
      | nil => rfl
      | cons q other =>
          have hq : Covers (q :: other) q.lowBound :=
            ⟨q, List.mem_cons_self, le_rfl, hother.proper q List.mem_cons_self⟩
          exact absurd ((hsame _).mpr hq) (covers_nil _).mp
  | cons p spans ih =>
      have hfirst {r : Span α} {rest : List (Span α)} (hcanonical : Canonical (r :: rest)) {v : α}
          (hlow : r.lowBound ≤ v) (hhigh : v ≤ r.highBound) : Covers (r :: rest) v :=
        ⟨r, List.mem_cons_self, hlow, hhigh⟩
      have hp := hspans.proper p List.mem_cons_self
      cases other with
      | nil => exact absurd ((hsame _).mp (hfirst hspans le_rfl hp)) (covers_nil _).mp
      | cons q other =>
          have hq := hother.proper q List.mem_cons_self
          have hlow : p.lowBound = q.lowBound := le_antisymm
            (hspans.low_le ((hsame _).mpr (hfirst hother le_rfl hq)))
            (hother.low_le ((hsame _).mp (hfirst hspans le_rfl hp)))
          have hhigh : p.highBound = q.highBound := by
            apply le_antisymm
            · apply hother.le_high
              intro v hv hvp
              exact (hsame v).mp (hfirst hspans (hlow.trans_le hv) hvp)
            · apply hspans.le_high
              intro v hv hvq
              exact (hsame v).mpr (hfirst hother (hlow.symm.trans_le hv) hvq)
          have hrest : spans = other := by
            apply ih (canonical_cons.mp hspans).2.2 (canonical_cons.mp hother).2.2
            intro v
            rw [hspans.covers_rest, hother.covers_rest, hhigh, hsame]
          rw [hrest, Span.ext hlow hhigh]

/-- Exchanging a middle part for one span. -/
theorem Canonical.replace {front middle back : List (Span α)} {p : Span α}
    (hcanonical : Canonical (front ++ (middle ++ back))) (hp : p.lowBound ≤ p.highBound)
    (hfront : ∀ q ∈ front, Apart q p) (hback : ∀ q ∈ back, Apart p q) :
    Canonical (front ++ p :: back) := by
  rw [canonical_append, canonical_append] at hcanonical
  obtain ⟨hleft, ⟨-, hright, -⟩, hcross⟩ := hcanonical
  refine canonical_append.mpr ⟨hleft, canonical_cons.mpr ⟨hp, hback, hright⟩, ?_⟩
  intro q hq r hr
  rcases List.mem_cons.mp hr with rfl | hr
  · exact hfront q hq
  · exact hcross q hq r (List.mem_append_right middle hr)

/-- Exchanging the first span for a part of it. -/
theorem Canonical.shrink {middle rest : List (Span α)} {p : Span α}
    (hcanonical : Canonical (p :: rest)) (hmiddle : Canonical middle)
    (hwithin : ∀ q ∈ middle, q.highBound ≤ p.highBound) : Canonical (middle ++ rest) := by
  obtain ⟨-, hapart, hrest⟩ := canonical_cons.mp hcanonical
  exact canonical_append.mpr ⟨hmiddle, hrest,
    fun q hq r hr => (hapart r hr).mono (hwithin q hq) le_rfl⟩

/-- Exchanging the later spans for ones with fewer values. -/
theorem Canonical.cons_of_covers {p : Span α} {rest rest' : List (Span α)}
    (hcanonical : Canonical (p :: rest)) (hrest' : Canonical rest')
    (hfewer : ∀ v, Covers rest' v → Covers rest v) : Canonical (p :: rest') := by
  obtain ⟨hp, hapart, -⟩ := canonical_cons.mp hcanonical
  refine canonical_cons.mpr ⟨hp, fun q hq => ?_, hrest'⟩
  obtain ⟨r, hr, hlow, -⟩ := hfewer q.lowBound ⟨q, hq, le_rfl, hrest'.proper q hq⟩
  exact (hapart r hr).mono le_rfl hlow

/-- Exchanging a middle part for one span that has one value more. -/
theorem Canonical.insert {front middle back : List (Span α)} {p : Span α} {num : α}
    (hcanonical : Canonical (front ++ (middle ++ back))) (hp : p.lowBound ≤ p.highBound)
    (hfront : ∀ q ∈ front, Apart q p) (hback : ∀ q ∈ back, Apart p q)
    (hvalues : ∀ v, p.lowBound ≤ v ∧ v ≤ p.highBound ↔ v = num ∨ Covers middle v) :
    Canonical (front ++ p :: back) ∧
      ∀ v, Covers (front ++ p :: back) v ↔ v = num ∨ Covers (front ++ (middle ++ back)) v := by
  refine ⟨hcanonical.replace hp hfront hback, fun v => ?_⟩
  rw [covers_append, covers_cons, hvalues, covers_append, covers_append]
  exact ⟨by tauto, by tauto⟩

/-! ## Neighbours -/

/-- Values up to the next one are the earlier values and it. -/
theorem le_iff_of_covBy {a b v : α} (hcov : a ⋖ b) : v ≤ b ↔ v ≤ a ∨ v = b := by
  rw [le_iff_lt_or_eq, hcov.lt_iff_le_left]

theorem le_iff_of_covBy' {a b v : α} (hcov : a ⋖ b) : a ≤ v ↔ v = a ∨ b ≤ v := by
  rw [le_iff_eq_or_lt, hcov.lt_iff_le_right, eq_comm]

/-- A span grows upwards by one value. -/
theorem between_of_covBy_high {a b c v : α} (hab : a ≤ b) (hcov : b ⋖ c) :
    a ≤ v ∧ v ≤ c ↔ v = c ∨ a ≤ v ∧ v ≤ b := by
  rw [le_iff_of_covBy hcov]
  constructor
  · rintro ⟨hav, hvb | rfl⟩
    · exact .inr ⟨hav, hvb⟩
    · exact .inl rfl
  · rintro (rfl | ⟨hav, hvb⟩)
    · exact ⟨hab.trans hcov.1.le, .inr rfl⟩
    · exact ⟨hav, .inl hvb⟩

/-- A span grows downwards by one value. -/
theorem between_of_covBy_low {a b c v : α} (hcov : a ⋖ b) (hbc : b ≤ c) :
    a ≤ v ∧ v ≤ c ↔ v = a ∨ b ≤ v ∧ v ≤ c := by
  rw [le_iff_of_covBy' hcov]
  constructor
  · rintro ⟨rfl | hbv, hvc⟩
    · exact .inl rfl
    · exact .inr ⟨hbv, hvc⟩
  · rintro (rfl | ⟨hbv, hvc⟩)
    · exact ⟨.inl rfl, hcov.1.le.trans hbc⟩
    · exact ⟨.inr hbv, hvc⟩

/-- Two spans with one value between them become one. -/
theorem between_of_covBy_both {a b c d n v : α} (hab : a ≤ b) (hbelow : b ⋖ n) (habove : n ⋖ c)
    (hcd : c ≤ d) : a ≤ v ∧ v ≤ d ↔ v = n ∨ a ≤ v ∧ v ≤ b ∨ c ≤ v ∧ v ≤ d := by
  have hleft : a ≤ v ∧ v ≤ d ↔ (a ≤ v ∧ v ≤ n) ∨ (n ≤ v ∧ v ≤ d) := by
    constructor
    · rintro ⟨hav, hvd⟩
      exact (le_total v n).imp (⟨hav, ·⟩) (⟨·, hvd⟩)
    · rintro (⟨hav, hvn⟩ | ⟨hnv, hvd⟩)
      · exact ⟨hav, hvn.trans (habove.1.le.trans hcd)⟩
      · exact ⟨(hab.trans hbelow.1.le).trans hnv, hvd⟩
  rw [hleft, between_of_covBy_high hab hbelow, between_of_covBy_low habove hcd]
  tauto

/-! ## A value and the spans around it -/

theorem covers_split {spans : List (Span α)} {v : α} (hv : Covers spans v) :
    ∃ front p back, spans = front ++ p :: back ∧ p.lowBound ≤ v ∧ v ≤ p.highBound := by
  obtain ⟨p, hp, hbounds⟩ := hv
  obtain ⟨front, back, rfl⟩ := List.append_of_mem hp
  exact ⟨front, p, back, rfl, hbounds⟩

/-- The spans below a value that none of them has, and those above it. -/
theorem Canonical.split {spans : List (Span α)} (hcanonical : Canonical spans) {v : α}
    (hv : ¬ Covers spans v) :
    ∃ front back, spans = front ++ back ∧ (∀ p ∈ front, p.highBound < v) ∧
      ∀ q ∈ back, v < q.lowBound := by
  induction spans with
  | nil => exact ⟨[], [], rfl, List.forall_mem_nil _, List.forall_mem_nil _⟩
  | cons p rest ih =>
      rw [covers_cons, not_or, not_and_or, not_le, not_le] at hv
      obtain ⟨hproper, hapart, hrest⟩ := canonical_cons.mp hcanonical
      rcases hv.1 with habove | hbelow
      · refine ⟨[], p :: rest, rfl, List.forall_mem_nil _, ?_⟩
        refine List.forall_mem_cons.mpr ⟨habove, fun q hq => ?_⟩
        exact habove.trans (hproper.trans_lt (hapart q hq).lt)
      · obtain ⟨front, back, rfl, hfront, hback⟩ := ih hrest hv.2
        exact ⟨p :: front, back, rfl, List.forall_mem_cons.mpr ⟨hbelow, hfront⟩, hback⟩

/-- Of the spans below a value only the last can reach up to it. -/
theorem Canonical.last_or_apart {front : List (Span α)} (hcanonical : Canonical front) {v : α}
    (hfront : ∀ p ∈ front, p.highBound < v) :
    (∃ init p, front = init ++ [p] ∧ p.highBound ⋖ v) ∨
      ∀ p ∈ front, ∃ c, p.highBound < c ∧ c < v := by
  rcases List.eq_nil_or_concat front with rfl | ⟨init, p, rfl⟩
  · exact .inr (List.forall_mem_nil _)
  have hp := hfront p (by simp)
  by_cases hcov : p.highBound ⋖ v
  · exact .inl ⟨init, p, by simp, hcov⟩
  refine .inr fun q hq => ?_
  rw [List.concat_eq_append] at hcanonical hq
  rcases List.mem_append.mp hq with hinit | hlast
  · obtain ⟨c, hqc, hcp⟩ := (canonical_append.mp hcanonical).2.2 q hinit p (by simp)
    have hproper := hcanonical.proper p (by simp)
    exact ⟨c, hqc, hcp.trans (hproper.trans_lt hp)⟩
  · rw [List.mem_singleton.mp hlast]
    exact (not_covBy_iff hp).mp hcov

/-- Of the spans above a value only the first can reach down to it. -/
theorem Canonical.head_or_apart {back : List (Span α)} (hcanonical : Canonical back) {v : α}
    (hback : ∀ q ∈ back, v < q.lowBound) :
    (∃ q tail, back = q :: tail ∧ v ⋖ q.lowBound) ∨
      ∀ q ∈ back, ∃ c, v < c ∧ c < q.lowBound := by
  cases back with
  | nil => exact .inr (List.forall_mem_nil _)
  | cons q tail =>
      have hq := hback q List.mem_cons_self
      obtain ⟨hproper, hapart, -⟩ := canonical_cons.mp hcanonical
      by_cases hcov : v ⋖ q.lowBound
      · exact .inl ⟨q, tail, rfl, hcov⟩
      refine .inr (List.forall_mem_cons.mpr ⟨(not_covBy_iff hq).mp hcov, fun r hr => ?_⟩)
      obtain ⟨c, hqc, hcr⟩ := hapart r hr
      exact ⟨c, hq.trans (hproper.trans_lt hqc), hcr⟩

/-! ## Runs -/

/-- An interval of the set that is in no longer one. -/
structure IsRun (values : α → Prop) (p : Span α) : Prop where
  proper : p.lowBound ≤ p.highBound
  inside : ∀ v, p.lowBound ≤ v → v ≤ p.highBound → values v
  maximal : ∀ q : Span α, q.lowBound ≤ p.lowBound → p.highBound ≤ q.highBound →
    (∀ v, q.lowBound ≤ v → v ≤ q.highBound → values v) → q = p

/-- No interval of a canonical list is longer than the span it contains. -/
theorem Canonical.eq_of_contains {spans : List (Span α)} (hcanonical : Canonical spans)
    {p q : Span α} (hp : p ∈ spans) (hlow : q.lowBound ≤ p.lowBound)
    (hhigh : p.highBound ≤ q.highBound)
    (hall : ∀ v, q.lowBound ≤ v → v ≤ q.highBound → Covers spans v) : q = p := by
  have hproper := hcanonical.proper p hp
  induction spans with
  | nil => exact absurd hp List.not_mem_nil
  | cons s rest ih =>
      obtain ⟨-, hapart, hrest⟩ := canonical_cons.mp hcanonical
      have hhere := hall q.lowBound le_rfl (hlow.trans (hproper.trans hhigh))
      rcases List.mem_cons.mp hp with rfl | hp
      · have hend := hcanonical.le_high fun v hv hle => hall v (hlow.trans hv) hle
        apply Span.ext
        · exact le_antisymm hlow (hcanonical.low_le hhere)
        · exact le_antisymm hend hhigh
      · cases rest with
        | nil => exact absurd hp List.not_mem_nil
        | cons t tail =>
            have hnext : t.lowBound ≤ p.lowBound := hrest.low_le ⟨p, hp, le_rfl, hproper⟩
            -- The interval would have the value between the first span and the second.
            have habove : s.highBound < q.lowBound := by
              by_contra hbelow
              obtain ⟨c, hsc, hct⟩ := hapart t List.mem_cons_self
              have hcovers := hall c ((not_lt.mp hbelow).trans hsc.le)
                ((hct.le.trans hnext).trans (hproper.trans hhigh))
              have hlater := hrest.low_le (hcanonical.covers_rest.mpr ⟨hsc, hcovers⟩)
              exact absurd hct (not_lt.mpr hlater)
            apply ih hrest hp
            intro v hv hle
            exact hcanonical.covers_rest.mpr ⟨habove.trans_le hv, hall v hv hle⟩

/-- The spans of a canonical list are the runs of its set. -/
theorem Canonical.mem_iff_isRun {spans : List (Span α)} (hcanonical : Canonical spans)
    {p : Span α} : p ∈ spans ↔ IsRun (Covers spans) p := by
  constructor
  · intro hp
    exact ⟨hcanonical.proper p hp, fun v hlow hhigh => ⟨p, hp, hlow, hhigh⟩,
      fun q hlow hhigh hall => hcanonical.eq_of_contains hp hlow hhigh hall⟩
  · intro hrun
    obtain ⟨q, hq, hlow, hhigh⟩ := hrun.inside p.lowBound le_rfl hrun.proper
    -- The span that has the first value ends no earlier than the run.
    let longer : Span α := ⟨q.lowBound, max q.highBound p.highBound⟩
    have hlonger : longer = q := by
      refine hcanonical.eq_of_contains hq le_rfl (le_max_left _ _) fun v hv hle => ?_
      rcases le_max_iff.mp hle with hleq | hlep
      · exact ⟨q, hq, hv, hleq⟩
      rcases le_total v p.lowBound with hbelow | habove
      · exact ⟨q, hq, hv, hbelow.trans hhigh⟩
      · exact hrun.inside v habove hlep
    have hend : p.highBound ≤ q.highBound := by
      have hmax := congrArg Span.highBound hlonger
      exact max_eq_left_iff.mp hmax
    have hsame := hrun.maximal q hlow hend fun v hv hle => ⟨q, hq, hv, hle⟩
    exact hsame ▸ hq

end Intervals
