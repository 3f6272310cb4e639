import Mathlib.Data.List.Basic
import Mathlib.Data.List.Induction

/-! # Runs of a transition system

A step turns an event and a state into the next state, or ends the run. The
rules here take what one step keeps to what a whole run keeps.
-/

namespace Transitions

variable {ε State Event : Type} {step : Event → State → Except ε State}

/-- The state after the events. -/
def run (step : Event → State → Except ε State) (events : List Event) (s : State) :
    Except ε State :=
  events.foldlM (fun s e => step e s) s

/-- What a run ends in can be looked at. -/
instance existsOkDecidable {α : Type} (p : α → Prop) [DecidablePred p] :
    (r : Except ε α) → Decidable (∃ a, r = .ok a ∧ p a)
  | .ok a => decidable_of_iff (p a)
      ⟨fun ha => ⟨a, rfl, ha⟩, fun ⟨_, hok, hp⟩ => Except.ok.inj hok ▸ hp⟩
  | .error _ => .isFalse fun ⟨_, hok, _⟩ => nomatch hok

instance isOkDecidable {α : Type} : (r : Except ε α) → Decidable (∃ a, r = .ok a)
  | .ok a => .isTrue ⟨a, rfl⟩
  | .error _ => .isFalse fun ⟨_, hok⟩ => nomatch hok

@[simp] theorem run_nil (s : State) : run step [] s = .ok s := rfl

theorem run_cons (e : Event) (events : List Event) (s : State) :
    run step (e :: events) s = step e s >>= run step events := by
  rw [run, List.foldlM_cons]
  rfl

theorem run_singleton (e : Event) (s : State) : run step [e] s = step e s := by
  rw [run_cons]
  cases step e s <;> rfl

theorem run_cons_of_ok {e : Event} {events : List Event} {s next : State}
    (hstep : step e s = .ok next) : run step (e :: events) s = run step events next := by
  rw [run_cons, hstep]
  rfl

theorem run_cons_eq_ok {e : Event} {events : List Event} {s s' : State} :
    run step (e :: events) s = .ok s' ↔
      ∃ next, step e s = .ok next ∧ run step events next = .ok s' := by
  rw [run_cons]
  cases step e s with
  | error fault => exact iff_of_false (by rintro ⟨⟩) (by rintro ⟨_, ⟨⟩, _⟩)
  | ok next => exact ⟨fun h => ⟨next, rfl, h⟩, by rintro ⟨_, ⟨⟩, h⟩; exact h⟩

theorem run_append {front back : List Event} {s next : State}
    (hfront : run step front s = .ok next) : run step (front ++ back) s = run step back next := by
  rw [run, List.foldlM_append]
  exact congrArg (· >>= run step back) hfront

theorem run_concat_eq_ok {e : Event} {events : List Event} {s s' : State} :
    run step (events ++ [e]) s = .ok s' ↔
      ∃ last, run step events s = .ok last ∧ step e last = .ok s' := by
  rw [run, List.foldlM_append]
  change run step events s >>= run step [e] = .ok s' ↔ _
  cases run step events s with
  | error fault => exact iff_of_false (by rintro ⟨⟩) (by rintro ⟨_, ⟨⟩, _⟩)
  | ok last =>
      change run step [e] last = .ok s' ↔ _
      simp [run_cons_eq_ok]

theorem run_map {Other : Type} (event : Other → Event) (others : List Other) (s : State) :
    run step (others.map event) s = run (fun other => step (event other)) others s :=
  List.foldlM_map ..

/-- A property of the states that every step keeps is kept by every run. -/
theorem run_invariant {Inv : State → Prop}
    (hstep : ∀ e s s', Inv s → step e s = .ok s' → Inv s') {events : List Event} {s s' : State}
    (hstart : Inv s) (hrun : run step events s = .ok s') : Inv s' := by
  induction events generalizing s with
  | nil =>
      cases hrun
      exact hstart
  | cons e events ih =>
      obtain ⟨next, hnext, hrest⟩ := run_cons_eq_ok.mp hrun
      exact ih (hstep e s next hstart hnext) hrest

/-- If moreover every step from such a state succeeds, every run does. -/
theorem run_total {Inv : State → Prop} (hstep : ∀ e s, Inv s → ∃ s', step e s = .ok s' ∧ Inv s')
    (events : List Event) {s : State} (hstart : Inv s) :
    ∃ s', run step events s = .ok s' ∧ Inv s' := by
  induction events generalizing s with
  | nil => exact ⟨s, rfl, hstart⟩
  | cons e events ih =>
      obtain ⟨next, hnext, hinv⟩ := hstep e s hstart
      rw [run_cons_of_ok hnext]
      exact ih hinv

/-- A run that goes on as long as a measure goes down ends where it cannot. -/
theorem exists_run_of_measure {Inv Done : State → Prop} (measure : State → Nat)
    (hstep : ∀ s, Inv s → ¬ Done s → ∃ events s',
      run step events s = .ok s' ∧ Inv s' ∧ (Done s' ∨ measure s' < measure s))
    {s : State} (hstart : Inv s) : ∃ events s', run step events s = .ok s' ∧ Inv s' ∧ Done s' := by
  induction hbound : measure s using Nat.strongRecOn generalizing s with
  | ind bound ih =>
      by_cases hdone : Done s
      · exact ⟨[], s, rfl, hstart, hdone⟩
      obtain ⟨front, middle, hfront, hmiddle, hends⟩ := hstep s hstart hdone
      rcases hends with hends | hless
      · exact ⟨front, middle, hfront, hmiddle, hends⟩
      obtain ⟨back, s', hback, hlast⟩ := ih (measure middle) (hbound ▸ hless) hmiddle rfl
      exact ⟨front ++ back, s', (run_append hfront).trans hback, hlast⟩

/-- Every step of the run meets the condition in the state before it. -/
def Meets (step : Event → State → Except ε State) (cond : Event → State → Prop) :
    List Event → State → Prop
  | [], _ => True
  | e :: events, s => cond e s ∧ ∀ next, step e s = .ok next → Meets step cond events next

/-- Conditions that can be decided can be decided along a run. -/
instance meetsDecidable {cond : Event → State → Prop} [∀ e s, Decidable (cond e s)] :
    (events : List Event) → (s : State) → Decidable (Meets step cond events s)
  | [], _ => .isTrue trivial
  | e :: events, s =>
      match hstep : step e s with
      | .ok next =>
          have : Decidable (Meets step cond events next) := meetsDecidable events next
          decidable_of_iff (cond e s ∧ Meets step cond events next)
            ⟨fun ⟨hcond, hrest⟩ => ⟨hcond, fun _ hother =>
              Except.ok.inj (hstep.symm.trans hother) ▸ hrest⟩,
              fun ⟨hcond, hrest⟩ => ⟨hcond, hrest next hstep⟩⟩
      | .error _ =>
          decidable_of_iff (cond e s)
            ⟨fun hcond => ⟨hcond, fun _ hother => nomatch hstep.symm.trans hother⟩,
              fun ⟨hcond, _⟩ => hcond⟩

theorem meets_of_forall {cond : Event → State → Prop} (hcond : ∀ e s, cond e s)
    (events : List Event) (s : State) : Meets step cond events s := by
  induction events generalizing s with
  | nil => exact trivial
  | cons e events ih => exact ⟨hcond e s, fun next _ => ih next⟩

/-- A property that every step keeps under a condition is kept by a run whose steps meet it. -/
theorem run_invariant_of_meets {Inv : State → Prop} {cond : Event → State → Prop}
    (hstep : ∀ e s s', Inv s → cond e s → step e s = .ok s' → Inv s') {events : List Event}
    {s s' : State} (hstart : Inv s) (hmeets : Meets step cond events s)
    (hrun : run step events s = .ok s') : Inv s' := by
  induction events generalizing s with
  | nil =>
      cases hrun
      exact hstart
  | cons e events ih =>
      obtain ⟨next, hnext, hrest⟩ := run_cons_eq_ok.mp hrun
      exact ih (hstep e s next hstart hmeets.1 hnext) (hmeets.2 next hnext) hrest

/-- A run whose steps meet a condition, when under the condition a step succeeds and
keeps the property. -/
theorem run_total_of_meets {Inv : State → Prop} {cond : Event → State → Prop}
    (hstep : ∀ e s, Inv s → cond e s → ∃ s', step e s = .ok s' ∧ Inv s') {events : List Event}
    {s : State} (hstart : Inv s) (hmeets : Meets step cond events s) :
    ∃ s', run step events s = .ok s' ∧ Inv s' := by
  induction events generalizing s with
  | nil => exact ⟨s, rfl, hstart⟩
  | cons e events ih =>
      obtain ⟨next, hnext, hinv⟩ := hstep e s hstart hmeets.1
      rw [run_cons_of_ok hnext]
      exact ih hinv (hmeets.2 next hnext)

/-- Where every step does to the view of a state what `act` does to it, a run does so one
event after the other. -/
theorem run_refines {View : Type} {view : State → View} {act : Event → View → View}
    {Inv : State → Prop} {cond : Event → State → Prop}
    (hstep : ∀ e s s', Inv s → cond e s → step e s = .ok s' → Inv s' ∧ view s' = act e (view s))
    {events : List Event} {s s' : State} (hstart : Inv s) (hmeets : Meets step cond events s)
    (hrun : run step events s = .ok s') :
    Inv s' ∧ view s' = events.foldl (fun v e => act e v) (view s) := by
  induction events generalizing s with
  | nil =>
      cases hrun
      exact ⟨hstart, rfl⟩
  | cons e events ih =>
      obtain ⟨next, hnext, hrest⟩ := run_cons_eq_ok.mp hrun
      obtain ⟨hinv, hview⟩ := hstep e s next hstart hmeets.1 hnext
      rw [List.foldl_cons, ← hview]
      exact ih hinv (hmeets.2 next hnext) hrest

/-- Where each event goes on exactly under a condition on the events before it, a run goes on
exactly if each of its events meets the condition. -/
theorem exists_run_iff {cond : List Event → Event → Prop} {s : State} {events : List Event}
    (hstep : ∀ front e back, events = front ++ e :: back → ∀ t, run step front s = .ok t →
      ((∃ t', step e t = .ok t') ↔ cond front e)) :
    (∃ t, run step events s = .ok t) ↔
      ∀ front e back, events = front ++ e :: back → cond front e := by
  induction events using List.reverseRecOn with
  | nil =>
      refine iff_of_true ⟨s, rfl⟩ fun front e back hsplit => ?_
      exact absurd (List.append_eq_nil_iff.mp hsplit.symm).2 (List.cons_ne_nil e back)
  | append_singleton events last ih =>
      have hlonger {front : List Event} {e : Event} {back : List Event}
          (hsplit : events = front ++ e :: back) :
          events ++ [last] = front ++ e :: (back ++ [last]) := by
        rw [hsplit, List.append_assoc, List.cons_append]
      have hfront := ih fun front e back hsplit => hstep front e _ (hlonger hsplit)
      constructor
      · rintro ⟨t', hrun⟩ front e back hsplit
        obtain ⟨t, hbefore, hlast⟩ := run_concat_eq_ok.mp hrun
        rcases List.eq_nil_or_concat' back with rfl | ⟨back, other, rfl⟩
        · obtain ⟨rfl, hsame⟩ := List.append_inj' hsplit rfl
          cases hsame
          exact (hstep events last [] rfl t hbefore).mp ⟨t', hlast⟩
        · rw [← List.cons_append, ← List.append_assoc] at hsplit
          obtain ⟨rfl, -⟩ := List.append_inj' hsplit rfl
          exact hfront.mp ⟨t, hbefore⟩ front e back rfl
      · intro hall
        obtain ⟨t, hbefore⟩ := hfront.mpr fun front e back hsplit => hall front e _ (hlonger hsplit)
        obtain ⟨t', hlast⟩ := (hstep events last [] rfl t hbefore).mpr (hall events last [] rfl)
        exact ⟨t', run_concat_eq_ok.mpr ⟨t, hbefore, hlast⟩⟩

/-- Where a step ends in a fault exactly without the condition, the runs that meet it are
those that do not end in the fault. -/
theorem run_ne_error_iff {Inv : State → Prop} {cond : Event → State → Prop} {fault : ε}
    (hkeep : ∀ e s s', Inv s → step e s = .ok s' → Inv s')
    (hstep : ∀ e s, Inv s → (step e s ≠ .error fault ↔ cond e s)) {events : List Event}
    {s : State} (hstart : Inv s) :
    run step events s ≠ .error fault ↔ Meets step cond events s := by
  induction events generalizing s with
  | nil => exact iff_of_true nofun trivial
  | cons e events ih =>
      rw [run_cons, Meets, ← hstep e s hstart]
      cases hnext : step e s with
      | error other =>
          refine ⟨fun hne => ⟨hne, nofun⟩, fun hmeets => hmeets.1⟩
      | ok next =>
          have hrest := ih (hkeep e s next hstart hnext)
          constructor
          · intro hne
            refine ⟨nofun, ?_⟩
            rintro _ ⟨⟩
            exact hrest.mp hne
          · rintro ⟨-, hmeets⟩
            exact hrest.mpr (hmeets next rfl)

/-- Where a step fails exactly without the condition, the runs that meet it are those
whose every prefix goes on. -/
theorem meets_iff_forall_prefix {Inv Good : State → Prop} {valid cond : Event → State → Prop}
    (hgood : ∀ s, Inv s → Good s)
    (hstep : ∀ e s, Inv s → valid e s → cond e s → ∃ s', step e s = .ok s' ∧ Inv s')
    (hfail : ∀ e s s', Inv s → valid e s → step e s = .ok s' → cond e s) {events : List Event}
    {s : State} (hstart : Inv s) (hvalid : Meets step valid events s) :
    (∀ front, front <+: events → ∃ s', run step front s = .ok s' ∧ Good s') ↔
      Meets step cond events s := by
  induction events generalizing s with
  | nil =>
      refine iff_of_true (fun front hfront => ?_) trivial
      rw [List.prefix_nil.mp hfront]
      exact ⟨s, rfl, hgood s hstart⟩
  | cons e events ih =>
      obtain ⟨hhead, htail⟩ := hvalid
      constructor
      · intro hprefixes
        obtain ⟨next, hnext, -⟩ := hprefixes [e] (List.prefix_append [e] events)
        obtain ⟨_, hok, -⟩ := run_cons_eq_ok.mp hnext
        have hcond := hfail e s _ hstart hhead hok
        obtain ⟨next', hnext', hinv⟩ := hstep e s hstart hhead hcond
        refine ⟨hcond, fun other hother => ?_⟩
        rw [hnext', Except.ok.injEq] at hother
        subst hother
        refine (ih hinv (htail _ hnext')).mp fun front hfront => ?_
        obtain ⟨s', hrun, hs'⟩ := hprefixes (e :: front) (List.cons_prefix_cons.mpr ⟨rfl, hfront⟩)
        rw [run_cons_of_ok hnext'] at hrun
        exact ⟨s', hrun, hs'⟩
      · rintro ⟨hcond, hmeets⟩ front hfront
        obtain ⟨next, hnext, hinv⟩ := hstep e s hstart hhead hcond
        cases front with
        | nil => exact ⟨s, rfl, hgood s hstart⟩
        | cons e' front =>
            obtain ⟨rfl, hrest⟩ := List.cons_prefix_cons.mp hfront
            rw [run_cons_of_ok hnext]
            exact (ih hinv (htail next hnext)).mpr (hmeets next hnext) front hrest

end Transitions
