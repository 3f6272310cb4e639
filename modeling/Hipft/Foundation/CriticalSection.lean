import Hipft.Foundation.Transitions
import Mathlib.Logic.Function.Basic

/-! # Calls under one lock

Threads make calls, each its own in its own order. A call has the shared state to itself
from where it gets the lock on. It may come out without the lock released, and then no
other gets it. Whatever the schedule, the calls have run one after another.
-/

namespace CriticalSection

open Transitions

/-- How a call stands that got the lock: it has more to do, or it came out with a value and
released the lock or not. -/
inductive Status (Local Value : Type)
  | inside (vars : Local)
  | released (value : Value)
  | kept (value : Value)
  deriving DecidableEq, Repr

/-- What the calls do under the lock. A step is given what its surroundings answer. -/
structure Body (ε Call Input Local Value Shared : Type) where
  enter : Call → Status Local Value
  step : Call → Input → Local → Shared → Except ε (Status Local Value × Shared)

/-- Who has the lock. It is lost when a call came out without releasing it. -/
inductive Lock (Thread Call Local : Type)
  | free
  | held (thread : Thread) (call : Call) (vars : Local)
  | lost
  deriving DecidableEq, Repr

/-- The shared state, the lock, the calls that every thread has not come out of, and those
that came out. -/
structure State (Thread Call Local Value Shared : Type) where
  shared : Shared
  lock : Lock Thread Call Local
  todo : Thread → List Call
  returned : List (Thread × Call × Value)

/-- A thread tries to get the lock, or goes on under it. -/
inductive Event (Thread Input : Type)
  | lock (thread : Thread)
  | step (thread : Thread) (input : Input)
  deriving DecidableEq, Repr

/-- No call has begun. -/
def State.start {Thread Call Local Value Shared : Type} (shared : Shared)
    (program : Thread → List Call) : State Thread Call Local Value Shared :=
  ⟨shared, .free, program, []⟩

variable {ε Thread Call Input Local Value Shared : Type} [DecidableEq Thread]

/-- The call has come out. -/
def State.leave (thread : Thread) (call : Call) (value : Value) (lock : Lock Thread Call Local)
    (s : State Thread Call Local Value Shared) : State Thread Call Local Value Shared :=
  { s with
    lock
    todo := Function.update s.todo thread (s.todo thread).tail
    returned := s.returned ++ [(thread, call, value)] }

/-- The state after a step of the call that has the lock. -/
def State.settle (thread : Thread) (call : Call) (s : State Thread Call Local Value Shared) :
    Status Local Value × Shared → State Thread Call Local Value Shared
  | (.inside vars, shared) => { s with shared, lock := .held thread call vars }
  | (.released value, shared) => { s with shared }.leave thread call value .free
  | (.kept value, shared) => { s with shared }.leave thread call value .lost

variable (body : Body ε Call Input Local Value Shared)

/-- A thread that has not got the lock waits, and one that has nothing to do rests. -/
def event : Event Thread Input → State Thread Call Local Value Shared →
    Except ε (State Thread Call Local Value Shared)
  | .lock thread, s =>
      match s.lock, s.todo thread with
      | .free, call :: _ => pure (s.settle thread call (body.enter call, s.shared))
      | _, _ => pure s
  | .step thread input, s =>
      match s.lock with
      | .held holder call vars =>
          if holder = thread then do
            let next ← body.step call input vars s.shared
            pure (s.settle thread call next)
          else pure s
      | _ => pure s

/-! ## Calls on their own -/

/-- A step of a call with nobody else there. -/
def Body.advance (call : Call) (input : Input) :
    Status Local Value × Shared → Except ε (Status Local Value × Shared)
  | (.inside vars, shared) => body.step call input vars shared
  | (out, shared) => pure (out, shared)

/-- The call from where it gets the lock on, with nobody else there. -/
def Body.alone (call : Call) (inputs : List Input) (shared : Shared) :
    Except ε (Status Local Value × Shared) :=
  run (body.advance call) inputs (body.enter call, shared)

/-- The calls one after another, each from its lock to its release. -/
inductive Serial (start : Shared) : List (Thread × Call × Value) → Shared → Prop
  | nil : Serial start [] start
  | concat {history : List (Thread × Call × Value)} {shared next : Shared} {inputs : List Input}
      {call : Call} {value : Value} (thread : Thread) : Serial start history shared →
      body.alone call inputs shared = .ok (.released value, next) →
      Serial start (history ++ [(thread, call, value)]) next

/-- How a run stands: some calls have run one after another, and at most one more has begun
on what they left. It is still under way, or has kept the lock. -/
inductive Stands (start : Shared) : State Thread Call Local Value Shared → Prop
  | free {todo : Thread → List Call} {history : List (Thread × Call × Value)} {shared : Shared} :
      Serial body start history shared → Stands start ⟨shared, .free, todo, history⟩
  | held {todo : Thread → List Call} {history : List (Thread × Call × Value)}
      {base shared : Shared} {inputs : List Input} {call : Call} {vars : Local}
      {rest : List Call} (thread : Thread) : Serial body start history base →
      body.alone call inputs base = .ok (.inside vars, shared) → todo thread = call :: rest →
      Stands start ⟨shared, .held thread call vars, todo, history⟩
  | lost {todo : Thread → List Call} {history : List (Thread × Call × Value)}
      {base shared : Shared} {inputs : List Input} {call : Call} {value : Value}
      (thread : Thread) : Serial body start history base →
      body.alone call inputs base = .ok (.kept value, shared) →
      Stands start ⟨shared, .lost, todo, history ++ [(thread, call, value)]⟩

section Alone

variable {body}

@[simp] theorem alone_nil (call : Call) (shared : Shared) :
    body.alone call [] shared = .ok (body.enter call, shared) := rfl

theorem alone_concat {call : Call} {inputs : List Input} {base shared : Shared} {vars : Local}
    {next : Status Local Value × Shared}
    (halone : body.alone call inputs base = .ok (.inside vars, shared)) {input : Input}
    (hstep : body.step call input vars shared = .ok next) :
    body.alone call (inputs ++ [input]) base = .ok next := by
  rw [Body.alone, run_append halone, run_cons]
  exact congrArg (· >>= run _ []) hstep

end Alone

/-! ## Any schedule -/

section Schedules

variable {body} {start : Shared}

/-- A step of the call that has the lock, seen from the calls before it. -/
theorem Stands.settle {todo : Thread → List Call} {history : List (Thread × Call × Value)}
    {base shared : Shared} {inputs : List Input} {call : Call} {rest : List Call} {thread : Thread}
    {lock : Lock Thread Call Local} {next : Status Local Value × Shared}
    (hserial : Serial body start history base)
    (halone : body.alone call inputs base = .ok next) (htodo : todo thread = call :: rest) :
    Stands body start (State.settle thread call ⟨shared, lock, todo, history⟩ next) := by
  obtain ⟨out, after⟩ := next
  cases out with
  | inside vars => exact .held thread hserial halone htodo
  | released value => exact .free (.concat thread hserial halone)
  | kept value => exact .lost thread hserial halone

/-- What an event can do: nothing, let a call begin, or take one a step further. -/
theorem event_cases {s s' : State Thread Call Local Value Shared} {e : Event Thread Input}
    (hevent : event body e s = .ok s') :
    s' = s ∨
    (∃ thread call rest, s.lock = .free ∧ s.todo thread = call :: rest ∧
      s' = s.settle thread call (body.enter call, s.shared)) ∨
    ∃ thread call input vars next, s.lock = .held thread call vars ∧
      body.step call input vars s.shared = .ok next ∧ s' = s.settle thread call next := by
  cases e with
  | lock thread =>
      simp only [event] at hevent
      split at hevent
      next call rest hlock htodo =>
        cases hevent
        exact .inr (.inl ⟨thread, call, rest, hlock, htodo, rfl⟩)
      next =>
        cases hevent
        exact .inl rfl
  | step thread input =>
      simp only [event] at hevent
      split at hevent
      next holder call vars hlock =>
        split at hevent
        next hholder =>
          subst hholder
          cases hnext : body.step call input vars s.shared with
          | error fault =>
              rw [hnext] at hevent
              cases hevent
          | ok next =>
              rw [hnext] at hevent
              cases hevent
              exact .inr (.inr ⟨holder, call, input, vars, next, hlock, hnext, rfl⟩)
        next =>
          cases hevent
          exact .inl rfl
      next =>
        cases hevent
        exact .inl rfl

theorem Stands.event {s s' : State Thread Call Local Value Shared} (hstands : Stands body start s)
    {e : Event Thread Input} (hevent : event body e s = .ok s') : Stands body start s' := by
  rcases event_cases hevent with rfl | ⟨thread, call, rest, hlock, htodo, rfl⟩ |
    ⟨thread, call, input, vars, next, hlock, hnext, rfl⟩
  · exact hstands
  · cases hstands with
    | free hserial => exact .settle hserial (alone_nil call _) htodo
    | held => cases hlock
    | lost => cases hlock
  · cases hstands with
    | free => cases hlock
    | held _ hserial halone htodo =>
        cases hlock
        exact .settle hserial (alone_concat halone hnext) htodo
    | lost => cases hlock

/-- Whatever the schedule, the calls have run one after another. -/
theorem run_stands {program : Thread → List Call} {events : List (Event Thread Input)}
    {s : State Thread Call Local Value Shared}
    (hrun : run (event body) events (State.start start program) = .ok s) :
    Stands body start s :=
  run_invariant (fun _ _ _ hs hevent => hs.event hevent)
    (.free .nil) hrun

/-! ## The order in a thread -/

/-- The calls of a thread that came out. -/
def State.callsOf (s : State Thread Call Local Value Shared) (thread : Thread) : List Call :=
  (s.returned.filter fun out => out.1 = thread).map fun out => out.2.1

theorem leave_order {s : State Thread Call Local Value Shared} {thread : Thread} {call : Call}
    {rest : List Call} (htodo : s.todo thread = call :: rest) (value : Value)
    (lock : Lock Thread Call Local) (other : Thread) :
    (s.leave thread call value lock).callsOf other ++ (s.leave thread call value lock).todo other =
      s.callsOf other ++ s.todo other := by
  by_cases hother : thread = other
  · subst hother
    simp [State.leave, State.callsOf, List.filter_append, htodo]
  · simp [State.leave, State.callsOf, List.filter_append, hother, Ne.symm hother]

theorem settle_order {s : State Thread Call Local Value Shared} {thread : Thread} {call : Call}
    {rest : List Call} (htodo : s.todo thread = call :: rest)
    (next : Status Local Value × Shared) (other : Thread) :
    (s.settle thread call next).callsOf other ++ (s.settle thread call next).todo other =
      s.callsOf other ++ s.todo other := by
  obtain ⟨out, after⟩ := next
  cases out with
  | inside vars => rfl
  | released value => exact leave_order (s := { s with shared := after }) htodo value .free other
  | kept value => exact leave_order (s := { s with shared := after }) htodo value .lost other

/-- What a thread came out of and what it has to do are its program, in its order. -/
theorem run_order {program : Thread → List Call} {events : List (Event Thread Input)}
    {s : State Thread Call Local Value Shared}
    (hrun : run (event body) events (State.start start program) = .ok s) (thread : Thread) :
    s.callsOf thread ++ s.todo thread = program thread := by
  have hboth : Stands body start s ∧ s.callsOf thread ++ s.todo thread = program thread := by
    apply run_invariant ?_ ⟨.free .nil, rfl⟩ hrun
    rintro e s s' ⟨hstands, horder⟩ hevent
    refine ⟨hstands.event hevent, ?_⟩
    rcases event_cases hevent with rfl | ⟨_, call, rest, hlock, htodo, rfl⟩ |
      ⟨_, call, input, vars, next, hlock, hnext, rfl⟩
    · exact horder
    · rw [settle_order htodo, horder]
    · cases hstands with
      | free => cases hlock
      | held _ _ _ htodo =>
          cases hlock
          rw [settle_order htodo, horder]
      | lost => cases hlock
  exact hboth.2

end Schedules

/-! ## A lock that is lost -/

section Progress

variable {body} {start : Shared} {s : State Thread Call Local Value Shared}

/-- No event does anything any more. -/
theorem run_lost (hlost : s.lock = .lost) (events : List (Event Thread Input)) :
    run (event body) events s = .ok s := by
  induction events with
  | nil => rfl
  | cons e events ih =>
      have hevent : event body e s = .ok s := by
        cases e with
        | lock thread => simp only [event, hlost, pure, Except.pure]
        | step thread input => simp only [event, hlost, pure, Except.pure]
      rw [run_cons_of_ok hevent, ih]

/-- A call that is out makes no steps. -/
theorem run_advance_out {call : Call} {out : Status Local Value} {shared : Shared}
    (hout : ∀ vars, out ≠ .inside vars) (more : List Input) :
    run (body.advance call) more (out, shared) = .ok (out, shared) := by
  induction more with
  | nil => rfl
  | cons input more ih =>
      have hsame : body.advance call input (out, shared) = .ok (out, shared) := by
        cases out with
        | inside vars => exact absurd rfl (hout vars)
        | released value => rfl
        | kept value => rfl
      rw [run_cons_of_ok hsame, ih]

theorem run_steps_out {thread : Thread} (hout : ∀ holder call vars, s.lock ≠ .held holder call vars)
    (more : List Input) : run (event body) (more.map (.step thread)) s = .ok s := by
  induction more with
  | nil => rfl
  | cons input more ih =>
      have hevent : event body (.step thread input) s = .ok s := by
        cases hlock : s.lock with
        | held holder call vars => exact absurd hlock (hout holder call vars)
        | free => simp only [event, hlock, pure, Except.pure]
        | lost => simp only [event, hlock, pure, Except.pure]
      rw [List.map_cons, run_cons_of_ok hevent, ih]

theorem settle_settle {thread : Thread} {call : Call} {vars : Local} {shared : Shared}
    (next : Status Local Value × Shared) :
    (s.settle thread call (.inside vars, shared)).settle thread call next =
      s.settle thread call next := by
  obtain ⟨out, after⟩ := next
  cases out <;> rfl

/-- A call that has the lock goes on as it does on its own. -/
theorem run_steps {thread : Thread} {call : Call} {more : List Input} {vars : Local}
    {next : Status Local Value × Shared} (hlock : s.lock = .held thread call vars)
    (halone : run (body.advance call) more (.inside vars, s.shared) = .ok next) :
    run (event body) (more.map (.step thread)) s = .ok (s.settle thread call next) := by
  induction more generalizing s vars with
  | nil =>
      cases halone
      obtain ⟨shared, lock, todo, returned⟩ := s
      cases hlock
      rfl
  | cons input more ih =>
      obtain ⟨⟨out, after⟩, hstep, hmore⟩ := run_cons_eq_ok.mp halone
      have hevent :
          event body (.step thread input) s = .ok (s.settle thread call (out, after)) := by
        change body.step call input vars s.shared = _ at hstep
        simp only [event, hlock, hstep, if_true]
        rfl
      rw [List.map_cons, run_cons_of_ok hevent]
      cases out with
      | inside vars => rw [ih rfl hmore, settle_settle]
      | released value =>
          rw [run_advance_out nofun] at hmore
          cases hmore
          exact run_steps_out nofun more
      | kept value =>
          rw [run_advance_out nofun] at hmore
          cases hmore
          exact run_steps_out nofun more

variable (body) in
/-- Every call that began can be brought out with the lock released. -/
structure Releases : Prop where
  enter : ∀ call value, body.enter call ≠ .kept value
  ends : ∀ {call inputs base vars shared},
    body.alone call inputs base = .ok (.inside vars, shared) → ∃ more value last,
      run (body.advance call) more (.inside vars, shared) = .ok (.released value, last)

/-- The call that has the lock can come out. -/
theorem Releases.exists_run_held (hreleases : Releases body) (hstands : Stands body start s)
    {thread : Thread} {call : Call} {vars : Local} (hlock : s.lock = .held thread call vars) :
    ∃ events s', run (event body) events s = .ok s' ∧ s'.lock = .free ∧
      s'.todo = Function.update s.todo thread (s.todo thread).tail := by
  cases hstands with
  | free => cases hlock
  | held _ _ halone _ =>
      cases hlock
      obtain ⟨more, value, last, hmore⟩ := hreleases.ends halone
      exact ⟨_, _, run_steps rfl hmore, rfl, rfl⟩
  | lost => cases hlock

/-- The next call of a thread can run from its beginning to its end. -/
theorem Releases.exists_run_free (hreleases : Releases body) (hstands : Stands body start s)
    (hlock : s.lock = .free) {thread : Thread} {call : Call} {rest : List Call}
    (htodo : s.todo thread = call :: rest) :
    ∃ events s', run (event body) events s = .ok s' ∧ s'.lock = .free ∧ s'.todo thread = rest := by
  have hevent : event body (.lock thread) s =
      .ok (s.settle thread call (body.enter call, s.shared)) := by
    simp only [event, hlock, htodo, pure, Except.pure]
  have hafter := hstands.event hevent
  cases hstatus : body.enter call with
  | inside vars =>
      rw [hstatus] at hevent hafter
      obtain ⟨events, s', hrun, hfree, hrest⟩ := hreleases.exists_run_held hafter rfl
      refine ⟨.lock thread :: events, s', ?_, hfree, ?_⟩
      · rw [run_cons_of_ok hevent, hrun]
      · rw [hrest, Function.update_self]
        exact congrArg List.tail htodo
  | released value =>
      rw [hstatus] at hevent
      refine ⟨[.lock thread], _, run_cons_of_ok hevent, rfl, ?_⟩
      simp [State.settle, State.leave, htodo]
  | kept value => exact absurd hstatus (hreleases.enter call value)

/-- As long as the lock is not lost, a thread can be brought through all its calls. -/
theorem Releases.exists_run_through (hreleases : Releases body) (hstands : Stands body start s)
    (hlock : s.lock ≠ .lost) (thread : Thread) :
    ∃ events s', run (event body) events s = .ok s' ∧ s'.todo thread = [] := by
  have hfree : ∀ calls (s : State Thread Call Local Value Shared), Stands body start s →
      s.lock = .free → s.todo thread = calls →
      ∃ events s', run (event body) events s = .ok s' ∧ s'.todo thread = [] := by
    intro calls
    induction calls with
    | nil => exact fun s _ _ htodo => ⟨[], s, rfl, htodo⟩
    | cons call rest ih =>
        intro s hstands hlock htodo
        obtain ⟨front, middle, hfront, hmiddle, hrest⟩ :=
          hreleases.exists_run_free hstands hlock htodo
        obtain ⟨back, s', hback, hdone⟩ :=
          ih middle (run_invariant (fun _ _ _ hs => hs.event) hstands hfront) hmiddle hrest
        exact ⟨front ++ back, s', (run_append hfront).trans hback, hdone⟩
  cases hheld : s.lock with
  | free => exact hfree _ s hstands hheld rfl
  | held holder call vars =>
      obtain ⟨front, middle, hfront, hmiddle, -⟩ := hreleases.exists_run_held hstands hheld
      obtain ⟨back, s', hback, hdone⟩ :=
        hfree _ middle (run_invariant (fun _ _ _ hs => hs.event) hstands hfront) hmiddle rfl
      exact ⟨front ++ back, s', (run_append hfront).trans hback, hdone⟩
  | lost => exact absurd hheld hlock

/-- A thread that has something to do can be brought through it exactly if the lock is not
lost. -/
theorem Releases.exists_run_iff (hreleases : Releases body) (hstands : Stands body start s)
    {thread : Thread} (htodo : s.todo thread ≠ []) :
    (∃ events s', run (event body) events s = .ok s' ∧ s'.todo thread = []) ↔ s.lock ≠ .lost := by
  constructor
  · rintro ⟨events, s', hrun, hdone⟩ hlost
    rw [run_lost hlost, Except.ok.injEq] at hrun
    subst hrun
    exact htodo hdone
  · intro hlock
    exact hreleases.exists_run_through hstands hlock thread

end Progress

end CriticalSection
