import Hipft.Server.Converge
import Hipft.Server.Survival

/-! # What the server writes

The main loop and the threads of a connection's channels write to the same socket, one message
behind the other. When the main loop ends a channel it waits for its thread, which can still
write before the answer does.
-/

namespace Hipft

open CMemory Transitions

/-- What was written, each message with its socket. -/
abbrev Log := List (Nat × Msg)

/-- What was written to a socket. -/
def Log.on (sock : Nat) (log : Log) : List Msg :=
  (log.filter fun written => written.1 = sock).map Prod.snd

/-- What a thread has written since. -/
def Worker.writes (w next : Worker) : Log :=
  (next.thread.sent.drop w.thread.sent.length).map fun s => (w.chan.sock, s.msg)

/-- A thread is told to end and joined. It is behind its loop after six steps, in one of which
it can still write, and then frees what it has. -/
def Worker.join (drawn : Nat → UInt32) (log : Log) (w : Worker) : Run Log := do
  let last ← run Worker.step (List.replicate 6 (drawn log.length)) w.setKill
  last.converge
  pure (log ++ w.writes last)

/-- The channels of the connection that a message ends, or its client by closing. -/
def TableEntry.ends (m : Option Msg) (entry : TableEntry) : List Worker :=
  match m with
  | none => entry.chans
  | some m =>
      if verifyMsg m = .ok true then
        match m.request with
        | .close => entry.chans
        | .finish => ((entry.find m.head.sendID m.head.recvID).bind (entry.chans[·]?)).toList
        | _ => []
      else []

/-- The answers to what comes from connection `i`. -/
def Server.answers (spare : Nat → Nat) (handles : List FileHandle) (draw : Draw) (i : Nat)
    (m : Option Msg) (s : Server) : Run (List Msg) :=
  match m with
  | none => pure []
  | some m => do
      let (_, answers) ← handleMessage spare handles draw i m s
      pure answers

/-- What is written in an event, behind what was written before. -/
def ServerEvent.writes (spare : Nat → Nat) (handles : List FileHandle) (drawn : Nat → UInt32)
    (s : Server) (log : Log) : ServerEvent → Run Log
  | .accept _ => pure log
  | .receive i m draw =>
      match s.table[i]? with
      | none => pure log
      | some entry => do
          let log ← (entry.ends m).foldlM (Worker.join drawn) log
          let answers ← s.answers spare handles draw i m
          pure (log ++ answers.map (entry.sock, ·))
  | .step i j msgID =>
      match s.table[i]?.bind fun entry => entry.chans[j]? with
      | none => pure log
      | some w => do
          let next ← w.step msgID
          pure (log ++ w.writes next)

/-- None of the threads that the event ends is drained when it is at its end. -/
def ServerEvent.EndsWell : ServerEvent → Table → Prop
  | .receive i m _, t => ∀ entry, t[i]? = some entry → ∀ w ∈ entry.ends m, ¬ w.EndsDrained
  | _, _ => True

/-- The server, and what it has written. -/
structure Wired where
  server : Server
  log : Log

def Wired.event (spare : Nat → Nat) (handles : List FileHandle) (drawn : Nat → UInt32)
    (e : ServerEvent) (c : Wired) : Run Wired := do
  let server ← Server.event spare handles e c.server
  let log ← e.writes spare handles drawn c.server c.log
  pure ⟨server, log⟩

/-! ## The log of a socket -/

section Log

variable {sock other : Nat}

@[simp] theorem Log.on_append (log log' : Log) :
    Log.on sock (log ++ log') = log.on sock ++ log'.on sock := by
  rw [Log.on, List.filter_append, List.map_append]
  rfl

theorem Log.on_map {α : Type} (f : α → Msg) (written : List α) :
    Log.on sock (written.map fun a => (sock, f a)) = written.map f := by
  rw [Log.on, List.filter_eq_self.mpr (by simp), List.map_map]
  rfl

theorem Log.on_map_other {α : Type} (hother : other ≠ sock) (f : α → Msg) (written : List α) :
    Log.on sock (written.map fun a => (other, f a)) = [] := by
  rw [Log.on, List.filter_eq_nil_iff.mpr (by simp [hother]), List.map_nil]

end Log

/-! ## Threads and their sockets -/

section Threads

variable {handles : List FileHandle} {sock : Nat} {w w' : Worker}

theorem Worker.event_sock {e : ThreadEvent} (hevent : Worker.event e w = .ok w') :
    w'.chan.sock = w.chan.sock := by
  cases e with
  | ready | kill | receive =>
      cases hevent
      rfl
  | step msgID =>
      rw [Worker.event, Worker.step] at hevent
      cases hplace : w.thread.place with
      | waiting =>
          rw [hplace] at hevent
          cases hevent
          split
          next => rfl
          next => rfl
      | loop | relay | reset | ended =>
          rw [hplace] at hevent
          cases hevent
          rfl
      | add | free =>
          rw [hplace] at hevent
          obtain ⟨next, hnext, hevent⟩ := run_bind_eq_ok.mp hevent
          obtain ⟨value, -, hnext⟩ := run_bind_eq_ok.mp hnext
          cases hnext
          cases hevent
          rfl
      | branch =>
          rw [hplace] at hevent
          obtain ⟨next, hbranch, hevent⟩ := run_bind_eq_ok.mp hevent
          cases hevent
          have hchan : next.chan = w.chan := Worker.branch_chan hbranch
          exact congrArg Channel.sock hchan

/-- A channel has the socket of its connection. -/
theorem Worker.Since.sock_eq (hsince : w.Since handles sock) : w.chan.sock = sock := by
  obtain ⟨selfID, otherID, maxSize, fhandle, events, -, -, hrun⟩ := hsince
  have hkept : (fun v : Worker => v.chan.sock = sock) w :=
    run_invariant (fun _ _ _ hv hevent => (Worker.event_sock hevent).trans hv) rfl hrun
  exact hkept

end Threads

/-! ## Runs with the log -/

/-- What holds of the server in a run. -/
structure Server.Reached (handles : List FileHandle) (s : Server) : Prop where
  sound : ∃ cs, s.Sound cs
  since : s.table.All (Worker.Since handles)

section Runs

variable {spare : Nat → Nat} {handles : List FileHandle} {drawn : Nat → UInt32} {sock i : Nat}
  {s s' : Server} {c c' : Wired} {log : Log} {e : ServerEvent}

theorem server_start_reached (handles : List FileHandle) : Server.start.Reached handles :=
  ⟨⟨[], server_start_sound⟩, List.forall_mem_nil _⟩

theorem Server.Reached.event (hreached : s.Reached handles)
    (hevent : Server.event spare handles e s = .ok s') : s'.Reached handles := by
  obtain ⟨⟨cs, hsound⟩, hsince⟩ := hreached
  refine ⟨hsound.event hevent, ?_⟩
  rw [event_table hsound hevent]
  exact (since_invariant handles).act hsince e

theorem Server.Reached.live (hreached : s.Reached handles) {entry : TableEntry}
    (hentry : entry ∈ s.table) {w : Worker} (hw : w ∈ entry.chans) : Live w.chan := by
  obtain ⟨⟨cs, hsound⟩, -⟩ := hreached
  exact hsound.live_table hentry hw

theorem TableEntry.mem_of_ends {m : Option Msg} {entry : TableEntry} {w : Worker}
    (hw : w ∈ entry.ends m) : w ∈ entry.chans := by
  cases m with
  | none => exact hw
  | some m =>
    simp only [TableEntry.ends] at hw
    split at hw
    next =>
      split at hw
      next => exact hw
      next =>
        rw [Option.mem_toList, Option.bind_eq_some_iff] at hw
        obtain ⟨j, -, hj⟩ := hw
        exact List.mem_of_getElem? hj
      next => cases hw
    next => cases hw

/-- The server does what it does without the log. -/
theorem wired_server (hevent : Wired.event spare handles drawn e c = .ok c') :
    Server.event spare handles e c.server = .ok c'.server ∧
      e.writes spare handles drawn c.server c.log = .ok c'.log := by
  obtain ⟨server, hserver, hevent⟩ := run_bind_eq_ok.mp hevent
  obtain ⟨log, hlog, hevent⟩ := run_bind_eq_ok.mp hevent
  cases hevent
  exact ⟨hserver, hlog⟩

theorem wired_reached {events : List ServerEvent}
    (hrun : run (Wired.event spare handles drawn) events ⟨Server.start, []⟩ = .ok c) :
    c.server.Reached handles := by
  have hstep : ∀ (e : ServerEvent) (now next : Wired), now.server.Reached handles →
      Wired.event spare handles drawn e now = .ok next → next.server.Reached handles :=
    fun _ _ _ hreached hevent => hreached.event (wired_server hevent).1
  exact run_invariant hstep (server_start_reached handles) hrun

/-- Threads can be joined, one after the other, unless one of them ends drained. -/
theorem joins_isOk_iff {ws : List Worker} (hws : ∀ w ∈ ws, w.Since handles sock ∧ Live w.chan)
    (drawn : Nat → UInt32) (log : Log) :
    (∃ log', ws.foldlM (Worker.join drawn) log = .ok log') ↔ ∀ w ∈ ws, ¬ w.EndsDrained := by
  induction ws generalizing log with
  | nil => exact iff_of_true ⟨log, rfl⟩ (List.forall_mem_nil _)
  | cons w ws ih =>
      obtain ⟨⟨hsince, hlive⟩, hws⟩ := List.forall_mem_cons.mp hws
      obtain ⟨fhandle, firsts, agains, hrunning⟩ := hsince.running hlive.maxSize
      obtain ⟨last, hlast, -⟩ := hrunning.join (drawn log.length)
      have hends := hrunning.join_isOk_iff hlast
      rw [List.forall_mem_cons, ← ih hws (log ++ w.writes last), ← hends, List.foldlM_cons,
        Worker.join, hlast, run_bind]
      cases hconverge : last.converge with
      | error crash => exact iff_of_false (by rintro ⟨_, ⟨⟩⟩) (by rintro ⟨⟨⟩, -⟩)
      | ok freed => exact (and_iff_right rfl).symm

/-- Where the server comes through an event, it does so with the log unless a thread that it
ends is drained. -/
theorem Server.Reached.writes_isOk_iff (hreached : c.server.Reached handles)
    (hevent : Server.event spare handles e c.server = .ok s') (drawn : Nat → UInt32) :
    (∃ log, e.writes spare handles drawn c.server c.log = .ok log) ↔
      e.EndsWell c.server.table := by
  cases e with
  | accept other => exact iff_of_true ⟨c.log, rfl⟩ trivial
  | receive i m draw =>
      simp only [ServerEvent.writes, ServerEvent.EndsWell]
      cases hentry : c.server.table[i]? with
      | none => exact iff_of_true ⟨c.log, rfl⟩ nofun
      | some entry =>
          have hmem := List.mem_of_getElem? hentry
          have hends : ∀ w ∈ entry.ends m, w.Since handles entry.sock ∧ Live w.chan :=
            fun w hw => ⟨hreached.since entry hmem w (TableEntry.mem_of_ends hw),
              hreached.live hmem (TableEntry.mem_of_ends hw)⟩
          obtain ⟨hi, -⟩ := List.getElem?_eq_some_iff.mp hentry
          obtain ⟨cs, hsound⟩ := hreached.sound
          simp only [Server.event, if_pos (hsound.filled.totalConnections ▸ hi :
            i < c.server.totalConnections.toNat)] at hevent
          obtain ⟨answers, hanswers⟩ : ∃ answers,
              c.server.answers spare handles draw i m = .ok answers := by
            cases m with
            | none => exact ⟨[], rfl⟩
            | some m =>
                obtain ⟨⟨server, answers⟩, hhandle, -⟩ := run_bind_eq_ok.mp hevent
                refine ⟨answers, ?_⟩
                rw [Server.answers, hhandle]
                rfl
          simp only [Option.some.injEq, forall_eq']
          rw [← joins_isOk_iff hends drawn c.log]
          constructor
          · rintro ⟨log, hwrites⟩
            obtain ⟨joined, hjoins, -⟩ := run_bind_eq_ok.mp hwrites
            exact ⟨joined, hjoins⟩
          · rintro ⟨joined, hjoins⟩
            refine ⟨joined ++ answers.map (entry.sock, ·), ?_⟩
            simp only [hjoins, hanswers, run_bind]
            rfl
  | step i j msgID =>
      refine iff_of_true ?_ trivial
      simp only [ServerEvent.writes]
      cases hw : c.server.table[i]?.bind fun entry => entry.chans[j]? with
      | none => exact ⟨c.log, rfl⟩
      | some w =>
          obtain ⟨entry, hentry, hj⟩ := Option.bind_eq_some_iff.mp hw
          have hmem := List.mem_of_getElem? hentry
          have hworker := List.mem_of_getElem? hj
          obtain ⟨fhandle, firsts, agains, hrunning⟩ :=
            (hreached.since entry hmem w hworker).running (hreached.live hmem hworker).maxSize
          obtain ⟨next, -, -, hstep, -⟩ := hrunning.step msgID
          refine ⟨c.log ++ w.writes next, ?_⟩
          simp only [hstep, run_bind]
          rfl

/-- An event with the log is one that the server comes through, and that ends no drained
thread. -/
theorem Server.Reached.wired_isOk_iff (hreached : c.server.Reached handles)
    (drawn : Nat → UInt32) :
    (∃ c', Wired.event spare handles drawn e c = .ok c') ↔
      (∃ s', Server.event spare handles e c.server = .ok s') ∧
        e.EndsWell c.server.table := by
  constructor
  · rintro ⟨c', hevent⟩
    obtain ⟨hserver, hwrites⟩ := wired_server hevent
    exact ⟨⟨_, hserver⟩, (hreached.writes_isOk_iff hserver drawn).mp ⟨_, hwrites⟩⟩
  · rintro ⟨⟨s', hserver⟩, hends⟩
    obtain ⟨log, hwrites⟩ := (hreached.writes_isOk_iff hserver drawn).mpr hends
    refine ⟨⟨s', log⟩, ?_⟩
    rw [Wired.event, hserver, run_bind, hwrites]
    rfl

end Runs

/-! ## Sockets of their own -/

section Sockets

variable {spare : Nat → Nat} {handles : List FileHandle} {drawn : Nat → UInt32} {sock i : Nat}
  {s : Server} {c c' : Wired} {log log' : Log} {e : ServerEvent}

theorem joins_on_other {ws : List Worker} (hws : ∀ w ∈ ws, w.chan.sock ≠ sock)
    (hjoins : ws.foldlM (Worker.join drawn) log = .ok log') : log'.on sock = log.on sock := by
  induction ws generalizing log with
  | nil =>
      cases hjoins
      rfl
  | cons w ws ih =>
      obtain ⟨hw, hws⟩ := List.forall_mem_cons.mp hws
      rw [List.foldlM_cons] at hjoins
      obtain ⟨joined, hjoin, hjoins⟩ := run_bind_eq_ok.mp hjoins
      obtain ⟨last, -, hjoin⟩ := run_bind_eq_ok.mp hjoin
      obtain ⟨-, -, hjoin⟩ := run_bind_eq_ok.mp hjoin
      cases hjoin
      rw [ih hws hjoins, Log.on_append, Worker.writes, Log.on_map_other hw, List.append_nil]

/-- What is not of a connection writes nothing to its socket. -/
theorem Server.Reached.writes_spares (hreached : s.Reached handles)
    (hspares : e.Spares sock s.table) (hwrites : e.writes spare handles drawn s log = .ok log') :
    log'.on sock = log.on sock := by
  cases e with
  | accept other =>
      cases hwrites
      rfl
  | receive i m draw =>
      simp only [ServerEvent.writes] at hwrites
      cases hentry : s.table[i]? with
      | none =>
          rw [hentry] at hwrites
          cases hwrites
          rfl
      | some entry =>
          rw [hentry] at hwrites
          obtain ⟨joined, hjoins, hwrites⟩ := run_bind_eq_ok.mp hwrites
          obtain ⟨answers, -, hwrites⟩ := run_bind_eq_ok.mp hwrites
          cases hwrites
          have hother : entry.sock ≠ sock := hspares entry hentry
          rw [Log.on_append, Log.on_map_other hother, List.append_nil]
          refine joins_on_other (fun w hw => ?_) hjoins
          rw [(hreached.since entry (List.mem_of_getElem? hentry) w
            (TableEntry.mem_of_ends hw)).sock_eq]
          exact hother
  | step i j msgID =>
      simp only [ServerEvent.writes] at hwrites
      cases hw : s.table[i]?.bind fun entry => entry.chans[j]? with
      | none =>
          rw [hw] at hwrites
          cases hwrites
          rfl
      | some w =>
          rw [hw] at hwrites
          obtain ⟨next, -, hwrites⟩ := run_bind_eq_ok.mp hwrites
          cases hwrites
          obtain ⟨entry, hentry, hj⟩ := Option.bind_eq_some_iff.mp hw
          have hother : w.chan.sock ≠ sock := by
            rw [(hreached.since entry (List.mem_of_getElem? hentry) w
              (List.mem_of_getElem? hj)).sock_eq]
            exact hspares entry hentry
          rw [Log.on_append, Worker.writes, Log.on_map_other hother, List.append_nil]

/-- What is not of a connection leaves it as it is and writes nothing to it. -/
theorem wired_spares (hreached : c.server.Reached handles)
    (hspares : e.Spares sock c.server.table)
    (hevent : Wired.event spare handles drawn e c = .ok c') :
    c'.server.table.of sock = c.server.table.of sock ∧ c'.log.on sock = c.log.on sock := by
  obtain ⟨hserver, hwrites⟩ := wired_server hevent
  obtain ⟨cs, hsound⟩ := hreached.sound
  rw [event_table hsound hserver, of_act handles hspares]
  exact ⟨rfl, hreached.writes_spares hspares hwrites⟩

/-- However long the others go on, a connection and its channels stay as they are, and nothing
is written to it, until something comes in from it or one of its own threads does a step. -/
theorem run_spares {before after : List ServerEvent}
    (hbefore : run (Wired.event spare handles drawn) before ⟨Server.start, []⟩ = .ok c)
    (hafter : run (Wired.event spare handles drawn) after c = .ok c')
    (hspares : Meets (Wired.event spare handles drawn)
      (fun e c => e.Spares sock c.server.table) after c) :
    c'.server.table.of sock = c.server.table.of sock ∧ c'.log.on sock = c.log.on sock := by
  have hstep : ∀ (e : ServerEvent) (now next : Wired),
      (now.server.Reached handles ∧ now.server.table.of sock = c.server.table.of sock ∧
        now.log.on sock = c.log.on sock) → e.Spares sock now.server.table →
      Wired.event spare handles drawn e now = .ok next →
      (next.server.Reached handles ∧ next.server.table.of sock = c.server.table.of sock ∧
        next.log.on sock = c.log.on sock) := by
    rintro e now next ⟨hreached, htable, hlog⟩ hspares hevent
    obtain ⟨htable', hlog'⟩ := wired_spares hreached hspares hevent
    exact ⟨hreached.event (wired_server hevent).1, htable'.trans htable, hlog'.trans hlog⟩
  exact (run_invariant_of_meets hstep ⟨wired_reached hbefore, rfl, rfl⟩ hspares hafter).2

/-- The first of two clients asks for a channel. -/
theorem run_spares_two :
    ∃ c c', run (Wired.event oneMore [threeBytes] fun _ => 7) [.accept 5, .accept 6]
        ⟨Server.start, []⟩ = .ok c ∧
      run (Wired.event oneMore [threeBytes] fun _ => 7) [.receive 0 (some (askMsg 100)) ⟨9, 1⟩] c =
        .ok c' ∧
      c'.server.table.of 6 = c.server.table.of 6 ∧ c'.log.on 6 = c.log.on 6 := by
  have hruns : ∃ c, run (Wired.event oneMore [threeBytes] fun _ => 7) [.accept 5, .accept 6]
        ⟨Server.start, []⟩ = .ok c ∧ c.server.table[0]? = some ⟨5, []⟩ ∧
      ∃ c', run (Wired.event oneMore [threeBytes] fun _ => 7)
        [.receive 0 (some (askMsg 100)) ⟨9, 1⟩] c = .ok c' ∧ c'.log.length = 1 := by
    decide +kernel
  obtain ⟨c, hbefore, hfirst, c', hafter, -⟩ := hruns
  refine ⟨c, c', hbefore, hafter, run_spares hbefore hafter ⟨?_, fun _ _ => trivial⟩⟩
  intro entry hentry
  rw [hfirst, Option.some.injEq] at hentry
  rw [← hentry]
  decide

end Sockets

end Hipft
