import Hipft.Server.Wire

/-! # Threads that end

The main loop joins the thread of every channel that it ends. So the server comes through a run
if each of its events can be survived and no thread that ends is drained then.
-/

namespace Hipft

open CMemory Transitions

/-! ## Runs -/

section Runs

variable {spare : Nat → Nat} {handles : List FileHandle} {drawn : Nat → UInt32}
  {events : List ServerEvent} {c : Wired}

end Runs

/-! ## All connections -/

/-- `end_connection(conns, totalConnections, totalChannels, index)`, with the threads that it
joins. -/
def Wired.endConnection (drawn : Nat → UInt32) (index : Nat) (c : Wired) : Run Wired := do
  let server ← checked (Hipft.endConnection index c.server)
  let log ← ((c.server.table[index]?.map TableEntry.chans).getD []).foldlM (Worker.join drawn) c.log
  pure ⟨server, log⟩

/-- `end_all_connections(conns, totalConnections, totalChannels)`. -/
def endAllConnections (drawn : Nat → UInt32) : Nat → Wired → Run Wired
  | 0, _ => .error (.memory .hang)
  | fuel + 1, c =>
      if c.server.totalConnections ≠ 0 then do
        let c ← c.endConnection drawn 0
        endAllConnections drawn fuel c
      else pure c

section All

variable {handles : List FileHandle} {c : Wired}

/-- The first connection can be ended unless one of its threads ends drained, and the others
are left. -/
theorem Server.Reached.endConnection (hreached : c.server.Reached handles) {entry : TableEntry}
    {rest : Table} (htable : c.server.table = entry :: rest) (drawn : Nat → UInt32) :
    ((∃ c', c.endConnection drawn 0 = .ok c') ↔ ∀ w ∈ entry.chans, ¬ w.EndsDrained) ∧
      ∀ c', c.endConnection drawn 0 = .ok c' →
        c'.server.Reached handles ∧ c'.server.table = rest := by
  have hmem : entry ∈ c.server.table := htable ▸ List.mem_cons_self
  have hfirst : 0 < c.server.table.length := htable ▸ Nat.succ_pos _
  obtain ⟨cs, hsound⟩ := hreached.sound
  obtain ⟨s', hend, hrefines⟩ := hsound.filled.endConnection hfirst
  have hevent : Server.event oneMore handles (.receive 0 none ⟨0, 0⟩) c.server = .ok s' := by
    simp only [Server.event, hsound.filled.totalConnections, if_pos hfirst, hend, checked_ok]
  have hleft : s'.table = rest := by
    have herase : s'.table = c.server.table.eraseIdx 0 := hrefines.table
    rw [herase, htable, List.eraseIdx_cons_zero]
  have hends : ∀ w ∈ entry.chans, w.Since handles entry.sock ∧ Live w.chan :=
    fun w hw => ⟨hreached.since entry hmem w hw, hreached.live hmem hw⟩
  have hjoins := joins_isOk_iff hends drawn c.log
  have hrun : c.endConnection drawn 0 = (do
      let log ← entry.chans.foldlM (Worker.join drawn) c.log
      pure ⟨s', log⟩) := by
    rw [Wired.endConnection, hend, checked_ok, run_bind, htable]
    rfl
  rw [hrun, ← hjoins]
  constructor
  · constructor
    · rintro ⟨c', hc'⟩
      obtain ⟨log, hlog, -⟩ := run_bind_eq_ok.mp hc'
      exact ⟨log, hlog⟩
    · rintro ⟨log, hlog⟩
      exact ⟨⟨s', log⟩, by rw [hlog]; rfl⟩
  · intro c' hc'
    obtain ⟨log, -, hc'⟩ := run_bind_eq_ok.mp hc'
    cases hc'
    exact ⟨hreached.event hevent, hleft⟩

theorem Server.Reached.endAllConnections {t : Table} (hreached : c.server.Reached handles)
    (htable : c.server.table = t) (drawn : Nat → UInt32) :
    ((∃ c', endAllConnections drawn (t.length + 1) c = .ok c') ↔
        ∀ entry ∈ t, ∀ w ∈ entry.chans, ¬ w.EndsDrained) ∧
      ∀ c', endAllConnections drawn (t.length + 1) c = .ok c' →
        c'.server.Reached handles ∧ c'.server.table = [] := by
  have hcount : c.server.totalConnections.toNat = t.length := by
    obtain ⟨cs, hsound⟩ := hreached.sound
    rw [hsound.filled.totalConnections, htable]
  induction t generalizing c with
  | nil =>
      have hzero : c.server.totalConnections = 0 := UInt64.toNat_inj.mp hcount
      have hrun : Hipft.endAllConnections drawn 1 c = .ok c := by
        rw [Hipft.endAllConnections, if_neg (not_not_intro hzero)]
        rfl
      refine ⟨iff_of_true ⟨c, hrun⟩ (List.forall_mem_nil _), fun c' hc' => ?_⟩
      rw [List.length_nil, Nat.zero_add, hrun, Except.ok.injEq] at hc'
      exact hc' ▸ ⟨hreached, htable⟩
  | cons entry rest ih =>
      have hpos : c.server.totalConnections ≠ 0 := by
        intro hzero
        rw [hzero] at hcount
        exact Nat.succ_ne_zero _ hcount.symm
      obtain ⟨hends, hnext⟩ := hreached.endConnection htable drawn
      rw [Hipft.endAllConnections, if_pos hpos, List.length_cons, List.forall_mem_cons, ← hends]
      cases hend : c.endConnection drawn 0 with
      | error crash =>
          exact ⟨iff_of_false (by rintro ⟨_, ⟨⟩⟩) (by rintro ⟨⟨_, ⟨⟩⟩, -⟩), nofun⟩
      | ok next =>
          obtain ⟨hreached', htable'⟩ := hnext next hend
          have hcount' : next.server.totalConnections.toNat = rest.length := by
            obtain ⟨cs, hsound⟩ := hreached'.sound
            rw [hsound.filled.totalConnections, htable']
          obtain ⟨hrest, hempty⟩ := ih hreached' htable' hcount'
          rw [← hrest]
          exact ⟨(and_iff_right ⟨next, rfl⟩).symm, hempty⟩

end All

end Hipft
