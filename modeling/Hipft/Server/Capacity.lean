import Hipft.Foundation.Transitions
import Hipft.Server.ConnChan

/-! # The arrays are one slot short

Every array of pointers but the first is allocated with the number of pointers
it had before the growth. A server stays inside its arrays as long as it has one
connection at most, and that connection one channel at most.
-/

namespace Hipft

open CMemory Transitions

/-- A call to one of the functions that change the arrays. -/
inductive TableCall
  | newConnection
  | newChannel (connIndex : Nat)
  | endChannel (connIndex chanIndex : Nat)
  | endConnection (index : Nat)
  deriving DecidableEq, Repr

/-- The call, with an allocator that gives what it is asked for. -/
def Server.call : TableCall → Server → CRun Server
  | .newConnection => newConnection fun _ => 0
  | .newChannel connIndex => newChannel (fun _ => 0) connIndex
  | .endChannel connIndex chanIndex => endChannel connIndex chanIndex
  | .endConnection index => endConnection index

/-- The indices of the call are those of a connection and of a channel. -/
def Server.Valid : TableCall → Server → Prop
  | .newConnection, _ => True
  | .newChannel connIndex, s => connIndex < s.totalConnections.toNat
  | .endChannel connIndex chanIndex, s => connIndex < s.totalConnections.toNat ∧
      ∀ conn, slotAt s.conns connIndex = .ok conn → chanIndex < conn.numChans.toNat
  | .endConnection index, s => index < s.totalConnections.toNat

/-- What the call adds is the first of its array. -/
def Server.Alone : TableCall → Server → Prop
  | .newConnection, s => s.totalConnections = 0
  | .newChannel connIndex, s => ∀ conn, slotAt s.conns connIndex = .ok conn → conn.numChans = 0
  | .endChannel _ _, _ => True
  | .endConnection _, _ => True

/-- The arrays have the slots that their counters need. -/
structure Server.Fits (s : Server) : Prop where
  conns : s.totalConnections.toNat ≤ s.conns.length
  chans : ∀ index conn, index < s.totalConnections.toNat → slotAt s.conns index = .ok conn →
    conn.numChans.toNat ≤ conn.chans.length

/-- The server has one connection at most, with one channel at most. -/
def Server.Single (s : Server) : Prop :=
  ∃ cs, s.Has cs ∧ cs.length ≤ 1 ∧ ∀ conn ∈ cs, ∃ ws, conn.Has ws ∧ ws.length ≤ 1

section Calls

variable {s s' : Server}

theorem Server.Single.fits (hsingle : s.Single) : s.Fits := by
  obtain ⟨cs, hhas, -, hchans⟩ := hsingle
  refine ⟨hhas.totalConnections ▸ hhas.conns.length_le, fun index conn hindex hslot => ?_⟩
  rw [hhas.totalConnections] at hindex
  rw [hhas.slotAt hindex, Except.ok.injEq] at hslot
  obtain ⟨ws, hws, -⟩ := hchans conn (hslot ▸ List.getElem_mem hindex)
  exact hws.numChans ▸ hws.chans.length_le

/-- A call whose growth is the first of its array succeeds. -/
theorem Server.Single.call (hsingle : s.Single) {call : TableCall} (hvalid : s.Valid call)
    (halone : s.Alone call) : ∃ s', Server.call call s = .ok s' ∧ s'.Single := by
  obtain ⟨cs, hhas, hone, hchans⟩ := hsingle
  cases call with
  | newConnection =>
      have hcs : cs = [] := by
        apply List.eq_nil_of_length_eq_zero
        rw [← hhas.totalConnections, halone]
        rfl
      subst hcs
      obtain ⟨s', hnew⟩ := (hhas.newConnection_isOk 0).mpr (.inl rfl)
      refine ⟨s', hnew, _, (hhas.newConnection hnew).1, Nat.le_refl 1, ?_⟩
      exact List.forall_mem_singleton.mpr ⟨[], connection_fresh_has, Nat.zero_le 1⟩
  | newChannel connIndex =>
      have hindex : connIndex < cs.length := hhas.totalConnections ▸ hvalid
      obtain ⟨ws, hws, -⟩ := hchans _ (List.getElem_mem hindex)
      have hnil : ws = [] := by
        apply List.eq_nil_of_length_eq_zero
        rw [← hws.numChans, halone _ (hhas.slotAt hindex)]
        rfl
      subst hnil
      obtain ⟨s', hnew⟩ := (hhas.newChannel_isOk hindex hws 0).mpr (.inl rfl)
      obtain ⟨conn, hhas', hconn, -, -⟩ := hhas.newChannel hindex hws hnew
      refine ⟨s', hnew, _, hhas', (List.length_set).trans_le hone, fun other hother => ?_⟩
      rcases List.mem_or_eq_of_mem_set hother with hold | rfl
      · exact hchans other hold
      · exact ⟨_, hconn, Nat.le_refl 1⟩
  | endChannel connIndex chanIndex =>
      have hindex : connIndex < cs.length := hhas.totalConnections ▸ hvalid.1
      obtain ⟨ws, hws, hfew⟩ := hchans _ (List.getElem_mem hindex)
      have hchan : chanIndex < ws.length := hws.numChans ▸ hvalid.2 _ (hhas.slotAt hindex)
      obtain ⟨s', conn, hend, hhas', hconn, -⟩ :=
        hhas.endChannel hindex hws (hfew.trans (Nat.one_le_two_pow)) hchan
      refine ⟨s', hend, _, hhas', (List.length_set).trans_le hone, fun other hother => ?_⟩
      rcases List.mem_or_eq_of_mem_set hother with hold | rfl
      · exact hchans other hold
      · exact ⟨_, hconn, (List.length_eraseIdx_le _ _).trans hfew⟩
  | endConnection index =>
      have hindex : index < cs.length := hhas.totalConnections ▸ hvalid
      obtain ⟨ws, hws, hfew⟩ := hchans _ (List.getElem_mem hindex)
      obtain ⟨s', hend, hhas', -⟩ :=
        hhas.endConnection hindex hws (hfew.trans (Nat.one_le_two_pow))
      exact ⟨s', hend, _, hhas', (List.length_eraseIdx_le _ _).trans hone,
        fun other hother => hchans other (List.mem_of_mem_eraseIdx hother)⟩

/-- Any other growth writes behind its array. -/
theorem Server.Single.alone (hsingle : s.Single) {call : TableCall} (hvalid : s.Valid call)
    (hcall : Server.call call s = .ok s') : s.Alone call := by
  obtain ⟨cs, hhas, -, hchans⟩ := hsingle
  cases call with
  | newConnection =>
      -- Without a spare slot only an empty array can grow.
      rcases (hhas.newConnection_isOk 0).mp ⟨s', hcall⟩ with rfl | ⟨hspare, -⟩
      · exact UInt64.toNat_inj.mp hhas.totalConnections
      · exact absurd hspare (Nat.lt_irrefl 0)
  | newChannel connIndex =>
      intro conn hslot
      have hindex : connIndex < cs.length := hhas.totalConnections ▸ hvalid
      rw [hhas.slotAt hindex, Except.ok.injEq] at hslot
      subst hslot
      obtain ⟨ws, hws, -⟩ := hchans _ (List.getElem_mem hindex)
      rcases (hhas.newChannel_isOk hindex hws 0).mp ⟨s', hcall⟩ with rfl | ⟨hspare, -⟩
      · exact UInt64.toNat_inj.mp hws.numChans
      · exact absurd hspare (Nat.lt_irrefl 0)
  | endChannel => trivial
  | endConnection => trivial

end Calls

theorem server_start_single : Server.start.Single :=
  ⟨[], server_start_has, Nat.zero_le 1, List.forall_mem_nil _⟩

/-- A sequence of calls stays inside the arrays exactly when no call lets an array grow
that has a slot already. -/
theorem calls_fit_iff (calls : List TableCall)
    (hvalid : Meets Server.call Server.Valid calls Server.start) :
    (∀ front, front <+: calls →
        ∃ s, run Server.call front Server.start = .ok s ∧ s.Fits) ↔
      Meets Server.call Server.Alone calls Server.start :=
  meets_iff_forall_prefix (fun _ hsingle => hsingle.fits)
    (fun _ _ hsingle hvalid halone => hsingle.call hvalid halone)
    (fun _ _ _ hsingle hvalid hcall => hsingle.alone hvalid hcall) server_start_single hvalid

theorem calls_fit_iff_single :
    (∀ front, front <+: [.newConnection, .newChannel 0, .endConnection 0] →
        ∃ s, run Server.call front Server.start = .ok s ∧ s.Fits) ↔
      Meets Server.call Server.Alone [.newConnection, .newChannel 0, .endConnection 0]
        Server.start := by
  refine calls_fit_iff _ ⟨trivial, ?_⟩
  rintro _ ⟨⟩
  refine ⟨Nat.zero_lt_one, ?_⟩
  rintro _ ⟨⟩
  exact ⟨Nat.zero_lt_one, fun _ _ => trivial⟩

/-- The second connection of the test program is written behind the array. -/
theorem calls_fit_iff_second :
    Meets Server.call Server.Valid [.newConnection, .newConnection] Server.start ∧
      run Server.call [.newConnection, .newConnection] Server.start = .error .outOfBounds :=
  ⟨⟨trivial, fun _ _ => ⟨trivial, fun _ _ => trivial⟩⟩, rfl⟩

end Hipft
